import Photon.Lib.While
import Photon.Thread.Basic
/-!
# condition_variable

`cvar_do_wait` and the waits with a predicate. What happens to the waiter is a
`History`: the values of the predicate at its evaluations, the clock when the
timeout is tested, and for each inner wait the error number the thread wakes
with and what its failed attempts to lock again leave in `errno`.

The loop of `do_wait_pred` returns what the last inner wait returned, while it
is left because of the predicate or because of the deadline.
-/

namespace Photon

structure Timeout where
  mExpiration : Nat := 2 ^ 64 - 1
  deriving DecidableEq

def Timeout.ofUs (now x : Nat) : Timeout := ⟨if x ≠ 0 then satAdd now x else 0⟩

def Timeout.expired (timeout : Timeout) (now : Nat) : Bool := timeout.mExpiration == 0 || timeout.mExpiration ≤ now

namespace CondVar

/-- One inner wait: the error number the thread wakes with (0 for a timeout, -1
for a notification, else the one of an interrupt), and the values that failed
attempts to lock again left in `errno`. -/
structure Wake where
  errorNumber : Int
  relocks : List Int := []
  deriving DecidableEq

structure Result where
  ret : Int
  errno : Int
  deriving DecidableEq

def setErrorNumber (errorNumber errno : Int) : Result :=
  if errorNumber ≠ 0 then ⟨-1, errorNumber⟩ else ⟨0, errno⟩

def translateErrno (r : Result) : Result :=
  if r.ret = 0 then ⟨-1, ETIMEDOUT⟩ else if r.errno = -1 then ⟨0, r.errno⟩ else ⟨-1, r.errno⟩

/-- `cvar_do_wait`: sleep, lock again whatever it takes, restore `errno`. -/
def cvarDoWait (w : Wake) (errno : Int) : Result :=
  let r := setErrorNumber w.errorNumber errno
  let en := if r.ret < 0 then r.errno else 0
  let errno := w.relocks.foldl (fun _ e => e) r.errno
  translateErrno ⟨r.ret, if r.ret < 0 then en else errno⟩

structure History where
  pred : Nat → Bool
  now : Nat → Nat
  wake : Nat → Wake

/-- The local variables of `do_wait_pred`, `errno`, and the number of waits made. -/
structure Locals where
  waits : Nat := 0
  ret : Int := 0
  err : Int := ETIMEDOUT
  errno : Int
  deriving DecidableEq

def goesOn (h : History) (timeout : Timeout) (l : Locals) : Bool :=
  !h.pred l.waits && !timeout.expired (h.now l.waits)

def waitOnce (h : History) (l : Locals) : Locals :=
  let r := cvarDoWait (h.wake l.waits) l.errno
  { waits := l.waits + 1, ret := r.ret, err := r.errno, errno := r.errno }

def waitPred (h : History) (timeout : Timeout) (errno : Int) (fuel : Nat) : Option (Result × Nat) :=
  (whileFuel (goesOn h timeout) (waitOnce h) fuel { errno := errno }).map fun l => (⟨l.ret, l.err⟩, l.waits)

/-! ## What one wait returns -/

/-- The result of `cvar_do_wait` is the one of the sleep: failed attempts to lock
again leave no trace in it. -/
lemma cvarDoWait_eq (w : Wake) (errno : Int) : cvarDoWait w errno =
    match waitqTranslateErrno (Thread.setErrorNumber { errorNumber := w.errorNumber }).1 with
    | none => ⟨0, -1⟩
    | some e => ⟨-1, e⟩ := by
  by_cases h0 : w.errorNumber = 0
  · simp [cvarDoWait, setErrorNumber, translateErrno, Thread.setErrorNumber, waitqTranslateErrno, h0]
  · by_cases h1 : w.errorNumber = -1
    · simp [cvarDoWait, setErrorNumber, translateErrno, Thread.setErrorNumber, waitqTranslateErrno, h1]
    · simp [cvarDoWait, setErrorNumber, translateErrno, Thread.setErrorNumber, waitqTranslateErrno, h0, h1]

lemma cvarDoWait_ret_eq_zero (w : Wake) (errno : Int) : (cvarDoWait w errno).ret = 0 ↔ w.errorNumber = -1 := by
  rw [cvarDoWait_eq, ← wait_success_iff { errorNumber := w.errorNumber }]
  cases waitqTranslateErrno (Thread.setErrorNumber { errorNumber := w.errorNumber }).1 <;> simp

/-! ## What the loop returns -/

/-- The loop is left at evaluation `k` of the predicate, and not before. -/
def LeavesAt (h : History) (timeout : Timeout) (k : Nat) : Prop :=
  (h.pred k = true ∨ timeout.expired (h.now k) = true) ∧ ∀ i < k, h.pred i = false ∧ timeout.expired (h.now i) = false

/-- The loop is left at once with the predicate true, or later, and then the last
wait was ended by a notification if and only if the predicate is true. -/
def LastWakeAgrees (h : History) : Nat → Prop
  | 0 => h.pred 0 = true
  | k + 1 => (h.wake k).errorNumber = -1 ↔ h.pred (k + 1) = true

lemma waits_iterate (h : History) (k : Nat) (l : Locals) : ((waitOnce h)^[k] l).waits = l.waits + k := by
  induction k generalizing l with
  | zero => rfl
  | succ k ih =>
    rw [Function.iterate_succ_apply, ih]
    simp only [waitOnce]
    omega

lemma waitPred_eq {h : History} {timeout : Timeout} {k : Nat} (hk : LeavesAt h timeout k) (errno : Int) {fuel : Nat}
    (hf : k < fuel) :
    waitPred h timeout errno fuel =
      some (⟨((waitOnce h)^[k] { errno := errno }).ret, ((waitOnce h)^[k] { errno := errno }).err⟩, k) := by
  have hg : ∀ i, goesOn h timeout ((waitOnce h)^[i] { errno := errno }) =
      (!h.pred i && !timeout.expired (h.now i)) := by
    intro i
    simp [goesOn, waits_iterate]
  have hbe : ∀ i < k, goesOn h timeout ((waitOnce h)^[i] { errno := errno }) = true := by
    intro i hi
    simp [hg, hk.2 i hi]
  have hla : goesOn h timeout ((waitOnce h)^[k] { errno := errno }) = false := by
    rw [hg]
    rcases hk.1 with hp | he
    · simp [hp]
    · simp [he]
  have hlo := whileFuel_iterate hbe hla hf
  rw [waitPred, hlo, Option.map_some, waits_iterate, zero_add]

/-- `wait(lock, pred, timeout)` that evaluates the predicate for the last time at
index `k` returns 0 exactly when it is true there, if and only if
`LastWakeAgrees`. -/
theorem wait_pred_returns_zero_iff {h : History} {timeout : Timeout} {k : Nat} (hk : LeavesAt h timeout k) (errno : Int)
    {fuel : Nat} (hf : k < fuel) :
    ∃ r, waitPred h timeout errno fuel = some (r, k) ∧ ((r.ret = 0 ↔ h.pred k = true) ↔ LastWakeAgrees h k) := by
  refine ⟨_, waitPred_eq hk errno hf, ?_⟩
  cases k with
  | zero => simp [LastWakeAgrees]
  | succ =>
    rw [Function.iterate_succ_apply']
    simp only [waitOnce, cvarDoWait_ret_eq_zero, waits_iterate, zero_add, LastWakeAgrees]

def notifiedTwice : History where
  pred i := i == 2
  now i := i
  wake _ := ⟨-1, [EINTR]⟩

theorem wait_pred_returns_zero_iff_notifiedTwice :
    LeavesAt notifiedTwice {} 2 ∧ LastWakeAgrees notifiedTwice 2 ∧
      ∃ r, waitPred notifiedTwice {} 0 3 = some (r, 2) ∧ (r.ret = 0 ↔ notifiedTwice.pred 2 = true) := by
  have hk : LeavesAt notifiedTwice {} 2 := ⟨.inl rfl, by decide⟩
  have ha : LastWakeAgrees notifiedTwice 2 := by simp [LastWakeAgrees, notifiedTwice]
  obtain ⟨r, hr, hi⟩ := wait_pred_returns_zero_iff hk 0 (Nat.lt_succ_self 2)
  exact ⟨hk, ha, r, hr, hi.2 ha⟩

/-- The predicate is never true. -/
def neverTrue : History where
  pred _ := false
  now _ := 1
  wake _ := ⟨0, []⟩

/-- With a timeout of 0 the loop is not entered: the call returns 0, with
`ETIMEDOUT` in `errno`, while the predicate is false. -/
theorem expired_timeout_returns_zero :
    waitPred neverTrue (Timeout.ofUs 1 0) 0 1 = some (⟨0, ETIMEDOUT⟩, 0) ∧ neverTrue.pred 0 = false := by
  decide

end CondVar

end Photon
