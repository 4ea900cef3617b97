import Photon.Lib.Machine
import Photon.Thread.Waitq
/-!
# rwlock

`rwlock::lock` and `unlock` of any number of threads. `mtx` is a lock that one
thread holds at a time and that waits as long as it takes (`scoped_lock` and
`cvar_do_wait` try again when `mutex::lock` fails); a sleeper on `cvar` leaves
its release to the function that runs after the switch.

`unlock` reads the head of the queue without locking it, so a waiter may leave
by timeout or interrupt between any two of its steps. Mutual exclusion does not
depend on that; waking somebody does.
-/

namespace Photon.Rwlock

open List Function BitVec Guard Waitq

inductive Mode where
  | rlock
  | wlock
  deriving DecidableEq

def RLOCK : BitVec 64 := 0x1000
def WLOCK : BitVec 64 := 0x2000

def Mode.bit : Mode → BitVec 64
  | .rlock => RLOCK
  | .wlock => WLOCK

/-- The mark of a thread in `lock`: its other bits are kept. -/
def setMark (mark : BitVec 64) (m : Mode) : BitVec 64 := mark &&& ~~~(RLOCK ||| WLOCK) ||| m.bit

/-- The test of a mark finds the mode it was set to. -/
lemma setMark_and (mark : BitVec 64) (m m' : Mode) : setMark mark m &&& m'.bit ≠ 0 ↔ m = m' := by
  have hz : ~~~(RLOCK ||| WLOCK) &&& m'.bit = 0 := by cases m' <;> decide
  rw [setMark, BitVec.and_comm, and_or_distrib_left, BitVec.and_comm m'.bit, BitVec.and_assoc, hz]
  cases m <;> cases m' <;> simp [Mode.bit, RLOCK, WLOCK]

/-- `op & state`: the sign bit for a reader, every bit for a writer. -/
def blocked (state : Int) : Mode → Bool
  | .rlock => state < 0
  | .wlock => state ≠ 0

def delta : Mode → Int
  | .rlock => 1
  | .wlock => -1

def op : Mode → BitVec 64
  | .rlock => 1 <<< 63
  | .wlock => -1

variable {state : Int} {holders : List (Tid × Mode)} {m : Mode}

/-- On 64-bit values of `state`, `blocked` is the source's bit test. -/
lemma blocked_iff_and (m : Mode) (hlo : -2 ^ 63 ≤ state) (hh : state < 2 ^ 63) :
    blocked state m = true ↔ op m &&& BitVec.ofInt 64 state ≠ 0 := by
  have hint : (BitVec.ofInt 64 state).toInt = state := by
    rw [toInt_ofInt, Int.bmod_eq_of_le (by simpa using hlo) (by simpa using hh)]
  cases m with
  | rlock =>
    have ho : op .rlock = twoPow 64 63 := by decide
    have hm : (BitVec.ofInt 64 state).getLsbD 63 = decide (state < 0) := by
      rw [← hint, ← msb_eq_toInt, msb_eq_getLsbD_last, hint]
    rw [ho, twoPow_and, hm]
    by_cases hs : state < 0 <;> simp [blocked, hs]
  | wlock =>
    have ho : op .wlock = allOnes 64 := by decide
    rw [ho, allOnes_and, Ne, ← toInt_inj, hint]
    simp [blocked]

lemma op_rotateLeft (m : Mode) : (op m).rotateLeft 1 = BitVec.ofInt 64 (delta m) := by
  cases m <;> decide

/-- Where a thread is in the functions of the lock; `bkup` is the saved mark. -/
inductive Pc where
  | idle
  /-- Before `mtx` is taken. -/
  | lockStart (m : Mode)
  /-- Before `cvar.q.th || (op & state)`. -/
  | lockTest (m : Mode) (bkup : BitVec 64)
  /-- Before the thread sleeps on `cvar`. -/
  | lockWait (m : Mode) (bkup : BitVec 64)
  /-- In `thread_usleep_defer`. -/
  | waiting (m : Mode) (bkup : BitVec 64)
  /-- In `cvar_do_wait`, before `mtx` is taken again; `wait` will return `r`. -/
  | relock (m : Mode) (bkup : BitVec 64) (r : Ret)
  /-- Before `while (op & state)`. -/
  | lockRetest (m : Mode) (bkup : BitVec 64)
  /-- Before `state += op`; whether the thread was notified on the way. -/
  | lockTake (m : Mode) (bkup : BitVec 64) (notified : Bool)
  /-- Before the mark is restored and `mtx` released. -/
  | lockExit (bkup : BitVec 64) (r : Ret)
  /-- Before `mtx` is taken. -/
  | unlockStart
  /-- Before `state` is changed. -/
  | unlockState
  /-- Before `state == 0 && cvar.q.th`. -/
  | unlockCheck
  /-- Before the test of the `if`. -/
  | unlockIf
  /-- Before the `notify_one` for a writer. -/
  | unlockWriter
  /-- Before a test of the `while`; whether the loop has notified yet. -/
  | unlockWhile (notified : Bool)
  /-- Before a `notify_one` of the loop. -/
  | unlockReader
  /-- Before `mtx` is released. -/
  | unlockExit
  deriving DecidableEq

/-- The lock, the threads, and who holds it: a thread is a holder from the
update of `state` in its `lock` to the one in its `unlock`. -/
structure St where
  state : Int := 0
  mtx : Guard := .free
  cvar : Waitq := {}
  mark : Tid → BitVec 64 := fun _ => 0
  pc : Tid → Pc := fun _ => .idle
  holders : List (Tid × Mode) := []

open St

inductive Ev where
  | env (e : Waitq.Env)
  /-- What a thread did elsewhere left an error number and a mark in it. -/
  | elsewhere (t : Tid) (errorNumber : Int) (mark : BitVec 64)
  /-- A failed attempt to take `mtx` left an error number in the thread. -/
  | locking (t : Tid) (errorNumber : Int)
  | lock (t : Tid) (m : Mode)
  | unlock (t : Tid)
  /-- The next step of the call thread `t` is in. -/
  | step (t : Tid) (same : Bool)
  | deferred
  deriving DecidableEq

@[simps -fullyApplied state mtx cvar mark holders]
def St.goto (s : St) (t : Tid) (p : Pc) : St := { s with pc := update s.pc t p }

@[simp] lemma St.goto_pc (s : St) (t u : Tid) (p : Pc) :
    (s.goto t p).pc u = if u = t then p else s.pc u := update_apply ..

def St.headHas (s : St) (bit : BitVec 64) : Bool :=
  match s.cvar.q with
  | [] => false
  | h :: _ => s.mark h &&& bit ≠ 0

def St.advance (s : St) (t : Tid) (same : Bool) : Option St :=
  match s.pc t with
  | .lockStart m =>
    if s.mtx = .free then
      some { s.goto t (.lockTest m (s.mark t)) with
        mtx := .held t, mark := update s.mark t (setMark (s.mark t) m) }
    else none
  | .lockTest m bkup =>
    if s.cvar.q ≠ [] ∨ blocked s.state m then some (s.goto t (.lockWait m bkup))
    else some (s.goto t (.lockTake m bkup false))
  | .lockWait m bkup =>
    some { s.goto t (.waiting m bkup) with cvar := s.cvar.prepareUsleep t, mtx := .deferred }
  | .waiting m bkup =>
    let (ret, th) := (s.cvar.th t).setErrorNumber
    some { s.goto t (.relock m bkup (waitqTranslateErrno ret)) with cvar := s.cvar.setTh t th }
  | .relock m bkup r =>
    if s.mtx = .free then
      let p := match r with
        | none => Pc.lockRetest m bkup
        | some e => Pc.lockExit bkup (some e)
      some { s.goto t p with mtx := .held t }
    else none
  | .lockRetest m bkup =>
    if blocked s.state m then some (s.goto t (.lockWait m bkup)) else some (s.goto t (.lockTake m bkup true))
  | .lockTake m bkup _ =>
    some { s.goto t (.lockExit bkup none) with state := s.state + delta m, holders := (t, m) :: s.holders }
  | .lockExit bkup _ =>
    some { s.goto t .idle with mark := update s.mark t bkup, mtx := .free }
  | .unlockStart => if s.mtx = .free then some { s.goto t .unlockState with mtx := .held t } else none
  | .unlockState =>
    some { s.goto t .unlockCheck with
      state := if s.state > 0 then s.state - 1 else s.state + 1
      holders := s.holders.eraseP (fun x => x.1 = t) }
  | .unlockCheck =>
    if s.state = 0 ∧ s.cvar.q ≠ [] then some (s.goto t .unlockIf) else some (s.goto t .unlockExit)
  | .unlockIf =>
    if s.headHas WLOCK then some (s.goto t .unlockWriter) else some (s.goto t (.unlockWhile false))
  | .unlockWriter => some { s.goto t .unlockExit with cvar := s.cvar.resumeOne same }
  | .unlockWhile _ =>
    if s.headHas RLOCK then some (s.goto t .unlockReader) else some (s.goto t .unlockExit)
  | .unlockReader => some { s.goto t (.unlockWhile true) with cvar := s.cvar.resumeOne same }
  | .unlockExit => some { s.goto t .idle with mtx := .free }
  | .idle => none

def Pc.locking : Pc → Bool
  | .lockStart _ | .relock _ _ _ | .unlockStart => true
  | _ => false

def step (s : St) : Ev → Option St
  | .env e => (s.cvar.env e).map fun wq => { s with cvar := wq }
  | .elsewhere t e mark =>
    if s.pc t = .idle ∧ e ≠ -1 then
      some { s with
        cvar := s.cvar.setTh t { s.cvar.th t with errorNumber := e }, mark := update s.mark t mark }
    else none
  | .locking t e =>
    if (s.pc t).locking ∧ e ≠ -1 then
      some { s with cvar := s.cvar.setTh t { s.cvar.th t with errorNumber := e } }
    else none
  | .lock t m => if s.pc t = .idle then some (s.goto t (.lockStart m)) else none
  | .unlock t =>
    if s.pc t = .idle ∧ s.holders.any (fun x => x.1 = t) then some (s.goto t .unlockStart) else none
  | .step t same => if (s.cvar.th t).state = .running then s.advance t same else none
  | .deferred => if s.mtx = .deferred then some { s with mtx := .free } else none

def machine : Machine St Ev := ⟨{}, step⟩

/-! ## Mutual exclusion -/

def Pc.locked : Pc → Bool
  | .lockTest _ _ | .lockWait _ _ | .lockRetest _ _ | .lockTake _ _ _ | .lockExit _ _ | .unlockState | .unlockCheck
  | .unlockIf | .unlockWriter | .unlockWhile _ | .unlockReader | .unlockExit => true
  | _ => false

def Pc.mode : Pc → Option Mode
  | .lockTest m _ | .lockWait m _ | .waiting m _ | .relock m _ _ | .lockRetest m _ | .lockTake m _ _ => some m
  | _ => none

def Pc.isWaiting : Pc → Bool
  | .waiting _ _ => true
  | _ => false

lemma Pc.not_waiting_of_locking {p : Pc} (h : p.locking = true) : p.isWaiting = false := by
  cases p <;> simp_all [Pc.locking, Pc.isWaiting]

def Pc.unlocking : Pc → Bool
  | .unlockStart | .unlockState => true
  | _ => false

/-- `state` counts the holders: -1 for one writer, else the number of readers. -/
def Counts (state : Int) (holders : List (Tid × Mode)) : Prop :=
  (∃ t, holders = [(t, .wlock)] ∧ state = -1) ∨ ((∀ x ∈ holders, x.2 = .rlock) ∧ state = holders.length)

structure Inv (s : St) : Prop where
  cvar : s.cvar.Ok
  queued : ∀ t, (s.cvar.th t).waitq = true → (s.pc t).isWaiting = true
  err : ∀ t, (s.cvar.th t).errorNumber = -1 → (s.pc t).isWaiting = true ∧ (s.cvar.th t).waitq = false
  locked : ∀ t, (s.pc t).locked = true → s.mtx = .held t
  mark : ∀ t m, (s.pc t).mode = some m → ∃ b, s.mark t = setMark b m
  take : ∀ t m b n, s.pc t = .lockTake m b n → blocked s.state m = false
  unlocking : ∀ t, (s.pc t).unlocking = true → ∃ m, (t, m) ∈ s.holders
  counts : Counts s.state s.holders

lemma inv_init : Inv {} := by
  constructor <;> simp [ok_init, Pc.locked, Pc.mode, Pc.unlocking, Counts]

lemma counts_take (h : Counts state holders) (t : Tid) (m : Mode)
    (hb : blocked state m = false) : Counts (state + delta m) ((t, m) :: holders) := by
  rcases h with ⟨u, rfl, rfl⟩ | ⟨hr, rfl⟩
  · cases m <;> simp [blocked] at hb
  cases m with
  | rlock =>
    refine .inr ⟨by simpa using hr, ?_⟩
    simp [delta]
  | wlock =>
    have hn : holders = [] := by simpa [blocked] using hb
    subst hn
    exact .inl ⟨t, rfl, rfl⟩

lemma counts_release (h : Counts state holders) {t : Tid} (ht : (t, m) ∈ holders) :
    Counts (if state > 0 then state - 1 else state + 1) (holders.eraseP (fun x => x.1 = t)) := by
  rcases h with ⟨u, rfl, rfl⟩ | ⟨hr, rfl⟩
  · obtain ⟨rfl, rfl⟩ : t = u ∧ m = .wlock := by simpa using ht
    exact .inr ⟨by simp, by simp⟩
  have hl : 0 < holders.length := length_pos_of_mem ht
  have he := length_eraseP_of_mem (p := fun x => decide (x.1 = t)) ht (by simp)
  refine .inr ⟨fun x hx => hr x (mem_of_mem_eraseP hx), ?_⟩
  rw [he, if_pos (by omega)]
  omega

structure Fits (s : St) (t : Tid) (p : Pc) : Prop where
  queued : (s.cvar.th t).waitq = true → p.isWaiting = true
  err : (s.cvar.th t).errorNumber = -1 → p.isWaiting = true ∧ (s.cvar.th t).waitq = false
  locked : p.locked = true → s.mtx = .held t
  mark : ∀ m, p.mode = some m → ∃ b, s.mark t = setMark b m
  take : ∀ m b n, p = .lockTake m b n → blocked s.state m = false
  unlocking : p.unlocking = true → ∃ m, (t, m) ∈ s.holders

open Fits

section Steps

variable {s s' : St} {t u : Tid} {p q : Pc}

lemma Inv.fits (hi : Inv s) (t : Tid) : Fits s t (s.pc t) :=
  ⟨hi.queued t, hi.err t, hi.locked t, hi.mark t, hi.take t, hi.unlocking t⟩

lemma Inv.of_fits (ho : s.cvar.Ok) (hc : Counts s.state s.holders) (h : ∀ t, Fits s t (s.pc t)) : Inv s :=
  ⟨ho, fun t => (h t).queued, fun t => (h t).err, fun t => (h t).locked, fun t => (h t).mark, fun t => (h t).take,
    fun t => (h t).unlocking, hc⟩

/-- The thread is not in the queue, and was not notified in its sleep. -/
def St.Quiet (s : St) (t : Tid) : Prop := (s.cvar.th t).waitq = false ∧ (s.cvar.th t).errorNumber ≠ -1

lemma Fits.quiet (h : Fits s t p) (hw : p.isWaiting = false) : s.Quiet t := by
  refine ⟨?_, fun he => ?_⟩
  · by_contra hq
    cases hw.symm.trans (h.queued (by simpa using hq))
  · cases hw.symm.trans (h.err he).1

lemma Fits.of_quiet (hq : s.Quiet t) (hl : p.locked = true → s.mtx = .held t)
    (hm : ∀ m, p.mode = some m → ∃ b, s.mark t = setMark b m)
    (ht : ∀ m b n, p = .lockTake m b n → blocked s.state m = false)
    (hu : p.unlocking = true → ∃ m, (t, m) ∈ s.holders) : Fits s t p where
  queued h := by
    rw [hq.1] at h
    cases h
  err h := absurd h hq.2
  locked := hl
  mark := hm
  take := ht
  unlocking := hu

lemma Pc.locked_of_take {b : BitVec 64} {n : Bool} (hp : p = .lockTake m b n) : p.locked = true := by
  rw [hp]
  rfl

lemma Fits.frame (h : Fits s u p) (ht : s'.cvar.th u = s.cvar.th u) (hm : s'.mark u = s.mark u)
    (hl : p.locked = true → s'.mtx = .held u ∧ s'.state = s.state)
    (hh : ∀ m, (u, m) ∈ s.holders → (u, m) ∈ s'.holders) : Fits s' u p where
  queued := ht ▸ h.queued
  err := ht ▸ h.err
  locked hp := (hl hp).1
  mark := hm ▸ h.mark
  take m b n hp := by
    rw [(hl (Pc.locked_of_take hp)).2]
    exact h.take m b n hp
  unlocking hp := by
    obtain ⟨m, hm⟩ := h.unlocking hp
    exact ⟨m, hh m hm⟩

lemma Inv.step_self (hi : Inv s) (ho : s'.cvar.Ok) (hc : Counts s'.state s'.holders) (hpc : s'.pc = update s.pc t p)
    (ht : ∀ u, u ≠ t → s'.cvar.th u = s.cvar.th u ∧ s'.mark u = s.mark u ∧ ∀ m, (u, m) ∈ s.holders → (u, m) ∈ s'.holders)
    (hl : ∀ u, u ≠ t → (s.pc u).locked = true → s'.mtx = .held u ∧ s'.state = s.state) (hf : Fits s' t p) : Inv s' := by
  refine Inv.of_fits ho hc fun u => ?_
  rcases eq_or_ne u t with rfl | hu
  · rw [hpc, update_self]
    exact hf
  · rw [hpc, update_of_ne hu]
    exact (hi.fits u).frame (ht u hu).1 (ht u hu).2.1 (hl u hu) (ht u hu).2.2

lemma Inv.step_th (hi : Inv s) {wq : Waitq} (ho : wq.Ok) (ht : ∀ u, u ≠ t → wq.th u = s.cvar.th u)
    (hq : (wq.th t).waitq = true → (s.pc t).isWaiting = true)
    (he : (wq.th t).errorNumber = -1 → (s.pc t).isWaiting = true ∧ (wq.th t).waitq = false) :
    Inv { s with cvar := wq } :=
  hi.step_self ho hi.counts (update_eq_self ..).symm (fun u hu => ⟨ht u hu, rfl, fun _ => id⟩)
    (fun u _ hl => ⟨hi.locked u hl, rfl⟩) ⟨hq, he, hi.locked t, hi.mark t, hi.take t, hi.unlocking t⟩

end Steps

section
variable {b : BitVec 64} {t : Tid} {s s' : St} (hi : Inv s)
include hi

lemma inv_moved {wq : Waitq} (h : Waitq.Moved s.cvar wq) : Inv { s with cvar := wq } := by
  have ho := hi.cvar.moved h
  cases h with
  | same => exact hi
  | woken t st e hw =>
    refine hi.step_th ho (fun u hu => update_of_ne hu ..) (fun _ => hi.queued t hw) (fun _ => ?_)
    exact ⟨hi.queued t hw, by simp⟩
  | kept t st e hw hs hst he =>
    refine hi.step_th ho (fun u hu => update_of_ne hu ..) ?_ ?_
    · simpa using hi.queued t
    intro her
    simp only [setTh_th] at her ⊢
    rcases he with rfl | ⟨-, he⟩
    · exact hi.err t her
    · exact absurd her he

lemma inv_goto {p q : Pc} {g : Guard} (hq : s.pc t = q) (hw : q.isWaiting = false)
    (hm : p.mode = none ∨ p.mode = q.mode) (hu : p.unlocking = true → q.unlocking = true)
    (ht : ∀ m b n, p = .lockTake m b n → blocked s.state m = false) (hp : p.locked = true → g = .held t)
    (hg : ∀ u, u ≠ t → (s.pc u).locked = true → g = .held u) : Inv { s.goto t p with mtx := g } := by
  subst hq
  refine hi.step_self hi.cvar hi.counts rfl (fun _ _ => ⟨rfl, rfl, fun _ => id⟩)
    (fun u hn hl => ⟨hg u hn hl, rfl⟩) (of_quiet ?_ hp ?_ ht ?_)
  · exact (hi.fits t).quiet hw
  · intro m hpm
    refine hi.mark t m ?_
    rcases hm with hm | hm
    · cases hm.symm.trans hpm
    · exact hm.symm.trans hpm
  · exact fun h => hi.unlocking t (hu h)

lemma inv_resumeOne (same : Bool) : Inv { s with cvar := s.cvar.resumeOne same } := by
  unfold resumeOne
  split
  · exact hi
  rename_i h tl hq
  have hh : (s.cvar.th h).waitq = true := (hi.cvar.mem_iff h).1 (by simp [hq])
  have ho := hi.cvar.prelocked hh (-1) same
  rw [prelocked_eq hh] at ho ⊢
  refine hi.step_th ho (fun u hu => update_of_ne hu ..) (fun _ => hi.queued h hh) (fun _ => ?_)
  exact ⟨hi.queued h hh, by simp⟩

lemma inv_lockStart (hp : s.pc t = .lockStart m) (hf : s.mtx = .free) :
    Inv { s.goto t (.lockTest m (s.mark t)) with mtx := .held t, mark := update s.mark t (setMark (s.mark t) m) } := by
  have hq := (hi.fits t).quiet (hp ▸ rfl)
  refine hi.step_self hi.cvar hi.counts rfl (fun _ hu => ⟨rfl, update_of_ne hu .., fun _ => id⟩)
    (nobody hi.locked hf) (of_quiet hq (fun _ => rfl) ?_ nofun nofun)
  rintro n ⟨⟩
  exact ⟨s.mark t, update_self ..⟩

lemma inv_lockWait (hp : s.pc t = .lockWait m b) (hn : (s.cvar.th t).waitq = false) :
    Inv { s.goto t (.waiting m b) with cvar := s.cvar.prepareUsleep t, mtx := .deferred } := by
  refine hi.step_self (hi.cvar.prepareUsleep hn) hi.counts rfl
    (fun _ hu => ⟨update_of_ne hu .., rfl, fun _ => id⟩) (alone hi.locked hp rfl)
    ⟨fun _ => rfl, fun he => ?_, by simp [Pc.locked], ?_, by simp, by simp [Pc.unlocking]⟩
  · exact absurd (by simpa using he) ((hi.fits t).quiet (hp ▸ rfl)).2
  · rintro n ⟨⟩
    exact hi.mark t m (hp ▸ rfl)

lemma inv_wake {r : Ret} (hp : s.pc t = .waiting m b)
    (hr : (s.cvar.th t).state = .running) (hn : (s.cvar.th t).waitq = false) :
    Inv { s.goto t (.relock m b r) with cvar := s.cvar.setTh t (s.cvar.th t).setErrorNumber.2 } := by
  have ho : (s.cvar.setTh t (s.cvar.th t).setErrorNumber.2).Ok := hi.cvar.setTh t _ (by simp) (by simp [hn, hr])
  refine hi.step_self ho hi.counts rfl (fun _ hu => ⟨update_of_ne hu .., rfl, fun _ => id⟩)
    (fun u _ hl => ⟨hi.locked u hl, rfl⟩) (of_quiet ?_ nofun ?_ nofun nofun)
  · simp [St.Quiet, hn]
  · rintro n ⟨⟩
    exact hi.mark t m (hp ▸ rfl)

lemma inv_lockTake {n : Bool} (hp : s.pc t = .lockTake m b n) :
    Inv { s.goto t (.lockExit b none) with state := s.state + delta m, holders := (t, m) :: s.holders } := by
  have hcn := counts_take hi.counts t m (hi.take t m b n hp)
  have hq := (hi.fits t).quiet (hp ▸ rfl)
  exact hi.step_self hi.cvar hcn rfl (fun _ _ => ⟨rfl, rfl, fun _ => mem_cons_of_mem _⟩)
    (alone hi.locked hp rfl) (of_quiet hq (fun _ => mine hi.locked hp rfl) nofun nofun nofun)

lemma inv_unlockState (hp : s.pc t = .unlockState) :
    Inv { s.goto t .unlockCheck with
      state := if s.state > 0 then s.state - 1 else s.state + 1
      holders := s.holders.eraseP (fun x => x.1 = t) } := by
  obtain ⟨m, hm⟩ := hi.unlocking t (hp ▸ rfl)
  have hcn := counts_release hi.counts hm
  have hq := (hi.fits t).quiet (hp ▸ rfl)
  refine hi.step_self hi.cvar hcn rfl (fun u hu => ⟨rfl, rfl, fun n h => ?_⟩) (alone hi.locked hp rfl)
    (of_quiet hq (fun _ => mine hi.locked hp rfl) nofun nofun nofun)
  exact (mem_eraseP_of_neg (by simpa using hu)).2 h

lemma inv_lockExit {r : Ret} (hp : s.pc t = .lockExit b r) :
    Inv { s.goto t .idle with mark := update s.mark t b, mtx := .free } := by
  have hq := (hi.fits t).quiet (hp ▸ rfl)
  exact hi.step_self hi.cvar hi.counts rfl (fun _ hu => ⟨rfl, update_of_ne hu .., fun _ => id⟩)
    (alone hi.locked hp rfl) (of_quiet hq nofun nofun nofun nofun)

lemma inv_advance {same : Bool} (hr : (s.cvar.th t).state = .running) (h : s.advance t same = some s') : Inv s' := by
  have hn : (s.cvar.th t).waitq = false := by simpa [hr] using mt (hi.cvar.sleeping_iff t).2
  have hk : ∀ u, u ≠ t → (s.pc u).locked = true → s.mtx = .held u := fun u _ => hi.locked u
  unfold advance at h
  cases hp : s.pc t with simp only [hp] at h
  | idle => cases h
  | lockStart =>
    split at h <;> cases h
    rename_i hf
    exact inv_lockStart hi hp hf
  | lockTest =>
    have hl := mine hi.locked hp rfl
    split at h <;> cases h
    · exact inv_goto hi hp rfl (.inr rfl) nofun nofun (fun _ => hl) hk
    rename_i hb
    refine inv_goto hi hp rfl (.inr rfl) nofun ?_ (fun _ => hl) hk
    rintro m' b' n' ⟨⟩
    simpa using mt Or.inr hb
  | lockWait =>
    cases h
    exact inv_lockWait hi hp hn
  | waiting =>
    cases h
    exact inv_wake hi hp hr hn
  | relock m b r =>
    split at h <;> cases h
    rename_i hf
    cases r with
    | none =>
      exact inv_goto hi hp rfl (.inr rfl) nofun nofun (fun _ => rfl) (nobody hi.locked hf)
    | some =>
      exact inv_goto hi hp rfl (.inl rfl) nofun nofun (fun _ => rfl) (nobody hi.locked hf)
  | lockRetest =>
    have hl := mine hi.locked hp rfl
    split at h <;> cases h
    · exact inv_goto hi hp rfl (.inr rfl) nofun nofun (fun _ => hl) hk
    rename_i hb
    refine inv_goto hi hp rfl (.inr rfl) nofun ?_ (fun _ => hl) hk
    rintro m' b' n' ⟨⟩
    simpa using hb
  | lockTake =>
    cases h
    exact inv_lockTake hi hp
  | lockExit =>
    cases h
    exact inv_lockExit hi hp
  | unlockStart =>
    split at h <;> cases h
    rename_i hf
    exact inv_goto hi hp rfl (.inl rfl) (fun _ => rfl) nofun (fun _ => rfl) (nobody hi.locked hf)
  | unlockState =>
    cases h
    exact inv_unlockState hi hp
  | unlockCheck | unlockIf | unlockWhile n =>
    have hl := mine hi.locked hp rfl
    split at h <;> cases h
    all_goals exact inv_goto hi hp rfl (.inl rfl) nofun nofun (fun _ => hl) hk
  | unlockWriter | unlockReader =>
    have hl := mine hi.locked hp rfl
    cases h
    refine inv_resumeOne ?_ same
    exact inv_goto hi hp rfl (.inl rfl) nofun nofun (fun _ => hl) hk
  | unlockExit =>
    cases h
    exact inv_goto hi hp rfl (.inl rfl) nofun nofun nofun (alone hi.locked hp rfl)

lemma inv_step {e : Ev} (h : step s e = some s') : Inv s' := by
  -- a thread outside the queue may get any error number but -1
  have hse : ∀ t e, (s.pc t).isWaiting = false → e ≠ -1 →
      Inv { s with cvar := s.cvar.setTh t { s.cvar.th t with errorNumber := e } } := by
    intro t e hw he
    have ho : (s.cvar.setTh t { s.cvar.th t with errorNumber := e }).Ok :=
      hi.cvar.setTh t _ rfl (hi.cvar.sleeping_iff t)
    have hq := (hi.fits t).quiet hw
    refine hi.step_th ho (fun u hu => update_of_ne hu ..) (fun h => ?_) (fun h => ?_)
    · cases hq.1.symm.trans (by simpa using h)
    · exact absurd (by simpa using h) he
  have hk : ∀ t u, u ≠ t → (s.pc u).locked = true → s.mtx = .held u := fun _ u _ => hi.locked u
  cases e with simp only [step] at h
  | env =>
    obtain ⟨wq, hw, rfl⟩ := Option.map_eq_some_iff.1 h
    exact inv_moved hi (env_moved hi.cvar hw)
  | elsewhere t e mark =>
    split at h <;> cases h
    rename_i hp
    refine { hse t e (hp.1 ▸ rfl) hp.2 with mark := fun u m hm => ?_ }
    have hu : u ≠ t := by
      rintro rfl
      simp [hp.1, Pc.mode] at hm
    simpa [hu] using hi.mark u m hm
  | locking t e =>
    split at h <;> cases h
    rename_i hp
    exact hse t e (Pc.not_waiting_of_locking hp.1) hp.2
  | lock t =>
    split at h <;> cases h
    rename_i hp
    exact inv_goto hi hp rfl (.inl rfl) nofun nofun nofun (hk t)
  | unlock t =>
    split at h <;> cases h
    rename_i hp
    obtain ⟨x, hx, hxt⟩ := any_eq_true.1 hp.2
    obtain rfl : x.1 = t := by simpa using hxt
    have hq := (hi.fits x.1).quiet (hp.1 ▸ rfl)
    exact hi.step_self hi.cvar hi.counts rfl (fun _ _ => ⟨rfl, rfl, fun _ => id⟩)
      (fun u _ hl => ⟨hi.locked u hl, rfl⟩) (of_quiet hq nofun nofun nofun (fun _ => ⟨x.2, hx⟩))
  | step =>
    split at h
    next hr => exact inv_advance hi hr h
    · cases h
  | deferred =>
    split at h <;> cases h
    rename_i hd
    exact { hi with locked := fun t ht => absurd ((hi.locked t ht).symm.trans hd) nofun }

end

variable {es : List Ev} {s s' : St} {t : Tid} {p q : Pc} {b : BitVec 64} {wq : Waitq}

lemma inv_run (h : machine.run es = some s) : Inv s := Machine.run_inv inv_init (inv_step ·) h

/-! ## No forgotten waiter -/

def Pc.notified : Pc → Bool
  | .relock _ _ none | .lockRetest _ _ | .lockTake _ _ true => true
  | _ => false

/-- The thread is in an `unlock` that has changed `state` and notified nobody. -/
def Pc.notifying : Pc → Bool
  | .unlockCheck | .unlockIf | .unlockWriter | .unlockWhile false | .unlockReader => true
  | _ => false

def Pc.goesToWait : Pc → Bool
  | .lockWait _ _ => true
  | _ => false

def St.pending (s : St) (t : Tid) : Bool :=
  (s.pc t).notified || ((s.pc t).isWaiting && (s.cvar.th t).errorNumber == -1)

def St.Crowded (s : St) : Prop := s.cvar.q ≠ [] ∨ ∃ t, (s.pc t).goesToWait = true

/-- A free lock with a queue has a notified waiter, or an `unlock` at work. -/
def St.Awake (s : St) : Prop := s.state = 0 → s.Crowded → ∃ t, s.pending t = true ∨ (s.pc t).notifying = true

lemma Inv.not_crowded (hi : Inv s) (ht : (s.pc t).locked = true)
    (hp : (s.pc t).goesToWait = false) (hq : s.cvar.q = []) : ¬ s.Crowded := by
  rintro (hn | ⟨u, hu⟩)
  · exact hn hq
  have hut : u ≠ t := by
    rintro rfl
    rw [hp] at hu
    cases hu
  have hl := held_unique hi.locked rfl ht hut
  cases hpu : s.pc u <;> simp [hpu, Pc.goesToWait, Pc.locked] at hu hl

lemma awake_move {g k o} (ha : s.Awake) (hpc : s.pc t = q) (hw : q.isWaiting = false)
    (hq : p.goesToWait = true → s.state = 0 → s.Crowded) (hd : q.notified = true ∨ q.notifying = true → s.state = 0 →
      p.notified = true ∨ p.notifying = true ∨ ¬ St.Crowded { s.goto t p with mtx := g, mark := k, holders := o }) :
    St.Awake { s.goto t p with mtx := g, mark := k, holders := o } := by
  subst hpc
  intro h0 hcr
  have ho : s.Crowded := by
    rcases hcr with hq' | ⟨u, hu⟩
    · exact .inl hq'
    · rcases eq_or_ne u t with rfl | hut
      · exact hq (by simpa using hu) h0
      · exact .inr ⟨u, by simpa [hut] using hu⟩
  obtain ⟨u, hu⟩ := ha h0 ho
  rcases eq_or_ne u t with rfl | hut
  · refine ⟨u, ?_⟩
    rcases hd (by simpa [pending, hw] using hu) h0 with hn | hn | hn
    · exact .inl (by simp [pending, hn])
    · exact .inr (by simpa using hn)
    · exact absurd hcr hn
  · exact ⟨u, by simpa [pending, hut] using hu⟩

lemma awake_moved (hi : Inv s) (ha : s.Awake) (h : Waitq.Moved s.cvar wq) : St.Awake { s with cvar := wq } := by
  intro h0 hcr
  have ho : s.Crowded := by
    refine hcr.imp (fun hq hni => hq ?_) id
    cases h with
    | same | kept => exact hni
    | woken => simp [hni]
  obtain ⟨u, hu⟩ := ha h0 ho
  refine ⟨u, hu.imp (fun hp => ?_) id⟩
  -- a notified waiter is out of the queue, and its error number stays -1
  have hou : (s.cvar.th u).errorNumber = -1 → (s.cvar.th u).waitq = false := fun h => (hi.err u h).2
  have hke : (wq.th u).errorNumber = (s.cvar.th u).errorNumber ∨ (s.cvar.th u).errorNumber ≠ -1 := by
    cases h with
    | same => exact .inl rfl
    | woken t st e hw =>
      rcases eq_or_ne u t with rfl | hut
      · exact .inr fun h => by rw [hou h] at hw; cases hw
      · exact .inl (by simp [hut])
    | kept t st e hw hs hst he =>
      rcases eq_or_ne u t with rfl | hut
      · rcases he with rfl | ⟨h0, -⟩
        · exact .inl (by simp)
        · exact .inr (by simp [h0])
      · exact .inl (by simp [hut])
  rcases hke with hk | hk
  · simpa only [pending, hk] using hp
  · have hn : (s.pc u).notified = true := by simpa [pending, hk] using hp
    simp [pending, hn]

lemma awake_lockWait (ha : s.Awake) (hp : s.pc t = .lockWait m b) :
    St.Awake { s.goto t (.waiting m b) with cvar := s.cvar.prepareUsleep t, mtx := .deferred } := by
  intro h0 _
  obtain ⟨u, hu⟩ := ha h0 (.inr ⟨t, by rw [hp]; rfl⟩)
  have hut : u ≠ t := by
    rintro rfl
    simp [pending, hp, Pc.notified, Pc.notifying, Pc.isWaiting] at hu
  exact ⟨u, by simpa [pending, hut] using hu⟩

lemma awake_wake (ha : s.Awake) (hp : s.pc t = .waiting m b) :
    St.Awake { s.goto t (.relock m b (waitqTranslateErrno (s.cvar.th t).setErrorNumber.1)) with
      cvar := s.cvar.setTh t (s.cvar.th t).setErrorNumber.2 } := by
  intro h0 hcr
  have ho : s.Crowded := by
    refine hcr.imp id (fun ⟨u, hu⟩ => ⟨u, ?_⟩)
    rcases eq_or_ne u t with rfl | hut
    · simp [Pc.goesToWait] at hu
    · simpa [hut] using hu
  obtain ⟨u, hu⟩ := ha h0 ho
  refine ⟨u, ?_⟩
  rcases eq_or_ne u t with rfl | hut
  · have he : (s.cvar.th u).errorNumber = -1 := by
      simpa [pending, hp, Pc.notified, Pc.notifying, Pc.isWaiting] using hu
    have hr : waitqTranslateErrno (s.cvar.th u).setErrorNumber.1 = none := by
      simp [Thread.setErrorNumber, waitqTranslateErrno, he]
    exact .inl (by simp [pending, hr, Pc.notified])
  · simpa [pending, hut] using hu

/-- After a `notify_one` by the holder of `mtx` either the queue was empty, and
nobody is about to enter it, or its head is a notified waiter. -/
lemma awake_resumeOne (hi : Inv s) (hpc : s.pc t = q) (ht : q.locked = true)
    (hg : q.goesToWait = false) (hp : p.goesToWait = false) (hw : q.isWaiting = false) (same : Bool) :
    St.Awake { s.goto t p with cvar := s.cvar.resumeOne same } := by
  subst hpc
  intro h0 hcr
  cases hq : s.cvar.q with
  | nil =>
    refine absurd ?_ (hi.not_crowded ht hg hq)
    rcases hcr with hn | ⟨u, hu⟩
    · simp [resumeOne, hq] at hn
    have hut : u ≠ t := by
      rintro rfl
      simp [hp] at hu
    exact .inr ⟨u, by simpa [hut] using hu⟩
  | cons h =>
    have hh : (s.cvar.th h).waitq = true := (hi.cvar.mem_iff h).1 (by simp [hq])
    have hwa := hi.queued h hh
    have hht : h ≠ t := by
      rintro rfl
      rw [hwa] at hw
      cases hw
    refine ⟨h, .inl ?_⟩
    simp [pending, hht, hwa, resumeOne, hq, prelocked_eq hh]

/-- What has to be true before a step: when an `unlock` that found no writer at
the head of the queue tests the loop for the first time, a thread at the head is
a reader. -/
def HeadIsReader (s : St) : Ev → Prop
  | .step t _ => s.pc t = .unlockWhile false → ∀ h ∈ s.cvar.q.head?, s.mark h &&& RLOCK ≠ 0
  | _ => True

instance (s : St) (e : Ev) : Decidable (HeadIsReader s e) := by
  unfold HeadIsReader
  split <;> infer_instance

lemma awake_advance (hi : Inv s) (ha : s.Awake) {same : Bool}
    (ho : HeadIsReader s (.step t same)) (hi' : Inv s') (h : s.advance t same = some s') : s'.Awake := by
  unfold advance at h
  cases hp : s.pc t with simp only [hp] at h
  | idle => cases h
  | lockStart m | unlockStart =>
    split at h <;> cases h
    exact awake_move ha hp rfl nofun nofun
  | lockTest m =>
    split at h <;> cases h
    next hq =>
      refine awake_move ha hp rfl (fun _ h0 => .inl ?_) nofun
      -- nobody is blocked by a free lock, so the queue was not empty
      exact hq.resolve_right (by cases m <;> simp [blocked, h0])
    · exact awake_move ha hp rfl nofun nofun
  | lockWait =>
    cases h
    exact awake_lockWait ha hp
  | waiting =>
    cases h
    exact awake_wake ha hp
  | relock m b r =>
    split at h <;> cases h
    cases r with
    | none => exact awake_move ha hp rfl nofun (fun _ _ => .inl rfl)
    | some =>
      exact awake_move ha hp rfl nofun nofun
  | lockRetest m =>
    split at h <;> cases h
    next hb =>
      intro h0
      have h0' : s.state = 0 := h0
      cases m <;> simp [blocked, h0'] at hb
    · exact awake_move ha hp rfl nofun (fun _ _ => .inl rfl)
  | lockTake m b n =>
    cases h
    intro h0
    have h0' : s.state + delta m = 0 := h0
    have hb := hi.take t m b n hp
    cases m <;> simp [blocked, delta] at hb h0' <;> omega
  | lockExit b r | unlockExit =>
    cases h
    exact awake_move ha hp rfl nofun nofun
  | unlockState =>
    cases h
    exact fun _ _ => ⟨t, .inr (by simp [Pc.notifying])⟩
  | unlockCheck =>
    split at h <;> cases h
    · exact awake_move ha hp rfl nofun (fun _ _ => .inr (.inl rfl))
    next hc =>
      refine awake_move ha hp rfl nofun (fun _ h0 => .inr (.inr ?_))
      exact hi'.not_crowded (t := t) (by simp [Pc.locked]) (by simp [Pc.goesToWait]) (by simpa [h0] using hc)
  | unlockIf =>
    split at h <;> cases h
    all_goals exact awake_move ha hp rfl nofun (fun _ _ => .inr (.inl rfl))
  | unlockWriter | unlockReader =>
    cases h
    exact awake_resumeOne hi hp rfl rfl rfl rfl same
  | unlockWhile n =>
    split at h <;> cases h
    · exact awake_move ha hp rfl nofun (fun _ _ => .inr (.inl rfl))
    rename_i hr
    refine awake_move ha hp rfl nofun ?_
    cases n with
    | true => simp [Pc.notified, Pc.notifying]
    | false =>
      -- the loop ends at once: by the condition nobody is queued
      refine fun _ _ => .inr (.inr (hi'.not_crowded (t := t) (by simp [Pc.locked]) (by simp [Pc.goesToWait]) ?_))
      cases hq : s.cvar.q with
      | nil => exact hq
      | cons x =>
        have hx := ho hp x (by simp [hq])
        simp only [headHas, hq, decide_eq_true_eq] at hr
        exact absurd hx hr

lemma awake_step {s s' : St} (hi : Inv s) (ha : s.Awake) {e : Ev} (ho : HeadIsReader s e)
    (h : step s e = some s') : s'.Awake := by
  have hi' := inv_step hi h
  -- an error number left in a thread that does not wait on `cvar`
  have hse : ∀ t e mark, (s.pc t).isWaiting = false →
      St.Awake { s with cvar := s.cvar.setTh t { s.cvar.th t with errorNumber := e }, mark := mark } := by
    intro t e mark hw h0 hcr
    obtain ⟨u, hu⟩ := ha h0 hcr
    refine ⟨u, hu.imp (fun hpe => ?_) id⟩
    rcases eq_or_ne u t with rfl | hut
    · simpa [pending, hw] using hpe
    · simpa [pending, hut] using hpe
  cases e with simp only [step] at h
  | env =>
    obtain ⟨wq, hw, rfl⟩ := Option.map_eq_some_iff.1 h
    exact awake_moved hi ha (env_moved hi.cvar hw)
  | elsewhere t e =>
    split at h <;> cases h
    rename_i hp
    exact hse t e _ (hp.1 ▸ rfl)
  | locking t e =>
    split at h <;> cases h
    rename_i hp
    exact hse t e _ (Pc.not_waiting_of_locking hp.1)
  | lock =>
    split at h <;> cases h
    rename_i hp
    exact awake_move ha hp rfl nofun nofun
  | unlock =>
    split at h <;> cases h
    rename_i hp
    exact awake_move ha hp.1 rfl nofun nofun
  | step =>
    split at h
    · exact awake_advance hi ha ho hi' h
    · cases h
  | deferred =>
    split at h <;> cases h
    exact ha

lemma awake_run (hm : machine.Meets HeadIsReader es) (h : machine.run es = some s) : s.Awake := by
  have h0 : Inv machine.init ∧ machine.init.Awake :=
    ⟨inv_init, fun _ hcr => by simp [machine, St.Crowded, Pc.goesToWait] at hcr⟩
  exact (Machine.run_inv_of (I := fun s => Inv s ∧ s.Awake) h0
    (fun hi ho hs => ⟨inv_step hi.1 hs, awake_step hi.1 hi.2 ho hs⟩) hm h).2

/-- In every state of every run a writer is the only holder, and `state` is -1
with a writer and else the number of readers. In every run whose steps meet
`HeadIsReader`, a lock that is free, with no `unlock` at work, and that has a
queue has a notified waiter that has still to run. -/
theorem rwlock_no_forgotten_waiter {es : List Ev} {s : St} (h : machine.run es = some s) :
    (∀ t, (t, Mode.wlock) ∈ s.holders → s.holders = [(t, .wlock)] ∧ s.state = -1) ∧
    ((∀ t, (t, Mode.wlock) ∉ s.holders) → s.state = s.holders.length) ∧
    (machine.Meets HeadIsReader es → s.state = 0 → (∀ t, (s.pc t).notifying = false) → s.cvar.q ≠ [] →
      ∃ t, s.pending t = true) := by
  have hc := (inv_run h).counts
  refine ⟨fun t ht => ?_, fun hn => ?_, fun hm h0 hid hq => ?_⟩
  · rcases hc with ⟨u, hu, hs⟩ | ⟨hr, -⟩
    · obtain rfl : t = u := by simpa [hu] using ht
      exact ⟨hu, hs⟩
    · cases hr _ ht
  · rcases hc with ⟨u, hu, -⟩ | ⟨-, hs⟩
    · exact absurd (by simp [hu]) (hn u)
    · exact hs
  · obtain ⟨t, ht⟩ := awake_run hm h h0 (.inl hq)
    exact ⟨t, ht.resolve_right (by simp [hid t])⟩

/-- Thread 0 holds the lock for writing, reader 1 and writer 2 wait, thread 0
calls `unlock` and its `if` finds the reader at the head. -/
def unlockSeesReader : List Ev := [.lock 0 .wlock, .step 0 true, .step 0 true, .step 0 true, .step 0 true,
    .lock 1 .rlock, .step 1 true, .step 1 true, .step 1 true, .deferred,
    .lock 2 .wlock, .step 2 true, .step 2 true, .step 2 true, .deferred,
    .unlock 0, .step 0 true, .step 0 true, .step 0 true, .step 0 true]

def unlockNotifiesReader : List Ev := unlockSeesReader ++ [.step 0 true, .step 0 true, .step 0 true, .step 0 true]

theorem rwlock_no_forgotten_waiter_notified :
    ∃ s, machine.run unlockNotifiesReader = some s ∧ s.state = 0 ∧ s.cvar.q = [2] ∧ ∃ t, s.pending t = true := by
  have hr : machine.run unlockNotifiesReader = some _ := rfl
  refine ⟨_, hr, by decide, by decide, ?_⟩
  refine (rwlock_no_forgotten_waiter hr).2.2 (by decide) (by decide) ?_ (by decide)
  rintro (_ | _ | _ | t) <;> rfl

/-- The reader times out before the loop is tested: the lock is free, writer 2
is queued, and nobody was notified. -/
theorem writer_forgotten :
    ∃ s, machine.run (unlockSeesReader ++ [.env (.timeout 1), .step 0 true, .step 0 true]) = some s ∧
      s.state = 0 ∧ s.cvar.q = [2] ∧ (∀ t, (s.pc t).notifying = false) ∧ ∀ t, s.pending t = false := by
  refine ⟨_, rfl, by decide, by decide, ?_, ?_⟩ <;> rintro (_ | _ | _ | t) <;> rfl

end Photon.Rwlock
