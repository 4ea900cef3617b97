import Photon.Lib.Machine
import Photon.Lib.TokenBucket
import Photon.Thread.Basic
/-!
# throttle

`consume` and `try_consume` of any number of threads of one vCPU, over a semaphore that
resumes its waiters in order. Control changes only in `thread_usleep` and in the wait of
the semaphore, so what a call does from one of them to the next is one step. A waiter that
was resumed takes its tokens when it runs again, which may be much later. `photon::now` is
`now`; it only grows. `assert(amount < m_limit)` in `consume` is not kept: the results hold
for any amount.

`grants` is not in the code: the tokens that calls were given, with the time, last first.

The count, the clock and the grants are a token bucket (`St.bucket`, `step_bucket`).
-/

namespace Photon.Throttle

open Function Bucket

/-- What the constructor is given, each a `uint64_t` that is not 0. -/
structure Config where
  limit : Nat
  timeWindow : Nat
  sliceNum : Nat
  limit_range : 1 ≤ limit ∧ limit < 2 ^ 64
  timeWindow_range : 1 ≤ timeWindow ∧ timeWindow < 2 ^ 64
  sliceNum_range : 1 ≤ sliceNum ∧ sliceNum < 2 ^ 64

namespace Config

variable (c : Config)

def limitPerSlice : Nat := satAdd c.limit (c.sliceNum - 1) / c.sliceNum

/-- `m_limit`: the limit rounded to a multiple of the number of slices. -/
def roundedLimit : Nat := c.limitPerSlice * c.sliceNum

def timeWindowPerSlice : Nat := satAdd c.timeWindow (c.sliceNum - 1) / c.sliceNum

def roundedTimeWindow : Nat := c.timeWindowPerSlice * c.sliceNum

end Config

inductive Priority where
  | high
  | medium
  | low
  deriving DecidableEq

def getFulfillPercent : Priority → Nat
  | .low => 60
  | .medium => 30
  | .high => 0

def getStarvingPercent : Priority → Nat
  | .low => 20
  | .medium => 10
  | .high => 0

inductive Call where
  | consume (prio : Priority)
  | tryConsume
  deriving DecidableEq

inductive Pc where
  | idle
  /-- In `thread_usleep`. -/
  | usleep (amount : Nat) (prio : Priority)
  /-- In the queue of the semaphore. -/
  | queued (amount : Nat) (call : Call)
  /-- `try_resume` has taken it out of the queue, it has not run yet. -/
  | resumed (amount : Nat) (call : Call)
  deriving DecidableEq

def Pc.inWait : Pc → Bool
  | .queued _ _ | .resumed _ _ => true
  | _ => false

structure St where
  now : Nat := 0
  /-- `sem.m_count`. -/
  count : Nat
  /-- The queue of `sem`. -/
  waitq : List Tid := []
  lastRetrieve : Nat := 0
  starvingSliceNum : Priority → Nat := fun _ => 0
  pc : Tid → Pc := fun _ => .idle
  grants : List (Nat × Nat) := []

def St.goto (s : St) (t : Tid) (p : Pc) : St := { s with pc := update s.pc t p }

def resumeLoop (pc : Tid → Pc) : Nat → List Tid → (Tid → Pc) × List Tid
  | _, [] => (pc, [])
  | cnt, h :: q =>
    match pc h with
    | .queued n call =>
      if cnt < n then (pc, h :: q) else resumeLoop (update pc h (.resumed n call)) (cnt - n) q
    | _ => (pc, h :: q)

def St.tryResume (s : St) (cnt : Nat) : St :=
  let r := resumeLoop s.pc cnt s.waitq
  { s with pc := r.1, waitq := r.2 }

def St.signal (s : St) (n : Nat) : St :=
  if n = 0 then s else { s with count := s.count + n }.tryResume (s.count + n)

def St.duration (c : Config) (s : St) : Nat :=
  if s.now - s.lastRetrieve > c.roundedTimeWindow then c.roundedTimeWindow else s.now - s.lastRetrieve

def St.free (c : Config) (s : St) : Nat :=
  let free := c.limitPerSlice * (s.duration c / c.timeWindowPerSlice)
  let current := c.roundedLimit - s.count
  if current < free then current else free

def St.trySignal (c : Config) (s : St) : St :=
  if s.duration c ≥ c.timeWindowPerSlice then { s.signal (s.free c) with lastRetrieve := s.now } else s

/-- `semaphore::wait_interruptible` up to its first wait, or back at the head of its loop. -/
def St.semWait (s : St) (t : Tid) (amount : Nat) (call : Call) : St :=
  if amount = 0 then s.goto t .idle
  else if amount ≤ s.count then
    { s.goto t .idle with count := s.count - amount, grants := (s.now, amount) :: s.grants }
  else { s.goto t (.queued amount call) with waitq := s.waitq ++ [t] }

def St.setStarving (s : St) (prio : Priority) (n : Nat) : St :=
  { s with starvingSliceNum := update s.starvingSliceNum prio n }

def St.consumeLoop (c : Config) (s : St) (t : Tid) (amount : Nat) (prio : Priority) : St :=
  let s := s.trySignal c
  if s.starvingSliceNum prio * 100 % 2 ^ 64 > c.sliceNum * getStarvingPercent prio % 2 ^ 64 then
    (s.setStarving prio 0).semWait t amount (.consume prio)
  else if s.count * 100 % 2 ^ 64 < c.roundedLimit * getFulfillPercent prio % 2 ^ 64 then s.goto t (.usleep amount prio)
  else s.semWait t amount (.consume prio)

/-- The wait of the semaphore fails: the thread is out of the queue, the others get their chance. -/
def St.leave (s : St) (t : Tid) : St :=
  let s := { s with waitq := s.waitq.erase t }
  if s.count = 0 then s else s.tryResume s.count

inductive Ev where
  | tick (d : Nat)
  | consume (t : Tid) (amount : Nat) (prio : Priority)
  | tryConsume (t : Tid) (amount : Nat)
  /-- `thread_usleep` ends, by its time or by an interrupt. -/
  | slept (t : Tid) (interrupted : Bool)
  /-- A resumed waiter runs. -/
  | run (t : Tid)
  /-- A wait ends by its timeout. -/
  | timeout (t : Tid)
  /-- A wait is interrupted, with `ESHUTDOWN` or another error number. -/
  | interrupt (t : Tid) (shutdown : Bool)
  deriving DecidableEq

def step (c : Config) (s : St) : Ev → Option St
  | .tick d => some { s with now := s.now + d }
  | .consume t amount prio => if s.pc t = .idle then some (s.consumeLoop c t amount prio) else none
  | .tryConsume t amount => if s.pc t = .idle then some ((s.trySignal c).semWait t amount .tryConsume) else none
  | .slept t interrupted =>
    match s.pc t with
    | .usleep amount prio =>
      if interrupted then some (s.goto t .idle)
      else some ((s.setStarving prio (s.starvingSliceNum prio + 1)).consumeLoop c t amount prio)
    | _ => none
  | .run t =>
    match s.pc t with
    | .resumed amount call => some (s.semWait t amount call)
    | _ => none
  | .timeout t =>
    match s.pc t with
    | .queued amount (.consume prio) => some ((s.leave t).consumeLoop c t amount prio)
    | .queued _ .tryConsume => some ((s.leave t).goto t .idle)
    | _ => none
  | .interrupt t shutdown =>
    match s.pc t with
    | .queued _ (.consume _) => some ((s.leave t).goto t .idle)
    | .queued amount .tryConsume =>
      -- `semaphore::wait` tries again
      if shutdown then some ((s.leave t).goto t .idle) else some ((s.leave t).semWait t amount .tryConsume)
    | _ => none

/-- `sem.signal(m_limit)` in the constructor; nobody waits then. -/
def machine (c : Config) : Machine St Ev := ⟨{ count := c.roundedLimit }, step c⟩

/-! ## The bucket -/

def St.bucket (s : St) : Bucket := ⟨s.now, s.count, s.lastRetrieve, s.grants⟩

lemma bucket_goto (s : St) (t : Tid) (p : Pc) : (s.goto t p).bucket = s.bucket := rfl

lemma bucket_setStarving (s : St) (prio : Priority) (n : Nat) : (s.setStarving prio n).bucket = s.bucket := rfl

lemma bucket_signal (s : St) (n : Nat) : (s.signal n).bucket = { s.bucket with count := s.count + n } := by
  unfold St.signal
  split
  next h =>
    rw [h]
    rfl
  · rfl

lemma bucket_leave (s : St) (t : Tid) : (s.leave t).bucket = s.bucket := by
  unfold St.leave
  dsimp only
  split <;> rfl

section

variable {c : Config} {s s' : St}

def Flow (c : Config) : Bucket → Bucket → Prop := Bucket.Steps c.roundedLimit c.limitPerSlice c.timeWindowPerSlice

lemma timeWindowPerSlice_pos (c : Config) : 0 < c.timeWindowPerSlice := by
  have h1 := c.timeWindow_range
  have h2 := c.sliceNum_range
  refine Nat.div_pos ?_ h2.1
  unfold satAdd
  omega

lemma bucket_trySignal (c : Config) (s : St) : (s.trySignal c).bucket =
      if s.duration c ≥ c.timeWindowPerSlice then { s.bucket with count := s.count + s.free c, last := s.now }
      else s.bucket := by
  unfold St.trySignal
  split
  · have h := bucket_signal s (s.free c)
    simp only [St.bucket, mk.injEq] at h ⊢
    exact ⟨h.1, h.2.1, trivial, h.2.2.2⟩
  · rfl

lemma duration_le (c : Config) (s : St) : s.duration c ≤ s.now - s.lastRetrieve := by
  unfold St.duration
  split <;> omega

lemma flow_trySignal (hc : s.count ≤ c.roundedLimit) : Flow c s.bucket (s.trySignal c).bucket := by
  rw [bucket_trySignal]
  split
  next hw =>
    have hd := duration_le c s
    have he := Nat.mul_le_mul_left c.limitPerSlice (Nat.div_le_div_right (c := c.timeWindowPerSlice) hd)
    have hf : s.free c ≤ c.limitPerSlice * (s.duration c / c.timeWindowPerSlice) ∧
        s.free c ≤ c.roundedLimit - s.count := by
      unfold St.free
      dsimp only
      split <;> omega
    exact .single (Bucket.Step.refill s.bucket _ (le_trans hw hd) (le_trans hf.1 he)
      (show s.count + s.free c ≤ _ by omega))
  · exact .refl

lemma polled_trySignal (c : Config) (s : St) :
    (s.trySignal c).bucket.now < (s.trySignal c).bucket.last + c.timeWindowPerSlice := by
  have hpo := timeWindowPerSlice_pos c
  have hle : c.timeWindowPerSlice ≤ c.roundedTimeWindow := Nat.le_mul_of_pos_right _ c.sliceNum_range.1
  rw [bucket_trySignal]
  split
  · exact Nat.lt_add_of_pos_right hpo
  rename_i hw
  change s.now < s.lastRetrieve + _
  unfold St.duration at hw
  split at hw <;> omega

lemma flow_semWait (c : Config) (s : St) (t : Tid) (amount : Nat) (call : Call) :
    Flow c s.bucket (s.semWait t amount call).bucket := by
  unfold St.semWait
  split
  · exact .refl
  split
  next h => exact .single (Bucket.Step.take s.bucket amount h)
  · exact .refl

lemma flow_consumeLoop (c : Config) (s : St) (t : Tid) (amount : Nat) (prio : Priority) :
    Flow c (s.trySignal c).bucket (s.consumeLoop c t amount prio).bucket := by
  unfold St.consumeLoop
  dsimp only
  split
  · have h := flow_semWait c ((s.trySignal c).setStarving prio 0) t amount (.consume prio)
    rwa [bucket_setStarving] at h
  · split
    · exact .refl
    · exact flow_semWait c _ t amount _

/-- A step is one of the clock; or it polls, with `try_signal`, and then takes tokens;
or it is one of a thread that was in the wait and only takes tokens; or it leaves the
bucket alone. -/
inductive Effect (c : Config) (s s' : St) : Prop
  | tick (d : Nat) (h : s' = { s with now := s.now + d })
  | poll (s0 : St) (hb : s0.bucket = s.bucket) (h : Flow c (s0.trySignal c).bucket s'.bucket)
  | take (t : Tid) (ht : (s.pc t).inWait = true) (h : Flow c s.bucket s'.bucket)
  | none (t : Tid) (h : s' = s.goto t .idle)

variable {e : Ev} {es : List Ev}

lemma step_effect (h : step c s e = some s') : Effect c s s' := by
  cases e with simp only [step] at h
  | tick d => cases h; exact .tick d rfl
  | consume =>
    split at h <;> cases h
    exact .poll s rfl (flow_consumeLoop ..)
  | tryConsume =>
    split at h <;> cases h
    exact .poll s rfl (flow_semWait ..)
  | slept t =>
    split at h
    next amount prio hp =>
      split at h <;> cases h
      · exact .none t rfl
      · exact .poll _ (bucket_setStarving s prio _) (flow_consumeLoop ..)
    · cases h
  | run t =>
    split at h <;> cases h
    rename_i amount call hp
    exact .take t (hp ▸ rfl) (flow_semWait ..)
  | timeout t =>
    split at h <;> cases h
    · exact .poll (s.leave t) (bucket_leave s t) (flow_consumeLoop ..)
    rename_i hp
    refine .take t (hp ▸ rfl) ?_
    rw [bucket_goto, bucket_leave]
    exact .refl
  | interrupt t =>
    split at h
    next hp =>
      cases h
      refine .take t (hp ▸ rfl) ?_
      rw [bucket_goto, bucket_leave]
      exact .refl
    next hp =>
      refine .take t (hp ▸ rfl) ?_
      split at h <;> cases h
      · rw [bucket_goto, bucket_leave]
        exact .refl
      · rw [← bucket_leave s t]
        exact flow_semWait ..
    · cases h

lemma Effect.flow (h : Effect c s s') (hc : s.count ≤ c.roundedLimit) : Flow c s.bucket s'.bucket := by
  cases h with
  | tick d h => subst h; exact .single (Bucket.Step.tick s.bucket d)
  | poll s0 hb h =>
    rw [← hb]
    refine Relation.ReflTransGen.trans (flow_trySignal ?_) h
    rwa [show s0.count = s.count from congrArg count hb]
  | take t ht h => exact h
  | none t h => subst h; exact .refl

/-! ## Whole runs -/

lemma Flow.ok {b b' : Bucket} (h : Flow c b b') (ho : Bucket.Ok c.roundedLimit b) : Bucket.Ok c.roundedLimit b' := by
  induction h with
  | refl => exact ho
  | tail _ hs ih => exact ih.step hs

/-- What holds after every run: the bucket is in order, and its past is one of a bucket. -/
structure Inv (c : Config) (s : St) : Prop where
  ok : Bucket.Ok c.roundedLimit s.bucket
  flow : Flow c (machine c).init.bucket s.bucket

lemma inv_init (c : Config) : Inv c (machine c).init := ⟨⟨le_rfl, le_rfl, by simp [machine, St.bucket]⟩, .refl⟩

lemma inv_step (hi : Inv c s) (h : step c s e = some s') : Inv c s' := by
  have hf := (step_effect h).flow hi.ok.count
  exact ⟨hf.ok hi.ok, hi.flow.trans hf⟩

lemma inv_run (h : (machine c).run es = some s) : Inv c s := Machine.run_inv (inv_init c) inv_step h

/-- Since `s0`, where no thread was in the wait: either no token was taken, or the first
thing was a `try_signal`. -/
def Since (c : Config) (s0 s : St) : Prop := s0.now ≤ s.now ∧ ((∀ t, (s.pc t).inWait = false) ∧ s.grants = s0.grants ∨
      ∃ b, Bucket.Ok c.roundedLimit b ∧ b.now < b.last + c.timeWindowPerSlice ∧ s0.now ≤ b.now ∧
        b.taken = s0.grants ∧ Flow c b s.bucket)

lemma now_le_of_flow {b b' : Bucket} (h : Flow c b b') : b.now ≤ b'.now := by
  induction h with
  | refl => exact le_rfl
  | tail _ hs => cases hs <;> dsimp only <;> omega

lemma trySignal_now_taken (c : Config) (s : St) :
    (s.trySignal c).bucket.now = s.now ∧ (s.trySignal c).bucket.taken = s.grants := by
  rw [bucket_trySignal]
  split <;> exact ⟨rfl, rfl⟩

lemma since_step {s0 : St} (hi : Inv c s) (hs : Since c s0 s) (h : step c s e = some s') : Since c s0 s' := by
  have he := step_effect h
  have hf := he.flow hi.ok.count
  refine ⟨le_trans hs.1 (now_le_of_flow hf), ?_⟩
  rcases hs.2 with ⟨hw, hg⟩ | ⟨b, ho, hp, hn, ht, hb⟩
  · cases he with
    | tick d h => subst h; exact .inl ⟨hw, hg⟩
    | poll s1 hb h =>
      obtain ⟨hno, hta⟩ := trySignal_now_taken c s1
      have hn1 : s1.now = s.now := congrArg now hb
      have hg1 : s1.grants = s.grants := congrArg taken hb
      refine .inr ⟨_, ?_, polled_trySignal c s1, ?_, ?_, h⟩
      · refine (flow_trySignal ?_).ok ?_
        · rw [show s1.count = s.count from congrArg count hb]
          exact hi.ok.count
        · rw [hb]
          exact hi.ok
      · rw [hno, hn1]
        exact hs.1
      · rw [hta, hg1, hg]
    | take t ht => cases (hw t).symm.trans ht
    | none t h =>
      subst h
      refine .inl ⟨fun u => ?_, hg⟩
      rcases eq_or_ne u t with rfl | hu
      · simp [St.goto, Pc.inWait]
      · simpa [St.goto, hu] using hw u
  · exact .inr ⟨b, ho, hp, hn, ht, hb.trans hf⟩

lemma since_runFrom {s0 : St} (hi : Inv c s) (hs : Since c s0 s)
    (h : (machine c).runFrom s es = some s') : Since c s0 s' := by
  induction es generalizing s with
  | nil => cases h; exact hs
  | cons e es ih =>
    obtain ⟨s1, h₁, h₂⟩ := Machine.runFrom_cons.1 h
    exact ih (inv_step hi h₁) (since_step hi hs h₁) h₂

def St.grantedIn (s : St) (a d : Nat) : Nat := takenIn a (a + d) s.grants

/-- The count is at most the rounded limit; in any time `d` at most twice the rounded limit is granted, and
`m_limit_per_slice` for each slice in `d`; and when no thread waits, at most the rounded limit is granted from then on
in time `d`, and `m_limit_per_slice` for each slice in `d` and one more. -/
theorem throttle_rate {es : List Ev} (h : (machine c).run es = some s) :
    s.count ≤ c.roundedLimit ∧
      (∀ a d, s.grantedIn a d ≤ 2 * c.roundedLimit + c.limitPerSlice * (d / c.timeWindowPerSlice)) ∧
      ((∀ t, (s.pc t).inWait = false) → ∀ es' s', (machine c).runFrom s es' = some s' → ∀ d, s'.grantedIn s.now d ≤
          s.grantedIn s.now d + c.roundedLimit + c.limitPerSlice * (d / c.timeWindowPerSlice + 1)) := by
  have hi := inv_run h
  refine ⟨hi.ok.count, fun a d => ?_, fun hw es' s' h' d => ?_⟩
  · have hle := takenIn_le (inv_init c).ok.count (inv_init c).ok.last rfl hi.flow a d
    exact hle
  obtain ⟨-, ⟨-, hg⟩ | ⟨b, ho, hp, hn, ht, hb⟩⟩ := since_runFrom hi ⟨le_rfl, .inl ⟨hw, rfl⟩⟩ h'
  · rw [St.grantedIn, hg, St.grantedIn]
    omega
  · have hle := takenIn_le_of_polled ho hp hb hn d
    rwa [ht] at hle

end

/-- Limit 10 in 10 units of time and 10 slices. -/
def ten : Config := ⟨10, 10, 10, by decide, by decide, by decide⟩

/-- Thread 1 waits for 9 tokens. Thread 0 refills the bucket after 9 slices, which resumes
thread 1, and then keeps the vCPU to itself for long. -/
def lateWaiter : List Ev := [.tick 100, .consume 0 9 .high, .consume 1 9 .high, .tick 9, .tryConsume 0 1, .tick 891]

theorem throttle_rate_lateWaiter :
    ∃ s, (machine ten).run lateWaiter = some s ∧ s.count ≤ ten.roundedLimit ∧
      s.grantedIn 100 9 = 10 ∧ s.grantedIn 100 9 ≤ 2 * ten.roundedLimit + ten.limitPerSlice * (9 / ten.timeWindowPerSlice) := by
  have hr : (machine ten).run lateWaiter = some _ := rfl
  obtain ⟨hco, hsp, -⟩ := throttle_rate hr
  exact ⟨_, hr, hco, by decide, hsp 100 9⟩

/-- When thread 1 runs it takes 9 tokens, and in the same instant thread 0 takes 10 more:
19 in a span of length 0, of a limit of 10 and 1 for a slice. -/
theorem late_waiter :
    ∃ s, (machine ten).run (lateWaiter ++ [.run 1, .tryConsume 0 10]) = some s ∧ s.grantedIn 1000 0 = 19 ∧
      ten.roundedLimit + ten.limitPerSlice * (0 / ten.timeWindowPerSlice + 1) = 11 :=
  ⟨_, rfl, by decide, by decide⟩

/-- Every run of the throttle is a history of a token bucket that is full at first. -/
theorem throttle_refines_bucket {c : Config} {es : List Ev} {s : St} (h : (machine c).run es = some s) :
    Bucket.Steps c.roundedLimit c.limitPerSlice c.timeWindowPerSlice (machine c).init.bucket s.bucket :=
  (inv_run h).flow

theorem throttle_refines_bucket_lateWaiter :
    ∃ s, (machine ten).run lateWaiter = some s ∧ Bucket.Steps 10 1 1 (machine ten).init.bucket s.bucket := by
  have hr : (machine ten).run lateWaiter = some _ := rfl
  exact ⟨_, hr, throttle_refines_bucket hr⟩

end Photon.Throttle
