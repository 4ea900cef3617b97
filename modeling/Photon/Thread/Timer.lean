import Photon.Lib.Machine
import Photon.Thread.Basic
/-!
# Timer

The timer thread (`Timer::stub`) and one other thread that calls `reset`,
`cancel`, `stop` and the destructor. Both run on one vCPU (`thread_yield_to`
asks for it), so a step is what a thread does from one switch to the next. The
callback may switch; what it does there is not modelled. `thread_yield_to` runs
the timer thread at once, so `reset` is one step.
-/

namespace Photon.Timer

open Option

inductive Stub where
  /-- In `thread_usleep(timeout)`; `ready` when it is over. -/
  | asleep (timeout : Nat) (ready : Bool)
  /-- In `_on_timer.fire()`. -/
  | callback
  /-- The loop is left and `_th` is null. -/
  | left
  deriving DecidableEq

inductive Stopper where
  | stop
  | destructor
  deriving DecidableEq

inductive Caller where
  | idle
  /-- `stop`: in `_wait_ready.wait_no_lock()`; `notified` when it is over. -/
  | waitReady (who : Stopper) (notified : Bool)
  /-- The destructor: in `thread_join`. -/
  | join
  /-- The destructor has returned. -/
  | destroyed
  deriving DecidableEq

/-- The members of the timer, the error number of its thread, and the two threads. -/
structure St where
  repeating : Bool
  defaultTimeout : Nat
  resetTimeout : Nat := 0
  waiting : Bool
  errorNumber : Int := 0
  stub : Stub
  caller : Caller := .idle
  deriving DecidableEq

def forever : Nat := 2 ^ 64 - 1

inductive Ev where
  | timeout
  /-- The timer thread is switched to, after its sleep. -/
  | awake
  /-- The callback returns the next timeout. -/
  | fired (timeout : Nat)
  | reset (newTimeout : Nat)
  | cancel
  | stop
  | destructor
  /-- The other thread is switched to, in `stop` or in `thread_join`. -/
  | resume
  deriving DecidableEq

/-- `again:` up to the switch of `thread_usleep`. -/
def St.again (s : St) (timeout : Nat) : St := { s with
    waiting := true
    stub := .asleep timeout false
    caller := match s.caller with
      | .waitReady b _ => .waitReady b true
      | c => c }

/-- `stub` after `thread_usleep`, up to the next switch. -/
def St.awake (s : St) : Option St :=
  let s' := { s with waiting := false, errorNumber := 0 }
  if s.errorNumber = 0 then some { s' with stub := .callback }
  else if s.errorNumber = ECANCELED then some { s' with stub := .left }
  else if s.errorNumber = EAGAIN then some (s'.again s.resetTimeout)
  else none -- assert(false)

/-- `thread_interrupt(_th, e)` while the timer thread sleeps, or is ready after it. -/
def St.threadInterrupt (s : St) (e : Int) : St :=
  match s.stub with
  | .asleep t false => { s with errorNumber := e, stub := .asleep t true }
  | .asleep _ true => if s.errorNumber = 0 then { s with errorNumber := e } else s
  | _ => s

/-- `reset`: whether it succeeded; `thread_yield_to` runs the timer thread. -/
def St.reset (s : St) (newTimeout : Nat) : Option (Bool × St) :=
  if s.waiting then
    (St.threadInterrupt { s with resetTimeout := newTimeout } EAGAIN).awake.map fun s' => (true, s')
  else some (false, s)

/-- The destructor after `stop`: the thread is told to finish, and joined. -/
def St.finish (s : St) : St :=
  let s' := { s with repeating := false, caller := .join }
  if s.waiting then s'.threadInterrupt ECANCELED else s'

def St.stop (s : St) (b : Stopper) : Option St := (s.reset forever).map fun (ok, s') =>
    if ok then
      match b with
      | .stop => { s' with caller := .idle }
      | .destructor => s'.finish
    else { s' with caller := .waitReady b false }

def step (s : St) : Ev → Option St
  | .timeout =>
    match s.stub with
    | .asleep t false => some { s with stub := .asleep t true }
    | _ => none
  | .awake =>
    match s.stub with
    | .asleep _ true => s.awake
    | _ => none
  | .fired timeout =>
    if s.stub = .callback then
      if s.repeating then some (s.again (if timeout = 0 then s.defaultTimeout else timeout))
      else some { s with stub := .left }
    else none
  | .reset newTimeout => if s.caller = .idle then (s.reset newTimeout).map Prod.snd else none
  | .cancel => if s.caller = .idle then (s.reset forever).map Prod.snd else none
  | .stop => if s.caller = .idle then s.stop .stop else none
  | .destructor =>
    if s.caller = .idle then
      if s.stub = .left then some { s with caller := .destroyed } else s.stop .destructor
    else none
  | .resume =>
    match s.caller with
    | .waitReady b true => s.stop b
    | .join => if s.stub = .left then some { s with caller := .destroyed } else none
    | _ => none

/-- The timer after its constructor, which has run the timer thread to its first sleep. -/
def machine (repeating : Bool) (defaultTimeout : Nat) : Machine St Ev :=
  ⟨{ repeating, defaultTimeout, waiting := true, stub := .asleep defaultTimeout false }, step⟩

/-! ## Nobody waits for a timer that has finished -/

def tests (s : St) : Ev → Bool
  | .stop => true
  | .destructor => s.stub ≠ .left
  | .resume =>
    match s.caller with
    | .waitReady _ _ => true
    | _ => false
  | _ => false

/-- What has to be true before a step: the timer repeats, or `stop` and the
destructor look at `_waiting` only while it is true. -/
def StopsWaiting (s : St) (e : Ev) : Prop := s.repeating = true ∨ tests s e = false ∨ s.waiting = true

instance (s : St) (e : Ev) : Decidable (StopsWaiting s e) := inferInstanceAs (Decidable (_ ∨ _))

structure Inv (s : St) : Prop where
  left : s.stub = .left → s.repeating = false
  canceled : s.errorNumber = ECANCELED → s.repeating = false
  waitReady : ∀ b n, s.caller = .waitReady b n → s.repeating = true

lemma inv_init (repeating : Bool) (defaultTimeout : Nat) : Inv (machine repeating defaultTimeout).init := by
  constructor <;> simp [machine, ECANCELED]

variable {s s' : St}

lemma inv_again (hi : Inv s) (timeout : Nat) : Inv (s.again timeout) := by
  refine ⟨nofun, hi.canceled, fun b n h => ?_⟩
  simp only [St.again] at h
  split at h
  next b' n' hc => exact hi.waitReady b' n' hc
  · exact hi.waitReady b n h

lemma inv_awake (hi : Inv s) (h : s.awake = some s') : Inv s' := by
  have hz : ∀ st, (st = .left → s.repeating = false) →
      Inv { s with waiting := false, errorNumber := 0, stub := st } := fun st hst =>
    ⟨hst, nofun, hi.waitReady⟩
  unfold St.awake at h
  split at h
  · cases h
    exact hz .callback nofun
  split at h
  next hc =>
    cases h
    exact hz .left fun _ => hi.canceled hc
  · split at h <;> cases h
    exact inv_again (hz s.stub hi.left) _

lemma inv_threadInterrupt (hi : Inv s) {e : Int} (he : e = ECANCELED → s.repeating = false) :
    Inv (s.threadInterrupt e) := by
  unfold St.threadInterrupt
  split
  · exact ⟨nofun, he, hi.waitReady⟩
  · split
    · exact ⟨hi.left, he, hi.waitReady⟩
    · exact hi
  · exact hi

lemma inv_reset (hi : Inv s) {newTimeout : Nat}
    (h : (St.threadInterrupt { s with resetTimeout := newTimeout } EAGAIN).awake = some s') : Inv s' := by
  have hs : Inv { s with resetTimeout := newTimeout } := ⟨hi.left, hi.canceled, hi.waitReady⟩
  exact inv_awake (inv_threadInterrupt hs (by simp [EAGAIN, ECANCELED])) h

lemma inv_finish (s : St) : Inv s.finish := by
  have hj : Inv { s with repeating := false, caller := .join } :=
    ⟨fun _ => rfl, fun _ => rfl, fun b n h => by cases h⟩
  unfold St.finish
  split
  · exact inv_threadInterrupt hj fun _ => rfl
  · exact hj

lemma inv_stop (hi : Inv s) {b : Stopper} (hr : s.repeating = true ∨ s.waiting = true)
    (h : s.stop b = some s') : Inv s' := by
  unfold St.stop St.reset at h
  cases hw : s.waiting with
  | true =>
    rw [if_pos hw, map_map] at h
    obtain ⟨s1, hs1, rfl⟩ := map_eq_some_iff.1 h
    have hi1 := inv_reset hi hs1
    cases b with
    | stop => exact ⟨hi1.left, hi1.canceled, fun b n h => by cases h⟩
    | destructor => exact inv_finish s1
  | false =>
    rw [if_neg (by simp [hw]), map_some] at h
    cases h
    exact ⟨hi.left, hi.canceled, fun _ _ _ => hr.resolve_right (by simp [hw])⟩

lemma inv_step (hi : Inv s) {e : Ev} (ho : StopsWaiting s e) (h : step s e = some s') : Inv s' := by
  -- `reset` and `cancel` never wait
  have hre : ∀ t s', (s.reset t).map Prod.snd = some s' → Inv s' := by
    intro t s' h
    unfold St.reset at h
    split at h
    · rw [map_map] at h
      obtain ⟨s1, hs1, rfl⟩ := map_eq_some_iff.1 h
      exact inv_reset hi hs1
    · cases h
      exact hi
  cases e with simp only [step] at h
  | timeout =>
    split at h <;> cases h
    exact ⟨nofun, hi.canceled, hi.waitReady⟩
  | awake =>
    split at h
    · exact inv_awake hi h
    · cases h
  | fired =>
    split at h
    · split at h <;> cases h
      · exact inv_again hi _
      next hr => exact ⟨fun _ => by simpa using hr, hi.canceled, hi.waitReady⟩
    · cases h
  | reset newTimeout | cancel =>
    split at h
    · exact hre _ _ h
    · cases h
  | stop =>
    split at h
    · exact inv_stop hi (ho.imp_right fun ht => ht.resolve_left nofun) h
    · cases h
  | destructor =>
    split at h
    · split at h
      · cases h
        exact ⟨hi.left, hi.canceled, fun b n h => by cases h⟩
      next hl => exact inv_stop hi (ho.imp_right fun ht => ht.resolve_left (by simp [tests, hl])) h
    · cases h
  | resume =>
    split at h
    next b hc => exact inv_stop hi (ho.imp_right fun ht => ht.resolve_left (by simp [tests, hc])) h
    · split at h <;> cases h
      exact ⟨hi.left, hi.canceled, fun b n h => by cases h⟩
    · cases h

/-- In every run whose steps meet `StopsWaiting`, neither `stop` nor the destructor
waits on `_wait_ready` once the timer thread has left its loop. -/
theorem timer_stop_not_stuck {repeating : Bool} {defaultTimeout : Nat} {es : List Ev} {s : St}
    (hm : (machine repeating defaultTimeout).Meets StopsWaiting es)
    (h : (machine repeating defaultTimeout).run es = some s) (hl : s.stub = .left) (b : Stopper) (n : Bool) :
    s.caller ≠ .waitReady b n := by
  have hi := Machine.run_inv_of (I := Inv) (inv_init repeating defaultTimeout) (inv_step ·) hm h
  intro hc
  have hr := hi.waitReady b n hc
  rw [hi.left hl] at hr
  cases hr

/-- A repeating timer is destroyed during its callback: the destructor waits,
the timer thread comes back, and finishes. -/
theorem timer_stop_not_stuck_repeating :
    ∃ s, (machine true 5).run [.timeout, .awake, .destructor, .fired 0, .resume, .awake] = some s ∧ s.stub = .left ∧
      s.caller ≠ .waitReady .destructor false := by
  have hr : (machine true 5).run [.timeout, .awake, .destructor, .fired 0, .resume, .awake] = some _ := rfl
  exact ⟨_, hr, by decide, timer_stop_not_stuck (by decide) hr (by decide) _ _⟩

/-- A one-shot timer is stopped during its callback: `stop` waits on `_wait_ready`,
which nobody notifies when the timer thread leaves. -/
theorem oneShot_stop_stuck :
    (((machine false 5).run [.timeout, .awake, .stop, .fired 0]).map fun s => (s.stub, s.caller)) =
      some (.left, .waitReady .stop false) := by
  decide

end Photon.Timer
