import Photon.Lib.Machine
/-!
# `thread::die` and `thread_join`

The end of a thread, and a call of `thread_join` by another one, perhaps on another vCPU. The thread dies under its lock
and keeps it until it has left its stack: the function that runs after the switch unlocks, or disposes of a thread that
cannot be joined. `fault` is not in the code: memory of the thread was used after it was deallocated.
-/

namespace Photon.Join

inductive DiePc where
  | run
  /-- Before `lock.lock()`. -/
  | lock
  /-- Before `state = DONE` and `cond.notify_one()`. -/
  | notify
  /-- Before the function that runs after the switch. -/
  | switch
  | gone
  deriving DecidableEq

inductive JoinPc (α : Type) where
  | idle
  /-- Before `th->lock.lock()`, or before `cond.wait` locks again. -/
  | lock
  /-- Before the test of the `while`. -/
  | test
  | asleep
  | ret (retval : Option α)
  /-- `ENOSYS`. -/
  | refused

inductive Owner where
  | dying
  | joiner

structure St (α : Type) where
  joinable : Bool
  die : DiePc := .run
  join : JoinPc α := .idle
  lock : Option Owner := none
  done : Bool := false
  /-- The joiner is in the queue of `cond`. -/
  queued : Bool := false
  retval : Option α := none
  disposed : Nat := 0
  fault : Bool := false

inductive Ev (α : Type) where
  /-- The thread returns, or calls `thread_exit`. -/
  | exit (retval : α)
  | die
  | call
  | join
  /-- `thread_interrupt` of the joiner. -/
  | interrupt

variable {α : Type}

/-- The thread is used. -/
def St.access (s : St α) : St α := { s with fault := s.fault || s.disposed ≠ 0 }

def St.dispose (s : St α) : St α := { s.access with disposed := s.disposed + 1 }

def St.dieStep (s : St α) : Option (St α) :=
  match s.die with
  | .run | .gone => none
  | .lock => if s.lock.isSome then none else some { s.access with lock := some .dying, die := .notify }
  | .notify => some { s.access with done := true, queued := false, die := .switch }
  | .switch => some { (if s.joinable then { s.access with lock := none } else s.dispose) with die := .gone }

def St.joinStep (s : St α) : Option (St α) :=
  match s.join with
  | .idle | .ret _ | .refused => none
  | .lock => if s.lock.isSome then none else some { s.access with lock := some .joiner, join := .test }
  | .test =>
    if s.done then some { s.dispose with join := .ret s.retval }
    else some { s.access with queued := true, lock := none, join := .asleep }
  | .asleep => if s.queued then none else some { s with join := .lock }

def step (s : St α) : Ev α → Option (St α)
  | .exit v => if s.die = .run then some { s.access with retval := some v, die := .lock } else none
  | .die => s.dieStep
  | .call =>
    match s.join with
    | .idle => some { s.access with join := if s.joinable then .lock else .refused }
    | _ => none
  | .join => s.joinStep
  | .interrupt => if s.queued then some { s with queued := false } else none

def machine (joinable : Bool) : Machine (St α) (Ev α) := ⟨{ joinable }, step⟩

/-- `thread_join` is called with a thread that is still there. -/
def valid (s : St α) : Ev α → Bool
  | .call => s.joinable || s.die ≠ .gone
  | _ => true

def JoinPc.returned : JoinPc α → Bool
  | ret _ => true
  | _ => false

structure Inv (s : St α) : Prop where
  dying : s.lock = some .dying ↔ s.die = .notify ∨ s.die = .switch ∨ s.die = .gone ∧ s.joinable = false
  joiner : s.lock = some .joiner ↔ s.join = .test ∨ s.join.returned = true
  done : s.done = true ↔ s.die = .switch ∨ s.die = .gone
  queued : s.queued = true → s.join = .asleep ∧ s.done = false
  refused : s.joinable = false → s.join = .idle ∨ s.join = .refused
  ret : ∀ v, s.join = .ret v → s.die = .gone ∧ v = s.retval
  retval : s.die = .run ∨ s.retval.isSome
  disposed : s.disposed = (if s.joinable then s.join.returned else s.die = .gone).toNat
  fault : s.fault = false

section
variable {s s' : St α} (hi : Inv s)
include hi

lemma Inv.not_returned (h : s.die ≠ .gone) : s.join.returned = false := by
  cases hj : s.join with
  | ret v => exact absurd (hi.ret v hj).1 h
  | _ => rfl

lemma Inv.access (h : s.joinable = false → s.die ≠ .gone) (hr : s.join.returned = false) : s.access = s := by
  have hd : s.disposed = 0 := by
    rw [hi.disposed]
    cases hj : s.joinable <;> simp_all
  have hf : (s.fault || s.disposed ≠ 0) = s.fault := by simp [hd]
  rw [St.access, hf]

lemma inv_die (h : s.dieStep = some s') : Inv s' := by
  have hr := hi.not_returned
  have ha : s.die ≠ .gone → s.access = s := fun hn => hi.access (fun _ => hn) (hr hn)
  obtain ⟨hdy, hjo, hdo, hqu, hre, hrt, hrv, hdi, hfa⟩ := hi
  unfold St.dieStep St.dispose at h
  cases hd : s.die with simp only [hd] at h
  | run | gone => cases h
  | lock =>
    rw [ha (by simp [hd])] at h
    split at h <;> cases h
    constructor <;> simp_all
  | notify =>
    rw [ha (by simp [hd])] at h
    cases h
    constructor <;> simp_all
  | switch =>
    rw [ha (by simp [hd])] at h
    cases h
    split <;> constructor <;> simp_all

lemma inv_join (h : s.joinStep = some s') : Inv s' := by
  have ha := hi.access
  obtain ⟨hdy, hjo, hdo, hqu, hre, hrt, hrv, hdi, hfa⟩ := hi
  unfold St.joinStep St.dispose at h
  cases hj : s.join with simp only [hj] at h
  | idle | ret | refused => cases h
  | lock | test =>
    rw [ha (by simp_all) (by simp [hj, JoinPc.returned])] at h
    split at h <;> cases h
    all_goals constructor <;> simp_all [JoinPc.returned]
  | asleep =>
    split at h <;> cases h
    constructor <;> simp_all [JoinPc.returned]

lemma inv_step {e : Ev α} (hv : valid s e) (h : step s e = some s') : Inv s' := by
  cases e with simp only [step] at h
  | die => exact inv_die hi h
  | join => exact inv_join hi h
  | exit v =>
    split at h <;> cases h
    next hd =>
      rw [hi.access (by simp [hd]) (hi.not_returned (by simp [hd]))]
      obtain ⟨hdy, hjo, hdo, hqu, hre, hrt, hrv, hdi, hfa⟩ := hi
      constructor <;> simp_all
  | call =>
    split at h <;> cases h
    next hj =>
      rw [hi.access (fun hn => by simpa [valid, hn] using hv) (by simp [hj, JoinPc.returned])]
      obtain ⟨hdy, hjo, hdo, hqu, hre, hrt, hrv, hdi, hfa⟩ := hi
      cases hb : s.joinable <;> constructor <;> simp_all [JoinPc.returned]
  | interrupt =>
    split at h <;> cases h
    exact { hi with queued := nofun }

end

end Photon.Join
