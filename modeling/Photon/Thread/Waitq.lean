import Photon.Thread.Basic
/-!
# Wait queues

The queue of one primitive and the threads that use it. The functions are the
ones of thread.cpp that move a thread between running, sleeping and ready.
`same` is the comparison `prelocked_thread_interrupt` makes between the vCPU of
the woken thread and the one of the caller.

A thread that is busy with something other than the primitive counts as
`running`: what it does there is not modelled.
-/

namespace Photon

open Function List

/-- The lock a primitive takes around its queue; `deferred` when a sleeper left
the release to the function that runs after the switch. -/
inductive Guard where
  | free
  | held (t : Tid)
  | deferred
  deriving DecidableEq

section
variable {π : Type} {pc : Tid → π} {f : π → Bool} {t : Tid} {p : π} {g : Guard} {P : Tid → Prop}
  (h : ∀ t, f (pc t) = true → g = .held t)
include h

lemma Guard.nobody (hg : g = .free) : ∀ u, u ≠ t → f (pc u) = true → P u := by
  intro u _ hf
  cases hg.symm.trans (h u hf)

variable (hp : pc t = p) (ht : f p = true)
include hp ht

lemma Guard.mine : g = .held t := by
  subst hp
  exact h t ht

lemma Guard.held_unique {u : Tid} (hu : u ≠ t) : f (pc u) = false := by
  by_contra hf
  have hg := (Guard.mine h hp ht).symm.trans (h u (by simpa using hf))
  exact hu (Guard.held.inj hg).symm

lemma Guard.alone : ∀ u, u ≠ t → f (pc u) = true → P u := by
  intro u hu hf
  rw [Guard.held_unique h hp ht hu] at hf
  cases hf

end

structure Waitq where
  q : List Tid := []
  th : Tid → Thread := fun _ => {}

open Waitq

namespace Waitq

def setTh (s : Waitq) (t : Tid) (x : Thread) : Waitq := { s with th := update s.th t x }

def dequeueReadyAtomic (s : Waitq) (t : Tid) (newstat : States) : Waitq :=
  if (s.th t).waitq then
    { q := s.q.erase t, th := update s.th t { s.th t with waitq := false, state := newstat } }
  else s.setTh t { s.th t with state := newstat }

/-- `prelocked_thread_interrupt`: a thread of another vCPU goes to its standby
queue. -/
def prelockedThreadInterrupt (s : Waitq) (t : Tid) (errorNumber : Int) (same : Bool) : Waitq :=
  (s.setTh t { s.th t with errorNumber := errorNumber }).dequeueReadyAtomic t (if same then .ready else .standby)

/-- `thread_interrupt`. A sleeping thread whose lock is taken makes the caller
spin, so the call does not happen yet. -/
def threadInterrupt (s : Waitq) (t : Tid) (errorNumber : Int) (same : Bool) : Option Waitq :=
  match (s.th t).state with
  | .sleeping => if (s.th t).lock then none else some (s.prelockedThreadInterrupt t errorNumber same)
  | .ready =>
    if (s.th t).errorNumber = 0 then some (s.setTh t { s.th t with errorNumber := errorNumber }) else some s
  | _ => some s

/-- The branch of `resume_threads` for a sleeper whose time has come; it takes
the lock of the thread. -/
def resumeTimeout (s : Waitq) (t : Tid) : Option Waitq :=
  if (s.th t).state = .sleeping ∧ (s.th t).lock = false then some (s.dequeueReadyAtomic t .ready) else none

/-- The branch of `resume_threads` for a thread of the standby queue. -/
def resumeStandby (s : Waitq) (t : Tid) : Option Waitq :=
  if (s.th t).state = .standby then some (s.setTh t { s.th t with state := .ready }) else none

def switchTo (s : Waitq) (t : Tid) : Option Waitq :=
  if (s.th t).state = .ready then some (s.setTh t { s.th t with state := .running }) else none

/-- `waitq::resume_one` with error number -1: the head of the queue is locked,
taken out and released. -/
def resumeOne (s : Waitq) (same : Bool) : Waitq :=
  match s.q with
  | [] => s
  | h :: _ => s.prelockedThreadInterrupt h (-1) same

/-- `prepare_usleep` with a queue: the thread goes to its tail and sleeps. -/
def prepareUsleep (s : Waitq) (t : Tid) : Waitq :=
  { q := s.q ++ [t], th := update s.th t { s.th t with waitq := true, state := .sleeping } }

def yieldStart (s : Waitq) (t : Tid) : Waitq := s.setTh t { s.th t with errorNumber := 0, state := .ready }

/-- What the scheduler, the timers and the callers of `thread_interrupt` do to
the threads between the steps of a primitive. -/
inductive Env where
  | run (t : Tid)
  | timeout (t : Tid)
  | standby (t : Tid)
  | interrupt (t : Tid) (errorNumber : Int) (same : Bool)
  deriving DecidableEq

def env (s : Waitq) : Env → Option Waitq
  | .run t => s.switchTo t
  | .timeout t => s.resumeTimeout t
  | .standby t => s.resumeStandby t
  | .interrupt t e same => if e = -1 then none else s.threadInterrupt t e same

@[simp] lemma setTh_q (s : Waitq) (t : Tid) (x : Thread) : (s.setTh t x).q = s.q := rfl

@[simp] lemma setTh_th (s : Waitq) (t u : Tid) (x : Thread) :
    (s.setTh t x).th u = if u = t then x else s.th u := update_apply ..

@[simp] lemma prepareUsleep_q (s : Waitq) (t : Tid) : (s.prepareUsleep t).q = s.q ++ [t] := rfl

@[simp] lemma prepareUsleep_th (s : Waitq) (t u : Tid) : (s.prepareUsleep t).th u =
    if u = t then { s.th t with waitq := true, state := .sleeping } else s.th u := update_apply ..

/-! ## A consistent queue -/

/-- The queue is consistent with the threads: each sleeper is in it exactly
once, and nobody else is. -/
structure Ok (s : Waitq) : Prop where
  nodup : s.q.Nodup
  mem_iff : ∀ t, t ∈ s.q ↔ (s.th t).waitq = true
  sleeping_iff : ∀ t, (s.th t).state = .sleeping ↔ (s.th t).waitq = true

lemma ok_init : Ok {} where
  nodup := nodup_nil
  mem_iff t := by simp
  sleeping_iff t := by simp

variable {s : Waitq}

lemma Ok.setTh (h : s.Ok) (t : Tid) (x : Thread) (hw : x.waitq = (s.th t).waitq)
    (hx : x.state = .sleeping ↔ x.waitq = true) : (s.setTh t x).Ok where
  nodup := h.nodup
  mem_iff u := by
    by_cases hu : u = t
    · subst hu; simp [hw, h.mem_iff]
    · simp [hu, h.mem_iff]
  sleeping_iff u := by
    by_cases hu : u = t
    · subst hu; simpa using hx
    · simpa [hu] using h.sleeping_iff u

lemma Ok.erase (h : s.Ok) (t : Tid) (x : Thread) (hw : x.waitq = false) (hx : x.state ≠ .sleeping) :
    Ok { q := s.q.erase t, th := update s.th t x } where
  nodup := h.nodup.erase t
  mem_iff u := by
    by_cases hu : u = t
    · subst hu; simp [hw, h.nodup.mem_erase_iff]
    · simp [hu, h.nodup.mem_erase_iff, h.mem_iff]
  sleeping_iff u := by
    by_cases hu : u = t
    · subst hu; simp [hw, hx]
    · simpa [hu] using h.sleeping_iff u

lemma Ok.prepareUsleep (h : s.Ok) (ht : (s.th t).waitq = false) : (s.prepareUsleep t).Ok where
  nodup := by
    refine nodup_append.2 ⟨h.nodup, nodup_singleton t, ?_⟩
    rintro u hu v hv rfl
    rw [mem_singleton] at hv
    subst hv
    simp [h.mem_iff, ht] at hu
  mem_iff u := by
    by_cases hu : u = t
    · subst hu; simp
    · simp [hu, h.mem_iff]
  sleeping_iff u := by
    by_cases hu : u = t
    · subst hu; simp
    · simpa [hu] using h.sleeping_iff u

lemma prelocked_eq (ht : (s.th t).waitq = true) (e : Int) (same : Bool) :
    s.prelockedThreadInterrupt t e same =
      { q := s.q.erase t
        th := update s.th t
          { s.th t with errorNumber := e, waitq := false, state := if same then .ready else .standby } } := by
  simp [prelockedThreadInterrupt, dequeueReadyAtomic, setTh, ht]

lemma Ok.prelocked (h : s.Ok) (ht : (s.th t).waitq = true) (e : Int) (same : Bool) :
    (s.prelockedThreadInterrupt t e same).Ok := by
  rw [prelocked_eq ht]
  exact h.erase t _ rfl (by cases same <;> simp)

/-! ## What the environment does -/

/-- The three things an event of the environment can do: nothing, take a waiter
out of the queue, or move a thread that is in no queue. No event makes an error
number -1, and none overwrites one that is set while the thread is not asleep. -/
inductive Moved (s : Waitq) : Waitq → Prop
  | same : Moved s s
  | woken (t : Tid) (st : States) (e : Int) : (s.th t).waitq = true → (s.th t).lock = false →
      st = .ready ∨ st = .standby → e = (s.th t).errorNumber ∨ e ≠ -1 →
      Moved s { q := s.q.erase t
                th := update s.th t { s.th t with errorNumber := e, waitq := false, state := st } }
  | kept (t : Tid) (st : States) (e : Int) : (s.th t).waitq = false →
      (s.th t).state = .ready ∨ (s.th t).state = .standby → st = .ready ∨ st = .running →
      e = (s.th t).errorNumber ∨ ((s.th t).errorNumber = 0 ∧ e ≠ -1) →
      Moved s (s.setTh t { s.th t with errorNumber := e, state := st })

lemma env_moved {s' : Waitq} (hs : s.Ok) {e : Env} (h : s.env e = some s') : Moved s s' := by
  have hw : ∀ t, (s.th t).state ≠ .sleeping → (s.th t).waitq = false := fun t ht => by
    simpa using mt (hs.sleeping_iff t).2 ht
  cases e with
  | run t =>
    simp only [env, switchTo] at h
    split at h <;> cases h
    rename_i hr
    exact .kept t .running _ (hw t (by simp [hr])) (.inl hr) (.inr rfl) (.inl rfl)
  | timeout t =>
    simp only [env, resumeTimeout] at h
    split at h <;> cases h
    rename_i hr
    have ht := (hs.sleeping_iff t).1 hr.1
    simp only [dequeueReadyAtomic, ht, ite_true]
    exact .woken t .ready _ ht hr.2 (.inl rfl) (.inl rfl)
  | standby t =>
    simp only [env, resumeStandby] at h
    split at h <;> cases h
    rename_i hr
    exact .kept t .ready _ (hw t (by simp [hr])) (.inr hr) (.inl rfl) (.inl rfl)
  | interrupt t e same =>
    simp only [env, threadInterrupt] at h
    split at h
    · cases h
    rename_i he
    split at h
    next hr =>
      split at h <;> cases h
      rename_i hl
      have ht := (hs.sleeping_iff t).1 hr
      rw [prelocked_eq ht]
      exact .woken t _ e ht (by simpa using hl) (by cases same <;> simp) (.inr he)
    next hr =>
      split at h <;> cases h
      · rename_i h0
        have hk := Moved.kept t .ready e (hw t (by simp [hr])) (.inl hr) (.inl rfl) (.inr ⟨h0, he⟩)
        rwa [← hr] at hk
      · exact .same
    · cases h
      exact .same

lemma Ok.moved {s' : Waitq} (hs : s.Ok) (h : Moved s s') : s'.Ok := by
  cases h with
  | same => exact hs
  | woken t st e _ _ hst => exact hs.erase t _ rfl (by rcases hst with rfl | rfl <;> simp)
  | kept t st e hw _ hst =>
    exact hs.setTh t _ rfl (by rcases hst with rfl | rfl <;> simp [hw])

end Waitq

end Photon
