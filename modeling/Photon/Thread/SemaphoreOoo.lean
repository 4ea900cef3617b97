import Photon.Thread.Basic
/-!
# Out-of-order resuming of a semaphore

`try_resume` of a semaphore with `m_ooo_resume`. The second loop goes on behind
a head that asks for too much and holds `q.lock`, the lock that
`dequeue_ready_atomic` takes to unlink a waiter: `waitq` is the address of `q`.
-/

namespace Photon.SemaphoreOoo

open List

/-- A thread in the queue; `wait_interruptible(0)` returns before it sleeps. -/
structure Waiter where
  th : Tid
  semaphoreCount : Nat
  pos : 0 < semaphoreCount
  deriving DecidableEq

/-- The ring behind `q.th`, `q.lock`, and the waiters that were made ready. -/
structure St where
  q : List Waiter
  lock : Bool := false
  resumed : List Waiter := []

variable {s : St} {cnt : Nat} {q : List Waiter} {w : Waiter}

/-- `prelocked_thread_interrupt`, by `dequeue_ready_atomic`; `none` when it spins on a lock its own thread holds. -/
def prelockedThreadInterrupt (s : St) (th : Waiter) : Option St :=
  if s.lock then none else some { s with q := s.q.erase th, resumed := s.resumed ++ [th] }

def resumeHeads (cnt : Nat) (s : St) : Option (Nat × St) :=
  match s.q with
  | [] => some (cnt, s)
  | th :: _ =>
    if cnt < th.semaphoreCount then some (cnt, s)
    else do resumeHeads (cnt - th.semaphoreCount) (← prelockedThreadInterrupt s th)
termination_by cnt
decreasing_by have := th.pos; omega

/-- The second loop, from `q.th->next()` on until it is back at `q.th`. -/
def resumeBehind (cnt : Nat) (s : St) : List Waiter → Option St
  | [] => some s
  | th :: tl =>
    if cnt = 0 then some s
    else if th.semaphoreCount ≤ cnt then do resumeBehind (cnt - th.semaphoreCount) (← prelockedThreadInterrupt s th) tl
    else resumeBehind cnt s tl

def tryResume (cnt : Nat) (s : St) : Option St := do
  let (cnt, s) ← resumeHeads cnt s
  match s.q with
  | [] => some s
  | _ :: tl =>
    if cnt = 0 then some s
    else do
      let s ← resumeBehind cnt { s with lock := true } tl
      some { s with lock := false }

/-- The waiters to resume: each one that fits into what is left, in order. -/
def greedy (cnt : Nat) : List Waiter → List Waiter
  | [] => []
  | w :: q => if w.semaphoreCount ≤ cnt then w :: greedy (cnt - w.semaphoreCount) q else greedy cnt q

lemma le_of_mem_greedy (h : w ∈ greedy cnt q) : w.semaphoreCount ≤ cnt := by
  induction q generalizing cnt with
  | nil => cases h
  | cons x q ih =>
    rw [greedy] at h
    split at h
    · rcases mem_cons.1 h with rfl | h
      · assumption
      · exact le_trans (ih h) (Nat.sub_le ..)
    · exact ih h

lemma greedy_prefix_cons (h : cnt < w.semaphoreCount) : greedy cnt q <+: w :: q ↔ greedy cnt q = [] := by
  refine ⟨fun hp => ?_, fun hg => hg ▸ nil_prefix⟩
  rcases prefix_cons_iff.1 hp with hg | ⟨g, hg, -⟩
  · exact hg
  · have := le_of_mem_greedy (hg ▸ mem_cons_self : w ∈ greedy cnt q)
    omega

/-- Behind the head nobody can be resumed: the first one that fits is unlinked with `q.lock` held. -/
lemma resumeBehind_eq (hs : s.lock = true) (h0 : cnt ≠ 0) :
    resumeBehind cnt s q = if greedy cnt q = [] then some s else none := by
  induction q with
  | nil => rfl
  | cons w q ih =>
    rw [resumeBehind, if_neg h0, greedy]
    split
    · simp [prelockedThreadInterrupt, hs]
    · exact ih

lemma greedy_zero : greedy 0 q = [] :=
  eq_nil_iff_forall_not_mem.2 fun w hw => absurd w.pos (not_lt.2 (le_of_mem_greedy hw))

lemma tryResume_eq (l : List Waiter) : tryResume cnt { q, resumed := l } =
    if greedy cnt q <+: q then some { q := q.drop (greedy cnt q).length, resumed := l ++ greedy cnt q } else none := by
  induction q generalizing cnt l with
  | nil => simp [tryResume, resumeHeads, greedy]
  | cons w q ih =>
    rw [greedy]
    split
    next hw =>
      have hs : tryResume cnt { q := w :: q, resumed := l } =
          tryResume (cnt - w.semaphoreCount) { q, resumed := l ++ [w] } := by
        rw [tryResume, resumeHeads]
        simp only [if_neg (not_lt.2 hw), prelockedThreadInterrupt, erase_cons_head]
        rfl
      simp [hs, ih]
    next hw =>
      have hw := not_le.1 hw
      simp only [greedy_prefix_cons hw]
      rw [tryResume, resumeHeads]
      simp only [if_pos hw]
      change (if cnt = 0 then _ else _) = _
      split
      · rename_i h0
        simp [h0, greedy_zero]
      · rename_i h0
        rw [resumeBehind_eq rfl h0]
        split <;> simp_all

/-- Out of order, `try_resume` resumes the waiters that fit if and only if they are the first ones of the queue. -/
theorem try_resume_iff (cnt : Nat) (q : List Waiter) :
    (∃ s, tryResume cnt { q } = some s ∧ s.resumed = greedy cnt q) ↔ greedy cnt q <+: q := by
  rw [tryResume_eq]
  split
  next h => exact ⟨fun _ => h, fun _ => ⟨_, rfl, nil_append _⟩⟩
  next h =>
    constructor
    · rintro ⟨_, hs, _⟩
      cases hs
    · exact fun hp => absurd hp h

/-- A head that asks for 2 and one behind it that asks for 1. -/
theorem try_resume_spins :
    let w : Waiter := ⟨2, 1, by decide⟩
    tryResume 1 { q := [⟨1, 2, by decide⟩, w] } = none ∧ greedy 1 [⟨1, 2, by decide⟩, w] = [w] := by
  intro w
  have hg : greedy 1 [⟨1, 2, by decide⟩, w] = [w] := rfl
  refine ⟨?_, hg⟩
  rw [tryResume_eq, hg, if_neg (by decide)]

end Photon.SemaphoreOoo
