import Photon.Lib.Machine
/-!
# Threads over a shared state

Any number of threads, each with a state of its own, take turns: a step of one
thread reads and writes the shared state and its own, and then every thread
sees the shared state it left (`observe`), which is where a thread records what
held at some moment while it ran.

`threads_inv` proves an invariant thread by thread: a fact `G` of the shared
state, a fact `L` of the shared state and one thread, and a fact `X` of any two
threads. A step has to keep the first two for its own thread, and for any other
thread that was apart from it.
-/

/-- The shared state and the state of each thread. -/
structure Threads (σ π : Type) where
  shared : σ
  thread : Nat → π

namespace Threads

open Function

variable {σ π ε : Type}

/-- Thread `t` leaves the shared state `q` and is itself in `p`. -/
def move (s : Threads σ π) (observe : σ → π → π) (t : Nat) (q : σ) (p : π) : Threads σ π :=
  ⟨q, fun u => observe q (update s.thread t p u)⟩

/-- All threads start in `p0`; an event is a step of one of them. -/
def machine (q0 : σ) (p0 : π) (observe : σ → π → π) (next : σ → π → ε → Option (σ × π)) :
    Machine (Threads σ π) (Nat × ε) :=
  ⟨⟨q0, fun _ => p0⟩, fun s e => (next s.shared (s.thread e.1) e.2).map fun r => s.move observe e.1 r.1 r.2⟩

/-- What holds of the shared state, of each thread in it, and of any two threads. -/
structure Holds (G : σ → Prop) (L : σ → π → Prop) (X : π → π → Prop) (s : Threads σ π) : Prop where
  shared : G s.shared
  thread : ∀ t, L s.shared (s.thread t)
  apart : ∀ t u, t ≠ u → X (s.thread t) (s.thread u)

variable {G : σ → Prop} {L : σ → π → Prop} {X : π → π → Prop} {observe : σ → π → π}

lemma Holds.move {s : Threads σ π} (hs : Holds G L X s) (hsy : ∀ p r, X p r → X r p)
    (ho : ∀ q p r, X p r → X (observe q p) (observe q r)) {t : Nat} {q : σ} {p : π} (hG : G q) (hL : L q (observe q p))
    (hr : ∀ r, L s.shared r → X (s.thread t) r → L q (observe q r) ∧ X p r) :
    Holds G L X (s.move observe t q p) where
  shared := hG
  thread := by
    intro u
    simp only [Threads.move]
    by_cases hu : u = t
    · rw [hu, update_self]
      exact hL
    · rw [update_of_ne hu]
      exact (hr _ (hs.thread u) (hs.apart t u (Ne.symm hu))).1
  apart := by
    intro u v huv
    refine ho q _ _ ?_
    by_cases hu : u = t
    · have hv : v ≠ t := fun h => huv (hu.trans h.symm)
      rw [hu, update_self, update_of_ne hv]
      exact (hr _ (hs.thread v) (hs.apart t v (Ne.symm hv))).2
    rw [update_of_ne hu]
    by_cases hv : v = t
    · rw [hv, update_self]
      exact hsy _ _ (hr _ (hs.thread u) (hs.apart t u (Ne.symm hu))).2
    · rw [update_of_ne hv]
      exact hs.apart u v huv

/-- The three facts hold after every run if each step keeps them, for its own thread and for one that was apart from
it. -/
lemma threads_inv {q0 : σ} {p0 : π} {next : σ → π → ε → Option (σ × π)} (hsy : ∀ p r, X p r → X r p)
    (ho : ∀ q p r, X p r → X (observe q p) (observe q r)) (hG : G q0) (hL : L q0 p0) (hX : X p0 p0)
    (hst : ∀ q p e q' p', G q → L q p → next q p e = some (q', p') →
      G q' ∧ L q' (observe q' p') ∧ ∀ r, L q r → X p r → L q' (observe q' r) ∧ X p' r)
    {s : Threads σ π} {es : List (Nat × ε)} (h : (machine q0 p0 observe next).run es = some s) : Holds G L X s := by
  refine Machine.run_inv (I := Holds G L X) ⟨hG, fun _ => hL, fun _ _ _ => hX⟩ (fun {_ e _} hs he => ?_) h
  obtain ⟨⟨q', p'⟩, hn, rfl⟩ := Option.map_eq_some_iff.1 he
  obtain ⟨h1, h2, h3⟩ := hst _ _ _ _ _ hs.shared (hs.thread e.1) hn
  exact hs.move hsy ho h1 h2 h3

end Threads
