import Mathlib.Data.List.Infix
import Mathlib.Data.List.Nodup
import Mathlib.Data.Set.Basic
/-!
# Handing out memory

An arena is a memory, a pool of addresses that are handed out from the front, and an
address from which on nothing is in use. A move may write the addresses `A` it was called
for, what it takes from the pool and what it allocates: these it owns. What it has put there
is not touched by later moves, so a fact about them holds of every later memory.
-/

structure Arena (β : Type) where
  mem : Nat → β
  pool : List Nat
  brk : Nat

namespace Arena

variable {β : Type} {s s1 s2 : Arena β} {A B : Set Nat}

structure Sound (s : Arena β) : Prop where
  fresh : ∀ x ∈ s.pool, x < s.brk
  nodup : s.pool.Nodup

/-- The addresses are in use, and not in the pool. -/
def Apart (A : Set Nat) (s : Arena β) : Prop := ∀ x ∈ A, x < s.brk ∧ x ∉ s.pool

/-- What a move from `s` to `s1` may have written. -/
def Own (A : Set Nat) (s s1 : Arena β) : Set Nat :=
  {x | x ∈ A ∨ (x ∈ s.pool ∧ x ∉ s1.pool) ∨ (s.brk ≤ x ∧ x < s1.brk)}

structure Moves (A : Set Nat) (s s1 : Arena β) : Prop where
  pool : s1.pool <:+ s.pool
  brk : s.brk ≤ s1.brk
  frame : ∀ x < s.brk, x ∉ Own A s s1 → s1.mem x = s.mem x

/-- The addresses from `a` on. -/
def span (a n : Nat) : Set Nat := {x | a ≤ x ∧ x < a + n}

/-- The memory has what the move put where it owns. -/
def Keeps (A : Set Nat) (s s1 : Arena β) (mem : Nat → β) : Prop := ∀ x ∈ Own A s s1, mem x = s1.mem x

lemma Moves.refl (A : Set Nat) (s : Arena β) : Moves A s s := ⟨List.suffix_rfl, le_rfl, fun _ _ _ => rfl⟩

lemma Moves.mem_pool (h : Moves A s s1) {x : Nat} (hx : x ∈ s1.pool) : x ∈ s.pool := h.pool.subset hx

lemma Sound.moves (hs : s.Sound) (h : Moves A s s1) : s1.Sound :=
  ⟨fun _ hx => lt_of_lt_of_le (hs.fresh _ (h.mem_pool hx)) h.brk, hs.nodup.sublist h.pool.sublist⟩

lemma Apart.moves (hB : Apart B s) (h : Moves A s s1) : Apart B s1 := fun x hx =>
  ⟨lt_of_lt_of_le (hB x hx).1 h.brk, fun hp => (hB x hx).2 (h.mem_pool hp)⟩

lemma Apart.mono (hB : Apart B s) (h : A ⊆ B) : Apart A s := fun x hx => hB x (h hx)

lemma Moves.apart_own (h : Moves A s s1) (hs : s.Sound) (hA : Apart A s) : Apart (Own A s s1) s1 := by
  rintro x (hx | ⟨hp, hn⟩ | ⟨hlo, hh⟩)
  · exact hA.moves h x hx
  · exact ⟨lt_of_lt_of_le (hs.fresh x hp) h.brk, hn⟩
  · exact ⟨hh, fun hp => absurd (hs.fresh x (h.mem_pool hp)) (by omega)⟩

lemma Moves.own_mono (h : Moves B s1 s2) : Own A s s1 ⊆ Own A s s2 := by
  rintro x (hx | ⟨hp, hn⟩ | ⟨hlo, hh⟩)
  · exact .inl hx
  · exact .inr (.inl ⟨hp, fun hp2 => hn (h.mem_pool hp2)⟩)
  · exact .inr (.inr ⟨hlo, lt_of_lt_of_le hh h.brk⟩)

section
variable {x : Nat} (h : Moves A s s1)
include h

lemma Moves.own_next (h2 : Moves B s1 s2) (hB : B ⊆ Own A s s1) : Own B s1 s2 ⊆ Own A s s2 := by
  rintro x (hx | ⟨hp, hn⟩ | ⟨hlo, hh⟩)
  · exact h2.own_mono (hB hx)
  · exact .inr (.inl ⟨h.mem_pool hp, hn⟩)
  · exact .inr (.inr ⟨le_trans h.brk hlo, hh⟩)

lemma Moves.trans (h2 : Moves B s1 s2) (hB : B ⊆ Own A s s1) : Moves A s s2 where
  pool := h2.pool.trans h.pool
  brk := le_trans h.brk h2.brk
  frame x hx hno := by
    rw [h2.frame x (lt_of_lt_of_le hx h.brk) fun ho => hno (h.own_next h2 hB ho)]
    exact h.frame x hx fun ho => hno (h2.own_mono ho)

lemma Moves.mono (hA : A ⊆ B) : Moves B s s1 where
  __ := h
  frame x hx hno := by
    refine h.frame x hx ?_
    rintro (ho | ho)
    · exact hno (.inl (hA ho))
    · exact hno (.inr ho)

lemma Moves.pool_kept (hs : s.Sound) (hA : Apart A s) (hx : x ∈ s1.pool) : s1.mem x = s.mem x := by
  have hp := h.mem_pool hx
  refine h.frame x (hs.fresh x hp) ?_
  rintro (ho | ⟨-, hn⟩ | ⟨hlo, -⟩)
  · exact (hA x ho).2 hp
  · exact hn hx
  · exact absurd (hs.fresh x hp) (by omega)

lemma Moves.apart_kept (hB : Apart B s) (hx : x ∈ B) (hA : x ∉ A) : s1.mem x = s.mem x := by
  refine h.frame x (hB x hx).1 ?_
  rintro (ho | ⟨hp, -⟩ | ⟨hlo, -⟩)
  · exact hA ho
  · exact (hB x hx).2 hp
  · exact absurd (hB x hx).1 (by omega)

lemma Moves.kept (h2 : Moves B s1 s2) (hs : s.Sound) (hA : Apart A s)
    (hx : x ∈ Own A s s1) (hB : x ∉ B) : s2.mem x = s1.mem x :=
  h2.apart_kept (h.apart_own hs hA) hx hB

end

section Keeps

variable {C : Set Nat} {mem : Nat → β}

section
variable (hk : Keeps C s s2 mem)
include hk

lemma Keeps.before (h : Moves A s s1) (h2 : Moves B s1 s2) (hs : s.Sound) (hA : Apart A s)
    (hC : A ⊆ C) {x : Nat} (hx : x ∈ Own A s s1) (hB : x ∉ B) : mem x = s1.mem x := by
  rw [← h.kept h2 hs hA hx hB]
  refine hk x ?_
  rcases h2.own_mono hx with ho | ho
  · exact .inl (hC ho)
  · exact .inr ho

lemma Keeps.after (h : Moves C s s1) (h2 : Moves B s1 s2) (hB : B ⊆ Own C s s1) : Keeps B s1 s2 mem :=
  fun x hx => hk x (h.own_next h2 hB hx)

lemma Keeps.head (h : Moves A s s1) (h2 : Moves B s1 s2) (hs : s.Sound) (hA : Apart A s)
    (hB : Apart B s) (hC : A ⊆ C) (hAB : ∀ x ∈ A, x ∉ B) : Keeps A s s1 mem := by
  intro x hx
  refine hk.before h h2 hs hA hC hx fun hxB => ?_
  obtain ⟨hlt, hn⟩ := hB x hxB
  rcases hx with ho | ⟨hp, -⟩ | ⟨hlo, -⟩
  · exact hAB x ho hxB
  · exact hn hp
  · omega

lemma Keeps.tail (h : Moves A s s1) (h2 : Moves B s1 s2) (hA : A ⊆ C) (hB : B ⊆ C) : Keeps B s1 s2 mem :=
  hk.after (h.mono hA) h2 fun _ hx => .inl (hB hx)

end

end Keeps

end Arena
