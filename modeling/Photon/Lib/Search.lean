import Mathlib.Data.List.Basic
/-!
# Lower bound

Binary search for the end of the elements that come first: `below` holds of a
beginning of the list and of nothing after it. The search keeps the half that has
the end in it, and `lowerBound_spec` says that it arrives there.
-/

variable {α : Type}

/-- `std::lower_bound` on the `len` elements from `first`; `fuel` passes of its loop. -/
def lowerBoundFrom (below : α → Bool) (l : List α) : Nat → Nat → Nat → Nat
  | 0, first, _ => first
  | fuel + 1, first, len =>
    if len = 0 then first
    else if l[first + len / 2]?.any below then lowerBoundFrom below l fuel (first + len / 2 + 1) (len - len / 2 - 1)
    else lowerBoundFrom below l fuel first (len / 2)

def lowerBound (below : α → Bool) (l : List α) : Nat := lowerBoundFrom below l l.length 0 l.length

lemma lowerBoundFrom_map {β : Type} (below : β → Bool) (f : α → β) (l : List α) (fuel first len : Nat) :
    lowerBoundFrom below (l.map f) fuel first len = lowerBoundFrom (fun a => below (f a)) l fuel first len := by
  induction fuel generalizing first len with
  | zero => rfl
  | succ fuel ih =>
    have ha : (l.map f)[first + len / 2]?.any below = l[first + len / 2]?.any fun a => below (f a) := by
      rw [List.getElem?_map, Option.any_map]
    unfold lowerBoundFrom
    rw [ha, ih, ih]

lemma lowerBound_map {β : Type} (below : β → Bool) (f : α → β) (l : List α) :
    lowerBound below (l.map f) = lowerBound (fun a => below (f a)) l := by
  unfold lowerBound
  rw [List.length_map, lowerBoundFrom_map]

/-- The elements for which `below` holds come before the others. -/
def Partitioned (below : α → Bool) (l : List α) : Prop :=
  ∀ i j : Nat, i ≤ j → l[j]?.any below = true → l[i]?.any below = true

section
variable {below : α → Bool} {l : List α} (hp : Partitioned below l)
include hp

lemma lowerBoundFrom_spec {fuel first len : Nat} (hf : len ≤ fuel) (hl : first + len ≤ l.length)
    (hlo : ∀ i < first, l[i]?.any below = true) (hh : ∀ i, first + len ≤ i → l[i]?.any below = false) :
    lowerBoundFrom below l fuel first len ≤ l.length ∧
    (∀ i < lowerBoundFrom below l fuel first len, l[i]?.any below = true) ∧
    ∀ i, lowerBoundFrom below l fuel first len ≤ i → l[i]?.any below = false := by
  induction fuel generalizing first len with
  | zero =>
    obtain rfl : len = 0 := by omega
    exact ⟨hl, hlo, hh⟩
  | succ fuel ih =>
    unfold lowerBoundFrom
    by_cases h0 : len = 0
    · rw [if_pos h0]
      subst h0
      exact ⟨hl, hlo, hh⟩
    rw [if_neg h0]
    by_cases hm : l[first + len / 2]?.any below = true
    · rw [if_pos hm]
      refine ih (by omega) (by omega) (fun i hi => ?_) (fun i hi => hh i (by omega))
      exact hp i _ (by omega) hm
    rw [if_neg hm]
    refine ih (by omega) (by omega) hlo (fun i hi => ?_)
    by_contra hi'
    exact hm (hp _ i hi (by simpa using hi'))

lemma lowerBound_spec : lowerBound below l ≤ l.length ∧
    (∀ i < lowerBound below l, l[i]?.any below = true) ∧ ∀ i, lowerBound below l ≤ i → l[i]?.any below = false := by
  refine lowerBoundFrom_spec hp (Nat.le_refl _) (by omega) (fun i hi => absurd hi (Nat.not_lt_zero i)) fun i hi => ?_
  rw [List.getElem?_eq_none (by omega)]
  rfl

lemma lowerBound_eq_succ {i : Nat}
    (hi : l[i]?.any below = true) (hn : l[i + 1]?.any below = false) : lowerBound below l = i + 1 := by
  obtain ⟨-, hlo, hh⟩ := lowerBound_spec hp
  have h1 : i < lowerBound below l := by
    by_contra h
    rw [hh i (by omega)] at hi
    cases hi
  have h2 : lowerBound below l ≤ i + 1 := by
    by_contra h
    rw [hlo (i + 1) (by omega)] at hn
    cases hn
  omega

end

lemma lowerBoundFrom_le (below : α → Bool) (l : List α) (fuel first len : Nat) :
    lowerBoundFrom below l fuel first len ≤ first + len := by
  induction fuel generalizing first len with
  | zero => exact Nat.le_add_right ..
  | succ fuel ih =>
    unfold lowerBoundFrom
    split
    · exact Nat.le_add_right ..
    split
    · have := ih (first + len / 2 + 1) (len - len / 2 - 1)
      omega
    · have := ih first (len / 2)
      omega

lemma lowerBound_le_length (below : α → Bool) (l : List α) : lowerBound below l ≤ l.length := by
  have := lowerBoundFrom_le below l l.length 0 l.length
  rwa [Nat.zero_add] at this
