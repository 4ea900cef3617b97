import Mathlib.Data.List.Basic
/-!
# Rosters

Participants are listed, and one of them moves at a time. What is counted over
the list changes by what is counted of the one that moves.
-/

namespace Roster

open List

variable {π : Type} {l : List π} {i j : Nat} {a b : π}

lemma countP_set_add (h : l[i]? = some a) (b : π) (p : π → Bool) :
    (l.set i b).countP p + (if p a then 1 else 0) = l.countP p + (if p b then 1 else 0) := by
  obtain ⟨hi, rfl⟩ := List.getElem?_eq_some_iff.1 h
  have hle : (if p l[i] then 1 else 0) ≤ l.countP p := by
    split
    · next hp => exact countP_pos_iff.2 ⟨_, getElem_mem hi, hp⟩
    · exact Nat.zero_le _
  rw [countP_set hi]
  omega

lemma countP_pos (h : l[i]? = some a) {p : π → Bool} (hp : p a = true) : 0 < l.countP p :=
  countP_pos_iff.2 ⟨a, mem_of_getElem? h, hp⟩

lemma getElem?_set_cases (h : (l.set i b)[j]? = some a) : j = i ∧ a = b ∨ j ≠ i ∧ l[j]? = some a := by
  rcases eq_or_ne j i with rfl | hi
  · rw [getElem?_set_self'] at h
    obtain ⟨-, -, rfl⟩ := Option.map_eq_some_iff.1 h
    exact .inl ⟨rfl, rfl⟩
  · rw [getElem?_set_ne (Ne.symm hi)] at h
    exact .inr ⟨hi, h⟩

lemma two_le_countP (hi : i ≠ j) (ha : l[i]? = some a) (hb : l[j]? = some b) {p : π → Bool} (hpa : p a = true)
    (hpb : p b = true) : 2 ≤ l.countP p := by
  induction l generalizing i j with
  | nil => cases ha
  | cons c l ih =>
    cases i with
    | zero =>
      cases ha
      cases j with
      | zero => exact absurd rfl hi
      | succ =>
        rw [getElem?_cons_succ] at hb
        have hpo := countP_pos hb hpb
        rw [countP_cons_of_pos hpa]
        omega
    | succ =>
      cases j with
      | zero =>
        cases hb
        rw [getElem?_cons_succ] at ha
        have hpo := countP_pos ha hpa
        rw [countP_cons_of_pos hpb]
        omega
      | succ =>
        have ht := ih (by omega) ha hb
        rw [countP_cons]
        omega

end Roster
