import Mathlib.Data.List.Infix
import Mathlib.Data.Nat.Find
/-!
# Searching in lists

`findSub` is the first place where a pattern begins, `findIdx?` of the library the first
element with a property.
-/

open List Nat

variable {α : Type} {pat : List α} {l : List α} {t : List α}

lemma isPrefix_of_append {q : Nat} (h : pat <+: (l ++ t).drop q) (hq : q + pat.length ≤ l.length) :
    pat <+: l.drop q := by
  rw [drop_append_of_le_length (by omega)] at h
  exact prefix_of_prefix_length_le h (prefix_append ..) (by rw [length_drop]; omega)

variable {p : Nat} {c : α}

section Pattern

variable [DecidableEq α]

/-- Where `pat` begins first in the list. -/
def findSub (pat : List α) : List α → Option Nat
  | [] => if pat = [] then some 0 else none
  | a :: l => if pat <+: a :: l then some 0 else (findSub pat l).map (· + 1)

lemma findSub_eq_some_iff : findSub pat l = some p ↔ pat <+: l.drop p ∧ ∀ q < p, ¬ pat <+: l.drop q := by
  induction l generalizing p with rw [findSub]
  | nil =>
    simp only [drop_nil, prefix_nil]
    split
    next hn =>
      constructor
      · rintro ⟨rfl⟩
        exact ⟨hn, fun q hq => absurd hq (not_lt_zero q)⟩
      rintro ⟨-, hf⟩
      cases p with
      | zero => rfl
      | succ p => exact absurd hn (hf 0 p.succ_pos)
    next hne => exact ⟨fun h => (by cases h), fun h => absurd h.1 hne⟩
  | cons a l ih =>
    split
    next hpr =>
      constructor
      · rintro ⟨rfl⟩
        exact ⟨hpr, fun q hq => absurd hq (not_lt_zero q)⟩
      rintro ⟨-, hf⟩
      cases p with
      | zero => rfl
      | succ p => exact absurd hpr (hf 0 p.succ_pos)
    next hpr =>
      rw [Option.map_eq_some_iff]
      constructor
      · rintro ⟨q, hq, rfl⟩
        obtain ⟨hat, hf⟩ := ih.1 hq
        refine ⟨hat, fun r hr => ?_⟩
        cases r with
        | zero => exact hpr
        | succ r => exact hf r (by omega)
      · rintro ⟨hat, hf⟩
        cases p with
        | zero => exact absurd hat hpr
        | succ p => exact ⟨p, ih.2 ⟨hat, fun q hq => hf (q + 1) (by omega)⟩, rfl⟩

lemma findSub_eq_none_iff : findSub pat l = none ↔ ∀ q, ¬ pat <+: l.drop q := by
  constructor
  · intro h q hq
    -- there is a first such place
    have he : ∃ q, pat <+: l.drop q := ⟨q, hq⟩
    have hso := findSub_eq_some_iff.2 ⟨Nat.find_spec he, fun r => Nat.find_min he⟩
    rw [h] at hso
    cases hso
  · intro h
    cases hf : findSub pat l with
    | none => rfl
    | some p => exact absurd (findSub_eq_some_iff.1 hf).1 (h p)

lemma findSub_append (hl : c ∉ l) (hpa : c :: pat <+: t) : findSub (c :: pat) (l ++ t) = some l.length := by
  refine findSub_eq_some_iff.2 ⟨by rwa [drop_left], fun q hq hpr => hl ?_⟩
  rw [drop_append_of_le_length (le_of_lt hq)] at hpr
  obtain ⟨a, rest, hd⟩ : ∃ a rest, l.drop q = a :: rest := exists_cons_of_ne_nil fun hn => by
      have := drop_eq_nil_iff.1 hn
      omega
  rw [hd, cons_append, cons_prefix_cons] at hpr
  rw [hpr.1]
  exact mem_of_mem_drop (hd ▸ mem_cons_self)

lemma findSub_add_length_le (h : findSub pat l = some p) (hpa : pat ≠ []) : p + pat.length ≤ l.length := by
  have hlen := (findSub_eq_some_iff.1 h).1.length_le
  rw [length_drop] at hlen
  have := length_pos_iff.2 hpa
  omega

lemma findSub_append_right (h : findSub pat l = some p) (hpa : pat ≠ []) (t : List α) :
    findSub pat (l ++ t) = some p := by
  have hin := findSub_add_length_le h hpa
  obtain ⟨hat, hf⟩ := findSub_eq_some_iff.1 h
  refine findSub_eq_some_iff.2 ⟨?_, fun q hq hpr => hf q hq (isPrefix_of_append hpr (by omega))⟩
  rw [drop_append_of_le_length (by omega)]
  exact hat.trans (prefix_append ..)

/-- When the pattern is not in `l`, a place in `l ++ t` ends behind `l`: a search can leave out the rest of `l`. -/
lemma findSub_drop (h : findSub pat l = none) {k : Nat} (hk : k ≤ l.length + 1 - pat.length) :
    findSub pat (l ++ t) = (findSub pat ((l ++ t).drop k)).map (k + ·) := by
  have hn : ∀ q < k, ¬ pat <+: (l ++ t).drop q := fun q hq hpr =>
    findSub_eq_none_iff.1 h q (isPrefix_of_append hpr (by omega))
  cases hf : findSub pat ((l ++ t).drop k) with
  | none =>
    refine findSub_eq_none_iff.2 fun q hpr => ?_
    by_cases hq : q < k
    · exact hn q hq hpr
    · have := findSub_eq_none_iff.1 hf (q - k)
      rw [drop_drop, Nat.add_sub_cancel' (Nat.le_of_not_lt hq)] at this
      exact this hpr
  | some =>
    obtain ⟨hat, hfi⟩ := findSub_eq_some_iff.1 hf
    rw [drop_drop] at hat
    rw [Option.map_some]
    refine findSub_eq_some_iff.2 ⟨hat, fun q hq hpr => ?_⟩
    by_cases hqk : q < k
    · exact hn q hqk hpr
    · have := hfi (q - k) (by omega)
      rw [drop_drop, Nat.add_sub_cancel' (Nat.le_of_not_lt hqk)] at this
      exact this hpr

end Pattern

lemma findIdx?_append_cons {p : α → Bool} (hl : ∀ a ∈ l, p a = false) (hc : p c = true) :
    (l ++ c :: t).findIdx? p = some l.length := by
  rw [findIdx?_append, findIdx?_eq_none_iff.2 hl, findIdx?_cons, if_pos hc]
  simp
