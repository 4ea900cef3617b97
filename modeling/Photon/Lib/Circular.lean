import Mathlib.Logic.Function.Basic
/-!
# Circular buffers

A ring of `cap` slots holds a sequence in the slots from a first one on, modulo
`cap`. `window` is the sequence that is there; `window_store` appends to it and
`window_drop` takes off its front.
-/

namespace Circular

open List Function Nat

variable {α : Type}

/-- `n` elements from position `b` on. -/
def window (cap : Nat) (slots : Nat → α) (b n : Nat) : List α := (range n).map fun i => slots ((b + i) % cap)

/-- The elements are stored one after the other from slot `p` on. -/
def store (slots : Nat → α) : Nat → List α → Nat → α
  | _, [] => slots
  | p, x :: xs => store (update slots p x) (p + 1) xs

variable {cap : Nat} {slots slots' : Nat → α} {b n : Nat}

@[simp] lemma window_length : (window cap slots b n).length = n := by simp [window]

@[simp] lemma window_zero : window cap slots b 0 = [] := rfl

lemma window_congr (h : ∀ i < n, slots' ((b + i) % cap) = slots ((b + i) % cap)) :
    window cap slots' b n = window cap slots b n := by
  refine map_congr_left fun i hi => ?_
  exact h i (mem_range.1 hi)

lemma window_add (m n : Nat) : window cap slots b (m + n) = window cap slots b m ++ window cap slots (b + m) n := by
  simp [window, range_add, comp_def, Nat.add_assoc]

lemma window_succ : window cap slots b (n + 1) = window cap slots b n ++ [slots ((b + n) % cap)] := by
  rw [window_add]
  rfl

lemma window_drop (k : Nat) : (window cap slots b n).drop k = window cap slots (b + k) (n - k) := by
  refine ext_getElem (by simp) fun i h1 h2 => ?_
  simp [window, Nat.add_assoc]

lemma window_take {k : Nat} (h : k ≤ n) : (window cap slots b n).take k = window cap slots b k := by
  refine ext_getElem (by simp [Nat.min_eq_left h]) fun i h1 h2 => ?_
  simp [window]

lemma window_mod : window cap slots (b % cap) n = window cap slots b n := by
  simp [window, mod_add_mod]

lemma window_flat (h : b + n ≤ cap) : window cap slots b n = (range n).map fun i => slots (b + i) := by
  refine map_congr_left fun i hi => ?_
  have hi := mem_range.1 hi
  rw [mod_eq_of_lt (by omega)]

lemma mod_ne_mod {i j : Nat} (hi : i < j) (hj : j < i + cap) : i % cap ≠ j % cap := by
  intro h
  have h1 := div_add_mod i cap
  have h2 := div_add_mod j cap
  have hq : cap * (i / cap) < cap * (j / cap) := by omega
  have hlt : i / cap < j / cap := Nat.lt_of_mul_lt_mul_left hq
  have hle : cap * (i / cap + 1) ≤ cap * (j / cap) := mul_le_mul_left cap hlt
  rw [Nat.mul_add, Nat.mul_one] at hle
  omega

lemma window_update_ne {p : Nat} (x : α) (h1 : b + n ≤ p) (h2 : p < b + cap) :
    window cap (update slots (p % cap) x) b n = window cap slots b n := by
  refine window_congr fun i hi => ?_
  exact update_of_ne (mod_ne_mod (by omega) (by omega)) _ _

lemma window_update (x : α) (h : n < cap) :
    window cap (update slots ((b + n) % cap) x) b (n + 1) = window cap slots b n ++ [x] := by
  rw [window_succ, window_update_ne x (Nat.le_refl _) (by omega), update_self]

lemma window_store {xs : List α} {p : Nat} (hp : (b + n) % cap = p) (he : p + xs.length ≤ cap)
    (hr : n + xs.length ≤ cap) : window cap (store slots p xs) b (n + xs.length) = window cap slots b n ++ xs := by
  induction xs generalizing slots n p with
  | nil => simp [store]
  | cons x xs ih =>
    rw [length_cons] at he hr ⊢
    have hst : window cap (update slots p x) b (n + 1) = window cap slots b n ++ [x] :=
      hp ▸ window_update x (by omega)
    rw [store, Nat.add_comm xs.length, ← Nat.add_assoc]
    cases xs with
    | nil => simpa [store] using hst
    | cons =>
      rw [length_cons] at he
      have hp' : (b + (n + 1)) % cap = p + 1 := by
        rw [← Nat.add_assoc, add_mod, hp]
        have h1 : 1 % cap = 1 := mod_eq_of_lt (by omega)
        rw [h1, mod_eq_of_lt (by omega)]
      rw [ih hp' (by simp only [length_cons]; omega) (by omega), hst]
      simp

end Circular
