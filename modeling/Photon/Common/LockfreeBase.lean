import Photon.Thread.Basic
/-!
# LockfreeRingQueueBase

The index arithmetic that the lock-free ring queues share. Positions grow
without a bound; position `x` is slot `idx x` in round `turn x` of a ring of
`2 ^ k` slots.
-/

namespace Photon.Lockfree

open List Nat

def capacity (k : Nat) : Nat := 2 ^ k

def mask (k : Nat) : Nat := capacity k - 1

def lshift (k : Nat) : Nat := 64 - k

def idx (k x : Nat) : Nat := x &&& mask k

def turn (k x : Nat) : Nat := x >>> k

def checkMaskEqual (k x y : Nat) : Bool := (x <<< lshift k) % 2 ^ 64 = (y <<< lshift k) % 2 ^ 64

def checkEmpty (h t : Nat) : Bool := h = t

def checkFull (k h t : Nat) : Bool := h ≠ t ∧ checkMaskEqual k h t

def sub64 (a b : Nat) : Nat := (a % 2 ^ 64 + 2 ^ 64 - b % 2 ^ 64) % 2 ^ 64

/-- The slot of element `i` of a batch of `n` from slot `first` on: one `memcpy`, or two across the end of the ring. -/
def copySlot (k first n i : Nat) : Nat :=
  let part := capacity k - first
  if part ≥ n then first + i else if i < part then first + i else i - part

variable {k i j h t : Nat}

lemma idx_eq (k x : Nat) : idx k x = x % capacity k := and_two_pow_sub_one_eq_mod x k

lemma turn_eq (k x : Nat) : turn k x = x / capacity k := shiftRight_eq_div_pow x k

lemma capacity_pos (k : Nat) : 0 < capacity k := Nat.two_pow_pos k

lemma idx_lt (k x : Nat) : idx k x < capacity k := by
  rw [idx_eq]
  exact Nat.mod_lt x (capacity_pos k)

lemma turn_idx (k x : Nat) : capacity k * turn k x + idx k x = x := by
  rw [idx_eq, turn_eq]
  exact Nat.div_add_mod x (capacity k)

lemma eq_of_idx_turn (hi : idx k i = idx k j) (ht : turn k i = turn k j) : i = j := by
  rw [← turn_idx k i, ← turn_idx k j, hi, ht]

lemma turn_lt_turn (hi : idx k i = idx k j) (hij : i < j) : turn k i < turn k j := by
  have h1 := turn_idx k i
  have h2 := turn_idx k j
  refine Nat.lt_of_mul_lt_mul_left (a := capacity k) ?_
  omega

lemma idx_add_capacity (k x : Nat) : idx k (x + capacity k) = idx k x := by
  rw [idx_eq, idx_eq, add_mod_right]

lemma turn_add_capacity (k x : Nat) : turn k (x + capacity k) = turn k x + 1 := by
  rw [turn_eq, turn_eq, add_div_right x (capacity_pos k)]

lemma add_capacity_le (hi : idx k i = idx k j) (hij : i < j) : i + capacity k ≤ j := by
  have h1 := turn_idx k i
  have h2 := turn_idx k j
  have h3 : capacity k * (turn k i + 1) ≤ capacity k * turn k j := mul_le_mul_left _ (turn_lt_turn hi hij)
  rw [mul_add, mul_one] at h3
  omega

lemma checkMaskEqual_iff (hk : k ≤ 64) : checkMaskEqual k i j = true ↔ idx k i = idx k j := by
  have hpo : 2 ^ 64 = 2 ^ k * 2 ^ (64 - k) := by rw [← pow_add]; congr 1; omega
  have hsh : ∀ x, (x <<< lshift k) % 2 ^ 64 = idx k x * 2 ^ (64 - k) := by
    intro x
    rw [lshift, shiftLeft_eq, hpo, mul_mod_mul_right, idx_eq, capacity]
  rw [checkMaskEqual, decide_eq_true_iff, hsh, hsh]
  exact ⟨Nat.eq_of_mul_eq_mul_right (Nat.two_pow_pos _), fun h => by rw [h]⟩

lemma checkFull_iff (hk : k ≤ 64) (h1 : h ≤ t) (h2 : t ≤ h + capacity k) :
    checkFull k h t = true ↔ t = h + capacity k := by
  rw [checkFull, decide_eq_true_iff, checkMaskEqual_iff hk]
  constructor
  · rintro ⟨hn, hi⟩
    have := add_capacity_le hi (by omega)
    omega
  · rintro rfl
    have := capacity_pos k
    exact ⟨by omega, (idx_add_capacity k h).symm⟩

variable {a n : Nat}

lemma sub64_eq {b : Nat} (h1 : b ≤ a) (h2 : a < b + 2 ^ 64) : sub64 a b = a - b := by
  unfold sub64
  omega

lemma sub64_le {b : Nat} (h : b ≤ a) : sub64 a b ≤ a - b := by
  unfold sub64
  omega

lemma copySlot_eq {i : Nat} (hi : i < n) (hn : n ≤ capacity k) : copySlot k (idx k a) n i = idx k (a + i) := by
  have hlt := idx_lt k a
  have hm : idx k (a + i) = (idx k a + i) % capacity k := by rw [idx_eq, idx_eq, mod_add_mod]
  rw [hm, copySlot]
  by_cases h : idx k a + i < capacity k
  · rw [mod_eq_of_lt h]
    split
    · rfl
    · rw [if_pos (by omega)]
  · have hw : idx k a + i = i - (capacity k - idx k a) + capacity k := by omega
    rw [if_neg (by omega), if_neg (by omega), hw, add_mod_right, mod_eq_of_lt (by omega)]

lemma idx_ne (hi : i < j) (hj : j < i + capacity k) : idx k i ≠ idx k j := by
  intro h
  have := add_capacity_le h hi
  omega

/-! ## The values of consecutive positions -/

variable {α : Type}

/-- The values of `n` positions from `a` on. -/
def slice (l : List α) (a n : Nat) : List α := (l.drop a).take n

lemma slice_append {l : List α} (h : a + n ≤ l.length) (l' : List α) : slice (l ++ l') a n = slice l a n := by
  rw [slice, slice, drop_append_of_le_length (by omega), take_append_of_le_length (by simp; omega)]

lemma take_add_slice (l : List α) (a n : Nat) : l.take a ++ slice l a n = l.take (a + n) := take_add.symm

lemma slice_getElem? {l : List α} {i : Nat} (hi : i < n) : (slice l a n)[i]? = l[a + i]? := by
  rw [slice, getElem?_take_of_lt hi, getElem?_drop]

end Photon.Lockfree
