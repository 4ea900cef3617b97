import Mathlib.Algebra.Ring.Nat
import Mathlib.Data.List.GetD
import Photon.Lib.Memory
/-!
# Numbers in memory

Reading and writing a byte string at an address, and numbers as their bytes with the
lowest one first.
-/

open List Nat

/-- `n` bytes from `a` on. -/
def readBytes {β : Type} (mem : Nat → β) (a n : Nat) : List β := (addresses a n).map mem

/-- The bytes `bs` go to `a` and after. -/
def writeBytes {β : Type} (mem : Nat → β) (a : Nat) (bs : List β) : Nat → β :=
  fun x => if a ≤ x then bs.getD (x - a) (mem x) else mem x

/-- The lowest `k` bytes of a number, the lowest one first. -/
def leBytes : Nat → Nat → List (BitVec 8)
  | 0, _ => []
  | k + 1, n => BitVec.ofNat 8 n :: leBytes k (n / 256)

/-- The number whose bytes these are. -/
def leNat : List (BitVec 8) → Nat
  | [] => 0
  | b :: bs => b.toNat + 256 * leNat bs

/-! ## Byte strings -/

section Bytes

variable {β : Type} (mem : Nat → β)

lemma writeBytes_nil (a : Nat) : writeBytes mem a [] = mem := by
  funext x
  exact ite_self _

@[simp] lemma readBytes_length (a n : Nat) : (readBytes mem a n).length = n := by simp [readBytes]

lemma readBytes_add (a m n : Nat) : readBytes mem a (m + n) = readBytes mem a m ++ readBytes mem (a + m) n := by
  rw [readBytes, ← addresses_append, map_append]
  rfl

lemma readBytes_drop (a : Nat) {k n : Nat} (h : k ≤ n) : (readBytes mem a n).drop k = readBytes mem (a + k) (n - k) := by
  obtain ⟨m, rfl⟩ := Nat.exists_eq_add_of_le h
  rw [readBytes_add, drop_left' (readBytes_length mem a k), Nat.add_sub_cancel_left]

lemma readBytes_middle {a n : Nat} {xs ys zs : List β} (h : readBytes mem a n = xs ++ (ys ++ zs)) :
    readBytes mem (a + xs.length) ys.length = ys := by
  have hlen := congrArg length h
  rw [readBytes_length, length_append, length_append] at hlen
  rw [hlen, readBytes_add, readBytes_add] at h
  have hrest := (append_inj h (readBytes_length mem ..)).2
  exact (append_inj hrest (readBytes_length mem ..)).1

lemma getElem_readBytes {a n i : Nat} (hi : i < (readBytes mem a n).length) : (readBytes mem a n)[i] = mem (a + i) := by
  simp [readBytes, addresses]

lemma mem_addresses {a n x : Nat} : x ∈ addresses a n ↔ a ≤ x ∧ x < a + n := by
  simp only [addresses, mem_map, mem_range]
  constructor
  · rintro ⟨i, hi, rfl⟩
    omega
  · intro h
    exact ⟨x - a, by omega, by omega⟩

lemma readBytes_congr {mem mem' : Nat → β} {a n : Nat} (h : ∀ x, a ≤ x → x < a + n → mem' x = mem x) :
    readBytes mem' a n = readBytes mem a n :=
  map_congr_left fun x hx => h x (mem_addresses.1 hx).1 (mem_addresses.1 hx).2

variable {bs : List β}

lemma writeBytes_of_notMem {a x : Nat} (h : x < a ∨ a + bs.length ≤ x) : writeBytes mem a bs x = mem x := by
  unfold writeBytes
  split
  · rw [getD_eq_default _ _ (by omega)]
  · rfl

lemma writeBytes_of_mem {a x : Nat} (h₁ : a ≤ x) (h₂ : x < a + bs.length) (d : β) :
    writeBytes mem a bs x = bs.getD (x - a) d := by
  unfold writeBytes
  rw [if_pos h₁, getD_eq_getElem _ _ (by omega), getD_eq_getElem _ _ (by omega)]

lemma writeBytes_append (a : Nat) (bs cs : List β) :
    writeBytes (writeBytes mem a bs) (a + bs.length) cs = writeBytes mem a (bs ++ cs) := by
  funext x
  by_cases h₁ : x < a + bs.length
  · rw [writeBytes_of_notMem _ (.inl h₁)]
    by_cases h₂ : a ≤ x
    · rw [writeBytes_of_mem mem h₂ h₁ (mem x), writeBytes_of_mem mem h₂ (by rw [length_append]; omega) (mem x),
        getD_append _ _ _ _ (by omega)]
    · rw [writeBytes_of_notMem _ (.inl (by omega)), writeBytes_of_notMem _ (.inl (by omega))]
  · by_cases h₂ : x < a + bs.length + cs.length
    · rw [writeBytes_of_mem _ (by omega) h₂ (mem x), writeBytes_of_mem mem (by omega) (by rw [length_append]; omega) (mem x),
        getD_append_right _ _ _ _ (by omega), show x - (a + bs.length) = x - a - bs.length by omega]
    · rw [writeBytes_of_notMem _ (.inr (by omega)), writeBytes_of_notMem _ (.inr (by omega)),
        writeBytes_of_notMem _ (.inr (by rw [length_append]; omega))]

lemma getD_readBytes {a n i : Nat} (hi : i < n) (d : β) : (readBytes mem a n).getD i d = mem (a + i) := by
  have hi' : i < (readBytes mem a n).length := by rwa [readBytes_length]
  rw [getD_eq_getElem _ _ hi', getElem_readBytes]

lemma readBytes_writeBytes (a : Nat) (bs : List β) : readBytes (writeBytes mem a bs) a bs.length = bs := by
  refine ext_getElem (by simp) fun i h1 h2 => ?_
  rw [getElem_readBytes, writeBytes, if_pos (by omega), Nat.add_sub_cancel_left, getD_eq_getElem _ _ h2]

lemma readBytes_writeBytes_of_disjoint {a b n : Nat} (h : b + n ≤ a ∨ a + bs.length ≤ b) :
    readBytes (writeBytes mem a bs) b n = readBytes mem b n :=
  readBytes_congr fun _ _ _ => writeBytes_of_notMem mem (by omega)

lemma writeBytes_readBytes (a n : Nat) : writeBytes mem a (readBytes mem a n) = mem := by
  funext x
  by_cases h : a ≤ x ∧ x < a + n
  · rw [writeBytes, if_pos h.1, getD_eq_getElem _ _ (by simp; omega), getElem_readBytes, Nat.add_sub_cancel' h.1]
  · exact writeBytes_of_notMem mem (by simp; omega)

lemma writeBytes_writeBytes {a : Nat} {cs : List β} (h : bs.length = cs.length) :
    writeBytes (writeBytes mem a bs) a cs = writeBytes mem a cs := by
  funext x
  by_cases hx : a ≤ x ∧ x < a + cs.length
  · have hi : x - a < cs.length := by omega
    simp only [writeBytes, if_pos hx.1, getD_eq_getElem _ _ hi]
  · rw [writeBytes_of_notMem _ (by omega), writeBytes_of_notMem _ (by omega), writeBytes_of_notMem _ (by omega)]

end Bytes

/-! ## Numbers -/

@[simp] lemma leBytes_length (k n : Nat) : (leBytes k n).length = k := by
  induction k generalizing n with
  | zero => rfl
  | succ k ih => simp [leBytes, ih]

lemma leNat_lt (bs : List (BitVec 8)) : leNat bs < 256 ^ bs.length := by
  induction bs with
  | nil => simp [leNat]
  | cons b =>
    have := b.isLt
    rw [leNat, length_cons, pow_succ]
    omega

lemma leBytes_leNat (bs : List (BitVec 8)) : leBytes bs.length (leNat bs) = bs := by
  induction bs with
  | nil => rfl
  | cons b bs ih =>
    have hd : (b.toNat + 256 * leNat bs) / 256 = leNat bs := by omega
    rw [length_cons, leBytes, leNat, hd, ih]
    congr 1
    refine BitVec.eq_of_toNat_eq ?_
    simp
    omega

lemma leNat_leBytes_mod (k n : Nat) : leNat (leBytes k n) = n % 256 ^ k := by
  induction k generalizing n with
  | zero =>
    rw [leBytes, leNat]
    omega
  | succ k ih =>
    have hpo : 256 ^ (k + 1) = 256 * 256 ^ k := pow_succ'
    rw [leBytes, leNat, ih, BitVec.toNat_ofNat, hpo, mod_mul]

lemma leNat_leBytes {k n : Nat} (h : n < 256 ^ k) : leNat (leBytes k n) = n := by
  rw [leNat_leBytes_mod, mod_eq_of_lt h]

lemma leBytes_mod (k n : Nat) : leBytes k (n % 256 ^ k) = leBytes k n := by
  have h := leBytes_leNat (leBytes k n)
  rwa [leBytes_length, leNat_leBytes_mod] at h

lemma leBytes_add (m n x : Nat) : leBytes (m + n) x = leBytes m x ++ leBytes n (x / 256 ^ m) := by
  induction m generalizing x with
  | zero => simp [leBytes]
  | succ m ih =>
    rw [succ_add, leBytes, ih, leBytes, Nat.div_div_eq_div_mul, pow_succ', cons_append]

lemma leBytes_succ (k n : Nat) : leBytes (k + 1) n = leBytes k n ++ [BitVec.ofNat 8 (n / 256 ^ k)] := leBytes_add k 1 n

/-! ## Words -/

/-- The 64-bit word at `a`. -/
def readWord (mem : Nat → BitVec 8) (a : Nat) : Nat := leNat (readBytes mem a 8)

def writeWord (mem : Nat → BitVec 8) (a w : Nat) : Nat → BitVec 8 := writeBytes mem a (leBytes 8 w)

section Words

variable {mem mem' : Nat → BitVec 8} {a b w : Nat}

lemma readWord_lt (mem : Nat → BitVec 8) (a : Nat) : readWord mem a < 2 ^ 64 := by
  have h := leNat_lt (readBytes mem a 8)
  rw [readBytes_length] at h
  exact h

lemma readWord_congr (h : ∀ x, a ≤ x → x < a + 8 → mem' x = mem x) : readWord mem' a = readWord mem a := by
  rw [readWord, readWord, readBytes_congr h]

lemma readWord_of_readBytes (h : readBytes mem' b 8 = readBytes mem a 8) : readWord mem' b = readWord mem a := by
  rw [readWord, readWord, h]

lemma readWord_writeWord_mod (mem : Nat → BitVec 8) (a w : Nat) : readWord (writeWord mem a w) a = w % 2 ^ 64 := by
  have hr := readBytes_writeBytes mem a (leBytes 8 w)
  rw [leBytes_length] at hr
  have hpo : 256 ^ 8 = 2 ^ 64 := by decide
  rw [readWord, writeWord, hr, leNat_leBytes_mod, hpo]

lemma readWord_writeWord (mem : Nat → BitVec 8) (a : Nat) (h : w < 2 ^ 64) : readWord (writeWord mem a w) a = w := by
  rw [readWord_writeWord_mod, mod_eq_of_lt h]

lemma writeWord_of_notMem {x : Nat} (h : x < a ∨ a + 8 ≤ x) : writeWord mem a w x = mem x :=
  writeBytes_of_notMem mem (by simpa using h)

lemma readWord_writeWord_of_disjoint (h : b + 8 ≤ a ∨ a + 8 ≤ b) : readWord (writeWord mem a w) b = readWord mem b :=
  readWord_congr fun _ _ _ => writeWord_of_notMem (by omega)

end Words

-- a word of an unknown memory does not evaluate
attribute [irreducible] readWord writeWord
