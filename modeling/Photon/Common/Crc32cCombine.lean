import Photon.Common.Crc32c
/-!
# `crc32c_combine_sw` and `crc32c_trim_sw`

The checksum of one string is moved over the bytes of another one behind it by products with
powers of the indeterminate, of which there is a table for 16, 32, 64, ... bytes. What is
left of the length after that, less than 16 bytes, `crc32c_combine_sw` appends as zeros.
`crc32c_trim_sw` leaves it out. To take bytes away at the end, it has matrices.
-/

namespace Photon.Checksum

open Crc Function BitVec List

variable {k i len2 m : Nat}

abbrev CRC32C : BitVec 32 := 0x82f63b78#32

/-- The `crc32` instruction for `n` bits. -/
def crc32c {n : Nat} (crc : BitVec 32) (data : BitVec n) : BitVec 32 := Crc.crc CRC32C crc (leBytes (n / 8) data.toNat)

/-- For 16, 32, 64, ... bytes. -/
def crc32cCombineTable : List (BitVec 32) := [
  0x493c7d27#32, 0xba4fc28e#32, 0x9e4addf8#32, 0x0d3b6092#32, 0xb9e02b86#32, 0xdd7e3b0c#32, 0x170076fa#32,
  0xa51b6135#32, 0x82f89c77#32, 0x54a86326#32, 0x1dc403cc#32, 0x5ae703ab#32, 0xc5013a36#32, 0xac2ac6dd#32,
  0x9b4615a9#32, 0x688d1c61#32, 0xf6af14e6#32, 0xb6ffe386#32, 0xb717425b#32, 0x478b0d30#32, 0x54cc62e5#32,
  0x7b2102ee#32, 0x8a99adef#32, 0xa7568c8f#32, 0xd610d67e#32, 0x6b086b3f#32, 0xd94f3c0b#32, 0xbf818109#32]

/-- `__builtin_ctz` of a number of `bits` bits. -/
def ctz : Nat → Nat → Nat
  | 0, _ => 0
  | bits + 1, n => if n % 2 = 1 then 0 else ctz bits (n / 2) + 1

def shiftLoop (shift : BitVec 32 → BitVec 32 → BitVec 32) : Nat → Nat → BitVec 32 → BitVec 32
  | 0, _, crc1 => crc1
  | fuel + 1, len2, crc1 =>
    if len2 = 0 then crc1
    else shiftLoop shift fuel (len2 &&& (len2 - 1)) (shift crc1 (crc32cCombineTable.getD (ctz 32 len2) 0#32))

def crc32cShift (crc1 : BitVec 32) (len2 : Nat) (shift : BitVec 32 → BitVec 32 → BitVec 32) : BitVec 32 :=
  shiftLoop shift (len2 / 16) (len2 / 16) crc1

def crc32cShiftHw (crc1 x : BitVec 32) : BitVec 32 :=
  crc32c 0#32 ((clmul (crc1.setWidth 64) (x.setWidth 64)).setWidth 64)

def bitReverse32_64 (x : BitVec 32) : BitVec 64 :=
  let x := ((x &&& 0xaaaaaaaa#32) >>> 1) ||| ((x &&& 0x55555555#32) <<< 1)
  let x := ((x &&& 0xcccccccc#32) >>> 2) ||| ((x &&& 0x33333333#32) <<< 2)
  let x := ((x &&& 0xf0f0f0f0#32) >>> 4) ||| ((x &&& 0x0f0f0f0f#32) <<< 4)
  let x := ((x &&& 0xff00ff00#32) >>> 8) ||| ((x &&& 0x00ff00ff#32) <<< 8)
  ((x >>> 16) ||| (x <<< 16)).setWidth 64 <<< 32

def parity (x : BitVec 32) : Bool := combo (fun _ => 1#1) x 32 == 1#1

def shiftSwStep (crc1 : BitVec 32) (s : BitVec 64 × BitVec 64) : BitVec 64 × BitVec 64 :=
  ((s.1 <<< 1) ||| (ofBool (parity (crc1 &&& s.2.setWidth 32))).setWidth 64, s.2 >>> 1)

def crc32cShiftSw (crc1 x : BitVec 32) : BitVec 32 :=
  let q := ((shiftSwStep crc1)^[64] (0#64, bitReverse32_64 x)).1
  crc32cSw (writeBytes (fun _ => 0#8) 0 (leBytes 8 q.toNat)) 0 8 0#32

/-- `k` zeros when `k` is a bit of `len2`. -/
def appendZeros (len2 k : Nat) (crc1 : BitVec 32) : BitVec 32 :=
  if len2 &&& k ≠ 0 then crc32cSw (fun _ => 0#8) 0 k crc1 else crc1

def crc32cCombineSw (crc1 crc2 : BitVec 32) (len2 : Nat) : BitVec 32 :=
  let crc1 := crc32cShift crc1 len2 crc32cShiftSw
  let len2 := len2 &&& 15
  let crc1 := if len2 ≠ 0 then
    appendZeros len2 1 (appendZeros len2 2 (appendZeros len2 4 (appendZeros len2 8 crc1))) else crc1
  crc1 ^^^ crc2

/-- A matrix of 32 columns times a vector: the loops that begin with `sum = 0`. -/
def timesLoop (mat : List (BitVec 32)) : Nat → Nat → BitVec 32 → BitVec 32 → BitVec 32
  | 0, _, _, sum => sum
  | fuel + 1, j, vec, sum =>
    if vec = 0#32 then sum
    else timesLoop mat fuel (j + 1) (vec >>> 1) (if vec.getLsbD 0 then sum ^^^ mat.getD j 0#32 else sum)

def times (mat : List (BitVec 32)) (vec : BitVec 32) : BitVec 32 := timesLoop mat 32 0 vec 0#32

def square (mat : List (BitVec 32)) : List (BitVec 32) := (range 32).map fun i => times mat (mat.getD i 0#32)

def remove1 : List (BitVec 32) := (range 31).map (fun i => 1#32 <<< (i + 1)) ++ [0x05EC76F1#32]

/-- The loop of `crc32_remove0`; the matrix `b` of one pass is the one that is squared in the next. -/
def removeLoop : Nat → List (BitVec 32) → Nat → BitVec 32 → BitVec 32
  | 0, _, _, crc1 => crc1
  | fuel + 1, b, len2, crc1 =>
    if len2 = 0 then crc1
    else
      let a := square b
      removeLoop fuel a (len2 / 2) (if len2 % 2 = 1 then times a crc1 else crc1)

def crc32Remove0 (crc1 : BitVec 32) (len2 : Nat) : BitVec 32 :=
  if len2 = 0 then crc1 else removeLoop len2 (square (square remove1)) len2 crc1

structure CRC32CComponent where
  crc : BitVec 32
  /-- `uint32_t` -/
  size : Nat

def crc32cTrimSw (all pre suffix : CRC32CComponent) : BitVec 32 :=
  if all.size < (pre.size + suffix.size) % 2 ^ 32 then 0#32
  else
    let crc := if pre.size ≠ 0 then all.crc ^^^ crc32cShift pre.crc (all.size - pre.size) crc32cShiftHw else all.crc
    if suffix.size ≠ 0 then crc32Remove0 (crc ^^^ suffix.crc) suffix.size else crc

/-! ## The table -/

def power (x : BitVec 32) : BitVec 32 := Crc.crc CRC32C 0#32 (leBytes 8 (x.toNat <<< 31))

lemma power_table (hk : k < 28) : power (crc32cCombineTable.getD k 0#32) = (shift CRC32C)^[128 * 2 ^ k] one := by
  have hz : power (crc32cCombineTable.getD 0 0#32) = (shift CRC32C)^[128] one := by decide +kernel
  have hsq : ∀ k < 27, power (crc32cCombineTable.getD (k + 1) 0#32) =
      mul CRC32C (power (crc32cCombineTable.getD k 0#32)) (power (crc32cCombineTable.getD k 0#32)) := by decide +kernel
  induction k with
  | zero => exact hz
  | succ k ih =>
    rw [hsq k (by omega), ih (by omega), mul_iterate_one, ← iterate_add_apply, pow_succ]
    congr 1
    omega

lemma shiftHw_eq (hk : k < 28) (a : BitVec 32) :
    crc32cShiftHw a (crc32cCombineTable.getD k 0#32) = (shift CRC32C)^[128 * 2 ^ k] a := by
  rw [← mul_iterate_one, ← power_table hk, power]
  generalize crc32cCombineTable.getD k 0#32 = x
  have hx : (x.setWidth 64).toNat = x.toNat := by
    rw [toNat_setWidth, Nat.mod_eq_of_lt (lt_trans x.isLt (by decide))]
  have hlo : ∀ y : BitVec (64 + 64), leBytes 8 (y.setWidth 64).toNat = leBytes 8 y.toNat := by
    intro y
    rw [toNat_setWidth]
    exact leBytes_mod 8 y.toNat
  rw [crc32cShiftHw, crc32c, hlo, crc_clmul CRC32C (by decide) (by decide) (by rw [hx]; exact x.isLt) (by decide), hx]

/-! ## The product by parity -/

lemma parity_xor (a b : BitVec 32) : parity (a ^^^ b) = (parity a ^^ parity b) := by
  have ho : ∀ u v : BitVec 1, (u ^^^ v == 1#1) = ((u == 1#1) ^^ (v == 1#1)) := by decide
  have hbi : combo (fun _ => 1#1) (a ^^^ b) 32 = _ := combo_linear (fun _ => 1#1) 32 a b
  rw [parity, hbi]
  exact ho ..

lemma parity_twoPow_and {j : Nat} (hj : j < 32) (y : BitVec 32) : parity (twoPow 32 j &&& y) = y.getLsbD j := by
  rw [twoPow_and]
  cases y.getLsbD j with
  | false =>
    rw [if_neg Bool.false_ne_true]
    decide
  | true =>
    rw [if_pos rfl, parity, combo_twoPow _ hj, if_pos hj]
    rfl

/-- After `i` passes, `q` has the parities of the places of `xrev` before this one. -/
lemma shiftSwStep_iterate (a : BitVec 32) (rev : BitVec 64) (hi : i ≤ 64) :
    ((shiftSwStep a)^[i] (0#64, rev)).2 = rev >>> i ∧ ∀ k, ((shiftSwStep a)^[i] (0#64, rev)).1.getLsbD k =
      (decide (k < i) && parity (a &&& (rev >>> (i - 1 - k)).setWidth 32)) := by
  induction i with
  | zero => exact ⟨(ushiftRight_zero rev).symm, fun k => by simp⟩
  | succ i ih =>
    obtain ⟨hr, hq⟩ := ih (by omega)
    rw [iterate_succ_apply', shiftSwStep, hr]
    refine ⟨(shiftRight_add ..).symm, fun k => ?_⟩
    rw [getLsbD_or, getLsbD_shiftLeft, getLsbD_setWidth, getLsbD_ofBool]
    cases k with
    | zero => simp
    | succ k =>
      rw [Nat.add_sub_cancel, hq, show i + 1 - 1 - (k + 1) = i - 1 - k by omega]
      by_cases hk : k < i
      · simp [hk, show k + 1 < 64 by omega]
      · simp [hk]

def product (a : BitVec 32) (rev : BitVec 64) : BitVec 64 := ((shiftSwStep a)^[64] (0#64, rev)).1

lemma getLsbD_product (a : BitVec 32) (rev : BitVec 64) (hk : k < 64) :
    (product a rev).getLsbD k = parity (a &&& (rev >>> (63 - k)).setWidth 32) := by
  rw [product, (shiftSwStep_iterate a rev le_rfl).2, decide_eq_true hk, Bool.true_and]

lemma product_linear (rev : BitVec 64) : Linear fun a => product a rev := by
  intro a b
  refine eq_of_getLsbD_eq fun k hk => ?_
  rw [getLsbD_xor, getLsbD_product _ _ hk, getLsbD_product _ _ hk, getLsbD_product _ _ hk, ← parity_xor]
  congr 1
  exact eq_of_getLsbD_eq fun i _ => by simp [Bool.and_xor_distrib_right]

lemma product_twoPow {x : BitVec 32}
    (hx : ∀ m < 64, (bitReverse32_64 x).getLsbD m = (decide (32 ≤ m) && x.getLsbD (63 - m))) {j : Nat} (hj : j < 32) :
    product (twoPow 32 j) (bitReverse32_64 x) = x.setWidth 64 <<< j := by
  refine eq_of_getLsbD_eq fun k hk => ?_
  rw [getLsbD_product _ _ hk, parity_twoPow_and hj]
  simp only [getLsbD_setWidth, getLsbD_ushiftRight, getLsbD_shiftLeft, hj, hk]
  by_cases hle : j ≤ k
  · rw [hx (63 - k + j) (by omega), show 63 - (63 - k + j) = k - j by omega]
    by_cases hin : k - j < 32
    · simp [show 32 ≤ 63 - k + j by omega, show ¬ k < j by omega, show k - j < 64 by omega]
    · simp [getLsbD_of_ge x (k - j) (by omega)]
  · simp [getLsbD_of_ge (bitReverse32_64 x) (63 - k + j) (by omega), show k < j by omega]

lemma shiftSw_eq (hk : k < 28) (a : BitVec 32) :
    crc32cShiftSw a (crc32cCombineTable.getD k 0#32) = (shift CRC32C)^[128 * 2 ^ k] a := by
  rw [← mul_iterate_one, ← power_table hk, power]
  have hr : ∀ k < 28, ∀ m < 64, (bitReverse32_64 (crc32cCombineTable.getD k 0#32)).getLsbD m =
      (decide (32 ≤ m) && (crc32cCombineTable.getD k 0#32).getLsbD (63 - m)) := by decide +kernel
  have hx := hr k hk
  generalize crc32cCombineTable.getD k 0#32 = x at hx ⊢
  have hre := fun q : BitVec 64 => readBytes_writeBytes (fun _ => 0#8) 0 (leBytes 8 q.toNat)
  simp only [leBytes_length] at hre
  have hq : crc32cShiftSw a x = crc CRC32C 0#32 (leBytes 8 ((product a (bitReverse32_64 x)).toNat <<< 0)) := by
    rw [Nat.shiftLeft_zero, crc32cShiftSw, crc32cSw_eq, hre, product]
  rw [hq]
  refine Linear.eq_combo _ ((crc_linear CRC32C 8 0).comp (product_linear (bitReverse32_64 x))) (fun j hj => ?_) a
  have hn : (x.setWidth 64 <<< j).toNat = x.toNat <<< j := by
    have hlt : x.toNat <<< j < 2 ^ 64 := by
      have h : x.toNat * 2 ^ j < 2 ^ 32 * 2 ^ 32 := Nat.mul_lt_mul'' x.isLt (Nat.pow_lt_pow_right (by decide) hj)
      rwa [Nat.shiftLeft_eq]
    rw [toNat_shiftLeft, toNat_setWidth, Nat.mod_eq_of_lt (lt_trans x.isLt (by decide)), Nat.mod_eq_of_lt hlt]
  rw [product_twoPow hx hj, hn, Nat.shiftLeft_zero]
  exact crc_multiple CRC32C (by decide) x.isLt (by decide) hj

/-! ## The bits of the length -/

lemma and_pred_add {bits n : Nat} (hn : n < 2 ^ bits) (h0 : n ≠ 0) :
    (n &&& (n - 1)) + 2 ^ ctz bits n = n ∧ ctz bits n < bits := by
  induction bits generalizing n with
  | zero =>
    rw [pow_zero] at hn
    omega
  | succ bits ih =>
    rw [pow_succ] at hn
    have hd : (n &&& (n - 1)) / 2 = n / 2 &&& (n - 1) / 2 := Nat.and_div_two
    have hm : (n &&& (n - 1)) % 2 = 1 ↔ n % 2 = 1 ∧ (n - 1) % 2 = 1 := Nat.and_mod_two_eq_one
    rw [ctz]
    split
    · have hh : (n - 1) / 2 = n / 2 := by omega
      rw [hh, Nat.and_self] at hd
      exact ⟨by rw [pow_zero]; omega, Nat.succ_pos bits⟩
    obtain ⟨hsu, hlt⟩ := ih (show n / 2 < 2 ^ bits by omega) (by omega)
    have hh : (n - 1) / 2 = n / 2 - 1 := by omega
    rw [hh] at hd
    rw [pow_succ]
    exact ⟨by omega, by omega⟩

section Shift

variable {sh : BitVec 32 → BitVec 32 → BitVec 32}
  (hs : ∀ {k}, k < 28 → ∀ a, sh a (crc32cCombineTable.getD k 0#32) = (shift CRC32C)^[128 * 2 ^ k] a)
include hs

lemma shiftLoop_eq {fuel n : Nat} (hn : n < 2 ^ 28) (hf : n ≤ fuel) (c : BitVec 32) :
    shiftLoop sh fuel n c = (shift CRC32C)^[128 * n] c := by
  induction fuel generalizing n c with
  | zero =>
    obtain rfl : n = 0 := by omega
    rfl
  | succ fuel ih =>
    rw [shiftLoop]
    split
    · next h0 => rw [h0, Nat.mul_zero]; rfl
    next h0 =>
    obtain ⟨hsu, -⟩ := and_pred_add (show n < 2 ^ 32 by omega) h0
    have hpo := Nat.two_pow_pos (ctz 32 n)
    have hk : ctz 32 n < 28 := (Nat.pow_lt_pow_iff_right (by decide : 1 < 2)).1 (by omega)
    have he : 128 * n = 128 * (n &&& (n - 1)) + 128 * 2 ^ ctz 32 n := by omega
    rw [ih (by omega) (by omega), hs hk, ← iterate_add_apply, ← he]

lemma crc32cShift_eq (hle : len2 < 2 ^ 32) (c : BitVec 32) :
    crc32cShift c len2 sh = (shift CRC32C)^[8 * (16 * (len2 / 16))] c := by
  rw [crc32cShift, shiftLoop_eq hs (by omega) le_rfl, ← Nat.mul_assoc 8 16]

end Shift

lemma zeros_eq (k : Nat) (c : BitVec 32) : crc32cSw (fun _ => 0#8) 0 k c = (shift CRC32C)^[8 * k] c := by
  have hz : leBytes k 0 = List.replicate k 0#8 := by
    induction k with
    | zero => rfl
    | succ k ih => rw [leBytes, Nat.zero_div, ih]; rfl
  have hr : readBytes (fun _ => 0#8) 0 k = leBytes k 0 := by rw [hz]; simp [readBytes, addresses]
  rw [crc32cSw_eq, hr, crc_zeros]

lemma appendZeros_eq {r : Nat} (h : r &&& k = 0 ∨ r &&& k = k) (c : BitVec 32) :
    appendZeros r k c = (shift CRC32C)^[8 * (r &&& k)] c := by
  unfold appendZeros
  split
  next h0 =>
    rw [zeros_eq, h.resolve_left h0]
  next h0 =>
    rw [not_not.1 h0]
    rfl

lemma crc32cCombineSw_eq (hle : len2 < 2 ^ 32) (crc1 crc2 : BitVec 32) :
    crc32cCombineSw crc1 crc2 len2 = (shift CRC32C)^[8 * len2] crc1 ^^^ crc2 := by
  have ha : len2 &&& 15 = len2 % 16 := Nat.and_two_pow_sub_one_eq_mod len2 4
  -- the bits of what is left of the length
  have hbi : ∀ r < 16, (r &&& 1) + (r &&& 2) + (r &&& 4) + (r &&& 8) = r ∧ (r &&& 1 = 0 ∨ r &&& 1 = 1) ∧
      (r &&& 2 = 0 ∨ r &&& 2 = 2) ∧ (r &&& 4 = 0 ∨ r &&& 4 = 4) ∧ (r &&& 8 = 0 ∨ r &&& 8 = 8) := by decide
  obtain ⟨hsu, h1, h2, h4, h8⟩ := hbi (len2 % 16) (Nat.mod_lt _ (by decide))
  have hz : ∀ c, appendZeros (len2 % 16) 1 (appendZeros (len2 % 16) 2 (appendZeros (len2 % 16) 4
      (appendZeros (len2 % 16) 8 c))) = (shift CRC32C)^[8 * (len2 % 16)] c := by
    intro c
    rw [appendZeros_eq h8, appendZeros_eq h4, appendZeros_eq h2, appendZeros_eq h1, ← iterate_add_apply,
      ← iterate_add_apply, ← iterate_add_apply, ← Nat.mul_add, ← Nat.mul_add, ← Nat.mul_add, hsu]
  have hcr : (if len2 % 16 ≠ 0 then (shift CRC32C)^[8 * (len2 % 16)] (crc32cShift crc1 len2 crc32cShiftSw)
      else crc32cShift crc1 len2 crc32cShiftSw) = (shift CRC32C)^[8 * len2] crc1 := by
    have hla : ∀ c, (if len2 % 16 ≠ 0 then (shift CRC32C)^[8 * (len2 % 16)] c else c) =
        (shift CRC32C)^[8 * (len2 % 16)] c := by
      intro c
      split
      · rfl
      · next h0 => rw [not_not.1 h0]; rfl
    rw [hla, crc32cShift_eq shiftSw_eq hle, ← iterate_add_apply, ← Nat.mul_add, Nat.mod_add_div]
  rw [crc32cCombineSw, ha, hz, hcr]

/-- The checksum of `n` bytes at `a`, and of `m` bytes behind them. -/
theorem combine_append (mem : Nat → BitVec 8) (a n : Nat) {m : Nat} (hm : m < 2 ^ 32) (c : BitVec 32) :
    crc32cCombineSw (crc32cSw mem a n c) (crc32cSw mem (a + n) m 0#32) m = crc32cSw mem a (n + m) c := by
  have hla := crc_init CRC32C (crc CRC32C c (readBytes mem a n)) (readBytes mem (a + n) m)
  rw [readBytes_length] at hla
  rw [crc32cCombineSw_eq hm, crc32cSw_eq, crc32cSw_eq, crc32cSw_eq, readBytes_add, crc_append, hla]

theorem combine_append_megabyte : 2 ^ 20 + 5 < 2 ^ 32 ∧
    crc32cCombineSw (crc32cSw (fun i => BitVec.ofNat 8 i) 3 7 1#32) (crc32cSw (fun i => BitVec.ofNat 8 i) (3 + 7) (2 ^ 20 + 5) 0#32)
      (2 ^ 20 + 5) = crc32cSw (fun i => BitVec.ofNat 8 i) 3 (7 + (2 ^ 20 + 5)) 1#32 :=
  ⟨by decide, combine_append _ 3 7 (by decide) _⟩

/-! ## Matrices -/

section
variable (mat : List (BitVec 32))

lemma timesLoop_eq (vec : BitVec 32) (fuel j : Nat) :
    timesLoop mat fuel j (vec >>> j) (combo (mat.getD · 0#32) vec j) = combo (mat.getD · 0#32) vec (j + fuel) := by
  induction fuel generalizing j with
  | zero => rfl
  | succ fuel ih =>
    rw [timesLoop]
    split
    next h0 =>
      -- the bits that are left are all 0
      have hr : ∀ n, combo (mat.getD · 0#32) vec (j + n) = combo (mat.getD · 0#32) vec j := by
        intro n
        induction n with
        | zero => rfl
        | succ n ihn =>
          have hbi : vec.getLsbD (j + n) = false := by rw [← getLsbD_ushiftRight, h0, getLsbD_zero]
          rw [← add_assoc, combo, ihn, hbi]
          simp
      exact (hr _).symm
    · have hsu : (if (vec >>> j).getLsbD 0 then combo (mat.getD · 0#32) vec j ^^^ mat.getD j 0#32
          else combo (mat.getD · 0#32) vec j) = combo (mat.getD · 0#32) vec (j + 1) := by
        rw [getLsbD_ushiftRight, add_zero, combo]
        split <;> simp
      rw [hsu, ← shiftRight_add, ih, add_assoc, add_comm 1]

lemma times_eq (vec : BitVec 32) : times mat vec = combo (mat.getD · 0#32) vec 32 := by
  have h := timesLoop_eq mat vec 32 0
  rwa [ushiftRight_zero, zero_add] at h

lemma times_linear : Linear (times mat) := by
  rw [funext (times_eq mat)]
  exact combo_linear _ 32

lemma times_twoPow (hi : i < 32) : times mat (twoPow 32 i) = mat.getD i 0#32 := by
  rw [times_eq, combo_twoPow _ hi, if_pos hi]

lemma times_square (vec : BitVec 32) : times (square mat) vec = times mat (times mat vec) := by
  refine (times_linear _).ext ((times_linear mat).comp (times_linear mat)) (fun i hi => ?_) vec
  have hco : (square mat).getD i 0#32 = times mat (mat.getD i 0#32) := by simp [square, getD_eq_getElem?_getD, hi]
  rw [times_twoPow _ hi, hco, times_twoPow mat hi]

end

def Undoes (mat : List (BitVec 32)) (m : Nat) : Prop := ∀ c, (shift CRC32C)^[m] (times mat c) = c

lemma Undoes.square {mat : List (BitVec 32)} (h : Undoes mat m) : Undoes (square mat) (m + m) := by
  intro c
  rw [times_square, iterate_add_apply, h, h]

lemma undoes_remove1 : Undoes remove1 1 := by
  have hsh : Linear (shift CRC32C)^[1] := iterate_shift_xor CRC32C 1
  have hco : ∀ i < 32, (shift CRC32C)^[1] (times remove1 (twoPow 32 i)) = twoPow 32 i := by decide +kernel
  exact (hsh.comp (times_linear remove1)).ext (fun _ _ => rfl) hco

lemma removeLoop_eq {b : List (BitVec 32)} (hb : Undoes b m) {fuel n : Nat} (hf : n ≤ fuel) (c : BitVec 32) :
    (shift CRC32C)^[(m + m) * n] (removeLoop fuel b n c) = c := by
  induction fuel generalizing b m n c with
  | zero =>
    obtain rfl : n = 0 := by omega
    rfl
  | succ fuel ih =>
    rw [removeLoop]
    split
    · next h0 => rw [h0]; rfl
    have he : (m + m) * n = (m + m) * (n % 2) + (m + m + (m + m)) * (n / 2) := by
      rw [← two_mul (m + m), mul_comm 2, Nat.mul_assoc, ← Nat.mul_add, Nat.mod_add_div]
    rw [he, iterate_add_apply, ih hb.square (by omega)]
    split
    · next h1 => rw [h1, mul_one, hb.square]
    next h1 =>
      rw [show n % 2 = 0 by omega]
      rfl

lemma crc32Remove0_eq (c : BitVec 32) (n : Nat) : (shift CRC32C)^[8 * n] (crc32Remove0 c n) = c := by
  rw [crc32Remove0]
  split
  · next h0 => rw [h0]; rfl
  · exact removeLoop_eq undoes_remove1.square.square le_rfl c

/-! ## Trimming -/

lemma iterate_shift_injective (n : Nat) : Injective (shift CRC32C)^[n] := (shift_injective CRC32C (by decide)).iterate n

lemma crc32cTrimSw_eq {A P S : BitVec 32} {p s : Nat} (h : p + m + s < 2 ^ 32) (hP : p = 0 → P = 0#32)
    (hS : s = 0 → S = 0#32) : (shift CRC32C)^[8 * s] (crc32cTrimSw ⟨A, p + m + s⟩ ⟨P, p⟩ ⟨S, s⟩) =
      A ^^^ (shift CRC32C)^[8 * (16 * ((m + s) / 16))] P ^^^ S := by
  have hsi : ¬ p + m + s < (p + s) % 2 ^ 32 := by omega
  have hpr : (if p ≠ 0 then A ^^^ crc32cShift P (p + m + s - p) crc32cShiftHw else A) =
      A ^^^ (shift CRC32C)^[8 * (16 * ((m + s) / 16))] P := by
    split
    · rw [show p + m + s - p = m + s by omega, crc32cShift_eq shiftHw_eq (by omega)]
    · next h0 => rw [hP (not_not.1 h0), iterate_fixed (shift_zero CRC32C), xor_zero]
  rw [crc32cTrimSw]
  dsimp only
  rw [if_neg hsi, hpr]
  split
  · exact crc32Remove0_eq _ s
  next h0 =>
    rw [not_not.1 h0, hS (not_not.1 h0), xor_zero]
    rfl

/-- The middle of three strings, exactly when as many zeros as `crc32c_shift` leaves out do not change the
checksum of the first. -/
theorem trim_iff (mem : Nat → BitVec 8) (a : Nat) {p m s : Nat} (h : p + m + s < 2 ^ 32) :
    crc32cTrimSw ⟨crc32cSw mem a (p + m + s) 0#32, p + m + s⟩ ⟨crc32cSw mem a p 0#32, p⟩
        ⟨crc32cSw mem (a + p + m) s 0#32, s⟩ = crc32cSw mem (a + p) m 0#32 ↔
      crc32cSw (fun _ => 0#8) 0 ((m + s) % 16) (crc32cSw mem a p 0#32) = crc32cSw mem a p 0#32 := by
  have ha : crc32cSw mem a (p + m + s) 0#32 = (shift CRC32C)^[8 * (m + s)] (crc32cSw mem a p 0#32) ^^^
      (shift CRC32C)^[8 * s] (crc32cSw mem (a + p) m 0#32) ^^^ crc32cSw mem (a + p + m) s 0#32 := by
    simp only [crc32cSw_eq]
    rw [readBytes_add, readBytes_add, crc_append_append, readBytes_length, readBytes_length, add_assoc a]
  have he : ∀ b n, n = 0 → crc32cSw mem b n 0#32 = 0#32 := by
    rintro b n rfl
    rw [crc32cSw_eq]
    rfl
  have ht := crc32cTrimSw_eq h (he a p) (he (a + p + m) s) (A := crc32cSw mem a (p + m + s) 0#32)
  rw [ha] at ht ⊢
  generalize crc32cSw mem a p 0#32 = P at ht ⊢
  generalize crc32cSw mem (a + p + m) s 0#32 = S at ht ⊢
  generalize crc32cSw mem (a + p) m 0#32 = M at ht ⊢
  have hle : 8 * (m + s) = 8 * (16 * ((m + s) / 16)) + 8 * ((m + s) % 16) := by omega
  have hpr : (shift CRC32C)^[8 * ((m + s) % 16)] P = P ↔
      (shift CRC32C)^[8 * (m + s)] P = (shift CRC32C)^[8 * (16 * ((m + s) / 16))] P := by
    rw [hle, iterate_add_apply, (iterate_shift_injective _).eq_iff]
  rw [← (iterate_shift_injective (8 * s)).eq_iff, ht, zeros_eq, hpr]
  generalize (shift CRC32C)^[8 * (m + s)] P = X
  generalize (shift CRC32C)^[8 * (16 * ((m + s) / 16))] P = Y
  generalize (shift CRC32C)^[8 * s] M = N
  have hx : X ^^^ N ^^^ S ^^^ Y ^^^ S = X ^^^ Y ^^^ N := by
    rw [BitVec.xor_assoc _ Y S, BitVec.xor_comm Y S, ← BitVec.xor_assoc _ S Y, BitVec.xor_assoc _ S S, BitVec.xor_self,
      xor_zero]
    ac_rfl
  have hca : X ^^^ Y ^^^ N = N ↔ X ^^^ Y = 0#32 := by
    nth_rewrite 2 [← zero_xor (x := N)]
    exact xor_left_inj N
  rw [hx, hca, xor_eq_zero_iff]

/-- 16 bytes behind a prefix of three. -/
theorem trim_iff_blocks : 3 + 11 + 5 < 2 ^ 32 ∧
    (crc32cTrimSw ⟨crc32cSw (BitVec.ofNat 8) 1 (3 + 11 + 5) 0#32, 3 + 11 + 5⟩ ⟨crc32cSw (BitVec.ofNat 8) 1 3 0#32, 3⟩
        ⟨crc32cSw (BitVec.ofNat 8) (1 + 3 + 11) 5 0#32, 5⟩ = crc32cSw (BitVec.ofNat 8) (1 + 3) 11 0#32 ↔
      crc32cSw (fun _ => 0#8) 0 ((11 + 5) % 16) (crc32cSw (BitVec.ofNat 8) 1 3 0#32) =
        crc32cSw (BitVec.ofNat 8) 1 3 0#32) :=
  ⟨by decide, trim_iff _ 1 (by decide)⟩

/-- A byte 1, and one more: the prefix is not moved over the byte behind it. -/
theorem trim_one_byte : crc32cTrimSw ⟨crc32cSw (fun _ => 1#8) 0 (1 + 1 + 0) 0#32, 1 + 1 + 0⟩
    ⟨crc32cSw (fun _ => 1#8) 0 1 0#32, 1⟩ ⟨crc32cSw (fun _ => 1#8) (0 + 1 + 1) 0 0#32, 0⟩ ≠
      crc32cSw (fun _ => 1#8) (0 + 1) 1 0#32 := by
  decide +kernel

end Photon.Checksum
