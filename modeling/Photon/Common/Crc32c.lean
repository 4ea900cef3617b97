import Photon.Lib.Crc
/-!
# `TableCRC`, `crc32c_sw` and `crc64ecma_sw`

The checksum is computed from eight tables. Up to the first address that is a multiple of
8, and behind the last whole block, bytes are taken one at a time; in between, eight at a
time, with one table for each of the eight bytes.
-/

namespace Photon.Checksum

open BitVec Crc

section TableCRC

variable {w : Nat} (POLY : BitVec w)

def tableStep (crc : BitVec w) : BitVec w := ((crc &&& 1#w) * POLY) ^^^ (crc >>> 1)

def table : Nat → BitVec w → BitVec w
  | 0, n => (tableStep POLY)^[8] n
  | k + 1, n =>
    let crc := table k n
    table 0 (crc &&& 255#w) ^^^ (crc >>> 8)

def f1 (crc : BitVec w) (b : BitVec 8) : BitVec w := table POLY 0 ((crc ^^^ b.setWidth w) &&& 255#w) ^^^ (crc >>> 8)

def f8 (crc : BitVec w) (x : BitVec 64) : BitVec w :=
  let x := x ^^^ crc.setWidth 64
  (List.range 8).foldl (fun crc i => crc ^^^ table POLY (7 - i) (((x >>> (i * 8)) &&& 255#64).setWidth w)) 0#w

/-- `*(uint64_t*)data`. -/
def load64 (mem : Nat → BitVec 8) (data : Nat) : BitVec 64 := BitVec.ofNat 64 (leNat (readBytes mem data 8))

def byteLoop (mem : Nat → BitVec 8) (data limit : Nat) : Nat → Nat → BitVec w → Nat × BitVec w
  | 0, offset, crc => (offset, crc)
  | fuel + 1, offset, crc =>
    if offset < limit then byteLoop mem data limit fuel (offset + 1) (f1 POLY crc (mem (data + offset)))
    else (offset, crc)

def blockLoop (mem : Nat → BitVec 8) (data nbytes : Nat) : Nat → Nat → BitVec w → Nat × BitVec w
  | 0, offset, crc => (offset, crc)
  | fuel + 1, offset, crc =>
    if offset + 8 ≤ nbytes then
      blockLoop mem data nbytes fuel (offset + 8) (f8 POLY crc (load64 mem (data + offset)))
    else (offset, crc)

def doCrc (mem : Nat → BitVec 8) (data nbytes : Nat) (crc : BitVec w) : BitVec w :=
  let mask := data % 8
  let head := if mask ≠ 0 then byteLoop POLY mem data (min nbytes (8 - mask)) nbytes 0 crc else (0, crc)
  let blocks := blockLoop POLY mem data nbytes nbytes head.1 head.2
  (byteLoop POLY mem data nbytes nbytes blocks.1 blocks.2).2

end TableCRC

def crc32cSw (mem : Nat → BitVec 8) (buffer nbytes : Nat) (crc : BitVec 32) : BitVec 32 :=
  doCrc 0x82f63b78#32 mem buffer nbytes crc

/-- The polynomial is 0xc96c5795d7870f42, and the value is complemented before and after. -/
def crc64ecmaSw (mem : Nat → BitVec 8) (buffer nbytes : Nat) (crc : BitVec 64) : BitVec 64 :=
  ~~~doCrc 0xc96c5795d7870f42#64 mem buffer nbytes (~~~crc)

/-! ## The tables -/

section Spec

variable {w : Nat} (POLY : BitVec w)

lemma tableStep_eq (c : BitVec w) : tableStep POLY c = shift POLY c := by
  unfold tableStep shift
  rw [and_one_eq_setWidth_ofBool_getLsbD]
  cases c.getLsbD 0 with
  | false => simp
  | true =>
    have h1 : (ofBool true).setWidth w = 1#w := eq_of_toNat_eq (by simp)
    rw [h1, BitVec.one_mul, if_pos rfl]

lemma and_255 (c : BitVec w) : c &&& 255#w = low c := by
  refine eq_of_getLsbD_eq fun i hi => ?_
  have h255 : (255#w).getLsbD i = decide (i < 8) := by
    rw [getLsbD_ofNat, decide_eq_true hi, Bool.true_and]
    exact Nat.testBit_two_pow_sub_one 8 i
  rw [getLsbD_low, getLsbD_and, h255, Bool.and_comm]

lemma table_zero (n : BitVec w) : table POLY 0 n = shift8 POLY n := by
  have hst : tableStep POLY = shift POLY := funext (tableStep_eq POLY)
  rw [table, hst]
  rfl

lemma table_eq (k : Nat) (n : BitVec w) : table POLY k n = (shift8 POLY)^[k + 1] n := by
  induction k with
  | zero => exact table_zero POLY n
  | succ k ih =>
    rw [table, table_zero, and_255, ← shift8_low, ih, Function.iterate_succ_apply' _ (k + 1)]

lemma f1_eq (c : BitVec w) (b : BitVec 8) : f1 POLY c b = step POLY c b := by
  have hb : b.setWidth w >>> 8 = 0#w := by
    refine eq_of_getLsbD_eq fun i _ => ?_
    simp
  rw [f1, table_zero, and_255, step, shift8_low POLY (c ^^^ b.setWidth w), ushiftRight_xor_distrib, hb, xor_zero]

lemma index_eq (y : BitVec 64) (i : Nat) :
    ((y >>> (i * 8)) &&& 255#64).setWidth w = (BitVec.ofNat 8 (y.toNat / 256 ^ i)).setWidth w := by
  have hby : BitVec.ofNat 8 (y.toNat / 256 ^ i) = (y >>> (i * 8)).setWidth 8 := by
    refine eq_of_toNat_eq ?_
    rw [toNat_ofNat, toNat_setWidth, toNat_ushiftRight, Nat.shiftRight_eq_div_pow, mul_comm i, Nat.pow_mul]
  rw [and_255, hby, low]
  refine eq_of_getLsbD_eq fun j hj => ?_
  simp only [getLsbD_setWidth, hj, decide_true, Bool.true_and]
  by_cases h : j < 8
  · simp [h, show j < 64 by omega]
  · simp [h]

lemma f8_eq (hw : w ≤ 64) (c : BitVec w) (x : BitVec 64) : f8 POLY c x = crc POLY c (leBytes 8 x.toNat) := by
  have hx : (x ^^^ c.setWidth 64).toNat = x.toNat ^^^ c.toNat := by
    rw [toNat_xor, toNat_setWidth, Nat.mod_eq_of_lt]
    exact lt_of_lt_of_le c.isLt (Nat.pow_le_pow_right (by decide) hw)
  rw [crc_move POLY (show w ≤ 8 * 8 from hw), f8, crc_leBytes, Function.iterate_fixed (shift8_zero POLY)]
  simp only [index_eq, hx, table_eq]
  rfl

/-! ## The loops -/

variable (mem : Nat → BitVec 8) (data : Nat)

lemma byteLoop_spec {limit fuel off : Nat} (c : BitVec w) (ho : off ≤ limit) (hf : limit - off ≤ fuel) :
    byteLoop POLY mem data limit fuel off c =
      (limit, crc POLY c (readBytes mem (data + off) (limit - off))) := by
  induction fuel generalizing off c with
  | zero =>
    obtain rfl : off = limit := by omega
    rw [byteLoop, Nat.sub_self]
    rfl
  | succ fuel ih =>
    rw [byteLoop]
    by_cases hlt : off < limit
    · have hn : limit - off = 1 + (limit - (off + 1)) := by omega
      rw [if_pos hlt, ih _ hlt (by omega), hn, readBytes_add, crc_append, f1_eq]
      rfl
    · obtain rfl : off = limit := by omega
      rw [if_neg hlt, Nat.sub_self]
      rfl

lemma leBytes_load64 : leBytes 8 (load64 mem data).toNat = readBytes mem data 8 := by
  have hlt := leNat_lt (readBytes mem data 8)
  rw [readBytes_length] at hlt
  have h8 := leBytes_leNat (readBytes mem data 8)
  rw [readBytes_length] at h8
  rw [load64, toNat_ofNat, Nat.mod_eq_of_lt (by omega), h8]

lemma blockLoop_spec (hw : w ≤ 64) {nbytes fuel off : Nat} (c : BitVec w) (ho : off ≤ nbytes) :
    ∃ n, blockLoop POLY mem data nbytes fuel off c =
      (off + n, crc POLY c (readBytes mem (data + off) n)) ∧ off + n ≤ nbytes := by
  induction fuel generalizing off c with
  | zero => exact ⟨0, rfl, ho⟩
  | succ fuel ih =>
    rw [blockLoop]
    by_cases hle : off + 8 ≤ nbytes
    · obtain ⟨n, he, hn⟩ := ih (f8 POLY c (load64 mem (data + off))) hle
      refine ⟨8 + n, ?_, by omega⟩
      rw [if_pos hle, he, readBytes_add, crc_append, f8_eq POLY hw, leBytes_load64, add_assoc, add_assoc]
    · rw [if_neg hle]
      exact ⟨0, rfl, ho⟩

lemma doCrc_eq (hw : w ≤ 64) (nbytes : Nat) (c : BitVec w) :
    doCrc POLY mem data nbytes c = crc POLY c (readBytes mem data nbytes) := by
  have ht : ∀ (o : Nat) (c : BitVec w), o ≤ nbytes →
      (byteLoop POLY mem data nbytes nbytes (blockLoop POLY mem data nbytes nbytes o c).1
        (blockLoop POLY mem data nbytes nbytes o c).2).2 =
      crc POLY c (readBytes mem (data + o) (nbytes - o)) := by
    intro o c ho
    obtain ⟨n, he, hn⟩ : ∃ n, blockLoop POLY mem data nbytes nbytes o c =
        (o + n, crc POLY c (readBytes mem (data + o) n)) ∧ o + n ≤ nbytes :=
      blockLoop_spec POLY mem data hw c ho
    have hsp : nbytes - o = n + (nbytes - (o + n)) := by omega
    rw [he]
    dsimp only
    rw [byteLoop_spec POLY mem data _ hn (by omega), hsp, readBytes_add, crc_append, add_assoc]
  unfold doCrc
  dsimp only
  split
  · rw [byteLoop_spec POLY mem data c (Nat.zero_le _) (by omega)]
    dsimp only
    have hle : min nbytes (8 - data % 8) ≤ nbytes := min_le_left ..
    refine (ht _ _ hle).trans ?_
    rw [Nat.sub_zero, add_zero, ← crc_append, ← readBytes_add, Nat.add_sub_cancel' hle]
  · exact ht 0 c (Nat.zero_le _)

end Spec

lemma crc32cSw_eq (mem : Nat → BitVec 8) (buffer nbytes : Nat) (c : BitVec 32) :
    crc32cSw mem buffer nbytes c = crc 0x82f63b78#32 c (readBytes mem buffer nbytes) :=
  doCrc_eq _ mem buffer (by decide) nbytes c

theorem sw_bitwise (mem : Nat → BitVec 8) (buffer nbytes : Nat) :
    (∀ c, crc32cSw mem buffer nbytes c = crc 0x82f63b78#32 c (readBytes mem buffer nbytes)) ∧
      ∀ c, crc64ecmaSw mem buffer nbytes c = ~~~crc 0xc96c5795d7870f42#64 (~~~c) (readBytes mem buffer nbytes) := by
  constructor
  · exact crc32cSw_eq mem buffer nbytes
  · intro c
    rw [crc64ecmaSw, doCrc_eq _ mem buffer (by decide)]

end Photon.Checksum
