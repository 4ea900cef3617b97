import Photon.Common.Estring
import Photon.Lib.LittleEndian
/-!
# Upper and lower case

`convert_case` of `estring.cpp` converts a string eight bytes at a time in one machine
word, the last word overlapping the one before. A word is a list of lanes, and no step of
`check_cases` carries from one lane into the next.
-/

namespace Photon.Estring

open List Nat UInt64

abbrev Octets := List (BitVec 8)

variable {s : Octets} {f : Nat → Nat → Nat}

def toupperFast (c : UInt8) : UInt8 := if 97 ≤ c ∧ c ≤ 122 then c - 32 else c

def toupperFast8 (x : UInt64) : UInt64 := x ^^^ (checkCases x 97 122 >>> 2)

/-- `f8(*(uint64_t*)&in[i])` of the first eight bytes, stored again as bytes. -/
def convertWord (f8 : UInt64 → UInt64) (s : Octets) : Octets := leBytes 8 (f8 (ofNat (leNat (s.take 8)))).toNat

def convertWords (f8 : UInt64 → UInt64) : Nat → Octets → Octets
  | 0, _ => []
  | n + 1, s => convertWord f8 s ++ convertWords f8 n (s.drop 8)

/-- What is written to `out`, for `len` of the bytes from `in` on. When `out` is `in`, the last word
is read back from what was written. -/
def convertCase (f1 : UInt8 → UInt8) (f8 : UInt64 → UInt64) (inPlace : Bool) (inp : Octets) (len : Nat) :
    Octets :=
  let s := inp.take (if len = 0 then (inp.takeWhile (· ≠ 0)).length else len)
  if s.length < 8 then (s.map fun c => (f1 ⟨c⟩).toBitVec) ++ [0]
  else
    let words := convertWords f8 (s.length / 8) s
    let src := if inPlace then words ++ s.drop (s.length / 8 * 8) else s
    words.take (s.length - 8) ++ convertWord f8 (src.drop (s.length - 8)) ++ [0]

def tolowerFastAll : Bool → Octets → Nat → Octets := convertCase tolowerFast tolowerFast8

def toupperFastAll : Bool → Octets → Nat → Octets := convertCase toupperFast toupperFast8

/-! ## Lanes -/

lemma leNat_map₂ {p q r : BitVec 8 → BitVec 8} (h0 : f 0 0 = 0)
    (h : ∀ b m n, f ((p b).toNat + 256 * m) ((q b).toNat + 256 * n) = (r b).toNat + 256 * f m n) (l : Octets) :
    f (leNat (l.map p)) (leNat (l.map q)) = leNat (l.map r) := by
  induction l with
  | nil => exact h0
  | cons b l ih => simp only [map_cons, leNat, h, ih]

lemma bitwise_lane {g : Bool → Bool → Bool} {r : BitVec 8 → BitVec 8 → BitVec 8}
    (hf : ∀ a b j, (f a b).testBit j = g (a.testBit j) (b.testBit j)) (hr : ∀ a b, (r a b).toNat = f a.toNat b.toNat)
    (a b : BitVec 8) (m n : Nat) : f (a.toNat + 256 * m) (b.toNat + 256 * n) = (r a b).toNat + 256 * f m n := by
  have hbi : ∀ (c : BitVec 8) (k j : Nat),
      (c.toNat + 256 * k).testBit j = if j < 8 then c.toNat.testBit j else k.testBit (j - 8) := by
    intro c k j
    rw [add_comm]
    exact testBit_two_pow_mul_add k c.isLt j
  apply eq_of_testBit_eq
  intro j
  rw [hf, hbi, hbi, hbi, hr, hf]
  split <;> simp [hf]

/-- The word that has `p` of the bytes `l` in its lanes. -/
def Lanes (l : Octets) (p : BitVec 8 → BitVec 8) (x : UInt64) : Prop := x.toNat = leNat (l.map p)

/-- `check_cases` in one lane, with `c` for `0x80 - a` and `d` for `0x7f - z`. -/
def lane (c d b : BitVec 8) : BitVec 8 := (((b &&& 0x7f) + c) ^^^ ((b &&& 0x7f) + d)) &&& (~~~b &&& 0x80)

/-- `tolower_fast8` in one lane: 'Y' and 'Z' stay. -/
def lower8 (b : BitVec 8) : BitVec 8 := b ||| (lane 63 39 b >>> 2)

def lower (b : BitVec 8) : BitVec 8 := (tolowerFast ⟨b⟩).toBitVec

lemma lower8_eq_iff : ∀ b : BitVec 8, lower8 b = lower b ↔ b ≠ 89 ∧ b ≠ 90 := by decide +kernel

def upper (b : BitVec 8) : BitVec 8 := (toupperFast ⟨b⟩).toBitVec

section
variable {l : Octets} {p q : BitVec 8 → BitVec 8} {x y : UInt64}

section
variable (hx : Lanes l p x) (hy : Lanes l q y)
include hx hy

lemma Lanes.and : Lanes l (fun b => p b &&& q b) (x &&& y) := by
  rw [Lanes, UInt64.toNat_and, hx, hy]
  exact leNat_map₂ rfl (fun b => bitwise_lane testBit_and BitVec.toNat_and (p b) (q b)) l

lemma Lanes.or : Lanes l (fun b => p b ||| q b) (x ||| y) := by
  rw [Lanes, UInt64.toNat_or, hx, hy]
  exact leNat_map₂ rfl (fun b => bitwise_lane testBit_or BitVec.toNat_or (p b) (q b)) l

lemma Lanes.xor : Lanes l (fun b => p b ^^^ q b) (x ^^^ y) := by
  rw [Lanes, UInt64.toNat_xor, hx, hy]
  exact leNat_map₂ rfl (fun b => bitwise_lane testBit_xor BitVec.toNat_xor (p b) (q b)) l

end

lemma Lanes.shiftRight (hx : Lanes l p x) (h : ∀ b, (p b).toNat % 4 = 0) : Lanes l (fun b => p b >>> 2) (x >>> 2) := by
  have hm := leNat_map₂ (f := fun m _ => 4 * m) (p := fun b => p b >>> 2) (q := p) (r := p) rfl (fun b m n => by
    have := h b
    rw [BitVec.toNat_ushiftRight, shiftRight_eq_div_pow]
    omega) l
  rw [Lanes, UInt64.toNat_shiftRight, hx, ← hm]
  exact Nat.shiftRight_eq_div_pow _ 2 ▸ Nat.mul_div_cancel_left _ (Nat.succ_pos 3)

variable (hl : l.length = 8)
include hl

lemma leNat_map_lt (p : BitVec 8 → BitVec 8) : leNat (l.map p) < 2 ^ 64 := by
  have h := leNat_lt (l.map p)
  rwa [length_map, hl] at h

lemma lanes_self : Lanes l id (ofNat (leNat l)) := by
  have h := leNat_map_lt hl id
  rw [map_id] at h
  rw [Lanes, map_id, toNat_ofNat_of_lt' h]

lemma leNat_const (c : BitVec 8) : leNat (l.map fun _ => c) = c.toNat * 0x0101010101010101 := by
  simp only [map_const', hl, replicate, leNat]
  grind

lemma lanes_const (c : BitVec 8) : Lanes l (fun _ => c) (⟨c.setWidth 64⟩ * 0x0101010101010101) := by
  rw [Lanes, leNat_const hl, UInt64.toNat_mul]
  simp
  omega

lemma Lanes.add (hx : Lanes l p x) (hy : Lanes l q y) (h : ∀ b, (p b).toNat + (q b).toNat < 256) :
    Lanes l (fun b => p b + q b) (x + y) := by
  have hsu := leNat_map₂ (f := (· + ·)) (p := p) (q := q) (r := fun b => p b + q b) rfl (fun b m n => by
    rw [BitVec.toNat_add, mod_eq_of_lt (h b)]
    omega) l
  rw [Lanes, UInt64.toNat_add, hx, hy, hsu, mod_eq_of_lt (leNat_map_lt hl _)]

lemma Lanes.not (hx : Lanes l p x) : Lanes l (fun b => ~~~p b) (~~~x) := by
  have hsu := leNat_map₂ (f := (· + ·)) (p := p) (q := fun b => ~~~p b) (r := fun _ => 255) rfl (fun b m n => by
    have := (p b).isLt
    rw [BitVec.toNat_not]
    change _ = 255 + _
    omega) l
  rw [leNat_const hl] at hsu
  rw [Lanes, toNat_not, hx]
  simp only [BitVec.reduceToNat] at hsu
  simp only [UInt64.size]
  omega

lemma lanes_checkCases (c d : BitVec 8) {a z : UInt64} (ha : 0x80 - a = ⟨c.setWidth 64⟩) (hz : 0x7f - z = ⟨d.setWidth 64⟩)
    (hc : c.toNat ≤ 128) (hd : d.toNat ≤ 128) : Lanes l (lane c d) (checkCases (ofNat (leNat l)) a z) := by
  have hx := lanes_self hl
  have hh := hx.and (lanes_const hl 0x7f)
  have had : ∀ (e : BitVec 8), e.toNat ≤ 128 → ∀ b : BitVec 8, (b &&& 0x7f).toNat + e.toNat < 256 := by
    intro e he b
    have : (b &&& 0x7f).toNat ≤ 127 := and_le_right
    omega
  have hg := hh.add hl (lanes_const hl c) (had c hc)
  have hgt := hh.add hl (lanes_const hl d) (had d hd)
  rw [← ha] at hg
  rw [← hz] at hgt
  exact (hg.xor hgt).and ((hx.not hl).and (lanes_const hl 0x80))

lemma tolowerFast8_lanes : (tolowerFast8 (ofNat (leNat l))).toNat = leNat (l.map lower8) :=
  (lanes_self hl).or ((lanes_checkCases hl 63 39 rfl rfl (by decide) (by decide)).shiftRight (by decide +kernel))

lemma toupperFast8_lanes : (toupperFast8 (ofNat (leNat l))).toNat = leNat (l.map upper) := by
  have hla : upper = fun b => b ^^^ (lane 31 5 b >>> 2) := by
    funext b
    revert b
    decide +kernel
  rw [hla]
  exact (lanes_self hl).xor ((lanes_checkCases hl 31 5 rfl rfl (by decide) (by decide)).shiftRight (by decide +kernel))

end

/-! ## The loops -/

section
variable {g : BitVec 8 → BitVec 8} {f8 : UInt64 → UInt64}
  (hf8 : ∀ l : Octets, l.length = 8 → (f8 (ofNat (leNat l))).toNat = leNat (l.map g))
include hf8

lemma convertWord_eq (hs : 8 ≤ s.length) : convertWord f8 s = (s.take 8).map g := by
  have hle : (s.take 8).length = 8 := length_take_of_le hs
  have hby := leBytes_leNat ((s.take 8).map g)
  rw [length_map, hle] at hby
  rw [convertWord, hf8 _ hle, hby]

lemma convertWords_eq {n : Nat} (hs : n * 8 ≤ s.length) : convertWords f8 n s = (s.take (n * 8)).map g := by
  induction n generalizing s with
  | zero => simp [convertWords]
  | succ n ih =>
    rw [convertWords, convertWord_eq hf8 (by omega), ih (by simp; omega), succ_mul, add_comm, take_add, map_append]

lemma convertCase_words (hg : ∀ b, g (g b) = g b) (f1 : UInt8 → UInt8) (inPlace : Bool) {inp : Octets}
    {len : Nat} (hle : len ≠ 0) (hi : inp.take len = s) (hs : ¬s.length < 8) :
    convertCase f1 f8 inPlace inp len = s.map g ++ [0] := by
  have hm : ∀ src, src = s ∨ src = (s.take (s.length / 8 * 8)).map g ++ s.drop (s.length / 8 * 8) →
      src.length = s.length ∧ src.map g = s.map g := by
    rintro _ (rfl | rfl)
    · exact ⟨rfl, rfl⟩
    · have hgg : g ∘ g = g := funext hg
      constructor
      · simp
        omega
      · rw [map_append, map_map, hgg, ← map_append, take_append_drop]
  simp only [convertCase, if_neg hle, hi, if_neg hs]
  rw [convertWords_eq hf8 (by omega)]
  generalize hsr : (if inPlace = true then _ else _) = src
  obtain ⟨hsi, hsa⟩ := hm src (by cases inPlace <;> simp_all)
  have hf : ((s.take (s.length / 8 * 8)).map g).take (s.length - 8) = (s.map g).take (s.length - 8) := by
    rw [← map_take, take_take, min_eq_left (by omega), map_take]
  have hla : convertWord f8 (src.drop (s.length - 8)) = (s.map g).drop (s.length - 8) := by
    have h8 : (src.drop (s.length - 8)).length = 8 := by
      rw [length_drop]
      omega
    rw [convertWord_eq hf8 h8.ge, take_of_length_le h8.le, map_drop, hsa]
  rw [hf, hla, take_append_drop]

end

/-- `toupper_fast` converts every byte. `tolower_fast` does so exactly if the string is shorter than a word
or has no 'Y' and no 'Z'. -/
theorem case_converted_iff (inPlace : Bool) (inp : Octets) {len : Nat} (hlen : 1 ≤ len) :
    (tolowerFastAll inPlace inp len = (inp.take len).map lower ++ [0] ↔
      (inp.take len).length < 8 ∨ ∀ b ∈ inp.take len, b ≠ 89 ∧ b ≠ 90) ∧
      toupperFastAll inPlace inp len = (inp.take len).map upper ++ [0] := by
  have hn : len ≠ 0 := by omega
  by_cases h8 : (inp.take len).length < 8
  · simp only [tolowerFastAll, toupperFastAll, convertCase, if_neg hn, h8, if_true, true_or, iff_true]
    exact ⟨rfl, rfl⟩
  constructor
  · rw [tolowerFastAll, convertCase_words (fun _ => tolowerFast8_lanes) (by decide +kernel) _ _ hn rfl h8]
    simp only [h8, false_or, append_cancel_right_eq, map_inj_left, lower8_eq_iff]
  · exact convertCase_words (fun _ => toupperFast8_lanes) (by decide +kernel) _ _ hn rfl h8

theorem case_converted_iff_photon : toupperFastAll true [112, 104, 111, 116, 111, 110, 47, 108, 49] 9 =
    [80, 72, 79, 84, 79, 78, 47, 76, 49, 0] :=
  (case_converted_iff true _ (by decide)).2

theorem galaxy_not_lower : tolowerFastAll false [71, 65, 76, 65, 88, 89, 48, 49] 8 ≠
    [71, 65, 76, 65, 88, 89, 48, 49].map lower ++ [0] := by decide +kernel

end Photon.Estring
