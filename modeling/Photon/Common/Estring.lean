import Mathlib.Algebra.Ring.Nat
import Photon.Lib.Find
/-!
# Strings

What the HTTP code uses of `estring.h`: views with 16-bit offset and length relative to a
text, numbers, and the comparison that ignores case. The comparison works on eight bytes at
a time, except for a string shorter than that.

- `icmp_map`: a comparison with a short string ignores the case of letters.
- `RStringView16.of_on`: a view whose offset and length fit 16 bits denotes what it was
  made for.
-/

namespace Photon.Estring

open List

/-! ## Views -/

structure RStringView16 where
  offset : Nat := 0
  length : Nat := 0
  deriving DecidableEq

open RStringView16

/-- The constructor, which keeps 16 bits of each. -/
def RStringView16.of (offset length : Nat) : RStringView16 := ⟨offset % 2 ^ 16, length % 2 ^ 16⟩

/-- `text | view`. -/
def RStringView16.on (v : RStringView16) (text : List UInt8) : List UInt8 := (text.drop v.offset).take v.length

def u16 (x : Int) : Nat := (x % 65536).toNat

/-- `view += x`. -/
def RStringView16.shift (v : RStringView16) (x : Int) : RStringView16 := { v with offset := u16 (v.offset + x) }

lemma u16_eq {x : Int} {n : Nat} (h : x = n) (hn : n < 2 ^ 16) : u16 x = n := by
  rw [u16, h]
  omega

variable {offset length : Nat} {t ds : List UInt8}

lemma RStringView16.of_eq (ho : offset < 2 ^ 16) (hl : length < 2 ^ 16) :
    of offset length = ⟨offset, length⟩ := by
  rw [of, Nat.mod_eq_of_lt ho, Nat.mod_eq_of_lt hl]

lemma RStringView16.of_on (pre post : List UInt8) {text : List UInt8}
    (hte : text = pre ++ (t ++ post)) (hsm : text.length < 2 ^ 16) (ho : offset = pre.length)
    (hl : length = t.length) : (of offset length).on text = t := by
  rw [hte, length_append, length_append] at hsm
  rw [of_eq (by omega) (by omega), on, hte, ho, hl, drop_left, take_left]

lemma RStringView16.on_length_le (v : RStringView16) (text : List UInt8) : (v.on text).length ≤ v.length := by
  rw [on, length_take]
  exact min_le_left ..

lemma RStringView16.of_on_iff {text : List UInt8} (hl : length = t.length) :
    (of offset length).on text = t ↔ length < 2 ^ 16 ∧ t <+: text.drop (offset % 2 ^ 16) := by
  rw [on, of]
  dsimp only
  constructor
  · intro h
    have hle := congrArg List.length h
    rw [length_take] at hle
    refine ⟨by omega, ?_⟩
    rw [← h]
    exact List.take_prefix ..
  · rintro ⟨hlt, hpr⟩
    rw [Nat.mod_eq_of_lt hlt, hl]
    exact (prefix_iff_eq_take.1 hpr).symm

/-! ## Numbers -/

/-- The loop of `_to_uint64_check<10>`: how many characters are digits, and the value. -/
def toUint64Loop (i val : Nat) : List UInt8 → Nat × Nat
  | [] => (i, val)
  | c :: s => if c - 48 ≥ 10 then (i, val) else toUint64Loop (i + 1) ((val * 10 + (c - 48).toNat) % 2 ^ 64) s

def toUint64Check (s : List UInt8) : Nat × Nat := toUint64Loop 0 0 s

def toUint64 (s : List UInt8) : Nat := if (toUint64Check s).1 = 0 then 0 else (toUint64Check s).2

def decimal (s : List UInt8) : Nat := s.foldl (fun v c => v * 10 + (c - 48).toNat) 0

def IsDigit (c : UInt8) : Prop := c - 48 < 10

instance (c : UInt8) : Decidable (IsDigit c) := inferInstanceAs (Decidable (c - 48 < 10))

section
variable (hds : ∀ c ∈ ds, IsDigit c) (ht : ∀ c ∈ t.head?, ¬ IsDigit c)
include hds ht

lemma toUint64Loop_digits (i val : Nat) :
    toUint64Loop i (val % 2 ^ 64) (ds ++ t) =
      (i + ds.length, ds.foldl (fun v c => v * 10 + (c - 48).toNat) val % 2 ^ 64) := by
  induction ds generalizing i val with
  | nil =>
    cases t with
    | nil => rfl
    | cons c =>
      have hc : c - 48 ≥ 10 := UInt8.not_lt.1 (ht c rfl)
      rw [nil_append, toUint64Loop, if_pos hc]
      rfl
  | cons d ds ih =>
    have hd : ¬ d - 48 ≥ 10 := UInt8.not_le.2 (hds d mem_cons_self)
    have hv : (val % 2 ^ 64 * 10 + (d - 48).toNat) % 2 ^ 64 = (val * 10 + (d - 48).toNat) % 2 ^ 64 := by omega
    rw [cons_append, toUint64Loop, if_neg hd, hv, ih fun c hc => hds c (mem_cons_of_mem _ hc)]
    rw [length_cons, foldl_cons, add_assoc, add_comm 1]

lemma toUint64Check_digits : toUint64Check (ds ++ t) = (ds.length, decimal ds % 2 ^ 64) := by
  have := toUint64Loop_digits hds ht 0 0
  rwa [Nat.zero_mod, zero_add] at this

end

/-! ## Comparison -/

def tolowerFast (c : UInt8) : UInt8 := if 65 ≤ c ∧ c ≤ 90 then c + 32 else c

def load8 (s : List UInt8) (i : Nat) : UInt64 := ((s.drop i).take 8).foldr (fun c x => x <<< 8 ||| c.toUInt64) 0

def checkCases (x : UInt64) (a z : UInt64) : UInt64 :=
  let allBytes : UInt64 := 0x0101010101010101
  let heptets := x &&& (0x7f * allBytes)
  let isAscii := ~~~x &&& (0x80 * allBytes)
  let isGtZ := heptets + (0x7f - z) * allBytes
  let isGeA := heptets + (0x80 - a) * allBytes
  (isGeA ^^^ isGtZ) &&& isAscii

/-- The source has 'X' here. -/
def tolowerFast8 (x : UInt64) : UInt64 := x ||| (checkCases x 65 88 >>> 2)

def bswap64 (x : UInt64) : UInt64 := (range 8).foldl (fun y i => y <<< 8 ||| (x >>> (8 * i.toUInt64) &&& 0xff)) 0

def icmp8 (a b : List UInt8) (i : Nat) : UInt64 := bswap64 (tolowerFast8 (load8 a i)) - bswap64 (tolowerFast8 (load8 b i))

def spaceship (x : UInt64) : Int :=
  let high := (x >>> 32).toUInt32
  let low := (x &&& 0xffffffff).toUInt32
  (high ||| (low >>> 1) ||| (low &&& 1)).toInt32.toInt

def cmpShort : List UInt8 → List UInt8 → Option Int
  | x :: a, y :: b =>
    let d := (tolowerFast x).toInt8.toInt - (tolowerFast y).toInt8.toInt
    if d ≠ 0 then some d else cmpShort a b
  | _, _ => none

def cmpWords (a b : List UInt8) : Nat → Nat → Option Int
  | 0, _ => none
  | n + 1, i => if icmp8 a b i ≠ 0 then some (spaceship (icmp8 a b i)) else cmpWords a b n (i + 8)

def cmpSize (a b : List UInt8) : Int := spaceship (a.length.toUInt64 - b.length.toUInt64)

def stricmpFast (a b : List UInt8) : Int :=
  let len := min a.length b.length
  if len < 8 then (cmpShort a b).getD (cmpSize a b)
  else
    match cmpWords a b (len / 8) 0 with
    | some x => x
    | none => if len / 8 * 8 < len ∧ icmp8 a b (len - 8) ≠ 0 then spaceship (icmp8 a b (len - 8)) else cmpSize a b

def icmp (a b : List UInt8) : Int := stricmpFast a b

lemma tolowerFast_tolowerFast (c : UInt8) : tolowerFast (tolowerFast c) = tolowerFast c := by
  have ha : ∀ n < 256, tolowerFast (tolowerFast (UInt8.ofNat n)) = tolowerFast (UInt8.ofNat n) := by decide +kernel
  have hc : UInt8.ofNat c.toNat = c := UInt8.ofNat_toNat
  rw [← hc]
  exact ha c.toNat c.toNat_lt

lemma cmpShort_map (a b : List UInt8) : cmpShort a b = cmpShort (a.map tolowerFast) (b.map tolowerFast) := by
  induction a generalizing b with
  | nil => rfl
  | cons x a ih =>
    cases b with
    | nil => rfl
    | cons y b =>
      rw [map_cons, map_cons, cmpShort, cmpShort, tolowerFast_tolowerFast, tolowerFast_tolowerFast, ih b]

lemma icmp_map {a b : List UInt8} (h : min a.length b.length < 8) :
    icmp a b = icmp (a.map tolowerFast) (b.map tolowerFast) := by
  unfold icmp stricmpFast cmpSize
  rw [length_map, length_map]
  dsimp only
  rw [if_pos h, if_pos h, cmpShort_map]

end Photon.Estring
