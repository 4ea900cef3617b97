import Mathlib.Algebra.Order.Group.Nat
import Mathlib.Data.Nat.Bitwise
import Photon.Lib.Search
/-!
# Splitting a range into blocks (`fs/range-split.h`, `fs/range-split-vi.h`)

`basic_range_split` cuts `[offset, offset + length)` at block boundaries; a derived class
says where the blocks are by `divide`, `multiply` and `get_length`. All arithmetic is that
of `uint64_t`. `Splitter.Splits` says that a class cuts at given boundaries, and
`allParts_tiles` that the parts the iterator of `all_parts` goes through then are
consecutive pieces of blocks that make up the range, for every such class.
-/

namespace Photon.Fs

open List Nat

structure SubRange where
  i : Nat
  offset : Nat
  length : Nat
  deriving DecidableEq

/-- A `sub_range` that has just been constructed or cleared; as a condition it is false. -/
def SubRange.empty : SubRange := ⟨0, 0, 0⟩

/-- What a class derived from `basic_range_split` provides. The results of `divide` are
`round_down`, `remainder` and `round_up`. -/
structure Splitter where
  divide : Nat → Nat × Nat × Nat
  multiply : Nat → Nat → Nat
  getLength : Nat → Nat

/-- `basic_range_split` after `init`. -/
structure RangeSplit where
  splitter : Splitter
  abegin : Nat
  aend : Nat
  apbegin : Nat
  apend : Nat
  beginRemainder : Nat
  endRemainder : Nat
  smallNote : SubRange
  preface : SubRange
  first : SubRange
  postface : SubRange

open RangeSplit

def Splitter.init (s : Splitter) (offset length : Nat) : RangeSplit :=
  let abegin := (s.divide offset).1
  let beginRemainder := (s.divide offset).2.1
  let apbegin := (s.divide offset).2.2
  let apend := (s.divide ((offset + length) % 2 ^ 64)).1
  let endRemainder := (s.divide ((offset + length) % 2 ^ 64)).2.1
  let aend := (s.divide ((offset + length) % 2 ^ 64)).2.2
  let one := (abegin + 1) % 2 ^ 64 = aend
  -- the part that reaches from `offset` to the end, and the one that reaches to the end of its block
  let whole : SubRange := ⟨abegin, beginRemainder, length⟩
  let head : SubRange := if abegin = apbegin then .empty
    else ⟨abegin, beginRemainder, s.getLength abegin - beginRemainder⟩
  { splitter := s, abegin, aend, apbegin, apend, beginRemainder, endRemainder
    smallNote := if one ∧ abegin ≠ apbegin ∧ aend ≠ apend then whole else .empty
    preface :=
      if one then if abegin ≠ apbegin ∧ aend = apend then whole else .empty
      else head
    first :=
      if one then whole
      else if 0 < head.length then head
      else ⟨apbegin, 0, s.getLength apbegin⟩
    postface :=
      if one then if abegin = apbegin ∧ aend ≠ apend then whole else .empty
      else if aend = apend then .empty
      else ⟨apend, 0, endRemainder⟩ }

namespace RangeSplit

def isAligned (rs : RangeSplit) : Bool := rs.beginRemainder = 0 ∧ rs.endRemainder = 0

def isAlignedPtr (rs : RangeSplit) (buf : Nat) : Bool := rs.splitter.multiply (rs.splitter.divide buf).1 0 = buf

def alignedBeginOffset (rs : RangeSplit) : Nat := rs.splitter.multiply rs.abegin 0

def alignedEndOffset (rs : RangeSplit) : Nat := rs.splitter.multiply rs.aend 0

def alignedLength (rs : RangeSplit) : Nat := rs.splitter.multiply ((rs.aend + 2 ^ 64 - rs.abegin) % 2 ^ 64) 0

def partLength (rs : RangeSplit) (i : Nat) : Nat :=
  if 0 < rs.postface.length ∧ rs.postface.i = i then rs.postface.length else rs.splitter.getLength i

def next (rs : RangeSplit) (it : SubRange) : SubRange :=
  let i := (it.i + 1) % 2 ^ 64
  ⟨i, 0, if i ≠ rs.aend then rs.partLength i else it.length⟩

def partsFrom (rs : RangeSplit) : Nat → SubRange → List SubRange
  | 0, _ => []
  | fuel + 1, it => if it.i = rs.aend then [] else it :: rs.partsFrom fuel (rs.next it)

/-- `all_parts`. The index takes every value of `uint64_t` within `2 ^ 64` steps, so the loop ends. -/
def allParts (rs : RangeSplit) : List SubRange := rs.partsFrom (2 ^ 64) rs.first

end RangeSplit

/-! ## The derived classes -/

def rangeSplit (interval : Nat) : Splitter where
  divide x := (x / interval, x % interval, (x + interval - 1) % 2 ^ 64 / interval)
  multiply i x := (i * interval + x) % 2 ^ 64
  getLength _ := interval

/-- `__builtin_ffsl`: one more than the index of the lowest bit that is set. -/
def builtinFfsl (x : Nat) : Nat := (((range 64).find? x.testBit).map (· + 1)).getD 0

def intervalShift (interval : Nat) : Nat := builtinFfsl interval - 1

def rangeSplitPower2 (interval : Nat) : Splitter where
  divide x :=
    let mask := interval - 1
    (x >>> intervalShift interval, x &&& mask, ((x + mask) % 2 ^ 64) >>> intervalShift interval)
  multiply i x := ((i <<< intervalShift interval) + x) % 2 ^ 64
  getLength _ := interval

def rangeSplitVi (keyPoints : List Nat) : Splitter where
  divide x :=
    -- std::upper_bound
    let i := lowerBound (fun k => decide (k ≤ x)) keyPoints
    let remainder := x - keyPoints.getD (i - 1) 0
    (i - 1, remainder, if 0 < remainder then i else i - 1)
  multiply i x := (keyPoints.getD i 0 + x) % 2 ^ 64
  getLength i := keyPoints.getD (i + 1) 0 - keyPoints.getD i 0

/-! ## What `init` sets in every case -/

section Init

variable (s : Splitter) (offset length : Nat)

@[simp] lemma init_splitter : (s.init offset length).splitter = s := rfl

@[simp] lemma init_abegin : (s.init offset length).abegin = (s.divide offset).1 := rfl

@[simp] lemma init_beginRemainder : (s.init offset length).beginRemainder = (s.divide offset).2.1 := rfl

@[simp] lemma init_aend : (s.init offset length).aend = (s.divide ((offset + length) % 2 ^ 64)).2.2 := rfl

@[simp] lemma init_endRemainder : (s.init offset length).endRemainder = (s.divide ((offset + length) % 2 ^ 64)).2.1 :=
  rfl

lemma init_smallNote : (s.init offset length).smallNote.length =
    if ((s.divide offset).1 + 1) % 2 ^ 64 = (s.divide ((offset + length) % 2 ^ 64)).2.2 ∧
      (s.divide offset).1 ≠ (s.divide offset).2.2 ∧
      (s.divide ((offset + length) % 2 ^ 64)).2.2 ≠ (s.divide ((offset + length) % 2 ^ 64)).1 then length else 0 := by
  unfold Splitter.init
  exact apply_ite SubRange.length ..

end Init

/-! ## Consecutive pieces of blocks -/

/-- `x` is in block `i` of `n`, `r` bytes behind its start; the end of the last block counts as
the start of block `n`. -/
def Located (start : Nat → Nat) (n x i r : Nat) : Prop :=
  x = start i + r ∧ ((i < n ∧ start i + r < start (i + 1)) ∨ (i = n ∧ r = 0))

/-- The parts are pieces of the blocks, each behind the one before it, from `o` to `e`. -/
inductive Tiles (start : Nat → Nat) (n : Nat) : Nat → List SubRange → Nat → Prop
  | nil (o : Nat) : Tiles start n o [] o
  | cons {o e : Nat} {p : SubRange} {ps : List SubRange} (hi : p.i < n) (ho : start p.i + p.offset = o)
      (hl : start p.i + p.offset + p.length ≤ start (p.i + 1)) (h : Tiles start n (o + p.length) ps e) :
      Tiles start n o (p :: ps) e

lemma Tiles.le {start : Nat → Nat} {n o e : Nat} {ps : List SubRange} (h : Tiles start n o ps e) : o ≤ e := by
  induction h with
  | nil o => exact Nat.le_refl o
  | cons => omega

/-- The class cuts at the boundaries `start 0`, …, `start n`. -/
structure Splitter.Splits (s : Splitter) (start : Nat → Nat) (n : Nat) : Prop where
  start_zero : start 0 = 0
  start_lt : ∀ i < n, start i < start (i + 1)
  bound : start n + 1 < 2 ^ 64
  divide : ∀ {x i r : Nat}, Located start n x i r → s.divide x = (i, r, if r = 0 then i else i + 1)
  getLength : ∀ i < n, s.getLength i = start (i + 1) - start i

/-- As `Splits`, for ranges that end at `m` or before. -/
structure Splitter.SplitsTo (s : Splitter) (start : Nat → Nat) (n m : Nat) : Prop where
  start_zero : start 0 = 0
  start_lt : ∀ i < n, start i < start (i + 1)
  bound : start n + 1 < 2 ^ 64
  le : m ≤ start n
  divide : ∀ {x i r : Nat}, x ≤ m → Located start n x i r → s.divide x = (i, r, if r = 0 then i else i + 1)
  getLength : ∀ i < n, s.getLength i = start (i + 1) - start i

lemma Splitter.Splits.to {s : Splitter} {start : Nat → Nat} {n : Nat} (hs : s.Splits start n) :
    s.SplitsTo start n (start n) :=
  ⟨hs.start_zero, hs.start_lt, hs.bound, le_rfl, fun _ h => hs.divide h, hs.getLength⟩

section Splits

variable {s : Splitter} {start : Nat → Nat} {n : Nat} {i x r a b q m : Nat} {rs : RangeSplit}

lemma start_mono (hlt : ∀ i < n, start i < start (i + 1)) {j : Nat} (hi : i ≤ j) (hj : j ≤ n) :
    start i + (j - i) ≤ start j := by
  induction j, hi using Nat.le_induction with
  | base => omega
  | succ j =>
    have h2 := hlt j (by omega)
    omega

lemma exists_located (h0 : start 0 = 0) (hlt : ∀ i < n, start i < start (i + 1)) (hx : x ≤ start n) :
    ∃ i r, Located start n x i r := by
  induction n with
  | zero => exact ⟨0, 0, by omega, .inr ⟨rfl, rfl⟩⟩
  | succ n ih =>
    by_cases hn : x < start n
    · -- the block is one of the first `n`
      obtain ⟨i, r, hxi, hi | ⟨rfl, rfl⟩⟩ := ih (fun i hi => hlt i (by omega)) (le_of_lt hn)
      · exact ⟨i, r, hxi, .inl ⟨by omega, hi.2⟩⟩
      · omega
    by_cases hla : x = start (n + 1)
    · exact ⟨n + 1, 0, by omega, .inr ⟨rfl, rfl⟩⟩
    · exact ⟨n, x - start n, by omega, .inl ⟨by omega, by omega⟩⟩

lemma Located.index_le (h : Located start n x i r) : i ≤ n := by
  obtain ⟨-, h | h⟩ := h <;> omega

lemma Located.round_up (h : Located start n x i r) :
    (if r = 0 then i else i + 1) ≤ n ∧ x ≤ start (if r = 0 then i else i + 1) := by
  obtain ⟨rfl, h | ⟨rfl, rfl⟩⟩ := h
  · by_cases hr : r = 0
    · rw [if_pos hr]
      omega
    · rw [if_neg hr]
      omega
  · rw [if_pos rfl]
    omega

lemma Located.le (hlt : ∀ i < n, start i < start (i + 1)) {y : Nat} (hx : Located start n x a r)
    (hy : Located start n y b q) (hxy : x ≤ y) : a ≤ b := by
  obtain ⟨rfl, ha⟩ := hx
  obtain ⟨rfl, hb⟩ := hy
  by_contra hab
  have hm := start_mono hlt (show b + 1 ≤ a by omega) (by omega)
  omega

lemma Splitter.SplitsTo.index_lt (hs : s.SplitsTo start n m) (hi : i ≤ n) : i + 1 < 2 ^ 64 := by
  have hm := start_mono hs.start_lt (zero_le i) hi
  have hn := start_mono hs.start_lt hi le_rfl
  have hb := hs.bound
  omega

/-! ## The loop over all parts -/

/-- What the fields of `rs` say about the range from block `a` to `e = start b + q`. -/
structure RangeSplit.Ends (rs : RangeSplit) (start : Nat → Nat) (n b q : Nat) : Prop where
  located : Located start n (start b + q) b q
  aend : rs.aend = if q = 0 then b else b + 1
  partLength : ∀ i < rs.aend, rs.partLength i = (if i = b then q else start (i + 1) - start i)

lemma RangeSplit.Ends.aend_le (h : rs.Ends start n b q) : rs.aend ≤ n := by
  rw [h.aend]
  exact h.located.round_up.1

def RangeSplit.cutoff (rs : RangeSplit) (start : Nat → Nat) (e i : Nat) : Nat := if i = rs.aend then e else start i

lemma RangeSplit.Ends.cutoff_succ (h : rs.Ends start n b q) (hlt : ∀ i < n, start i < start (i + 1))
    (hi : i < rs.aend) : start i + rs.partLength i = rs.cutoff start (start b + q) (i + 1) := by
  have hn := h.aend_le
  have hae := h.aend
  have hlen := h.partLength i hi
  have hst := hlt i (by omega)
  unfold cutoff
  by_cases hq : q = 0
  · -- the last part is a whole block
    subst hq
    rw [if_pos rfl] at hae
    rw [if_neg (by omega)] at hlen
    by_cases hla : i + 1 = rs.aend
    · rw [if_pos hla, ← hae, ← hla]
      omega
    · rw [if_neg hla]
      omega
  · rw [if_neg hq] at hae
    by_cases hla : i = b
    · rw [if_pos hla] at hlen
      rw [if_pos (by omega), hlen, hla]
    · rw [if_neg hla] at hlen
      rw [if_neg (by omega)]
      omega

section
variable (hs : s.SplitsTo start n m)
include hs

lemma partsFrom_tiles (he : rs.Ends start n b q) (fuel : Nat) (it : SubRange) (hi : it.i ≤ rs.aend)
    (ho : it.offset = 0) (hle : it.i < rs.aend → it.length = rs.partLength it.i) (hf : rs.aend - it.i < fuel) :
    Tiles start n (rs.cutoff start (start b + q) it.i) (rs.partsFrom fuel it) (start b + q) := by
  have hn := he.aend_le
  induction fuel generalizing it with
  | zero => omega
  | succ fuel ih =>
    unfold partsFrom cutoff
    by_cases hend : it.i = rs.aend
    · rw [if_pos hend, if_pos hend]
      exact .nil _
    rw [if_neg hend, if_neg hend]
    have hlt : it.i < rs.aend := by omega
    have hsu := he.cutoff_succ hs.start_lt hlt
    have hsm : (it.i + 1) % 2 ^ 64 = it.i + 1 := mod_eq_of_lt (hs.index_lt (le_trans hi hn))
    have hne : (rs.next it).i = it.i + 1 := hsm
    have hpa := he.partLength it.i hlt
    apply Tiles.cons (by omega) (by omega)
    · -- the part stays in its block
      rw [ho, hle hlt, hpa]
      have hst := hs.start_lt it.i (by omega)
      obtain ⟨-, hb | ⟨rfl, rfl⟩⟩ := he.located
      · split
        next h => rw [h]; omega
        next => omega
      · split <;> omega
    · rw [hle hlt, hsu, ← hne]
      apply ih
      · omega
      · rfl
      · intro h
        exact if_pos (Nat.ne_of_lt h)
      · omega

section
variable {offset : Nat} (ha : Located start n offset a r)
include ha

section
variable {length : Nat} (hb : Located start n (offset + length) b q)
include hb

section
variable (hend : offset + length ≤ m)
include hend

lemma init_located : s.divide offset = (a, r, if r = 0 then a else a + 1) ∧
    s.divide ((offset + length) % 2 ^ 64) = (b, q, if q = 0 then b else b + 1) ∧ (a + 1) % 2 ^ 64 = a + 1 := by
  have hbo := hs.bound
  have hle := hs.le
  refine ⟨hs.divide (by omega) ha, ?_, mod_eq_of_lt (hs.index_lt ha.index_le)⟩
  rw [mod_eq_of_lt (by omega)]
  exact hs.divide hend hb

lemma init_one (hab : a + 1 = if q = 0 then b else b + 1) :
    (s.init offset length).aend = a + 1 ∧ (s.init offset length).first = ⟨a, r, length⟩ := by
  obtain ⟨h1, h2, h3⟩ := init_located hs ha hb hend
  unfold Splitter.init
  rw [h1, h2]
  simp only [h3, if_pos hab]
  exact ⟨hab.symm, trivial⟩

lemma init_many (hab : a + 1 ≠ if q = 0 then b else b + 1) : (s.init offset length).Ends start n b q ∧
      (s.init offset length).first = ⟨a, r, s.getLength a - r⟩ := by
  obtain ⟨h1, h2, h3⟩ := init_located hs ha hb hend
  unfold Splitter.init
  rw [h1, h2]
  simp only [h3, if_neg hab]
  constructor
  · refine ⟨hb.1 ▸ hb, rfl, ?_⟩
    intro i hi
    unfold partLength
    dsimp only at hi ⊢
    have hbn := hb.index_le
    by_cases hq : q = 0
    · rw [if_pos hq] at hi ⊢
      rw [if_pos rfl, if_neg (fun h => lt_irrefl 0 h.1), if_neg (by omega)]
      exact hs.getLength i (by omega)
    rw [if_neg hq] at hi ⊢
    rw [if_neg (succ_ne_self b)]
    dsimp only
    by_cases hib : i = b
    · rw [if_pos ⟨pos_of_ne_zero hq, hib.symm⟩, if_pos hib]
    · rw [if_neg (fun h => hib h.2.symm), if_neg hib]
      exact hs.getLength i (by omega)
  · by_cases hr : r = 0
    · rw [if_pos hr, if_pos rfl, hr]
      rfl
    -- the part of the first block that is left is not empty
    rw [if_neg hr, if_neg (succ_ne_self a).symm]
    apply if_pos
    obtain ⟨-, han | han⟩ := ha
    · have hlen := hs.getLength a han.1
      dsimp only
      omega
    · omega

lemma init_first : (s.init offset length).first.i = a ∧ a ≤ (s.init offset length).aend := by
  have hle := ha.le hs.start_lt hb (le_add_right _ _)
  by_cases hab : a + 1 = if q = 0 then b else b + 1
  · obtain ⟨hae, hf⟩ := init_one hs ha hb hend hab
    rw [hae, hf]
    exact ⟨rfl, le_succ a⟩
  · obtain ⟨he, hf⟩ := init_many hs ha hb hend hab
    have hae := he.aend
    rw [hf]
    exact ⟨rfl, by split at hae <;> omega⟩

end

end

end

end

lemma partsFrom_blocks (it : SubRange) {fuel : Nat} (hb : rs.aend < 2 ^ 64) (hi : it.i ≤ rs.aend)
    (hf : rs.aend - it.i < fuel) : (rs.partsFrom fuel it).map SubRange.i = range' it.i (rs.aend - it.i) ∧
      ∀ more, rs.aend - it.i < more → rs.partsFrom more it = rs.partsFrom fuel it := by
  induction fuel generalizing it with
  | zero => omega
  | succ fuel ih =>
    rw [partsFrom]
    by_cases hend : it.i = rs.aend
    · rw [if_pos hend, hend, Nat.sub_self]
      refine ⟨rfl, fun more hm => ?_⟩
      obtain ⟨k, rfl⟩ := Nat.exists_eq_add_of_lt hm
      exact if_pos hend
    rw [if_neg hend]
    have hn : (rs.next it).i = it.i + 1 := mod_eq_of_lt (by omega)
    obtain ⟨h1, h2⟩ := ih (rs.next it) (by omega) (by omega)
    refine ⟨?_, fun more hm => ?_⟩
    · rw [map_cons, h1, hn, show rs.aend - it.i = rs.aend - (it.i + 1) + 1 by omega, range'_succ]
    · obtain ⟨k, rfl⟩ := Nat.exists_eq_add_of_lt hm
      rw [partsFrom, if_neg hend, h2 _ (by omega)]

lemma partsFrom_one {it : SubRange} (hi : rs.aend = it.i + 1) (hsm : it.i + 1 < 2 ^ 64) :
    rs.partsFrom (2 ^ 64) it = [it] := by
  rw [show 2 ^ 64 = (2 ^ 64 - 2) + 1 + 1 by rfl, partsFrom, if_neg (by omega), partsFrom, if_pos]
  exact (mod_eq_of_lt hsm).trans hi.symm

lemma allParts_tiles (hs : s.SplitsTo start n m) {offset length : Nat} (h : offset + length ≤ m) :
    Tiles start n offset (s.init offset length).allParts (offset + length) := by
  have hle := le_trans h hs.le
  obtain ⟨a, r, ha⟩ := exists_located hs.start_zero hs.start_lt (show offset ≤ start n by omega)
  obtain ⟨b, q, hb⟩ := exists_located hs.start_zero hs.start_lt hle
  unfold allParts
  by_cases hab : a + 1 = if q = 0 then b else b + 1
  · -- the only part reaches from `offset` to the end
    obtain ⟨hae, hf⟩ := init_one hs ha hb h hab
    rw [partsFrom_one (by rw [hae, hf]) (by rw [hf]; exact hs.index_lt ha.index_le), hf]
    have hu := hb.round_up
    rw [← hab, ha.1] at hu
    exact .cons hu.1 ha.1.symm hu.2 (.nil _)
  · obtain ⟨he, hf⟩ := init_many hs ha hb h hab
    have hle := ha.le hs.start_lt hb (le_add_right _ _)
    have hae := he.aend
    rw [← hae] at hab
    rw [hf, show 2 ^ 64 = (2 ^ 64 - 1) + 1 by rfl, partsFrom, hb.1]
    by_cases hno : a = (s.init offset length).aend
    · -- an empty range at a boundary has no part
      have hq : q = 0 := by
        by_contra hq
        rw [if_neg hq] at hae
        omega
      rw [if_pos hq] at hae
      have ho : offset = start b + q := by
        have h1 := ha.1
        have h2 := hb.1
        rw [show a = b by omega] at h1
        omega
      rw [if_pos hno, ho]
      exact .nil _
    · have hlt : a + 1 < (s.init offset length).aend := by
        split at hae <;> omega
      have hn := he.aend_le
      have han : start a + r < start (a + 1) := by
        obtain ⟨-, han | han⟩ := ha
        · exact han.2
        · omega
      have hlen := hs.getLength a (by omega)
      have hsm : (a + 1) % 2 ^ 64 = a + 1 := mod_eq_of_lt (hs.index_lt (by omega))
      rw [if_neg hno]
      apply Tiles.cons
      · exact (show a < n by omega)
      · exact ha.1.symm
      · dsimp only
        omega
      · -- the rest begins at the next boundary
        have hne : ((s.init offset length).next ⟨a, r, s.getLength a - r⟩).i = a + 1 := hsm
        have hrest := partsFrom_tiles hs he (2 ^ 64 - 1) ((s.init offset length).next ⟨a, r, s.getLength a - r⟩)
          (by omega) rfl (fun h => if_pos (Nat.ne_of_lt h)) (by have := hs.index_lt hn; omega)
        rw [hne, cutoff, if_neg (by omega)] at hrest
        have hpo : offset + (s.getLength a - r) = start (a + 1) := by
          have := ha.1
          omega
        dsimp only
        rwa [hpo]

end Splits

/-! ## Blocks of equal size -/

lemma intervalShift_two_pow {k : Nat} (hk : k < 64) : intervalShift (2 ^ k) = k := by
  have hf : (range 64).find? (2 ^ k).testBit = some k := by
    rw [find?_range_eq_some]
    simp only [testBit_two_pow, mem_range]
    refine ⟨by simp, hk, ?_⟩
    intro j hj
    simp only [Bool.not_eq_true', decide_eq_false_iff_not]
    omega
  rw [intervalShift, builtinFfsl, hf]
  rfl

lemma rangeSplitPower2_eq {k : Nat} (hk : k < 64) : rangeSplitPower2 (2 ^ k) = rangeSplit (2 ^ k) := by
  have hpo : 0 < 2 ^ k := Nat.two_pow_pos k
  unfold rangeSplitPower2 rangeSplit
  rw [intervalShift_two_pow hk]
  congr 1
  · funext x
    dsimp only
    rw [shiftRight_eq_div_pow, shiftRight_eq_div_pow, and_two_pow_sub_one_eq_mod, Nat.add_sub_assoc hpo]
  · funext i x
    rw [shiftLeft_eq]

variable {interval : Nat}

lemma rangeSplit_divide {i r : Nat} (hr : r < interval) (hb : i * interval + r + interval ≤ 2 ^ 64 := by omega) :
    (rangeSplit interval).divide (i * interval + r) = (i, r, if r = 0 then i else i + 1) := by
  have hi : 0 < interval := by omega
  have hu : (i * interval + r + interval - 1) / interval = if r = 0 then i else i + 1 := by
    by_cases h0 : r = 0
    · rw [if_pos h0, h0, show i * interval + 0 + interval - 1 = (interval - 1) + i * interval by omega,
        add_mul_div_right _ _ hi, div_eq_of_lt (by omega), zero_add]
    · rw [if_neg h0, show i * interval + r + interval - 1 = (r - 1) + (i + 1) * interval by rw [succ_mul]; omega,
        add_mul_div_right _ _ hi, div_eq_of_lt (by omega), zero_add]
  unfold rangeSplit
  dsimp only
  rw [mod_eq_of_lt (show i * interval + r + interval - 1 < 2 ^ 64 by omega), hu, add_comm (i * interval), add_mul_div_right _ _ hi,
    add_mul_mod_self_right, div_eq_of_lt hr, mod_eq_of_lt hr, zero_add]

lemma rangeSplit_splits {n : Nat} (hi : 0 < interval) (hn : n * interval + interval < 2 ^ 64) :
    (rangeSplit interval).Splits (fun i => i * interval) n where
  start_zero := zero_mul _
  start_lt i _ := by
    rw [succ_mul]
    omega
  bound := by omega
  divide := by
    rintro x i r ⟨rfl, ⟨hin, hr⟩ | ⟨rfl, rfl⟩⟩
    · dsimp only at hr ⊢
      have hm : (i + 1) * interval ≤ n * interval := Nat.mul_le_mul_right _ hin
      rw [succ_mul] at hr hm
      exact rangeSplit_divide (by omega)
    · exact rangeSplit_divide hi
  getLength i _ := by
    unfold rangeSplit
    rw [succ_mul]
    dsimp only
    omega

lemma rangeSplit_splitsTo {m : Nat} (hi : 0 < interval) (hm : m + interval < 2 ^ 64) :
    (rangeSplit interval).SplitsTo (fun i => i * interval) ((m + interval - 1) / interval) m := by
  have hle := div_mul_le_self (m + interval - 1) interval
  have hlt := lt_div_mul_add (a := m + interval - 1) hi
  refine ⟨zero_mul _, fun i _ => ?_, by omega, by omega, ?_, fun i _ => ?_⟩
  · rw [succ_mul]
    omega
  · rintro x i r hx ⟨rfl, ⟨hin, hr⟩ | ⟨rfl, rfl⟩⟩
    · dsimp only at hr hx ⊢
      rw [succ_mul] at hr
      exact rangeSplit_divide (by omega)
    · dsimp only at hx
      exact rangeSplit_divide hi
  · rw [succ_mul]
    exact (Nat.add_sub_cancel_left ..).symm

/-- A loop over `all_parts` of a `range_split` ends. Its parts are pieces of consecutive blocks and make up the
range, one behind the other, and those of a `range_split_power2` are the same. -/
theorem rangeSplit_parts (offset length interval : Nat) (hi : 0 < interval) (hsum : offset + length + interval < 2 ^ 64) :
    let rs := (rangeSplit interval).init offset length
    (∀ fuel, rs.allParts.length < fuel → rs.partsFrom fuel rs.first = rs.allParts) ∧
      rs.allParts.map SubRange.i = range' (offset / interval) rs.allParts.length ∧
      Tiles (fun i => i * interval) rs.aend offset rs.allParts (offset + length) ∧
      ∀ k, interval = 2 ^ k →
        let rs2 := (rangeSplitPower2 interval).init offset length
        rs2.allParts = rs.allParts ∧ rs2.alignedBeginOffset = rs.alignedBeginOffset ∧
          rs2.alignedEndOffset = rs.alignedEndOffset ∧ rs2.alignedLength = rs.alignedLength := by
  intro rs
  have hs := rangeSplit_splitsTo hi hsum
  have hae : rs.aend = (offset + length + interval - 1) / interval := by
    change ((offset + length) % 2 ^ 64 + interval - 1) % 2 ^ 64 / interval = _
    rw [mod_eq_of_lt (show offset + length < 2 ^ 64 by omega), mod_eq_of_lt (by omega)]
  obtain ⟨a, r, ha⟩ := exists_located hs.start_zero hs.start_lt (le_trans (Nat.le_add_right ..) hs.le)
  obtain ⟨b, q, hb⟩ := exists_located hs.start_zero hs.start_lt hs.le
  obtain ⟨hfi, hle⟩ := init_first hs ha hb le_rfl
  have hd : offset / interval = a := congrArg Prod.fst (hs.divide (Nat.le_add_right ..) ha)
  have hlt : rs.aend < 2 ^ 64 := hae ▸ lt_of_le_of_lt (div_le_self ..) (by omega)
  obtain ⟨hbl, hm⟩ := partsFrom_blocks rs.first hlt (hfi ▸ hle) (show rs.aend - rs.first.i < 2 ^ 64 by omega)
  have hlen : rs.allParts.length = rs.aend - rs.first.i := by
    have := congrArg List.length hbl
    rwa [length_map, length_range'] at this
  refine ⟨fun fuel hf => hm fuel (hlen ▸ hf), ?_, hae ▸ allParts_tiles hs le_rfl, ?_⟩
  · rw [hlen, hd, ← hfi]
    exact hbl
  · rintro k rfl
    rw [rangeSplitPower2_eq ((Nat.pow_lt_pow_iff_right (by decide)).1 (show 2 ^ k < 2 ^ 64 by omega))]
    exact ⟨rfl, rfl, rfl, rfl⟩

theorem rangeSplit_parts_five : let rs := (rangeSplit 4).init 5 10
    5 + 10 + 4 < 2 ^ 64 ∧ Tiles (fun i => i * 4) rs.aend 5 rs.allParts 15 :=
  ⟨by decide, (rangeSplit_parts 5 10 4 (by decide) (by decide)).2.2.1⟩

/-! ## Blocks of any size -/

section KeyPoints

variable {keyPoints : List Nat} {n : Nat}

lemma any_le_iff (x i : Nat) :
    keyPoints[i]?.any (fun k => decide (k ≤ x)) = true ↔ i < keyPoints.length ∧ keyPoints.getD i 0 ≤ x := by
  rw [getD_eq_getElem?_getD]
  by_cases hi : i < keyPoints.length <;> simp [hi]

lemma upperBound_located (hle : keyPoints.length = n + 2)
    (hasc : ∀ i < n + 1, keyPoints.getD i 0 < keyPoints.getD (i + 1) 0) {x i r : Nat}
    (h : Located (keyPoints.getD · 0) n x i r) : lowerBound (fun k => decide (k ≤ x)) keyPoints = i + 1 := by
  have hx : x = keyPoints.getD i 0 + r := h.1
  have hr : (i < n ∧ keyPoints.getD i 0 + r < keyPoints.getD (i + 1) 0) ∨ (i = n ∧ r = 0) := h.2
  apply lowerBound_eq_succ
  · intro i j hi hj
    rw [any_le_iff] at hj ⊢
    have hm := start_mono hasc hi (by omega)
    omega
  · rw [any_le_iff]
    omega
  · rw [← Bool.not_eq_true, any_le_iff]
    have hlt := hasc i (by omega)
    omega

lemma rangeSplitVi_splits (hle : keyPoints.length = n + 2) (h0 : keyPoints.getD 0 0 = 0)
    (hasc : ∀ i < n + 1, keyPoints.getD i 0 < keyPoints.getD (i + 1) 0) (hb : keyPoints.getD n 0 + 1 < 2 ^ 64) :
    (rangeSplitVi keyPoints).Splits (keyPoints.getD · 0) n where
  start_zero := h0
  start_lt i hi := hasc i (by omega)
  bound := hb
  divide := by
    intro x i r h
    unfold rangeSplitVi
    dsimp only
    rw [upperBound_located hle hasc h, Nat.add_sub_cancel, h.1, Nat.add_sub_cancel_left]
    by_cases hr : r = 0
    · rw [if_pos hr, if_neg (by omega)]
    · rw [if_neg hr, if_pos (by omega)]
  getLength i _ := rfl

end KeyPoints

end Photon.Fs
