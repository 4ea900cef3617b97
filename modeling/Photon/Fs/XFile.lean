import Photon.Fs.RangeSplit
import Photon.Fs.Underlay
import Photon.Lib.Layout
/-!
# Files made of files (`fs/xfile.cpp`)

`pio` splits a range into parts and does `pread` or `pwrite` on one of the files for each of
them. The class of the file says how the range is split and which file and offset a part
goes to. `XFile.Spreads` relates such a class to a layout: its parts are pieces of the
layout, in order. `pio_pread` and `pio_pwrite` then say that the files act as the array they
hold, and the linear files are instances.
-/

namespace Photon.Fs

open List ByteFile Nat Layout Option

/-- `pread` or `pwrite` of one file: the return value, the memory and the file. -/
abbrev FuncPIO := Mem → List Byte → Nat → Nat → Nat → Int × Mem × List Byte

def andPread : FuncPIO := fun mem f buf count offset =>
  ((ByteFile.read f count offset).length, writeBytes mem buf (ByteFile.read f count offset), f)

def andPwrite : FuncPIO := fun mem f buf count offset =>
  (count, mem, ByteFile.write 0 f (readBytes mem buf count) offset)

/-- What a class derived from `XFile` provides, beside the files: `m_size`, how a range is split, and the
index and the offset of the file for a part. -/
structure XFile where
  size : Nat
  splitter : Splitter
  target : SubRange → Nat × Nat

namespace XFile

/-- The loop of `pio`. `false` if a call falls short; `none` if there is no such file. -/
def pioLoop (x : XFile) (piof : FuncPIO) :
    List SubRange → Nat → Mem → List (List Byte) → Option (Bool × Mem × List (List Byte))
  | [], _, mem, files => some (true, mem, files)
  | p :: ps, buf, mem, files =>
    let i := (x.target p).1
    if i < files.length then
      let r := piof mem (files.getD i []) buf p.length (x.target p).2
      if r.1 < toInt64 p.length then some (false, r.2.1, files.set i r.2.2)
      else x.pioLoop piof ps (buf + p.length) r.2.1 (files.set i r.2.2)
    else none

def pio (x : XFile) (piof : FuncPIO) (files : List (List Byte)) (mem : Mem) (buf count offset : Nat) :
    Option (Int × Mem × List (List Byte)) :=
  if x.size ≤ offset then some (-1, mem, files)
  else
    let count := if x.size < (offset + count) % 2 ^ 64 then x.size - offset else count
    (x.pioLoop piof (x.splitter.init offset count).allParts buf mem files).map fun r =>
      (if r.1 then toInt64 count else -1, r.2)

def pread (x : XFile) (files : List (List Byte)) (mem : Mem) (buf count offset : Nat) :
    Option (Int × Mem × List (List Byte)) := x.pio andPread files mem buf count offset

def pwrite (x : XFile) (files : List (List Byte)) (mem : Mem) (buf count offset : Nat) :
    Option (Int × Mem × List (List Byte)) := x.pio andPwrite files mem buf count offset

end XFile

/-! ## The files as one array -/

section Spread

variable {sizes : List Nat} (L : Layout sizes) (x : XFile)

/-- The parts go to pieces of the layout that follow each other from `o` to `e`. -/
inductive Covers : Nat → List SubRange → Nat → Prop
  | nil (o : Nat) : Covers o [] o
  | cons {o e : Nat} {p : SubRange} {ps : List SubRange} (hi : (x.target p).1 < sizes.length)
      (hp : L.Piece o p.length (x.target p).1 (x.target p).2) (h : Covers (o + p.length) ps e) : Covers o (p :: ps) e

/-- The class lays the array out as `L` says. -/
structure XFile.Spreads : Prop where
  size : x.size = L.total
  small : L.total < 2 ^ 63
  parts : ∀ {offset count : Nat}, offset + count ≤ L.total →
    Covers L x offset (x.splitter.init offset count).allParts (offset + count)

variable {L x} {o e : Nat} {ps : List SubRange}

lemma Covers.le (h : Covers L x o ps e) : o ≤ e := by
  induction h with
  | nil o => exact le_refl o
  | cons => omega

lemma toInt64_piece {i off : Nat} {p : SubRange} (h : L.Piece o p.length i off)
    (hsmall : L.total < 2 ^ 63) : toInt64 p.length = p.length := by
  have := h.1
  rw [toInt64_eq (by omega), if_pos (by omega)]

variable {files : List (List Byte)}

section
variable (h : Covers L x o ps e) (hsmall : L.total < 2 ^ 63) (hf : Layout.Fits sizes files) (mem : Mem) (buf : Nat)
include h hsmall hf mem buf

lemma pioLoop_pread :
    x.pioLoop andPread ps buf mem files =
      some (true, writeBytes mem buf (read (L.content 0 files) (e - o) o), files) := by
  induction h generalizing mem buf with
  | nil o =>
    rw [Nat.sub_self, show read (L.content 0 files) 0 o = [] from take_zero, writeBytes_nil]
    rfl
  | @cons o e p ps hi hp h ih =>
    have hle := h.le
    have hlen : (read (L.content 0 files) p.length o).length = p.length := by
      have := hp.1
      rw [read_length, content_length]
      omega
    rw [← hf.length_eq] at hi
    unfold XFile.pioLoop andPread
    dsimp only
    rw [if_pos hi, read_piece 0 hp hf, hlen, toInt64_piece hp hsmall, if_neg (Int.lt_irrefl _),
      getD_eq_getElem _ _ hi, set_getElem_self]
    change x.pioLoop andPread _ _ _ _ = _
    rw [ih, show buf + p.length = buf + (read (L.content 0 files) p.length o).length by rw [hlen],
      writeBytes_append, ← read_add, show p.length + (e - (o + p.length)) = e - o by omega]

lemma pioLoop_pwrite : ∃ files', x.pioLoop andPwrite ps buf mem files = some (true, mem, files') ∧
    Layout.Fits sizes files' ∧ L.content 0 files' = write 0 (L.content 0 files) (readBytes mem buf (e - o)) o := by
  induction h generalizing files buf with
  | nil =>
    refine ⟨files, rfl, hf, ?_⟩
    rw [Nat.sub_self]
    rfl
  | @cons o e p ps hi hp h ih =>
    have hle := h.le
    rw [← hf.length_eq] at hi
    have hlen := readBytes_length mem buf p.length
    rw [← hlen] at hp
    obtain ⟨hco, hfi⟩ := write_piece 0 hp hf hi
    obtain ⟨files', hr, hf', hc'⟩ := ih hfi (buf + p.length)
    refine ⟨files', ?_, hf', ?_⟩
    · rw [hlen] at hp
      unfold XFile.pioLoop andPwrite
      dsimp only
      rw [if_pos hi, toInt64_piece hp hsmall, if_neg (Int.lt_irrefl _)]
      exact hr
    · rw [hc', hco, show o + p.length = o + (readBytes mem buf p.length).length by rw [hlen],
        write_write, hlen, ← readBytes_add, show p.length + (e - (o + p.length)) = e - o by omega]

end

variable {offset count : Nat}

lemma clip_eq (hc : offset + count < 2 ^ 64) (ho : offset < L.total) :
    (if L.total < (offset + count) % 2 ^ 64 then L.total - offset else count) = min count (L.total - offset) := by
  rw [mod_eq_of_lt hc]
  split <;> omega

section
variable (hx : x.Spreads L) (hf : Layout.Fits sizes files) (ho : offset < L.total) (hc : offset + count < 2 ^ 64)
  (mem : Mem)
include hx hf ho hc mem

lemma pio_pread (buf : Nat) :
    x.pread files mem buf count offset = some (((min count (L.total - offset) : Nat) : Int),
        writeBytes mem buf (read (L.content 0 files) count offset), files) := by
  have hsmall := hx.small
  unfold XFile.pread XFile.pio
  rw [hx.size, if_neg (by omega)]
  dsimp only
  rw [clip_eq hc ho, pioLoop_pread (hx.parts (by omega)) hsmall hf, map_some, if_pos rfl,
    toInt64_eq (by omega), if_pos (by omega), Nat.add_sub_cancel_left]
  have hr : read (L.content 0 files) (min count (L.total - offset)) offset =
      read (L.content 0 files) count offset := by
    rw [read_eq_read_iff, content_length]
    omega
  rw [hr]

lemma pio_pwrite (buf : Nat) :
    ∃ files', x.pwrite files mem buf count offset = some (((min count (L.total - offset) : Nat) : Int), mem, files') ∧
      Layout.Fits sizes files' ∧ L.content 0 files' =
        write 0 (L.content 0 files) (readBytes mem buf (min count (L.total - offset))) offset := by
  have hsmall := hx.small
  have hpa := hx.parts (show offset + min count (L.total - offset) ≤ L.total by omega)
  obtain ⟨files', hr, hfi, hco⟩ := pioLoop_pwrite hpa hsmall hf mem buf
  rw [Nat.add_sub_cancel_left] at hco
  refine ⟨files', ?_, hfi, hco⟩
  unfold XFile.pwrite XFile.pio
  rw [hx.size, if_neg (by omega)]
  dsimp only
  rw [clip_eq hc ho, hr, map_some, if_pos rfl, toInt64_eq (by omega), if_pos (by omega)]

end

/-- When `offset + count` overflows, the count is not clipped, and what is returned is negative. -/
lemma pio_overflow (hx : x.Spreads L) (piof : FuncPIO) (ho : offset < L.total)
    (hc : count < 2 ^ 64) (hov : 2 ^ 64 ≤ offset + count) (files : List (List Byte)) (mem : Mem) (buf : Nat)
    {r : Int × Mem × List (List Byte)} (h : x.pio piof files mem buf count offset = some r) : r.1 < 0 := by
  have hsmall := hx.small
  unfold XFile.pio at h
  rw [hx.size, if_neg (by omega)] at h
  dsimp only at h
  rw [if_neg (by omega), map_eq_some_iff] at h
  obtain ⟨⟨done, mem', files'⟩, -, rfl⟩ := h
  have hn : toInt64 count < 0 := by
    rw [toInt64_eq hc, if_neg (by omega)]
    omega
  dsimp only
  split
  · exact hn
  · decide

end Spread

/-! ## Linear files -/

def isPowerOf2 (x : Nat) : Bool := x = 0 ∨ ((range 64).filter x.testBit).length = 1

/-- `new_fixed_size_linear_file` for `n` files; `none` is `nullptr`. -/
def newFixedSizeLinearFile (unitSize n : Nat) : Option XFile :=
  if n = 0 then none
  else if unitSize = 0 then none
  else some
    { size := n * unitSize % 2 ^ 64
      splitter := if isPowerOf2 unitSize then rangeSplitPower2 unitSize else rangeSplit unitSize
      target := fun x => (x.i, x.offset) }

/-- The key points that `VariableSizeLinearFile::init` pushes, from the one for the first file on. -/
def keyPointsFrom : Nat → List Nat → List Nat
  | k, [] => [k]
  | k, size :: sizes => k :: keyPointsFrom ((k + size) % 2 ^ 64) sizes

def keyPoints (sizes : List Nat) : List Nat := keyPointsFrom 0 sizes ++ [2 ^ 64 - 1]

def newLinearFile (sizes : List Nat) : Option XFile :=
  if sizes.length = 0 then none
  else some
    { size := sizes.sum % 2 ^ 64
      splitter := rangeSplitVi (keyPoints sizes)
      target := fun x => (x.i, x.offset) }

/-- A linear file over these files, of one unit size or of any positive sizes. -/
inductive Linear (files : List (List Byte)) (x : XFile) : Prop
  | fixedSize (unitSize : Nat) (hnew : newFixedSizeLinearFile unitSize files.length = some x)
      (hsize : ∀ f ∈ files, f.length = unitSize) : Linear files x
  | variableSize (hnew : newLinearFile (files.map length) = some x) (hsize : ∀ f ∈ files, 0 < f.length) : Linear files x

lemma exists_two_pow_of_isPowerOf2 {x : Nat} (h : isPowerOf2 x = true) (h0 : x ≠ 0) (hx : x < 2 ^ 64) :
    ∃ k < 64, x = 2 ^ k := by
  simp only [isPowerOf2, decide_eq_true_eq, h0, false_or, length_eq_one_iff] at h
  obtain ⟨k, hk⟩ := h
  have hbi : ∀ i, i < 64 ∧ x.testBit i = true ↔ i = k := by
    intro i
    rw [← mem_range, ← mem_filter, hk, mem_singleton]
  have hk64 := ((hbi k).2 rfl).1
  refine ⟨k, hk64, ?_⟩
  apply eq_of_testBit_eq
  intro i
  rw [testBit_two_pow, Bool.eq_iff_iff, decide_eq_true_eq]
  by_cases hi : i < 64
  · exact ⟨fun h => ((hbi i).1 ⟨hi, h⟩).symm, fun h => ((hbi i).2 h.symm).2⟩
  · have hpo : 2 ^ 64 ≤ 2 ^ i := Nat.pow_le_pow_right (by decide) (Nat.le_of_not_lt hi)
    rw [testBit_lt_two_pow (by omega)]
    exact iff_of_false Bool.false_ne_true (by omega)

lemma keyPointsFrom_length (k : Nat) (sizes : List Nat) : (keyPointsFrom k sizes).length = sizes.length + 1 := by
  induction sizes generalizing k with
  | nil => rfl
  | cons s sizes ih =>
    unfold keyPointsFrom
    rw [length_cons, ih, length_cons]

variable {sizes : List Nat} {x : XFile} {i : Nat}

lemma getD_keyPointsFrom {k : Nat} (h : k + sizes.sum < 2 ^ 64) (hi : i ≤ sizes.length) :
    (keyPointsFrom k sizes).getD i 0 = k + (sizes.take i).sum := by
  induction sizes generalizing k i with
  | nil =>
    obtain rfl : i = 0 := le_zero.1 hi
    rfl
  | cons s sizes ih =>
    rw [sum_cons] at h
    unfold keyPointsFrom
    cases i with
    | zero => rfl
    | succ =>
      rw [getD_cons_succ, mod_eq_of_lt (by omega), ih (by omega) (le_of_succ_le_succ hi), take_succ_cons,
        sum_cons, add_assoc]

lemma keyPoints_length (sizes : List Nat) : (keyPoints sizes).length = sizes.length + 2 := by
  rw [keyPoints, length_append, keyPointsFrom_length]
  rfl

lemma getD_keyPoints (h : sizes.sum < 2 ^ 64) (hi : i ≤ sizes.length) :
    (keyPoints sizes).getD i 0 = (sizes.take i).sum := by
  rw [keyPoints, getD_append _ _ _ _ (by rw [keyPointsFrom_length]; omega), getD_keyPointsFrom (by omega) hi, zero_add]

lemma keyPoints_ascending (h : sizes.sum < 2 ^ 64 - 1) (hpo : ∀ s ∈ sizes, 0 < s) :
    ∀ i < sizes.length + 1, (keyPoints sizes).getD i 0 < (keyPoints sizes).getD (i + 1) 0 := by
  intro i hi
  rw [getD_keyPoints (by omega) (by omega)]
  by_cases hla : i = sizes.length
  · -- the last point is `UINT64_MAX`
    rw [hla, take_length, keyPoints, getD_append_right _ _ _ _ (by rw [keyPointsFrom_length]),
      keyPointsFrom_length, Nat.sub_self]
    exact h
  · rw [getD_keyPoints (by omega) (by omega), sum_take_getD, getD_eq_getElem _ _ (by omega)]
    have := hpo _ (getElem_mem (show i < sizes.length by omega))
    omega

lemma Tiles.covers {start : Nat → Nat} {n o e : Nat} {ps : List SubRange}
    (hst : ∀ i ≤ n, start i = (sizes.take i).sum) (hn : n = sizes.length) (hx : x.target = fun p => (p.i, p.offset))
    (h : Tiles start n o ps e) (he : e ≤ sizes.sum) : Covers (linear sizes) x o ps e := by
  induction h with
  | nil o => exact .nil o
  | @cons o e p ps hi ho hl h ih =>
    have hle := h.le
    have hsu := sum_take_getD sizes p.i
    rw [← hst p.i (by omega), ← hst (p.i + 1) hi] at hsu
    apply Covers.cons
    · rw [hx]
      exact hn ▸ hi
    · refine ⟨show o + p.length ≤ sizes.sum by omega, ?_⟩
      intro j hj
      rw [hx, ← ho, hst p.i (by omega), add_assoc]
      exact locate_sum_add sizes p.i (p.offset + j) (by omega)
    · exact ih he

lemma spreads_linear (start : Nat → Nat) (hs : x.splitter.Splits start sizes.length)
    (hst : ∀ i ≤ sizes.length, start i = (sizes.take i).sum) (hx : x.target = fun p => (p.i, p.offset))
    (hsi : x.size = sizes.sum) (hsu : sizes.sum < 2 ^ 63) : x.Spreads (linear sizes) where
  size := hsi
  small := hsu
  parts := by
    intro offset count h
    have he := hst sizes.length le_rfl
    rw [take_length] at he
    have ht := allParts_tiles hs.to (show offset + count ≤ start sizes.length from he ▸ h)
    exact ht.covers hst rfl hx h

lemma newFixedSizeLinearFile_spreads {unitSize n : Nat} (hne : newFixedSizeLinearFile unitSize n = some x)
    (hsu : n * unitSize < 2 ^ 63) : x.Spreads (linear (replicate n unitSize)) := by
  unfold newFixedSizeLinearFile at hne
  by_cases hn : n = 0
  · rw [if_pos hn] at hne
    cases hne
  by_cases hu : unitSize = 0
  · rw [if_neg hn, if_pos hu] at hne
    cases hne
  rw [if_neg hn, if_neg hu] at hne
  cases hne
  have hle : unitSize ≤ n * unitSize := Nat.le_mul_of_pos_left unitSize (pos_of_ne_zero hn)
  have hsp : (if isPowerOf2 unitSize then rangeSplitPower2 unitSize else rangeSplit unitSize) = rangeSplit unitSize := by
    split
    next hpo =>
      obtain ⟨k, hk, rfl⟩ := exists_two_pow_of_isPowerOf2 hpo hu (by omega)
      exact rangeSplitPower2_eq hk
    next => rfl
  apply spreads_linear fun i => i * unitSize
  · dsimp only
    rw [hsp, length_replicate]
    exact rangeSplit_splits (pos_of_ne_zero hu) (by omega)
  · intro i hi
    rw [length_replicate] at hi
    rw [take_replicate, sum_replicate_nat, min_eq_left hi]
  · rfl
  · rw [sum_replicate_nat]
    exact mod_eq_of_lt (by omega)
  · rwa [sum_replicate_nat]

lemma newLinearFile_spreads (hne : newLinearFile sizes = some x)
    (hpo : ∀ s ∈ sizes, 0 < s) (hsu : sizes.sum < 2 ^ 63) : x.Spreads (linear sizes) := by
  unfold newLinearFile at hne
  by_cases hn : sizes.length = 0
  · rw [if_pos hn] at hne
    cases hne
  rw [if_neg hn] at hne
  cases hne
  apply spreads_linear fun i => (keyPoints sizes).getD i 0
  · apply rangeSplitVi_splits (keyPoints_length sizes)
    · rw [getD_keyPoints (by omega) (zero_le _)]
      rfl
    · exact keyPoints_ascending (by omega) hpo
    · rw [getD_keyPoints (by omega) le_rfl, take_length]
      omega
  · intro i hi
    exact getD_keyPoints (by omega) hi
  · rfl
  · exact mod_eq_of_lt (by omega)
  · exact hsu

lemma Linear.spreads {files : List (List Byte)} (h : Linear files x) (hsu : files.flatten.length < 2 ^ 63) :
    x.Spreads (linear (files.map length)) := by
  rw [length_flatten] at hsu
  cases h with
  | fixedSize unitSize hn hsiz =>
    have hsi : files.map length = replicate files.length unitSize := by
      rw [eq_replicate_iff, length_map]
      refine ⟨rfl, ?_⟩
      intro b hb
      obtain ⟨f, hf, rfl⟩ := mem_map.1 hb
      exact hsiz f hf
    rw [hsi] at hsu ⊢
    rw [sum_replicate_nat] at hsu
    exact newFixedSizeLinearFile_spreads hn hsu
  | variableSize hn hsiz =>
    apply newLinearFile_spreads hn ?_ hsu
    intro s hs
    obtain ⟨f, hf, rfl⟩ := mem_map.1 hs
    exact hsiz f hf

/-- `pread` and `pwrite` do what a read and a write at this offset of the concatenation do, clipped to its
length, and the files keep their sizes. -/
def ActsAsConcatenation (x : XFile) (files : List (List Byte)) (mem : Mem) (buf count offset : Nat) : Prop :=
  x.pread files mem buf count offset = some (((min count (files.flatten.length - offset) : Nat) : Int),
      writeBytes mem buf (ByteFile.read files.flatten count offset), files) ∧
    ∃ files', x.pwrite files mem buf count offset =
        some (((min count (files.flatten.length - offset) : Nat) : Int), mem, files') ∧
      files'.flatten = ByteFile.write 0 files.flatten
        (readBytes mem buf (min count (files.flatten.length - offset))) offset ∧
      files'.map length = files.map length

/-- A linear file acts as the concatenation of its files exactly when `offset + count` does not overflow. -/
theorem linear_acts_iff {files : List (List Byte)} {x : XFile} (h : Linear files x)
    (hsum : files.flatten.length < 2 ^ 63) (mem : Mem) (buf count offset : Nat) (ho : offset < files.flatten.length)
    (hc : count < 2 ^ 64) : ActsAsConcatenation x files mem buf count offset ↔ offset + count < 2 ^ 64 := by
  have hx := h.spreads hsum
  have hfi : Layout.Fits (files.map length) files := rfl
  have ht : (linear (files.map length)).total = files.flatten.length := length_flatten.symm
  unfold ActsAsConcatenation
  constructor
  · rintro ⟨hr, -⟩
    by_contra hov
    have hn := pio_overflow hx andPread (ht ▸ ho) hc (Nat.le_of_not_lt hov) files mem buf hr
    dsimp only at hn
    omega
  · intro hsmall
    have hr := pio_pread hx hfi (ht ▸ ho) hsmall mem buf
    obtain ⟨files', hw, hf', hco⟩ := pio_pwrite hx hfi (ht ▸ ho) hsmall mem buf
    rw [ht, content_linear 0 hfi] at hr
    rw [ht] at hw hco
    rw [content_linear 0 hfi, content_linear 0 hf'] at hco
    exact ⟨hr, files', hw, hco, hf'⟩

/-- Four bytes from 1 on, over three files. -/
theorem linear_acts_three : ∃ x, newLinearFile [3, 2, 1] = some x ∧
    ActsAsConcatenation x [[1, 2, 3], [4, 5], [6]] (fun _ => 0) 100 4 1 :=
  ⟨_, rfl, (linear_acts_iff (.variableSize rfl (by decide)) (by decide) (fun _ => 0)
    100 4 1 (by decide) (by decide)).2 (by decide)⟩

/-- `SIZE_MAX` bytes from 1 on: the end of the range is 0, no part is read, and `SIZE_MAX` is returned, which is -1. -/
theorem linear_overflow : (newLinearFile [3, 2, 1]).bind (fun x =>
      (x.pread [[1, 2, 3], [4, 5], [6]] (fun _ => 0) 100 (2 ^ 64 - 1) 1).map fun r => (r.1, r.2.1 100)) = some (-1, 0) ∧
    read [1, 2, 3, 4, 5, 6] (2 ^ 64 - 1) 1 = [2, 3, 4, 5, (6 : Byte)] := by
  decide +kernel

end Photon.Fs
