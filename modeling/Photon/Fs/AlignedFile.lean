import Photon.Fs.RangeSplit
import Photon.Fs.Underlay
/-!
# `AlignedFileAdaptor` (`fs/aligned-file.cpp`), `pread` and `pwrite`

The adaptor reads and writes whole blocks of the underlying file, through a temporary
buffer when the range or the caller's memory is not aligned. Every call of the underlying
file ends as a `CallResult` says. A result `none` is undefined behaviour: a temporary
buffer that is too small for what goes there, or a signed overflow.
-/

namespace Photon.Fs

open List Option ByteFile Nat Prod RangeSplit

variable {f : List Byte} {offset count buf : Nat}

/-! ## The adaptor -/

def toInt32 (n : Nat) : Int := (BitVec.ofNat 32 n).toInt

/-- `IOAlloc::default_allocator` for a range that is one size; `malloc` of a negative size,
converted to `size_t`, gives `nullptr`. -/
def defaultAllocator (size : Int) : Option Nat := if 0 ≤ size then some size.toNat else none

/-- `AlignedAlloc::aligned_allocator`. `posix_memalign` wants a multiple of the size of a pointer. -/
def alignedAllocator (alignment : Nat) (size : Int) : Option Nat :=
  if alignment % 8 = 0 then defaultAllocator size else none

/-- `AlignedFileAdaptor`. The size of the buffer that `allocate` leaves in `*ptr` is given for
each size asked for; `none` is `nullptr`. -/
structure AlignedFileAdaptor where
  alignment : Nat
  alignMemory : Bool
  allocate : Int → Option Nat
  /-- `new_aligned_file_adaptor` refuses any other alignment (0 apart). -/
  power : ∃ k < 32, alignment = 2 ^ k

def AlignedFileAdaptor.new (k : Nat) (hk : k < 32) (alignMemory : Bool) : AlignedFileAdaptor where
  alignment := 2 ^ k
  alignMemory := alignMemory
  allocate := if alignMemory then alignedAllocator (2 ^ k) else defaultAllocator
  power := ⟨k, hk, rfl⟩

namespace AlignedFileAdaptor

def memAlloc (a : AlignedFileAdaptor) (size : Nat) : Option Nat := a.allocate (toInt32 size)

def split (a : AlignedFileAdaptor) (offset count : Nat) : RangeSplit := (rangeSplitPower2 a.alignment).init offset count

def direct (a : AlignedFileAdaptor) (rs : RangeSplit) (buf : Nat) : Bool :=
  rs.isAligned && (!a.alignMemory || rs.isAlignedPtr buf)

def pread (a : AlignedFileAdaptor) (r : CallResult) (f : List Byte) (mem : Mem) (buf count offset : Nat) :
    Option (Int × Mem) :=
  if count = 0 then some (0, mem)
  else
    let rs := a.split offset count
    if a.direct rs buf then some (deliver mem buf (underPread r f count offset))
    else
      match a.memAlloc rs.alignedLength with
      | none => some (-1, mem)
      | some room =>
        match underPread r f rs.alignedLength rs.alignedBeginOffset with
        | none => some (-1, mem)
        | some ptr =>
          if room < ptr.length then none
          else if ptr.length < rs.beginRemainder then some (-1, mem)
          else
            let actualRead := min (ptr.length - rs.beginRemainder) count
            some (actualRead, writeBytes mem buf ((ptr.drop rs.beginRemainder).take actualRead))

end AlignedFileAdaptor

/-- How the calls of one `pwrite` end. -/
structure WriteCalls where
  /-- What `stat.st_size` holds if `fstat` fails. -/
  fstat : Option Int
  first : CallResult
  last : CallResult
  write : CallResult
  ftruncate : Bool

open WriteCalls

def WriteCalls.complete : WriteCalls := ⟨none, .full, .full, .full, true⟩

namespace AlignedFileAdaptor

/-- The old content of the first block; `none` if the call returns -1. -/
def patchFirst (a : AlignedFileAdaptor) (calls : WriteCalls) (f : List Byte) (filesize : Int) (rs : RangeSplit)
    (ptr : Mem) : Option Mem :=
  if 0 < rs.beginRemainder then
    let off := rs.alignedBeginOffset
    match underPread calls.first f a.alignment off with
    | none => none
    | some bs =>
      if ((off + bs.length : Nat) : Int) < filesize ∧ bs.length < a.alignment then none
      -- memset of what was not read
      else some (writeBytes (writeBytes ptr 0 bs) bs.length (replicate (a.alignment - bs.length) 0))
  else some ptr

/-- The old content of the last block, if there are bytes behind the range. -/
def patchLast (a : AlignedFileAdaptor) (calls : WriteCalls) (f : List Byte) (filesize : Int) (rs : RangeSplit)
    (ptr : Mem) : Option Mem :=
  if ¬ 0 < rs.smallNote.length ∧ 0 < rs.endRemainder then
    let off := rs.alignedEndOffset - a.alignment
    if filesize - off > rs.endRemainder then
      match underPread calls.last f a.alignment off with
      | none => none
      | some bs =>
        if ((bs.length + off : Nat) : Int) < filesize ∧ bs.length < a.alignment then none
        else some (writeBytes ptr (off - rs.alignedBeginOffset) bs)
    else some ptr
  else some ptr

def supposeFilesize (count offset : Nat) (filesize : Int) : Nat :=
  if filesize < (offset + count : Nat) then offset + count else filesize.toNat

/-- The write of the whole blocks, and the cut of what it has added behind the range. -/
def writeBlocks (calls : WriteCalls) (f data : List Byte) (rs : RangeSplit) (count offset suppose : Nat) :
    Int × List Byte :=
  let w := underPwrite calls.write f data rs.alignedBeginOffset
  let currentTail := ((rs.alignedBeginOffset + w.1) % 2 ^ 64).toNat
  if toInt64 currentTail < offset then (-1, w.2)
  else
    (if count ≤ currentTail - offset then count else (currentTail - offset : Nat),
      if suppose < currentTail ∧ calls.ftruncate then truncate 0 w.2 suppose else w.2)

/-- `pwrite`: the return value and the file. `heap` is what the temporary buffer has in it. -/
def pwrite (a : AlignedFileAdaptor) (calls : WriteCalls) (f : List Byte) (heap mem : Mem) (buf count offset : Nat) :
    Option (Int × List Byte) :=
  if count = 0 then some (0, f)
  else
    let rs := a.split offset count
    if a.direct rs buf then some (underPwrite calls.write f (readBytes mem buf count) offset)
    else if 2 ^ 63 ≤ offset + count then none
    else
      let filesize := calls.fstat.getD f.length
      match a.memAlloc rs.alignedLength with
      | none => some (-1, f)
      | some room =>
        if room < rs.alignedLength then none
        else
          match (a.patchFirst calls f filesize rs heap).bind (a.patchLast calls f filesize rs) with
          | none => some (-1, f)
          | some ptr =>
            let ptr := writeBytes ptr rs.beginRemainder (readBytes mem buf count)
            some (writeBlocks calls f (readBytes ptr 0 rs.alignedLength) rs count offset
              (supposeFilesize count offset filesize))

/-! ## The range of whole blocks -/

/-- `rs` widens the range to whole blocks of `A` bytes. -/
structure Around (rs : RangeSplit) (A offset count : Nat) : Prop where
  begin_add : rs.alignedBeginOffset + rs.beginRemainder = offset
  begin_lt : rs.beginRemainder < A
  ends : (rs.endRemainder = 0 ∧ rs.alignedEndOffset = offset + count) ∨
    (0 < rs.endRemainder ∧ rs.endRemainder < A ∧ rs.alignedEndOffset + rs.endRemainder = offset + count + A)
  length : rs.alignedBeginOffset + rs.alignedLength = rs.alignedEndOffset
  block_le : A ≤ rs.alignedLength
  small : 0 < rs.smallNote.length ↔ 0 < rs.beginRemainder ∧ 0 < rs.endRemainder ∧ rs.alignedLength = A

variable (a : AlignedFileAdaptor)

lemma alignment_pos : 0 < a.alignment := by
  obtain ⟨k, -, hk⟩ := a.power
  rw [hk]
  exact Nat.two_pow_pos k

lemma alignment_le : a.alignment ≤ 2 ^ 31 := by
  obtain ⟨k, hk32, hk⟩ := a.power
  rw [hk]
  exact Nat.pow_le_pow_right (by decide) (by omega)

lemma split_eq (offset count : Nat) : a.split offset count = (rangeSplit a.alignment).init offset count := by
  obtain ⟨k, hk32, hk⟩ := a.power
  rw [split, hk, rangeSplitPower2_eq (by omega)]

lemma alignment_dvd (offset count : Nat) : a.alignment ∣ (a.split offset count).alignedLength := by
  have h64 : a.alignment ∣ 2 ^ 64 := by
    obtain ⟨k, hk32, hk⟩ := a.power
    rw [hk]
    exact pow_dvd_pow 2 (by omega)
  rw [split_eq, alignedLength]
  simp only [init_splitter, rangeSplit]
  exact (dvd_mod_iff h64).2 (Dvd.intro_left _ rfl)

lemma split_begin (ho : offset < 2 ^ 63) (count : Nat) :
    (a.split offset count).alignedBeginOffset + (a.split offset count).beginRemainder = offset ∧
      (a.split offset count).beginRemainder < a.alignment := by
  have hd := div_add_mod' offset a.alignment
  have hm := mod_lt offset a.alignment_pos
  rw [split_eq, alignedBeginOffset]
  simp only [init_splitter, init_abegin, init_beginRemainder, rangeSplit]
  rw [mod_eq_of_lt (by omega)]
  omega

lemma rangeSplit_around {A : Nat} (hpo : 0 < A) (ho : offset + count + A ≤ 2 ^ 64) (hc : 0 < count) :
    Around ((rangeSplit A).init offset count) A offset count := by
  -- the blocks of the two ends
  obtain ⟨i, r, hr, hof⟩ : ∃ i r, r < A ∧ offset = i * A + r :=
    ⟨offset / A, offset % A, mod_lt _ hpo, (div_add_mod' offset A).symm⟩
  obtain ⟨j, q, hq, hen⟩ : ∃ j q, q < A ∧ offset + count = j * A + q :=
    ⟨(offset + count) / A, (offset + count) % A, mod_lt _ hpo, (div_add_mod' (offset + count) A).symm⟩
  have hd : (rangeSplit A).divide offset = (i, r, if r = 0 then i else i + 1) := by
    rw [hof]
    exact rangeSplit_divide hr
  have hd' : (rangeSplit A).divide ((offset + count) % 2 ^ 64) = (j, q, if q = 0 then j else j + 1) := by
    rw [Nat.mod_eq_of_lt (by omega), hen]
    exact rangeSplit_divide hq
  obtain ⟨up, hup⟩ : ∃ up, up = if q = 0 then j else j + 1 := ⟨_, rfl⟩
  have hu : (q = 0 ∧ up * A = offset + count) ∨ (0 < q ∧ up * A + q = offset + count + A) := by
    by_cases h0 : q = 0
    · rw [if_pos h0] at hup
      rw [hup]
      omega
    · rw [if_neg h0] at hup
      rw [hup, Nat.succ_mul]
      omega
  have hi : i < up := by
    apply Nat.lt_of_mul_lt_mul_right (a := A)
    omega
  have hsu : (i + 1) * A ≤ up * A := mul_le_mul_right A hi
  have hu64 : up ≤ up * A := Nat.le_mul_of_pos_right up hpo
  have hsub : (up - i) * A = up * A - i * A := Nat.mul_sub_right_distrib up i A
  rw [succ_mul] at hsu
  have hb : ((rangeSplit A).init offset count).alignedBeginOffset = i * A := by
    unfold alignedBeginOffset
    rw [init_splitter, init_abegin, hd]
    exact mod_eq_of_lt (show i * A < 2 ^ 64 by omega)
  have he : ((rangeSplit A).init offset count).alignedEndOffset = up * A := by
    unfold alignedEndOffset
    rw [init_splitter, init_aend, hd', ← hup]
    exact mod_eq_of_lt (show up * A < 2 ^ 64 by omega)
  have hl : ((rangeSplit A).init offset count).alignedLength = (up - i) * A := by
    unfold alignedLength
    rw [init_splitter, init_aend, init_abegin, hd', hd, ← hup,
      show up + 2 ^ 64 - i = (up - i) + 2 ^ 64 by omega, add_mod_right, mod_eq_of_lt (by omega)]
    exact mod_eq_of_lt (by omega)
  have hre : ((rangeSplit A).init offset count).beginRemainder = r := by
    rw [init_beginRemainder, hd]
  have her : ((rangeSplit A).init offset count).endRemainder = q := by
    rw [init_endRemainder, hd']
  refine ⟨by omega, by omega, by omega, by omega, by omega, ?_⟩
  rw [init_smallNote, hd, hd', hre, her, hl, ← hup]
  dsimp only
  rw [mod_eq_of_lt (show i + 1 < 2 ^ 64 by omega)]
  have hon : (up - i) * A = A ↔ i + 1 = up := by
    constructor
    · intro h
      have := eq_of_mul_eq_mul_right hpo (h.trans (one_mul A).symm)
      omega
    · intro h
      rw [show up - i = 1 by omega, one_mul]
  have hr0 : (i ≠ if r = 0 then i else i + 1) ↔ 0 < r := by split <;> omega
  have hq0 : up ≠ j ↔ 0 < q := by
    rw [hup]
    split <;> omega
  simp only [hon, hr0, hq0]
  split <;> omega

lemma split_around (ho : offset + count + a.alignment ≤ 2 ^ 64) (hc : 0 < count) :
    Around (a.split offset count) a.alignment offset count := by
  rw [split_eq]
  exact rangeSplit_around a.alignment_pos ho hc

/-! ## Reading -/

/-- There is a temporary buffer, and what the file has for the blocks fits in it. -/
def ReadFits (f : List Byte) (rs : RangeSplit) : Prop :=
  ∃ room, a.memAlloc rs.alignedLength = some room ∧ min rs.alignedLength (f.length - rs.alignedBeginOffset) ≤ room

lemma read_range {start rem len : Nat} :
    ((read f len start).drop rem).take (min ((read f len start).length - rem) count) =
      read f (min count (len - rem)) (start + rem) := by
  rw [drop_read, take_read, read_eq_read_iff, read_length, Nat.sub_add_eq, ← Nat.sub_min_sub_right]
  grind

lemma pread_buffered (ho : offset < 2 ^ 63) (hc : count ≠ 0) (hd : a.direct (a.split offset count) buf = false)
    (mem : Mem) : a.pread .full f mem buf count offset = some (deliver mem buf (underPread .full f count offset)) ↔
    a.ReadFits f (a.split offset count) ∧ ((a.split offset count).beginRemainder = 0 ∨ offset ≤ f.length) ∧
    min count (f.length - offset) + (a.split offset count).beginRemainder ≤ (a.split offset count).alignedLength := by
  obtain ⟨hbe, hre⟩ := a.split_begin ho count
  unfold pread ReadFits
  rw [if_neg hc]
  dsimp only
  rw [hd, if_neg Bool.false_ne_true]
  generalize a.split offset count = rs at hbe hre ⊢
  have hpl : ∀ x, some ((-1 : Int), x) ≠ some (deliver mem buf (underPread .full f count offset)) := by
    intro x h
    have hr := congrArg fst (some.inj h)
    change (-1 : Int) = ((read f count offset).length : Int) at hr
    omega
  cases hm : a.memAlloc rs.alignedLength with
  | none =>
    refine iff_of_false (hpl mem) ?_
    rintro ⟨⟨room, h, -⟩, -⟩
    cases h
  | some room =>
    have hlen := read_length f rs.alignedLength rs.alignedBeginOffset
    dsimp only [underPread, CallResult.limit, Option.map]
    by_cases hro : room < (read f rs.alignedLength rs.alignedBeginOffset).length
    · rw [if_pos hro]
      refine iff_of_false (Option.some_ne_none _).symm ?_
      rintro ⟨⟨room', h, hle⟩, -⟩
      cases h
      omega
    rw [if_neg hro]
    by_cases hsh : (read f rs.alignedLength rs.alignedBeginOffset).length < rs.beginRemainder
    · rw [if_pos hsh]
      refine iff_of_false (hpl mem) ?_
      rintro ⟨-, h, hle⟩
      omega
    rw [if_neg hsh, read_range, hbe]
    constructor
    · intro h
      have hr := congrArg fst (some.inj h)
      change ((min _ count : Nat) : Int) = ((read f count offset).length : Int) at hr
      have hlen' := read_length f count offset
      refine ⟨⟨room, rfl, by omega⟩, by omega, by omega⟩
    · rintro ⟨-, h, hle⟩
      have he : read f (min count (rs.alignedLength - rs.beginRemainder)) offset = read f count offset := by
        rw [read_eq_read_iff]
        omega
      have hr : min ((read f rs.alignedLength rs.alignedBeginOffset).length - rs.beginRemainder) count =
          (read f count offset).length := by
        rw [read_length f count]
        omega
      rw [he, hr]
      rfl

/-- `pread` returns the count and the bytes of a plain `pread` exactly when nothing is asked for, the call
goes to the file as it is, or the blocks can be read into a buffer that holds the range, which does not
begin inside of a block behind the end of the file. -/
theorem pread_same_iff (f : List Byte) (mem : Mem) (buf count offset : Nat) (ho : offset < 2 ^ 63) :
    a.pread .full f mem buf count offset = some (deliver mem buf (underPread .full f count offset)) ↔
      count = 0 ∨ a.direct (a.split offset count) buf = true ∨
        (a.ReadFits f (a.split offset count) ∧ ((a.split offset count).beginRemainder = 0 ∨ offset ≤ f.length) ∧
          min count (f.length - offset) + (a.split offset count).beginRemainder ≤
            (a.split offset count).alignedLength) := by
  by_cases hc : count = 0
  · refine iff_of_true ?_ (.inl hc)
    unfold pread
    rw [if_pos hc, hc]
    change _ = some (((read f 0 offset).length : Int), writeBytes mem buf (read f 0 offset))
    rw [show read f 0 offset = [] from take_zero, writeBytes_nil]
    rfl
  by_cases hd : a.direct (a.split offset count) buf = true
  · refine iff_of_true ?_ (.inr (.inl hd))
    unfold pread
    rw [if_neg hc]
    exact if_pos hd
  · rw [or_iff_right hc, or_iff_right hd]
    exact pread_buffered a ho hc (Bool.not_eq_true _ ▸ hd) mem

/-- Ten bytes from 13 on, of a file with 20. -/
theorem pread_same_short : (new 3 (by decide) true).pread .full (replicate 20 5) (fun _ => 0) 100 10 13 =
    some (deliver (fun _ => 0) 100 (underPread .full (replicate 20 5) 10 13)) :=
  (pread_same_iff (new 3 (by decide) true) (replicate 20 5) (fun _ => 0) 100 10 13 (by decide)).2
    (.inr (.inr ⟨⟨16, by decide +kernel, by decide +kernel⟩, .inr (by decide +kernel), by decide +kernel⟩))

/-- Behind the end of a file with 5 bytes, and inside of a block: -1, where a plain `pread` gives 0. -/
theorem pread_behind_end :
    ((new 3 (by decide) false).pread .full (replicate 5 7) (fun _ => 0) 100 4 6).map fst = some (-1) ∧
      (deliver (fun _ => 0) 100 (underPread .full (replicate 5 7) 4 6)).1 = 0 := by
  decide +kernel

/-! ## Writing -/

section Write

variable {a} {f : List Byte} {rs : RangeSplit} {count offset : Nat}

lemma patchFirst_complete (ptr : Mem) : ∃ ptr', a.patchFirst .complete f f.length rs ptr = some ptr' ∧
    (0 < rs.beginRemainder → ∀ j < a.alignment, ptr' j = f.getD (rs.alignedBeginOffset + j) 0) := by
  unfold patchFirst
  by_cases hr : 0 < rs.beginRemainder
  · rw [if_pos hr]
    dsimp only [underPread, complete, CallResult.limit, Option.map]
    have hlen := read_length f a.alignment rs.alignedBeginOffset
    rw [if_neg (by omega)]
    refine ⟨_, rfl, ?_⟩
    intro _ j hj
    by_cases hre : j < (read f a.alignment rs.alignedBeginOffset).length
    · rw [writeBytes_of_notMem _ (.inl hre), writeBytes_of_mem _ (zero_le j) (by omega) 0, getD_read, if_pos (by omega)]
      rfl
    · -- a hole, or behind the end
      rw [writeBytes_of_mem _ (by omega) (by rw [length_replicate]; omega) 0, ByteFile.getD_replicate,
        getD_of_le 0 (by omega)]
  · rw [if_neg hr]
    exact ⟨ptr, rfl, fun h => absurd h hr⟩

lemma patchLast_complete (h : Around rs a.alignment offset count) (ptr : Mem) :
    ∃ ptr', a.patchLast .complete f f.length rs ptr = some ptr' ∧
      (∀ j, ptr' j = ptr j ∨ ptr' j = f.getD (rs.alignedBeginOffset + j) 0) ∧
      (¬ 0 < rs.smallNote.length → ∀ j < rs.alignedLength, offset + count ≤ rs.alignedBeginOffset + j →
        rs.alignedBeginOffset + j < f.length → ptr' j = f.getD (rs.alignedBeginOffset + j) 0) := by
  obtain ⟨hbegi, hbeg, hen, hle, hbl, -⟩ := h
  unfold patchLast
  by_cases hla : ¬ 0 < rs.smallNote.length ∧ 0 < rs.endRemainder
  · rw [if_pos hla]
    dsimp only [underPread, complete, CallResult.limit, Option.map]
    have hlen := read_length f a.alignment (rs.alignedEndOffset - a.alignment)
    by_cases hbe : (f.length : Int) - (rs.alignedEndOffset - a.alignment : Nat) > rs.endRemainder
    · rw [if_pos hbe, if_neg (by omega)]
      refine ⟨_, rfl, ?_, ?_⟩
      · intro j
        by_cases hj : rs.alignedEndOffset - a.alignment - rs.alignedBeginOffset ≤ j ∧
            j < rs.alignedEndOffset - a.alignment - rs.alignedBeginOffset +
              (read f a.alignment (rs.alignedEndOffset - a.alignment)).length
        · right
          rw [writeBytes_of_mem _ hj.1 hj.2 0, getD_read, if_pos (by omega)]
          congr 1
          omega
        · left
          exact writeBytes_of_notMem _ (by omega)
      · intro _ j hj he hf
        rw [writeBytes_of_mem _ (by omega) (by omega) 0, getD_read, if_pos (by omega)]
        congr 1
        omega
    · rw [if_neg hbe]
      refine ⟨ptr, rfl, fun j => .inl rfl, ?_⟩
      intro _ j hj he hf
      omega
  · rw [if_neg hla]
    refine ⟨ptr, rfl, fun j => .inl rfl, ?_⟩
    -- the range ends at the end of a block, so there is nothing behind it
    intro hsm j hj he
    omega

variable {src data : List Byte}

/-- The buffer that is written: up to the end that the file will have, the bytes a plain write leaves. -/
lemma buffer_complete {ptr : Mem} (h : Around rs a.alignment offset count) (hsr : src.length = count)
    (hf : ∀ j < rs.beginRemainder, ptr j = f.getD (rs.alignedBeginOffset + j) 0)
    (hla : ∀ j < rs.alignedLength, offset + count ≤ rs.alignedBeginOffset + j →
      rs.alignedBeginOffset + j < f.length → ptr j = f.getD (rs.alignedBeginOffset + j) 0) {j : Nat}
    (hj : j < rs.alignedLength) (he : rs.alignedBeginOffset + j < max f.length (offset + count)) :
    writeBytes ptr rs.beginRemainder src j = (write 0 f src offset).getD (rs.alignedBeginOffset + j) 0 := by
  have hbeg := h.begin_add
  rw [getD_write]
  by_cases hin : rs.beginRemainder ≤ j ∧ j < rs.beginRemainder + src.length
  · rw [writeBytes_of_mem _ hin.1 hin.2 0, if_pos (by omega)]
    congr 1
    omega
  rw [writeBytes_of_notMem _ (by omega), if_neg (by omega)]
  by_cases hbe : j < rs.beginRemainder
  · exact hf j hbe
  · exact hla j hj (by omega) (by omega)

lemma writeBlocks_complete (h : Around rs a.alignment offset count) (hc : 0 < count)
    (hsrc : src.length = count) (hd : data.length = rs.alignedLength) (hm : rs.alignedEndOffset < 2 ^ 63)
    (hsa : ∀ j < rs.alignedLength, rs.alignedBeginOffset + j < max f.length (offset + count) →
      data.getD j 0 = (write 0 f src offset).getD (rs.alignedBeginOffset + j) 0) :
    writeBlocks .complete f data rs count offset (supposeFilesize count offset f.length) =
      ((count : Int), write 0 f src offset) := by
  obtain ⟨hbe, -, he, hle, hbl, -⟩ := h
  have hsr : src ≠ [] := ne_nil_of_length_pos (by omega)
  have hda : data ≠ [] := ne_nil_of_length_pos (by omega)
  have hw : underPwrite complete.write f data rs.alignedBeginOffset =
      ((rs.alignedLength : Int), write 0 f data rs.alignedBeginOffset) := by
    rw [← hd]
    exact underPwrite_full f data rs.alignedBeginOffset
  have ht : (((rs.alignedBeginOffset : Int) + rs.alignedLength) % 2 ^ 64).toNat = rs.alignedEndOffset := by omega
  have hsu : supposeFilesize count offset f.length = max f.length (offset + count) := by
    unfold supposeFilesize
    split <;> omega
  have hby : ∀ i < max f.length (offset + count),
      (write 0 f data rs.alignedBeginOffset).getD i 0 = (write 0 f src offset).getD i 0 := by
    intro i hi
    rw [getD_write]
    by_cases hin : rs.alignedBeginOffset ≤ i ∧ i < rs.alignedBeginOffset + data.length
    · rw [if_pos hin, hsa _ (by omega) (by omega), Nat.add_sub_cancel' hin.1]
    · rw [if_neg hin, getD_write, if_neg (by omega)]
  unfold writeBlocks
  dsimp only
  rw [hw, ht, toInt64_eq (by omega), if_pos hm, if_neg (by omega), if_pos (by omega), hsu]
  congr 1
  by_cases hcu : max f.length (offset + count) < rs.alignedEndOffset
  · rw [if_pos ⟨hcu, rfl⟩]
    apply ext_getD 0
    · rw [truncate_length, write_length hsr, hsrc]
    intro i hi
    rw [truncate_length] at hi
    rw [getD_truncate, if_pos hi]
    exact hby i hi
  · -- nothing was written behind the end the file has to have
    rw [if_neg (fun h => hcu h.1)]
    have hlen := write_length hda 0 f rs.alignedBeginOffset
    apply ext_getD 0
    · rw [hlen, write_length hsr]
      omega
    · intro i hi
      exact hby i (by rw [hlen] at hi; omega)

lemma writeBlocks_far (hle : rs.alignedBeginOffset + rs.alignedLength = rs.alignedEndOffset)
    (hd : data.length = rs.alignedLength) (hmi : 2 ^ 63 ≤ rs.alignedEndOffset) (hm : rs.alignedEndOffset < 2 ^ 64)
    (suppose : Nat) : (writeBlocks .complete f data rs count offset suppose).1 = -1 := by
  have ht : (((rs.alignedBeginOffset : Int) + data.length) % 2 ^ 64).toNat = rs.alignedEndOffset := by omega
  unfold writeBlocks
  dsimp only
  rw [show complete.write = .full from rfl, underPwrite_full]
  dsimp only
  have hn : toInt64 rs.alignedEndOffset < offset := by
    rw [toInt64_eq hm, if_neg (by omega)]
    omega
  rw [ht, if_pos hn]

end Write

/-- There is a temporary buffer for the blocks. -/
def WriteFits (rs : RangeSplit) : Prop := ∃ room, a.memAlloc rs.alignedLength = some room ∧ rs.alignedLength ≤ room

lemma defaultAllocator_room (n : Nat) : (∃ room, defaultAllocator (toInt32 n) = some room ∧ n ≤ room) ↔ n < 2 ^ 31 := by
  have hv : toInt32 n = if 2 * (n % 2 ^ 32) < 2 ^ 32 then ((n % 2 ^ 32 : Nat) : Int) else (n % 2 ^ 32 : Nat) - 2 ^ 32 := by
    rw [toInt32, BitVec.toInt_eq_toNat_cond, BitVec.toNat_ofNat]
    rfl
  unfold defaultAllocator
  constructor
  · rintro ⟨room, hr, hle⟩
    split at hv
    · rw [if_pos (by omega)] at hr
      have := some.inj hr
      omega
    · rw [if_neg (by omega)] at hr
      cases hr
  · intro hn
    rw [if_pos (by omega)] at hv
    exact ⟨(toInt32 n).toNat, if_pos (by omega), by omega⟩

lemma writeFits_new {k : Nat} (hk : k < 32) (alignMemory : Bool) (rs : RangeSplit) :
    (new k hk alignMemory).WriteFits rs ↔ rs.alignedLength < 2 ^ 31 ∧ (alignMemory = true → 3 ≤ k) := by
  unfold WriteFits memAlloc new
  cases alignMemory with
  | false => simpa using defaultAllocator_room rs.alignedLength
  | true =>
    have h8 : 2 ^ k % 8 = 0 ↔ 3 ≤ k := by
      revert k
      decide
    by_cases hk3 : 3 ≤ k
    · simpa [alignedAllocator, h8, hk3] using defaultAllocator_room rs.alignedLength
    · simp [alignedAllocator, h8, hk3]

lemma pwrite_buffered (ho : offset + count + a.alignment ≤ 2 ^ 64)
    (hc : count ≠ 0) (hd : a.direct (a.split offset count) buf = false) (hea mem : Mem) :
    a.pwrite .complete f hea mem buf count offset = some ((count : Int), write 0 f (readBytes mem buf count) offset) ↔
      a.WriteFits (a.split offset count) ∧ (a.split offset count).alignedEndOffset < 2 ^ 63 := by
  have h := a.split_around ho (pos_of_ne_zero hc)
  unfold pwrite WriteFits
  rw [if_neg hc]
  dsimp only
  rw [hd, if_neg Bool.false_ne_true]
  generalize a.split offset count = rs at h ⊢
  have hbo : offset + count ≤ rs.alignedEndOffset ∧ rs.alignedEndOffset < 2 ^ 64 := by
    have := h.ends
    have := a.alignment_pos
    omega
  have hf : ∀ x, some ((-1 : Int), x) ≠ some ((count : Int), write 0 f (readBytes mem buf count) offset) := by
    intro x hx
    have hr := congrArg fst (some.inj hx)
    dsimp only at hr
    omega
  by_cases hov : 2 ^ 63 ≤ offset + count
  · rw [if_pos hov]
    refine iff_of_false (some_ne_none _).symm ?_
    rintro ⟨-, he⟩
    omega
  rw [if_neg hov]
  cases hm : a.memAlloc rs.alignedLength with
  | none =>
    refine iff_of_false (hf f) ?_
    rintro ⟨⟨room, hro, -⟩, -⟩
    cases hro
  | some room =>
    dsimp only
    by_cases hro : room < rs.alignedLength
    · rw [if_pos hro]
      refine iff_of_false (some_ne_none _).symm ?_
      rintro ⟨⟨room', hr', hle⟩, -⟩
      cases hr'
      omega
    rw [if_neg hro]
    obtain ⟨ptr1, hp1, hfi⟩ := @patchFirst_complete a f rs hea
    obtain ⟨ptr2, hp2, hk, hla⟩ := patchLast_complete h ptr1
    rw [show complete.fstat.getD (f.length : Int) = f.length from rfl, hp1, bind_some, hp2]
    dsimp only
    by_cases he : rs.alignedEndOffset < 2 ^ 63
    · refine iff_of_true ?_ ⟨⟨room, rfl, by omega⟩, he⟩
      have hol : 0 < rs.beginRemainder → ∀ j < a.alignment, ptr2 j = f.getD (rs.alignedBeginOffset + j) 0 := by
        intro hre j hj
        obtain hj' | hj' := hk j
        · rw [hj', hfi hre j hj]
        · exact hj'
      have hbe : ∀ j < rs.alignedLength, offset + count ≤ rs.alignedBeginOffset + j →
          rs.alignedBeginOffset + j < f.length → ptr2 j = f.getD (rs.alignedBeginOffset + j) 0 := by
        intro j hj
        by_cases hsm : 0 < rs.smallNote.length
        · -- the only block has been read as the first one
          obtain ⟨hre, -, hlen⟩ := h.small.1 hsm
          exact fun _ _ => hol hre j (by omega)
        · exact hla hsm j hj
      rw [writeBlocks_complete h (pos_of_ne_zero hc) (readBytes_length mem buf count) (readBytes_length ..) he]
      intro j hj hje
      rw [getD_readBytes _ hj, zero_add]
      exact buffer_complete h (readBytes_length mem buf count)
        (fun j hj => hol (by omega) j (lt_trans hj h.begin_lt)) hbe hj hje
    · refine iff_of_false ?_ (fun h => he h.2)
      intro heq
      have hr := congrArg fst (some.inj heq)
      rw [writeBlocks_far h.length (readBytes_length ..) (by omega) hbo.2] at hr
      dsimp only at hr
      omega

/-- `pwrite` returns the count and leaves the file as a plain `pwrite` does exactly when nothing is to be
written, the call goes to the file as it is, or there is a temporary buffer for the blocks and they end
where `off_t` reaches. -/
theorem pwrite_same_iff (f : List Byte) (heap mem : Mem) (buf count offset : Nat) (ho : offset < 2 ^ 63)
    (hcount : count < 2 ^ 30) :
    a.pwrite .complete f heap mem buf count offset =
        some ((count : Int), write 0 f (readBytes mem buf count) offset) ↔
      count = 0 ∨ a.direct (a.split offset count) buf = true ∨
        (a.WriteFits (a.split offset count) ∧ (a.split offset count).alignedEndOffset < 2 ^ 63) := by
  by_cases hc : count = 0
  · refine iff_of_true ?_ (.inl hc)
    unfold pwrite
    rw [if_pos hc, hc]
    rfl
  by_cases hd : a.direct (a.split offset count) buf = true
  · refine iff_of_true ?_ (.inr (.inl hd))
    unfold pwrite
    rw [if_neg hc]
    dsimp only
    rw [if_pos hd, show complete.write = .full from rfl, underPwrite_full, readBytes_length]
  · have ha := a.alignment_le
    rw [or_iff_right hc, or_iff_right hd]
    exact pwrite_buffered a (by omega) hc (Bool.not_eq_true _ ▸ hd) heap mem

/-- Six bytes from 13 on, of a file with 10. -/
theorem pwrite_same_hole : (new 3 (by decide) true).pwrite .complete (replicate 10 5) (fun _ => 9) (fun _ => 7) 100 6 13 =
    some (6, write 0 (replicate 10 5) (readBytes (fun _ => 7) 100 6) 13) :=
  (pwrite_same_iff (new 3 (by decide) true) (replicate 10 5) (fun _ => 9) (fun _ => 7) 100 6 13 (by decide)
    (by decide)).2 (.inr (.inr ⟨(writeFits_new (by decide) true _).2 ⟨by decide +kernel, fun _ => by decide⟩,
      by decide +kernel⟩))

/-- With the alignment 2 and aligned memory no buffer is to be had, and one byte at offset 1 is not written. -/
theorem pwrite_no_buffer :
    (new 1 (by decide) true).pwrite .complete [] (fun _ => 0) (fun _ => 7) 100 1 1 = some (-1, []) ∧
      write 0 [] (readBytes (fun _ => (7 : Byte)) 100 1) 1 = [0, 7] := by
  decide +kernel

end AlignedFileAdaptor

end Photon.Fs
