import Photon.Fs.AlignedFile
import Photon.Fs.TemporaryBuffer
/-!
# `AlignedFileAdaptor`, `preadv2_mutable` and `pwritev2_mutable` (`fs/aligned-file.cpp`)

The vectored calls do what `pread` and `pwrite` do, through a temporary buffer in pieces. A
part of it is reached by `slice`. The asserts on what `slice` returns are not compiled in a
release build and are left out.
-/

namespace Photon.Fs

open List Option Bool

open Photon.Iovector (IOAlloc Iovec bytes sum extractFront extractBack bytes_length)

namespace AlignedFileAdaptor

/-! ## The calls -/

section Calls

variable (a : AlignedFileAdaptor) (alloc : IOAlloc)

def iovAlignCheck (view : List Iovec) : Bool :=
  view.all fun p => (p.iovBase &&& (a.alignment - 1)) == 0 && (p.iovLen &&& (a.alignment - 1)) == 0

def directv (rs : RangeSplit) (iov : List Iovec) : Bool := rs.isAligned && (!a.alignMemory || a.iovAlignCheck iov)

def preadv2Mutable (r : CallResult) (f : List Byte) (mem : Mem) (iov : List Iovec) (offset : Nat) : Option (Int × Mem) :=
  let count := sum iov
  if count = 0 then some (0, mem)
  else
    let rs := a.split offset count
    if a.directv rs iov then some (underPreadv r f mem iov offset)
    else
      let rbuf := alloc.pushBack rs.alignedLength
      if sum rbuf < rs.alignedLength then some (-1, mem)
      else
        let got := underPreadv r f mem rbuf rs.alignedBeginOffset
        -- `ret` is a `size_t`
        let ret := (got.1 % 2 ^ 64).toNat
        if ret < rs.beginRemainder then some (-1, got.2)
        else
          let actualRead := min (ret - rs.beginRemainder) count
          let rbuf := if rs.endRemainder ≠ 0 then (extractBack rbuf (a.alignment - rs.endRemainder)).view else rbuf
          let rbuf := (extractFront rbuf rs.beginRemainder).view
          (memcpyView got.2 iov rbuf actualRead).map fun r => ((actualRead : Int), r.2)

/-- The old content of the first block goes to the first pieces; `none` if the call returns -1. -/
def patchFirstv (calls : WriteCalls) (f : List Byte) (filesize : Int) (rs : RangeSplit) (wbuf : List Iovec) (mem : Mem) :
    Option Mem :=
  if 0 < rs.beginRemainder then
    let view := sliceTmp wbuf a.alignment 0
    let off := rs.alignedBeginOffset
    let got := underPreadv calls.first f mem view off
    if got.1 < 0 ∨ (off + got.1 < filesize ∧ got.1 < a.alignment) then none
    else if got.1 < a.alignment then some (zeroView got.2 (extractFront view got.1.toNat).view)
    else some got.2
  else some mem

/-- The old content of the last block goes to the last pieces, if there are bytes behind the range. -/
def patchLastv (calls : WriteCalls) (f : List Byte) (filesize : Int) (rs : RangeSplit) (wbuf : List Iovec) (mem : Mem) :
    Option Mem :=
  if ¬ 0 < rs.smallNote.length ∧ 0 < rs.endRemainder then
    let off := rs.alignedEndOffset - a.alignment
    if filesize - off > rs.endRemainder then
      let view := sliceTmp wbuf a.alignment (sum wbuf - a.alignment)
      let got := underPreadv calls.last f mem view off
      if got.1 < 0 then none
      else if got.1 + off < filesize ∧ got.1 < a.alignment then none
      else some got.2
    else some mem
  else some mem

/-- The write of the whole blocks, and the cut of what it has added behind the range. -/
def writevBlocks (calls : WriteCalls) (f data : List Byte) (rs : RangeSplit) (count offset suppose : Nat) :
    Int × List Byte :=
  let w := underPwrite calls.write f data rs.alignedBeginOffset
  let tail := ((rs.alignedBeginOffset + w.1) % 2 ^ 64).toNat
  if toInt64 tail < offset then (-1, w.2)
  else
    let currentTail := if suppose < tail then suppose else tail
    (if count < currentTail - offset then count else (currentTail - offset : Nat),
      if suppose < tail ∧ calls.ftruncate then ByteFile.truncate 0 w.2 suppose else w.2)

def pwritev2Mutable (calls : WriteCalls) (f : List Byte) (mem : Mem) (iov : List Iovec) (offset : Nat) :
    Option (Int × List Byte) :=
  let count := sum iov
  if count = 0 then some (0, f)
  else
    let rs := a.split offset count
    if a.directv rs iov then some (underPwrite calls.write f ((bytes iov).map mem) offset)
    else if 2 ^ 63 ≤ offset + count then none
    else
      let filesize := calls.fstat.getD f.length
      let wbuf := alloc.pushBack rs.alignedLength
      if sum wbuf < rs.alignedLength then some (-1, f)
      else
        match (a.patchFirstv calls f filesize rs wbuf mem).bind (a.patchLastv calls f filesize rs wbuf) with
        | none => some (-1, f)
        | some mem =>
          (memcpyView mem (sliceTmp wbuf count rs.beginRemainder) iov count).map fun r =>
            writevBlocks calls f ((bytes wbuf).map r.2) rs count offset (supposeFilesize count offset filesize)

end Calls

variable {rs : RangeSplit} {offset count : Nat}

lemma Around.aligned {A : Nat} (h : Around rs A offset count) (ha : rs.isAligned = true) :
    rs.beginRemainder = 0 ∧ rs.endRemainder = 0 ∧ rs.alignedBeginOffset = offset ∧ rs.alignedLength = count := by
  obtain ⟨hr, he⟩ := of_decide_eq_true ha
  have hbe := h.begin_add
  have hen := h.ends
  have hle := h.length
  exact ⟨hr, he, by omega, by omega⟩

/-! ## Reading -/

section Reading

/-- What the blocks give of the range; `none` is -1. -/
def readBlocks (r : CallResult) (f : List Byte) (rs : RangeSplit) (count : Nat) : Option (List Byte) :=
  (underPread r f rs.alignedLength rs.alignedBeginOffset).bind fun bs =>
    if bs.length < rs.beginRemainder then none else some ((bs.drop rs.beginRemainder).take count)

lemma readBlocks_aligned {A : Nat} (h : Around rs A offset count) (ha : rs.isAligned = true)
    (r : CallResult) (f : List Byte) : readBlocks r f rs count = underPread r f count offset := by
  obtain ⟨hr, -, hbe, hle⟩ := h.aligned ha
  unfold readBlocks
  rw [hr, hbe, hle]
  cases hre : underPread r f count offset with
  | none => rfl
  | some =>
    rw [bind_some, if_neg (Nat.not_lt_zero _), drop_zero, take_of_length_le (underPread_length_le hre)]

variable {a : AlignedFileAdaptor}

lemma pread_eq (ho : offset + count + a.alignment ≤ 2 ^ 64) (hc : count ≠ 0)
    (hf : a.WriteFits (a.split offset count)) (r : CallResult) (f : List Byte) (mem : Mem) (buf : Nat) :
    a.pread r f mem buf count offset = some (deliver mem buf (readBlocks r f (a.split offset count) count)) := by
  have h := a.split_around ho (pos_of_ne_zero hc)
  unfold pread
  rw [if_neg hc]
  dsimp only
  generalize a.split offset count = rs at h hf ⊢
  by_cases hd : a.direct rs buf = true
  · rw [if_pos hd, readBlocks_aligned h (and_eq_true_iff.1 hd).1]
  rw [if_neg hd]
  obtain ⟨room, hro, hle⟩ := hf
  rw [hro]
  unfold readBlocks
  cases hr : underPread r f rs.alignedLength rs.alignedBeginOffset with
  | none => rfl
  | some bs =>
    have hlen := underPread_length_le hr
    dsimp only
    rw [bind_some, if_neg (by omega)]
    split
    · rfl
    have ha : ((bs.drop rs.beginRemainder).take count).length = min (bs.length - rs.beginRemainder) count := by
      rw [length_take, length_drop, min_comm]
    have ht : (bs.drop rs.beginRemainder).take (min (bs.length - rs.beginRemainder) count) =
        (bs.drop rs.beginRemainder).take count := by
      rw [take_eq_take_iff, length_drop]
      omega
    rw [ht, deliver, ha]

lemma bytes_range (h : Around rs a.alignment offset count) {rbuf : List Iovec}
    (hsum : sum rbuf = rs.alignedLength) :
    bytes (extractFront (if rs.endRemainder ≠ 0 then (extractBack rbuf (a.alignment - rs.endRemainder)).view else rbuf)
      rs.beginRemainder).view = ((bytes rbuf).drop rs.beginRemainder).take count := by
  have hbe := h.begin_add
  have he := h.ends
  have hle := h.length
  rw [Iovector.bytes_extractFront]
  generalize hi : (if rs.endRemainder ≠ 0 then _ else rbuf) = back
  have hba : bytes back = (bytes rbuf).take (rs.beginRemainder + count) := by
    rw [← hi]
    split
    · rw [Iovector.bytes_extractBack, hsum]
      congr 1
      omega
    · rw [take_of_length_le]
      rw [bytes_length]
      omega
  rw [hba, drop_take, Nat.add_sub_cancel_left]

variable (a) (alloc : IOAlloc)

structure Buffered (iov : List Iovec) (offset : Nat) (rs : RangeSplit) (tmp : List Iovec) : Prop where
  split : a.split offset (sum iov) = rs
  pushed : alloc.pushBack rs.alignedLength = tmp
  inRange : offset + sum iov + a.alignment ≤ 2 ^ 63
  asked : sum iov ≠ 0
  indirect : a.directv rs iov = false
  fresh : Fresh tmp iov

variable {a alloc} {iov rbuf : List Iovec} {r : CallResult}

lemma around_split (ho : offset + count + a.alignment ≤ 2 ^ 63) (hc : count ≠ 0) :
    Around (a.split offset count) a.alignment offset count :=
  a.split_around (by omega) (pos_of_ne_zero hc)

lemma Buffered.around (h : Buffered a alloc iov offset rs rbuf) : Around rs a.alignment offset (sum iov) :=
  h.split ▸ around_split h.inRange h.asked

section
variable (hb : Buffered a alloc iov offset rs rbuf) (hsum : sum rbuf = rs.alignedLength)
include hb hsum

lemma preadv_buffered (hr : r ≠ .error) (f : List Byte) (mem : Mem) :
    ∃ mem', a.preadv2Mutable alloc r f mem iov offset = some ((deliverv mem iov (readBlocks r f rs (sum iov))).1, mem') ∧
      ∀ x, x ∉ bytes rbuf → mem' x = (deliverv mem iov (readBlocks r f rs (sum iov))).2 x := by
  have h := hb.around
  have ho := hb.inRange
  have hf := hb.fresh
  unfold preadv2Mutable
  dsimp only
  rw [if_neg hb.asked, hb.split, hb.indirect, if_neg Bool.false_ne_true, hb.pushed]
  have hra := bytes_range h hsum
  have hbeg := h.begin_add
  have hbe := h.begin_lt
  have he := h.ends
  have hle := h.length
  rw [if_neg (by omega)]
  unfold underPreadv readBlocks
  rw [hsum]
  obtain ⟨bs, hre⟩ : ∃ bs, underPread r f rs.alignedLength rs.alignedBeginOffset = some bs := by
    cases r with
    | full => exact ⟨_, rfl⟩
    | short => exact ⟨_, rfl⟩
    | error => exact absurd rfl hr
  have hlen := underPread_length_le hre
  have hret : (((bs.length : Nat) : Int) % 2 ^ 64).toNat = bs.length := by omega
  rw [hre, bind_some]
  dsimp only [deliverv]
  simp only [hret]
  by_cases hsh : bs.length < rs.beginRemainder
  · rw [if_pos hsh, if_pos hsh]
    exact ⟨_, rfl, fun x hx => scatter_of_notMem hx bs⟩
  rw [if_neg hsh, if_neg hsh]
  generalize hq : (extractFront (if rs.endRemainder ≠ 0 then (extractBack rbuf (a.alignment - rs.endRemainder)).view
    else rbuf) rs.beginRemainder).view = rest at hra ⊢
  have hres : sum rest = sum iov := by
    rw [← bytes_length, hra, length_take, length_drop, bytes_length]
    omega
  have hse : ∀ x ∈ bytes iov, x ∉ bytes rest := by
    intro x hx hxr
    rw [hra] at hxr
    exact hf.apart x hx (mem_of_mem_drop (mem_of_mem_take hxr))
  generalize hn : min (bs.length - rs.beginRemainder) (sum iov) = n
  have hm : min n (min (sum iov) (sum rest)) = n := by omega
  -- the bytes that are copied are those that were read
  have hco : ((bytes rest).map (scatter mem (bytes rbuf) bs)).take n = (bs.drop rs.beginRemainder).take (sum iov) := by
    have hbs := take_map_scatter mem hf.nodup (show bs.length ≤ (bytes rbuf).length by rw [bytes_length]; omega)
    conv_rhs => rw [← hbs]
    rw [hra, map_take, map_drop, drop_take, take_take, take_take, take_eq_take_iff,
      length_drop, length_map, bytes_length]
    omega
  have hl' : ((bs.drop rs.beginRemainder).take (sum iov)).length = n := by
    rw [length_take, length_drop, min_comm, hn]
  rw [memcpyView_eq hse, hm, hco]
  dsimp only [deliverv]
  refine ⟨_, by rw [hl']; rfl, ?_⟩
  intro x hx
  have hin : ((bs.drop rs.beginRemainder).take (sum iov)).length ≤ ((bytes iov).take n).length := by
    rw [hl', length_take, bytes_length]
    omega
  rw [← scatter_short _ hin ((bytes iov).drop n), take_append_drop]
  exact scatter_congr (scatter_of_notMem hx bs) _ _

lemma preadv_error (f : List Byte)
    (mem : Mem) : ∃ mem', a.preadv2Mutable alloc .error f mem iov offset = some ((sum iov : Int), mem') := by
  have h := hb.around
  have ho := hb.inRange
  unfold preadv2Mutable
  dsimp only
  rw [if_neg hb.asked, hb.split, hb.indirect, if_neg Bool.false_ne_true, hb.pushed]
  have hre := h.begin_lt
  have hr : ((-1 : Int) % 2 ^ 64).toNat = 2 ^ 64 - 1 := by decide
  have hg : underPreadv .error f mem rbuf rs.alignedBeginOffset = (-1, mem) := rfl
  rw [if_neg (by omega), hg]
  dsimp only
  rw [hr, if_neg (by omega), min_eq_right (by omega), memcpyView_eq]
  · exact ⟨_, rfl⟩
  · intro x hx hxr
    rw [bytes_range h hsum] at hxr
    exact hb.fresh.apart x hx (mem_of_mem_drop (mem_of_mem_take hxr))

end

/-- `preadv2_mutable` returns what `pread` into one buffer returns, and the segments get the bytes that the
buffer gets; nothing else changes but the temporary buffer. -/
def SameRead (a : AlignedFileAdaptor) (alloc : IOAlloc) (r : CallResult) (f : List Byte) (mem : Mem) (iov : List Iovec) (buf offset : Nat) : Prop :=
  ∃ ret mem1 mem2, a.pread r f (joined mem iov buf) buf (sum iov) offset = some (ret, mem1) ∧
    a.preadv2Mutable alloc r f mem iov offset = some (ret, mem2) ∧
    ∀ x, x ∉ bytes (alloc.pushBack (a.split offset (sum iov)).alignedLength) →
      mem2 x = scatter mem (bytes iov) (readBytes mem1 buf ret.toNat) x

lemma sameRead_of_deliver {f : List Byte} {mem mem' : Mem} {buf : Nat} {o : Option (List Byte)}
    (hs : a.pread r f (joined mem iov buf) buf (sum iov) offset = some (deliver (joined mem iov buf) buf o))
    (hv : a.preadv2Mutable alloc r f mem iov offset = some ((deliverv mem iov o).1, mem'))
    (hm : ∀ x, x ∉ bytes (alloc.pushBack (a.split offset (sum iov)).alignedLength) → mem' x = (deliverv mem iov o).2 x) :
    SameRead a alloc r f mem iov buf offset := by
  cases o with
  | none =>
    refine ⟨-1, _, mem', hs, hv, ?_⟩
    intro x hx
    rw [hm x hx]
    change mem x = scatter mem (bytes iov) [] x
    rw [scatter_nil]
  | some bs =>
    refine ⟨bs.length, _, mem', hs, hv, ?_⟩
    intro x hx
    rw [hm x hx, Int.toNat_natCast, readBytes_writeBytes]
    rfl

/-- All that decides is the error of the call below, once the temporary buffer is there. -/
lemma sameRead_iff (ho : offset + sum iov + a.alignment ≤ 2 ^ 63) (hf : a.WriteFits (a.split offset (sum iov)))
    (hfr : Fresh (alloc.pushBack (a.split offset (sum iov)).alignedLength) iov) (r : CallResult) (f : List Byte)
    (mem : Mem) (buf : Nat) :
    SameRead a alloc r f mem iov buf offset ↔ sum iov = 0 ∨ a.directv (a.split offset (sum iov)) iov = true ∨
        if sum (alloc.pushBack (a.split offset (sum iov)).alignedLength) = (a.split offset (sum iov)).alignedLength then
          r ≠ .error
        else readBlocks r f (a.split offset (sum iov)) (sum iov) = none := by
  have ho' : offset + sum iov + a.alignment ≤ 2 ^ 64 := by omega
  by_cases hc : sum iov = 0
  · refine iff_of_true ⟨0, joined mem iov buf, mem, ?_, ?_, ?_⟩ (.inl hc)
    · rw [pread, if_pos hc]
    · rw [preadv2Mutable, if_pos hc]
    · intro x _
      rw [show readBytes (joined mem iov buf) buf (0 : Int).toNat = [] from rfl, scatter_nil]
  have hs := pread_eq ho' hc hf r f (joined mem iov buf) buf
  have h := around_split ho hc
  generalize hrs : a.split offset (sum iov) = rs at h hs hfr ⊢
  generalize hrb : alloc.pushBack rs.alignedLength = rbuf at hfr ⊢
  by_cases hd : a.directv rs iov = true
  · refine iff_of_true ?_ (.inr (.inl hd))
    rw [readBlocks_aligned h (and_eq_true_iff.1 hd).1] at hs
    have hv : a.preadv2Mutable alloc r f mem iov offset = some (deliverv mem iov (underPread r f (sum iov) offset)) := by
      rw [preadv2Mutable]
      dsimp only
      rw [if_neg hc, hrs, if_pos hd]
      rfl
    exact sameRead_of_deliver hs hv fun x _ => rfl
  rw [or_iff_right hc, or_iff_right hd]
  by_cases hsum : sum rbuf = rs.alignedLength
  · have hb : Buffered a alloc iov offset rs rbuf := ⟨hrs, hrb, ho, hc, not_eq_true _ ▸ hd, hfr⟩
    rw [if_pos hsum]
    constructor
    · rintro ⟨ret, mem1, mem2, hsc, hve, -⟩ rfl
      obtain ⟨mem', he⟩ := preadv_error hb hsum f mem
      rw [he] at hve
      rw [hs] at hsc
      have h1 := congrArg Prod.fst (some.inj hsc)
      have h2 := congrArg Prod.fst (some.inj hve)
      change (-1 : Int) = ret at h1
      change ((sum iov : Nat) : Int) = ret at h2
      omega
    · intro hr
      obtain ⟨mem', hv, hm⟩ := preadv_buffered hb hsum hr f mem
      exact sameRead_of_deliver hs hv (by rwa [hrs, hrb])
  · -- there is no temporary buffer, so `pread` has to fail as well
    have hle := hrb ▸ (alloc.pushBack_spec rs.alignedLength).1
    have hv : a.preadv2Mutable alloc r f mem iov offset = some (-1, mem) := by
      rw [preadv2Mutable]
      dsimp only
      rw [if_neg hc, hrs, if_neg hd, hrb, if_pos (by omega)]
    rw [if_neg hsum]
    constructor
    · rintro ⟨ret, mem1, mem2, hsc, hve, -⟩
      rw [hs] at hsc
      rw [hv] at hve
      have h1 := congrArg Prod.fst (some.inj hsc)
      have h2 := congrArg Prod.fst (some.inj hve)
      cases hre : readBlocks r f rs (sum iov) with
      | none => rfl
      | some bs =>
        rw [hre] at h1
        change ((bs.length : Nat) : Int) = ret at h1
        change (-1 : Int) = ret at h2
        omega
    · intro hre
      rw [hre] at hs
      exact sameRead_of_deliver hs hv fun x _ => rfl

end Reading
end AlignedFileAdaptor

end Photon.Fs
