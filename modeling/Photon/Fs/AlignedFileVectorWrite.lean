import Photon.Fs.AlignedFileVector
/-!
# `AlignedFileAdaptor::pwritev2_mutable` against `pwrite`

What is read and copied to parts of the temporary buffer comes behind its place by the
pieces that `slice` passes. So `pwritev2_mutable` is `pwrite` with two shifts
(`pwritev_buffered`), and does what `pwrite` does exactly when both are zero.
-/

namespace Photon.Fs

open List Option Prod Bool ByteFile Nat WriteCalls

open Photon.Iovector (IOAlloc Iovec bytes sum firstLen extractFront bytes_length sum_nil)

namespace AlignedFileAdaptor

/-! ## Two shifts -/

section Writing

variable (a : AlignedFileAdaptor) (alloc : IOAlloc)

/-- There are bytes of the file behind the range in its last block, which has to be read for them. -/
def LastBlock (rs : RangeSplit) (filesize : Int) : Prop := (¬ 0 < rs.smallNote.length ∧ 0 < rs.endRemainder) ∧
    filesize - (rs.alignedEndOffset - a.alignment : Nat) > rs.endRemainder

/-- `patchLast` for a buffer that lies `shift` bytes behind its place. -/
def patchLastAt (shift : Nat) (calls : WriteCalls) (f : List Byte) (filesize : Int) (rs : RangeSplit) (ptr : Mem) :
    Option Mem :=
  if ¬ 0 < rs.smallNote.length ∧ 0 < rs.endRemainder then
    let off := rs.alignedEndOffset - a.alignment
    if filesize - off > rs.endRemainder then
      match underPread calls.last f (a.alignment - shift) off with
      | none => none
      | some bs =>
        if ((bs.length + off : Nat) : Int) < filesize ∧ bs.length < a.alignment then none
        else some (writeBytes ptr (shift + (rs.alignedLength - a.alignment)) bs)
    else some ptr
  else some ptr

/-- `pwrite` through one buffer, where the last block comes `last` bytes and the data `mid` bytes behind their
places. -/
def pwriteShifted (last mid : Nat) (calls : WriteCalls) (f : List Byte) (ptr : Mem) (src : List Byte) (rs : RangeSplit)
    (count offset : Nat) : Int × List Byte :=
  let filesize := calls.fstat.getD f.length
  match (a.patchFirst calls f filesize rs ptr).bind (a.patchLastAt last calls f filesize rs) with
  | none => (-1, f)
  | some ptr =>
    writeBlocks calls f (readBytes (writeBytes ptr (mid + rs.beginRemainder)
      (src.take (rs.alignedLength - (mid + rs.beginRemainder)))) 0 rs.alignedLength) rs count offset
      (supposeFilesize count offset filesize)

variable {a alloc} {rs : RangeSplit} {count offset : Nat}

lemma patchLastAt_zero (h : Around rs a.alignment offset count) (calls : WriteCalls) (f : List Byte) (filesize : Int)
    (ptr : Mem) : a.patchLastAt 0 calls f filesize rs ptr = a.patchLast calls f filesize rs ptr := by
  have hle := h.length
  have hat : 0 + (rs.alignedLength - a.alignment) = rs.alignedEndOffset - a.alignment - rs.alignedBeginOffset := by omega
  cases hu : underPread calls.last f a.alignment (rs.alignedEndOffset - a.alignment) with
  | none => simp only [patchLastAt, patchLast, Nat.sub_zero, hu]
  | some bs => simp only [patchLastAt, patchLast, Nat.sub_zero, hat, hu]

lemma offset_add_le_supposeFilesize (count offset : Nat) (filesize : Int) :
    offset + count ≤ supposeFilesize count offset filesize := by
  unfold supposeFilesize
  split <;> omega

variable {suppose : Nat} {calls : WriteCalls} {src : List Byte}

lemma writevBlocks_eq (calls : WriteCalls) (f data : List Byte) (rs : RangeSplit) {count offset : Nat}
    (h : offset + count ≤ suppose) :
    writevBlocks calls f data rs count offset suppose = writeBlocks calls f data rs count offset suppose := by
  unfold writevBlocks writeBlocks
  dsimp only
  generalize ((rs.alignedBeginOffset + (underPwrite calls.write f data rs.alignedBeginOffset).1) % 2 ^ 64).toNat = tail
  by_cases hf : toInt64 tail < offset
  · rw [if_pos hf, if_pos hf]
  · rw [if_neg hf, if_neg hf]
    congr 1
    split <;> split <;> split <;> omega

lemma writeBlocks_error (he : calls.write = .error) (h : rs.alignedBeginOffset ≤ offset) (ho : offset < 2 ^ 63)
    (f data : List Byte) (count suppose : Nat) : writeBlocks calls f data rs count offset suppose = (-1, f) := by
  have hw : underPwrite calls.write f data rs.alignedBeginOffset = (-1, f) := by
    rw [he]
    rfl
  have hn : toInt64 (((rs.alignedBeginOffset : Int) + -1) % 2 ^ 64).toNat < offset := by
    rw [toInt64_eq (by omega)]
    split <;> omega
  unfold writeBlocks
  dsimp only
  rw [hw, if_pos hn]

lemma pwriteShifted_aligned (h : Around rs a.alignment offset count) (ha : rs.isAligned = true)
    (ho : offset + count < 2 ^ 63) (calls : WriteCalls) (f : List Byte) (ptr : Mem) (hsr : src.length = count) :
    a.pwriteShifted 0 0 calls f ptr src rs count offset = underPwrite calls.write f src offset := by
  obtain ⟨hr, hen, hbe, hleng⟩ := h.aligned ha
  have hf : ∀ ptr filesize, a.patchFirst calls f filesize rs ptr = some ptr := by
    intro ptr filesize
    unfold patchFirst
    rw [if_neg (by omega)]
  have hla : ∀ ptr filesize, a.patchLastAt 0 calls f filesize rs ptr = some ptr := by
    intro ptr filesize
    unfold patchLastAt
    rw [if_neg (by omega)]
  have hd : readBytes (writeBytes ptr (0 + rs.beginRemainder) (src.take (rs.alignedLength - (0 + rs.beginRemainder))))
      0 rs.alignedLength = src := by
    rw [hr, hleng, zero_add, Nat.sub_zero, ← hsr, take_length, readBytes_writeBytes]
  unfold pwriteShifted
  dsimp only
  rw [hf, bind_some, hla]
  dsimp only
  rw [hd]
  generalize calls.fstat.getD (f.length : Int) = filesize
  have hsu := offset_add_le_supposeFilesize count offset filesize
  generalize supposeFilesize count offset filesize = suppose at hsu ⊢
  by_cases he : calls.write = .error
  · rw [writeBlocks_error he (by omega) (by omega), he]
    rfl
  obtain ⟨n, hn, hle⟩ : ∃ n, calls.write.limit src.length = some n ∧ n ≤ count := by
    cases hw : calls.write with
    | full => exact ⟨src.length, rfl, by omega⟩
    | short n => exact ⟨min n src.length, rfl, by omega⟩
    | error => exact absurd hw he
  have hw : underPwrite calls.write f src offset = ((n : Int), write 0 f (src.take n) offset) := by
    rw [underPwrite, hn]
  have ht : (((offset : Int) + (n : Int)) % 2 ^ 64).toNat = offset + n := by omega
  have hin : ¬ toInt64 (offset + n) < offset := by
    rw [toInt64_eq (by omega)]
    split <;> omega
  unfold writeBlocks
  dsimp only
  rw [hbe, hw]
  dsimp only
  rw [ht, if_neg hin, if_neg (show ¬(suppose < offset + n ∧ calls.ftruncate = true) by omega)]
  congr 1
  split <;> omega

lemma pwrite_eq (ho : offset + count + a.alignment ≤ 2 ^ 63) (hc : count ≠ 0)
    (hfit : a.WriteFits (a.split offset count)) (calls : WriteCalls) (f : List Byte) (he mem : Mem) (buf : Nat) :
    a.pwrite calls f he mem buf count offset = some (a.pwriteShifted 0 0 calls f he (readBytes mem buf count)
      (a.split offset count) count offset) := by
  have h := around_split ho hc
  have hpo := a.alignment_pos
  unfold pwrite
  rw [if_neg hc]
  dsimp only
  generalize a.split offset count = rs at h hfit ⊢
  by_cases hd : a.direct rs buf = true
  · rw [if_pos hd, pwriteShifted_aligned h (and_eq_true_iff.1 hd).1 (by omega) _ _ _ (readBytes_length mem buf count)]
  obtain ⟨room, hr, hle⟩ := hfit
  rw [if_neg hd, if_neg (by omega), hr]
  dsimp only
  rw [if_neg (by omega)]
  have hla : a.patchLastAt 0 calls f (calls.fstat.getD f.length) rs = a.patchLast calls f (calls.fstat.getD f.length) rs :=
    funext (patchLastAt_zero h calls f _)
  have hbe := h.begin_add
  have hleng := h.length
  have hen := h.ends
  have hsr : (readBytes mem buf count).take (rs.alignedLength - (0 + rs.beginRemainder)) = readBytes mem buf count := by
    rw [take_of_length_le]
    rw [readBytes_length]
    omega
  unfold pwriteShifted
  dsimp only
  rw [hla, hsr, zero_add]
  cases (a.patchFirst calls f (calls.fstat.getD f.length) rs he).bind
    (a.patchLast calls f (calls.fstat.getD f.length) rs) <;> rfl

section Buffer

variable {wbuf iov : List Iovec} {mem0 mem ptr : Mem}

section
variable (hm : Mirrors (bytes wbuf) mem0 mem ptr)
include hm

lemma patchFirstv_mirrors (hn : (bytes wbuf).Nodup) (hlen : wbuf.length ≤ 32)
    (hst : skipped wbuf 0 = 0) (hle : a.alignment ≤ sum wbuf) (calls : WriteCalls) (f : List Byte) (filesize : Int)
    (rs : RangeSplit) :
    Option.Rel (Mirrors (bytes wbuf) mem0) (a.patchFirstv calls f filesize rs wbuf mem)
      (a.patchFirst calls f filesize rs ptr) := by
  unfold patchFirstv patchFirst
  by_cases hr : 0 < rs.beginRemainder
  · rw [if_pos hr, if_pos hr]
    have hv : bytes (sliceTmp wbuf a.alignment 0) = ((bytes wbuf).drop 0).take a.alignment := by
      have h := bytes_sliceTmp hlen a.alignment 0
      rwa [hst] at h
    generalize sliceTmp wbuf a.alignment 0 = view at hv ⊢
    have hsu : sum view = a.alignment := by
      rw [← bytes_length, hv, length_take, drop_zero, bytes_length]
      omega
    dsimp only
    cases hre : underPread calls.first f a.alignment rs.alignedBeginOffset with
    | none =>
      have hret : underPreadv calls.first f mem view rs.alignedBeginOffset = (-1, mem) :=
        underPreadv_eq (by rw [hsu, hre]) mem
      rw [hret, if_pos (.inl (show (-1 : Int) < 0 by decide))]
      exact .none
    | some bs =>
      have hret : underPreadv calls.first f mem view rs.alignedBeginOffset =
          ((bs.length : Int), scatter mem (bytes view) bs) := underPreadv_eq (by rw [hsu, hre]) mem
      have hbs := underPread_length_le hre
      have hg : Mirrors (bytes wbuf) mem0 (scatter mem (bytes view) bs) (writeBytes ptr 0 bs) := by
        rw [hv]
        apply hm.scatter_take hn
        rwa [← hv, bytes_length, hsu]
      rw [hret]
      dsimp only
      by_cases hf : ((rs.alignedBeginOffset + bs.length : Nat) : Int) < filesize ∧ bs.length < a.alignment
      · rw [if_pos hf, if_pos (by omega)]
        exact .none
      rw [if_neg hf, if_neg (by omega)]
      by_cases hsh : bs.length < a.alignment
      · -- memset of what was not read
        rw [if_pos (by omega)]
        have hres : bytes (extractFront view ((bs.length : Nat) : Int).toNat).view =
            ((bytes wbuf).drop bs.length).take (a.alignment - bs.length) := by
          rw [Iovector.bytes_extractFront, Int.toNat_natCast, hv, drop_zero, drop_take]
        have hco : sum (extractFront view ((bs.length : Nat) : Int).toNat).view = a.alignment - bs.length := by
          rw [← bytes_length, hres, length_take, length_drop, bytes_length]
          omega
        apply Option.Rel.some
        rw [zeroView_eq, hco, hres]
        apply hg.scatter_take hn
        rw [← hres, bytes_length, hco, length_replicate]
      · rw [if_neg (by omega), show a.alignment - bs.length = 0 by omega, replicate_zero, writeBytes_nil]
        exact .some hg
  · rw [if_neg hr, if_neg hr]
    exact .some hm

lemma patchLastv_mirrors (hn : (bytes wbuf).Nodup) (hlen : wbuf.length ≤ 32)
    (hsu : sum wbuf = rs.alignedLength) (hle : a.alignment ≤ rs.alignedLength) (calls : WriteCalls) (f : List Byte)
    (filesize : Int) :
    Option.Rel (Mirrors (bytes wbuf) mem0) (a.patchLastv calls f filesize rs wbuf mem)
      (a.patchLastAt (skipped wbuf (rs.alignedLength - a.alignment)) calls f filesize rs ptr) := by
  unfold patchLastv patchLastAt
  by_cases hla : ¬ 0 < rs.smallNote.length ∧ 0 < rs.endRemainder
  · rw [if_pos hla, if_pos hla]
    dsimp only
    by_cases hbe : filesize - (rs.alignedEndOffset - a.alignment : Nat) > rs.endRemainder
    · rw [if_pos hbe, if_pos hbe]
      have hv := bytes_sliceTmp hlen a.alignment (rs.alignedLength - a.alignment)
      rw [show (sum wbuf : Int) - a.alignment = ((rs.alignedLength - a.alignment : Nat) : Int) by omega]
      generalize skipped wbuf (rs.alignedLength - a.alignment) = shift at hv ⊢
      generalize sliceTmp wbuf a.alignment ((rs.alignedLength - a.alignment : Nat) : Int) = view at hv ⊢
      have hco : sum view = a.alignment - shift := by
        rw [← bytes_length, hv, length_take, length_drop, bytes_length]
        omega
      cases hre : underPread calls.last f (a.alignment - shift) (rs.alignedEndOffset - a.alignment) with
      | none =>
        have hr : underPreadv calls.last f mem view (rs.alignedEndOffset - a.alignment) = (-1, mem) :=
          underPreadv_eq (by rw [hco, hre]) mem
        rw [hr, if_pos (show (-1 : Int) < 0 by decide)]
        exact .none
      | some bs =>
        have hr : underPreadv calls.last f mem view (rs.alignedEndOffset - a.alignment) =
            ((bs.length : Int), scatter mem (bytes view) bs) := underPreadv_eq (by rw [hco, hre]) mem
        have hbs := underPread_length_le hre
        rw [hr]
        dsimp only
        rw [if_neg (show ¬((bs.length : Int) < 0) by omega)]
        by_cases hf : ((bs.length + (rs.alignedEndOffset - a.alignment) : Nat) : Int) < filesize ∧ bs.length < a.alignment
        · rw [if_pos hf, if_pos (by omega)]
          exact .none
        rw [if_neg hf, if_neg (by omega), hv]
        apply Option.Rel.some
        apply hm.scatter_take hn
        rwa [← hv, bytes_length, hco]
    · rw [if_neg hbe, if_neg hbe]
      exact .some hm
  · rw [if_neg hla, if_neg hla]
    exact .some hm

lemma memcpyView_mirrors (hf : Fresh wbuf iov) (hle : wbuf.length ≤ 32) (rem : Nat) :
    ∃ n mem', memcpyView mem (sliceTmp wbuf (sum iov) rem) iov (sum iov) = some (n, mem') ∧
      Mirrors (bytes wbuf) mem0 mem' (writeBytes ptr (skipped wbuf rem + rem)
        (((bytes iov).map mem0).take (sum wbuf - (skipped wbuf rem + rem)))) := by
  have hv := bytes_sliceTmp hle (sum iov) rem
  generalize skipped wbuf rem + rem = start at hv ⊢
  generalize sliceTmp wbuf (sum iov) rem = view at hv ⊢
  have hco : sum view = min (sum iov) (sum wbuf - start) := by
    rw [← bytes_length, hv, length_take, length_drop, bytes_length]
  have hse : ∀ x ∈ bytes view, x ∉ bytes iov := by
    intro x hx hxi
    rw [hv] at hx
    exact hf.apart x hxi (mem_of_mem_drop (mem_of_mem_take hx))
  have hd : (bytes iov).map mem = (bytes iov).map mem0 := map_congr_left fun x hx => hm.outside x (hf.apart x hx)
  rw [memcpyView_eq hse, hd]
  refine ⟨_, _, rfl, ?_⟩
  rw [show min (sum iov) (min (sum view) (sum iov)) = sum view by omega, take_of_length_le (by simp), hv]
  have ht : ((bytes iov).map mem0).take (sum view) = ((bytes iov).map mem0).take (sum wbuf - start) := by
    rw [take_eq_take_iff, length_map, bytes_length]
    omega
  rw [ht]
  apply hm.scatter_take hf.nodup
  rw [← hv, length_take, length_map, bytes_length, bytes_length]
  omega

end

lemma pwritev_buffered (hb : Buffered a alloc iov offset rs wbuf) (hsu : sum wbuf = rs.alignedLength)
    (calls : WriteCalls) (f : List Byte) (mem : Mem) :
    a.pwritev2Mutable alloc calls f mem iov offset =
      some (a.pwriteShifted (skipped wbuf (rs.alignedLength - a.alignment)) (skipped wbuf rs.beginRemainder) calls f
        (joined mem wbuf 0) ((bytes iov).map mem) rs (sum iov) offset) := by
  have hpo := a.alignment_pos
  have ho := hb.inRange
  have hfr := hb.fresh
  obtain ⟨-, hlen, ha⟩ := hb.pushed ▸ alloc.pushBack_spec rs.alignedLength
  unfold pwritev2Mutable
  dsimp only
  rw [if_neg hb.asked, hb.split, hb.indirect, if_neg Bool.false_ne_true, if_neg (by omega), hb.pushed]
  have hle := hb.around.block_le
  obtain ⟨hn, hf⟩ := firstLen_pos ha (by omega)
  have hst : skipped wbuf 0 = 0 := (skipped_eq_zero_iff ha hn 0).2 hf
  rw [if_neg (by omega)]
  unfold pwriteShifted
  dsimp only
  generalize calls.fstat.getD (f.length : Int) = filesize
  have hfi := patchFirstv_mirrors (a := a) (mirrors_joined mem wbuf) hfr.nodup (by omega) hst (by omega) calls f
    filesize rs
  generalize a.patchFirstv calls f filesize rs wbuf mem = first at hfi ⊢
  generalize a.patchFirst calls f filesize rs (joined mem wbuf 0) = first' at hfi ⊢
  cases hfi with
  | none => rfl
  | @some mem1 ptr1 hm1 =>
    rw [bind_some, bind_some]
    have hla := patchLastv_mirrors hm1 hfr.nodup (by omega) hsu hle calls f filesize
    generalize a.patchLastv calls f filesize rs wbuf mem1 = last at hla ⊢
    generalize a.patchLastAt (skipped wbuf (rs.alignedLength - a.alignment)) calls f filesize rs ptr1 = last' at hla ⊢
    cases hla with
    | none => rfl
    | some hm2 =>
      obtain ⟨n, mem', hco, hm3⟩ := memcpyView_mirrors hm2 hfr (by omega) rs.beginRemainder
      dsimp only
      rw [hco, map_some, hm3.map_eq, bytes_length, hsu, writevBlocks_eq _ _ _ _ (offset_add_le_supposeFilesize ..)]

end Buffer

/-! ## Errors -/

/-- A read or write of the file below that belongs to the call fails. -/
def WriteFails (a : AlignedFileAdaptor) (calls : WriteCalls) (rs : RangeSplit) (iov : List Iovec) (filesize : Int) : Prop :=
  calls.write = .error ∨ (a.directv rs iov = false ∧
    ((0 < rs.beginRemainder ∧ calls.first = .error) ∨ (a.LastBlock rs filesize ∧ calls.last = .error)))

lemma patchFirst_error (hr : 0 < rs.beginRemainder) (he : calls.first = .error) (f : List Byte)
    (filesize : Int) (ptr : Mem) : a.patchFirst calls f filesize rs ptr = none := by
  unfold patchFirst
  rw [if_pos hr, he]
  rfl

variable {filesize : Int}

lemma patchLastAt_error (hla : a.LastBlock rs filesize) (he : calls.last = .error)
    (shift : Nat) (f : List Byte) (ptr : Mem) : a.patchLastAt shift calls f filesize rs ptr = none := by
  unfold patchLastAt
  rw [if_pos hla.1]
  dsimp only
  rw [if_pos hla.2, he]
  rfl

lemma pwritev_error {iov wbuf : List Iovec} (ho : offset + sum iov + a.alignment ≤ 2 ^ 63) (hc : sum iov ≠ 0)
    (hrs : a.split offset (sum iov) = rs) (hw : alloc.pushBack rs.alignedLength = wbuf) (hfr : Fresh wbuf iov)
    {f : List Byte} (hst : calls.fstat = none) (hf : a.WriteFails calls rs iov f.length) (mem : Mem) :
    ∃ g, a.pwritev2Mutable alloc calls f mem iov offset = some (-1, g) := by
  have hpo := a.alignment_pos
  by_cases hd : a.directv rs iov = true
  · obtain he | ⟨hd', -⟩ := hf
    · refine ⟨f, ?_⟩
      unfold pwritev2Mutable
      dsimp only
      rw [if_neg hc, hrs, if_pos hd, he]
      rfl
    · rw [hd] at hd'
      cases hd'
  by_cases hsu : sum wbuf = rs.alignedLength
  · have hb : Buffered a alloc iov offset rs wbuf := ⟨hrs, hw, ho, hc, not_eq_true _ ▸ hd, hfr⟩
    rw [pwritev_buffered hb hsu]
    have hbe := hb.around.begin_add
    unfold pwriteShifted
    dsimp only
    rw [hst, getD_none]
    cases hp : (a.patchFirst calls f f.length rs (joined mem wbuf 0)).bind
        (a.patchLastAt (skipped wbuf (rs.alignedLength - a.alignment)) calls f f.length rs) with
    | none => exact ⟨f, rfl⟩
    | some ptr =>
      obtain ⟨ptr1, hp1, hp2⟩ := bind_eq_some_iff.1 hp
      rcases hf with he | ⟨-, ⟨hr, he⟩ | ⟨hla, he⟩⟩
      · dsimp only
        rw [writeBlocks_error he (by omega) (by omega)]
        exact ⟨f, rfl⟩
      · rw [patchFirst_error hr he] at hp1
        cases hp1
      · rw [patchLastAt_error hla he] at hp2
        cases hp2
  · have hle := hw ▸ (alloc.pushBack_spec rs.alignedLength).1
    refine ⟨f, ?_⟩
    unfold pwritev2Mutable
    dsimp only
    rw [if_neg hc, hrs, if_neg hd, if_neg (by omega), hw, if_pos (by omega)]

/-! ## Misplaced bytes -/

section Misplaced

variable {f : List Byte} {ptr ptr' : Mem}

lemma patchFirst_behind (h : a.patchFirst calls f filesize rs ptr = some ptr') {j : Nat}
    (hj : a.alignment ≤ j) : ptr' j = ptr j := by
  unfold patchFirst at h
  by_cases hr : 0 < rs.beginRemainder
  · rw [if_pos hr] at h
    dsimp only at h
    cases hre : underPread calls.first f a.alignment rs.alignedBeginOffset with
    | none =>
      rw [hre] at h
      cases h
    | some =>
      have hbs := underPread_length_le hre
      rw [hre] at h
      dsimp only at h
      split at h <;> cases h
      rw [writeBytes_of_notMem _ (.inr (by rw [length_replicate]; omega)), writeBytes_of_notMem _ (.inr (by omega))]
  · rw [if_neg hr] at h
    cases h
    rfl

lemma patchLastAt_complete {shift : Nat} (h : a.patchLastAt shift .complete f f.length rs ptr = some ptr') :
    (¬ a.LastBlock rs f.length ∧ ptr' = ptr) ∨
      (a.LastBlock rs f.length ∧ ptr' = writeBytes ptr (shift + (rs.alignedLength - a.alignment))
        (read f (a.alignment - shift) (rs.alignedEndOffset - a.alignment))) := by
  unfold patchLastAt at h
  by_cases hla : ¬ 0 < rs.smallNote.length ∧ 0 < rs.endRemainder
  · rw [if_pos hla] at h
    dsimp only at h
    by_cases hbe : (f.length : Int) - (rs.alignedEndOffset - a.alignment : Nat) > rs.endRemainder
    · rw [if_pos hbe, show complete.last = .full from rfl] at h
      dsimp only [underPread, CallResult.limit, Option.map] at h
      split at h <;> cases h
      exact .inr ⟨⟨hla, hbe⟩, rfl⟩
    · rw [if_neg hbe] at h
      cases h
      exact .inl ⟨fun hl => hbe hl.2, rfl⟩
  · rw [if_neg hla] at h
    cases h
    exact .inl ⟨fun hl => hla hl.1, rfl⟩

variable {g : List Byte} {last : Nat}

lemma writeBlocks_getD {data : List Byte}
    (h : writeBlocks .complete f data rs count offset suppose = ((count : Int), g)) {j : Nat} (hj : j < data.length)
    (hs : rs.alignedBeginOffset + j < suppose) : g.getD (rs.alignedBeginOffset + j) 0 = data.getD j 0 := by
  have hw : (write 0 f data rs.alignedBeginOffset).getD (rs.alignedBeginOffset + j) 0 = data.getD j 0 := by
    rw [getD_write, if_pos (by omega), Nat.add_sub_cancel_left]
  unfold writeBlocks at h
  rw [show complete.write = .full from rfl, underPwrite_full] at h
  dsimp only at h
  split at h
  · have := congrArg fst h
    dsimp only at this
    omega
  have hg := congrArg snd h
  dsimp only at hg
  rw [← hg]
  split
  · rw [getD_truncate, if_pos hs, hw]
  · exact hw

lemma pwriteShifted_complete {mid : Nat}
    (h : a.pwriteShifted last mid .complete f ptr src rs count offset = ((count : Int), g)) :
    ∃ ptr1 ptr2, a.patchFirst .complete f f.length rs ptr = some ptr1 ∧
      a.patchLastAt last .complete f f.length rs ptr1 = some ptr2 ∧
      ∀ j < rs.alignedLength, rs.alignedBeginOffset + j < max f.length (offset + count) →
        g.getD (rs.alignedBeginOffset + j) 0 = writeBytes ptr2 (mid + rs.beginRemainder)
          (src.take (rs.alignedLength - (mid + rs.beginRemainder))) j := by
  unfold pwriteShifted at h
  dsimp only at h
  rw [show complete.fstat.getD (f.length : Int) = f.length from rfl] at h
  cases hp : (a.patchFirst .complete f f.length rs ptr).bind (a.patchLastAt last .complete f f.length rs) with
  | none =>
    rw [hp] at h
    have := congrArg fst h
    dsimp only at this
    omega
  | some ptr2 =>
    obtain ⟨ptr1, hp1, hp2⟩ := bind_eq_some_iff.1 hp
    rw [hp] at h
    refine ⟨ptr1, ptr2, hp1, hp2, ?_⟩
    intro j hj he
    have hsu : rs.alignedBeginOffset + j < supposeFilesize count offset f.length := by
      unfold supposeFilesize
      split <;> omega
    rw [writeBlocks_getD h (by rwa [readBytes_length]) hsu, getD_readBytes _ hj, zero_add]

section
variable (h : Around rs a.alignment offset count) (hdvd : a.alignment ∣ rs.alignedLength)
include h hdvd

lemma shifted_data (hc : 0 < count) (hr : 0 < rs.beginRemainder) {mid : Nat} (hmi : mid ≠ 0)
    (heq : a.pwriteShifted last mid .complete f ptr src rs count offset = ((count : Int), g)) :
    g.getD offset 0 = f.getD offset 0 := by
  obtain ⟨ptr1, ptr2, hp1, hp2, hg⟩ := pwriteShifted_complete heq
  have hbeg := h.begin_add
  have hbe := h.begin_lt
  have hbl := h.block_le
  have hf : ptr1 rs.beginRemainder = f.getD (rs.alignedBeginOffset + rs.beginRemainder) 0 := by
    obtain ⟨ptr', hp', hv⟩ := @patchFirst_complete a f rs ptr
    rw [hp1] at hp'
    cases hp'
    exact hv hr _ hbe
  have hla : ptr2 rs.beginRemainder = ptr1 rs.beginRemainder := by
    obtain ⟨-, hp⟩ | ⟨⟨⟨hsm, he⟩, -⟩, hp⟩ := patchLastAt_complete hp2
    · rw [hp]
    -- there is a block before the last one
    have ht : rs.alignedLength ≠ a.alignment := fun hl => hsm (h.small.2 ⟨hr, he, hl⟩)
    have hbef := le_of_dvd (by omega) (dvd_sub hdvd (dvd_refl a.alignment))
    rw [hp, writeBytes_of_notMem _ (.inl (by omega))]
  have hby := hg rs.beginRemainder (by omega) (by omega)
  rw [writeBytes_of_notMem _ (.inl (by omega)), hla, hf, hbeg] at hby
  exact hby

lemma shifted_last (hla : a.LastBlock rs f.length) (hmo : a.alignment < rs.alignedLength) (hsr : src.length = count)
    (heq : a.pwriteShifted last 0 .complete f ptr src rs count offset = ((count : Int), g)) :
    g.getD (offset + count) 0 = ptr (rs.beginRemainder + count) ∨
      g.getD (offset + count) 0 = f.getD (offset + count - last) 0 ∧ last ≤ offset + count := by
  obtain ⟨ptr1, ptr2, hp1, hp2, hg⟩ := pwriteShifted_complete heq
  have hbe := h.begin_add
  have hle := h.length
  have hen := h.ends
  have he : 0 < rs.endRemainder := hla.1.2
  have hbeh := hla.2
  have hbef := le_of_dvd (by omega) (dvd_sub hdvd (dvd_refl a.alignment))
  have hf : ptr1 (rs.beginRemainder + count) = ptr (rs.beginRemainder + count) := patchFirst_behind hp1 (by omega)
  have hby := hg (rs.beginRemainder + count) (by omega) (by omega)
  rw [zero_add, writeBytes_of_notMem _ (.inr (by rw [length_take]; omega)), ← add_assoc, hbe] at hby
  obtain ⟨hn, -⟩ | ⟨-, hp⟩ := patchLastAt_complete hp2
  · exact absurd hla hn
  rw [hby, hp]
  by_cases hin : last + (rs.alignedLength - a.alignment) ≤ rs.beginRemainder + count ∧
      rs.beginRemainder + count < last + (rs.alignedLength - a.alignment) +
        (read f (a.alignment - last) (rs.alignedEndOffset - a.alignment)).length
  · right
    rw [writeBytes_of_mem _ hin.1 hin.2 0, getD_read, if_pos (by omega)]
    refine ⟨?_, by omega⟩
    congr 1
    omega
  · left
    rw [writeBytes_of_notMem _ (by omega), hf]

end

end Misplaced

/-! ## The same as `pwrite` -/

lemma pwrite_complete (ho : offset + count + a.alignment ≤ 2 ^ 63) (hc : count ≠ 0)
    (hfit : a.WriteFits (a.split offset count)) (f : List Byte) (he mem : Mem) (buf : Nat) :
    a.pwrite .complete f he mem buf count offset =
      some ((count : Int), write 0 f (readBytes mem buf count) offset) := by
  have hen := (around_split ho hc).ends
  have hpo := a.alignment_pos
  by_cases hd : a.direct (a.split offset count) buf = true
  · unfold pwrite
    rw [if_neg hc]
    dsimp only
    rw [if_pos hd, show complete.write = .full from rfl, underPwrite_full, readBytes_length]
  · exact (pwrite_buffered a (by omega) hc (not_eq_true _ ▸ hd) he mem).2 ⟨hfit, by omega⟩

/-- `pwritev2_mutable` returns what `pwrite` of one buffer returns, and leaves the same file. The temporary buffers
have the same in them. -/
def SameWrite (a : AlignedFileAdaptor) (alloc : IOAlloc) (calls : WriteCalls) (f : List Byte) (mem : Mem) (iov : List Iovec)
    (buf offset : Nat) : Prop :=
  a.pwritev2Mutable alloc calls f mem iov offset =
    a.pwrite calls f (joined mem (alloc.pushBack (a.split offset (sum iov)).alignedLength) 0) (joined mem iov buf) buf
      (sum iov) offset

section Same

variable {iov wbuf : List Iovec} (hb : Buffered a alloc iov offset rs wbuf) (hfit : a.WriteFits rs)
include hb hfit

lemma sameWrite_of_first (hsu : sum wbuf = rs.alignedLength) (hmi : rs.beginRemainder < firstLen wbuf) {f : List Byte}
    (hst : calls.fstat = none) (hla : a.LastBlock rs f.length → rs.alignedLength - a.alignment < firstLen wbuf)
    (mem : Mem) (buf : Nat) : SameWrite a alloc calls f mem iov buf offset := by
  have ha := hb.pushed ▸ (alloc.pushBack_spec rs.alignedLength).2.2
  have hn : wbuf ≠ [] := by
    rintro rfl
    exact absurd hmi (not_lt_zero _)
  unfold SameWrite
  rw [pwritev_buffered hb hsu, pwrite_eq hb.inRange hb.asked (hb.split ▸ hfit), readBytes_joined, hb.split, hb.pushed,
    (skipped_eq_zero_iff ha hn _).2 hmi]
  unfold pwriteShifted
  rw [hst, getD_none]
  by_cases hbl : a.LastBlock rs f.length
  · rw [(skipped_eq_zero_iff ha hn _).2 (hla hbl)]
  -- the last block is not read at all
  have hsk : ∀ shift, a.patchLastAt shift calls f f.length rs = some := by
    intro shift
    funext ptr
    unfold patchLastAt
    dsimp only
    split
    next h1 => rw [if_neg fun h2 => hbl ⟨h1, h2⟩]
    next => rfl
  dsimp only
  rw [hsk, hsk]

/-- With complete calls and every content, `slice` has to be right for the data and for the last block. -/
lemma first_of_sameWrite {n buf : Nat}
    (hsa : ∀ f mem, f.length = n → SameWrite a alloc .complete f mem iov buf offset) : sum wbuf = rs.alignedLength ∧
    rs.beginRemainder < firstLen wbuf ∧ (a.LastBlock rs n → rs.alignedLength - a.alignment < firstLen wbuf) := by
  have h := hb.around
  have ho := hb.inRange
  have hc := hb.asked
  have hdvd := hb.split ▸ a.alignment_dvd offset (sum iov)
  have hpo := a.alignment_pos
  obtain ⟨hle, -, ha⟩ := hb.pushed ▸ alloc.pushBack_spec rs.alignedLength
  -- what `pwrite` does, with which `pwritev2_mutable` agrees
  have hpl : ∀ f mem, f.length = n → a.pwritev2Mutable alloc .complete f mem iov offset =
      some ((sum iov : Int), write 0 f ((bytes iov).map mem) offset) := by
    intro f mem hf
    rw [hsa f mem hf, pwrite_complete ho hc (hb.split ▸ hfit), readBytes_joined]
  have hsu : sum wbuf = rs.alignedLength := by
    by_contra hn
    have hv := hpl (replicate n 0) (fun _ => 0) (by simp)
    unfold pwritev2Mutable at hv
    dsimp only at hv
    rw [if_neg hc, hb.split, hb.indirect, if_neg Bool.false_ne_true, if_neg (by omega), hb.pushed, if_pos (by omega)] at hv
    have := congrArg fst (some.inj hv)
    dsimp only at this
    omega
  have hsh : ∀ f mem, f.length = n →
      a.pwriteShifted (skipped wbuf (rs.alignedLength - a.alignment)) (skipped wbuf rs.beginRemainder) .complete f
        (joined mem wbuf 0) ((bytes iov).map mem) rs (sum iov) offset =
      ((sum iov : Int), write 0 f ((bytes iov).map mem) offset) := by
    intro f mem hf
    have hv := hpl f mem hf
    rw [pwritev_buffered hb hsu] at hv
    exact some.inj hv
  have hbl := h.block_le
  obtain ⟨hn, hfi⟩ := firstLen_pos ha (by omega)
  have hmi : rs.beginRemainder < firstLen wbuf := by
    by_contra hg
    have hsk : skipped wbuf rs.beginRemainder ≠ 0 := mt (skipped_eq_zero_iff ha hn _).1 hg
    -- a one goes over a zero
    have hv := shifted_data h hdvd (pos_of_ne_zero hc) (by omega) hsk (hsh (replicate n 0) (fun _ => 1) (by simp))
    rw [ByteFile.getD_replicate, ByteFile.getD_write, length_map, bytes_length, if_pos (by omega), Nat.sub_self,
      getD_eq_getElem _ _ (by rw [length_map, bytes_length]; omega), getElem_map] at hv
    exact absurd hv (by decide)
  refine ⟨hsu, hmi, ?_⟩
  intro hla
  by_contra hg
  have hsk : skipped wbuf (rs.alignedLength - a.alignment) ≠ 0 := mt (skipped_eq_zero_iff ha hn _).1 hg
  have hen := h.ends
  have he : 0 < rs.endRemainder := hla.1.2
  have hbe := hla.2
  -- a single one behind the range
  obtain ⟨f, hf, hon⟩ := exists_mark (show offset + sum iov < n by omega)
  have heq := hsh f (fun _ => 0) hf
  rw [(skipped_eq_zero_iff ha hn _).2 hmi] at heq
  have hv := shifted_last h hdvd (hf ▸ hla) (by omega) (by simp) heq
  rw [getD_write, length_map, bytes_length, if_neg (by omega), hon, if_pos rfl, hon] at hv
  rcases hv with hv | ⟨hv, -⟩
  · exact absurd (show (1 : Byte) = 0 from hv) (by decide)
  · rw [if_neg (by omega)] at hv
    exact absurd hv (by decide)

end Same

end Writing

/-- The vectored calls, for every segmentation. `preadv2_mutable` does what `pread` does exactly when nothing is asked
for, the call goes to the file as it is, or there is a temporary buffer and the call below does not fail.
`pwritev2_mutable` does what `pwrite` does, whatever the calls below return, exactly when nothing is to be written,
the call goes to the file as it is, or there is a temporary buffer whose first piece reaches to the start of the
range, and to the last block if that has to be read. -/
theorem iov_same_iff (a : AlignedFileAdaptor) (alloc : IOAlloc) (iov : List Iovec) (buf offset : Nat)
    (ho : offset + sum iov + a.alignment ≤ 2 ^ 63) (hfit : a.WriteFits (a.split offset (sum iov)))
    (hfresh : Fresh (alloc.pushBack (a.split offset (sum iov)).alignedLength) iov) :
    (∀ r f mem, SameRead a alloc r f mem iov buf offset ↔
      sum iov = 0 ∨ a.directv (a.split offset (sum iov)) iov = true ∨
        if sum (alloc.pushBack (a.split offset (sum iov)).alignedLength) = (a.split offset (sum iov)).alignedLength then
          r ≠ .error
        else readBlocks r f (a.split offset (sum iov)) (sum iov) = none) ∧
    ∀ n : Nat, (∀ calls f mem, calls.fstat = none → calls.ftruncate = true → f.length = n →
        SameWrite a alloc calls f mem iov buf offset ∧
          (sum iov ≠ 0 → a.WriteFails calls (a.split offset (sum iov)) iov f.length →
            ∃ g, a.pwritev2Mutable alloc calls f mem iov offset = some (-1, g))) ↔
      sum iov = 0 ∨ a.directv (a.split offset (sum iov)) iov = true ∨
        (sum (alloc.pushBack (a.split offset (sum iov)).alignedLength) = (a.split offset (sum iov)).alignedLength ∧
          (a.split offset (sum iov)).beginRemainder <
            firstLen (alloc.pushBack (a.split offset (sum iov)).alignedLength) ∧
          (a.LastBlock (a.split offset (sum iov)) n → (a.split offset (sum iov)).alignedLength - a.alignment <
            firstLen (alloc.pushBack (a.split offset (sum iov)).alignedLength))) := by
  refine ⟨fun r f mem => sameRead_iff ho hfit hfresh r f mem buf, ?_⟩
  intro n
  by_cases hc : sum iov = 0
  · refine iff_of_true ?_ (.inl hc)
    intro calls f mem _ _ _
    refine ⟨?_, fun h => absurd hc h⟩
    rw [SameWrite, pwritev2Mutable, if_pos hc, pwrite, if_pos hc]
  have h := around_split ho hc
  have hpl := pwrite_eq ho hc hfit
  generalize hr : a.split offset (sum iov) = rs at h hpl hfit hfresh ⊢
  generalize hw : alloc.pushBack rs.alignedLength = wbuf at hfresh ⊢
  have he : ∀ calls f mem, calls.fstat = none → sum iov ≠ 0 → a.WriteFails calls rs iov f.length →
      ∃ g, a.pwritev2Mutable alloc calls f mem iov offset = some (-1, g) :=
    fun calls f mem hst _ hfa => pwritev_error ho hc hr hw hfresh hst hfa mem
  by_cases hd : a.directv rs iov = true
  · refine iff_of_true ?_ (.inr (.inl hd))
    intro calls f mem hst _ _
    refine ⟨?_, he calls f mem hst⟩
    have hpo := a.alignment_pos
    rw [SameWrite, hpl, readBytes_joined,
      pwriteShifted_aligned h (and_eq_true_iff.1 hd).1 (by omega) _ _ _ (by simp), pwritev2Mutable]
    dsimp only
    rw [if_neg hc, hr, if_pos hd]
  rw [or_iff_right hc, or_iff_right hd]
  have hb : Buffered a alloc iov offset rs wbuf := ⟨hr, hw, ho, hc, not_eq_true _ ▸ hd, hfresh⟩
  constructor
  · intro hsa
    exact first_of_sameWrite hb hfit fun f mem hf => (hsa .complete f mem rfl rfl hf).1
  · rintro ⟨hsu, hmi, hla⟩ calls f mem hst _ rfl
    exact ⟨sameWrite_of_first hb hfit hsu hmi hst hla mem buf, he calls f mem hst⟩

/-- Seven bytes from 3 on, in two segments, with a temporary buffer of 12 and 4 bytes. -/
theorem iov_same_two :
    SameRead (new 3 (by decide) false) (.chunked 1000 12) (.short 11) (replicate 20 5) (fun _ => 0)
      [⟨100, 3⟩, ⟨200, 4⟩] 300 3 ∧
    ∀ calls f mem, calls.fstat = none → calls.ftruncate = true → f.length = 20 →
      SameWrite (new 3 (by decide) false) (.chunked 1000 12) calls f mem [⟨100, 3⟩, ⟨200, 4⟩] 300 3 := by
  have h := iov_same_iff (new 3 (by decide) false) (.chunked 1000 12) [⟨100, 3⟩, ⟨200, 4⟩] 300 3 (by decide +kernel)
    ((writeFits_new (by decide) false _).2 ⟨by decide +kernel, fun hf => absurd hf (by decide)⟩)
    ⟨by decide +kernel, by decide +kernel⟩
  constructor
  · exact (h.1 (.short 11) (replicate 20 5) (fun _ => 0)).2 (.inr (.inr (by decide +kernel)))
  · intro calls f mem hst ht hf
    exact ((h.2 20).2 (.inr (.inr ⟨by decide +kernel, by decide +kernel, fun _ => by decide +kernel⟩)) calls f mem hst
      ht hf).1

/-- An error of the read below is returned as 4 bytes read. With a temporary buffer in pieces of two bytes a write is
returned as done, and nothing is written. An error of `fstat` is not returned either. -/
theorem preadv_error_lost :
    (((new 3 (by decide) false).preadv2Mutable (.chunked 1000 64) .error (replicate 20 5) (fun _ => 0) [⟨100, 4⟩] 1).map
        fst = some 4 ∧
      ((new 3 (by decide) false).pread .error (replicate 20 5) (fun _ => 0) 100 4 1).map fst = some (-1)) ∧
    ((new 3 (by decide) false).pwritev2Mutable (.chunked 1000 2) .complete (replicate 8 0) (fun _ => 7) [⟨100, 2⟩] 3 =
        some (2, [0, 0, 0, 0, 0, 0, 0, 0]) ∧
      (new 3 (by decide) false).pwrite .complete (replicate 8 0) (fun _ => 7) (fun _ => 7) 100 2 3 =
        some (2, [0, 0, 0, 7, 7, 0, 0, 0])) ∧
    ((new 3 (by decide) false).pwritev2Mutable (.chunked 1000 64) ⟨some 0, .full, .full, .full, true⟩ (replicate 8 0)
      (fun _ => 7) [⟨100, 2⟩] 3).map fst = some 2 := by
  decide +kernel

end AlignedFileAdaptor

end Photon.Fs