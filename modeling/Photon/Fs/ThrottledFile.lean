import Photon.Fs.Underlay
/-!
# `ThrottledFile`, the vectored calls (`fs/throttled-file.cpp`)

A vectored call is made block by block. `split_iovector_view` shows one block of the
segments at a time: it cuts the last segment of the block in place, in the array of the
segments, and `next` puts it back and goes on. The throttles only delay the calls and are
left out. Reading an element behind the array gives any value `past`; writing outside of it
is undefined behaviour and makes the result `none`. No sum of sizes overflows.
-/

namespace Photon.Fs

open List ByteFile Option

open Photon.Iovector (Iovec bytes sum bytes_length bytes_cons bytes_append bytes_nil sum_nil sum_cons sum_append)

/-! ## The view -/

/-- The loop of `iovector_view::shrink_less_than`: the new `iovcnt`, and the return value. -/
def shrinkLoop : List Iovec → Nat → Nat × Nat
  | [], _ => (0, 0)
  | p :: ps, size =>
    if size ≤ p.iovLen then (1, p.iovLen - size)
    else ((shrinkLoop ps (size - p.iovLen)).1 + 1, (shrinkLoop ps (size - p.iovLen)).2)

def shrinkLessThan (view : List Iovec) (size : Nat) : Nat × Nat :=
  if size = 0 then (0, (view.map Iovec.iovLen).headD 0) else shrinkLoop view size

/-- `split_iovector_view`. The pointers into the array `arr` are indices. -/
structure SplitIovectorView where
  arr : List Iovec
  iov : Nat
  iovcnt : Nat
  f0 : Iovec
  b0 : Iovec
  remaining : Nat
  blockSize : Nat

open SplitIovectorView

namespace SplitIovectorView

def segments (v : SplitIovectorView) : List Iovec := (v.arr.drop v.iov).take v.iovcnt

variable (past : Iovec)

/-- `do_shrink`. `back()` of a view without segments at the start of the array is outside of it. -/
def doShrink (v : SplitIovectorView) : Option SplitIovectorView :=
  let r := shrinkLessThan v.segments v.blockSize
  if v.iov + r.1 = 0 then none
  else
    let back := v.iov + r.1 - 1
    let b0 := v.arr.getD back past
    some { v with
      iovcnt := r.1
      remaining := r.2
      b0 := b0
      arr := v.arr.set back { b0 with iovLen := b0.iovLen - r.2 } }

def init (v : SplitIovectorView) : Option SplitIovectorView := doShrink past { v with f0 := v.arr.getD v.iov past }

def new (iov : List Iovec) (blockSize : Nat) : Option SplitIovectorView := init past
    { arr := iov, iov := 0, iovcnt := iov.length, f0 := past, b0 := past, remaining := 0, blockSize := blockSize }

def next (v : SplitIovectorView) : Option SplitIovectorView :=
  let arr := if 1 < v.iovcnt then v.arr.set v.iov v.f0 else v.arr
  let back := v.iov + v.iovcnt - 1
  if v.remaining = 0 then
    init past { v with
      arr := arr.set back v.b0
      iov := v.iov + v.iovcnt
      iovcnt := arr.length - (v.iov + v.iovcnt) }
  else
    let base := (arr.getD back past).iovBase + (arr.getD back past).iovLen
    if v.remaining < v.blockSize then
      doShrink past { v with
        arr := arr.set back ⟨base, v.remaining⟩
        iov := back
        iovcnt := arr.length - back
        f0 := v.b0 }
    else
      some { v with
        arr := arr.set back ⟨base, v.blockSize⟩
        iov := back
        iovcnt := 1
        remaining := v.remaining - v.blockSize }

end SplitIovectorView

/-! ## The calls -/

section SplitIo

variable {σ : Type} (func : σ → Int × σ) (adv : σ → Nat → Option σ) (blockSize : Nat)

def splitIoLoop : Nat → Nat → Int → σ → Option (Int × σ)
  | 0, _, _, _ => none
  | fuel + 1, count, cnt, s =>
    if count = 0 then some (cnt, s)
    else
      let len := min count blockSize
      let r := func s
      if r.1 < len then some (if 0 ≤ r.1 then r.1 + cnt else -1, r.2)
      else (adv r.2 r.1.toNat).bind fun s => splitIoLoop fuel (count - r.1.toNat) (cnt + r.1) s

def splitIo (count : Nat) (s : σ) : Option (Int × σ) :=
  if blockSize = 0 ∨ count ≤ blockSize then some (func s)
  else splitIoLoop func adv blockSize (count + 1) count 0 s

end SplitIo

inductive Direction
  | read
  | write
  deriving DecidableEq

structure Io where
  mem : Mem
  file : List Byte
  position : Nat

/-- Where a call begins: at its offset, or at the position of the file. -/
def Io.start (io : Io) (offset : Option Nat) : Nat := offset.getD io.position

/-- The position after a call for `n` bytes; one with an offset does not move it. -/
def Io.moved (io : Io) (offset : Option Nat) (n : Nat) : Nat := if offset.isNone then io.position + n else io.position

def Io.vectored (io : Io) (d : Direction) (addrs : List Nat) (offset : Option Nat) : Int × Io :=
  match d with
  | .read =>
    let bs := ByteFile.read io.file addrs.length (io.start offset)
    (bs.length, ⟨scatter io.mem addrs bs, io.file, io.moved offset bs.length⟩)
  | .write =>
    (addrs.length, ⟨io.mem, ByteFile.write 0 io.file (addrs.map io.mem) (io.start offset), io.moved offset addrs.length⟩)

structure Transfer where
  io : Io
  offset : Option Nat
  view : SplitIovectorView

open Transfer

def Transfer.func (d : Direction) (t : Transfer) : Int × Transfer :=
  let r := t.io.vectored d (bytes t.view.segments) t.offset
  (r.1, { t with io := r.2 })

def Transfer.adv (past : Iovec) (t : Transfer) (len : Nat) : Option Transfer :=
  (t.view.next past).map fun v => { t with offset := t.offset.map (· + len), view := v }

def throttledVectored (past : Iovec) (d : Direction) (blockSize : Nat) (io : Io) (iov : List Iovec)
    (offset : Option Nat) : Option (Int × Io) :=
  (new past iov blockSize).bind fun v =>
    (splitIo (func d) (adv past) blockSize (sum iov) ⟨io, offset, v⟩).map fun r => (r.1, r.2.io)

structure ThrottledFile where
  rBlockSize : Nat
  wBlockSize : Nat

namespace ThrottledFile

variable (t : ThrottledFile) (past : Iovec) (io : Io) (iov : List Iovec)

/-- `preadv2`, `preadv` and their `_mutable` variants, which work on the caller's array instead of a copy. -/
def preadv2 (offset : Nat) : Option (Int × Io) := throttledVectored past .read t.rBlockSize io iov (some offset)

def readv : Option (Int × Io) := throttledVectored past .read t.rBlockSize io iov none

def pwritev2 (offset : Nat) : Option (Int × Io) := throttledVectored past .write t.wBlockSize io iov (some offset)

def writev : Option (Int × Io) := throttledVectored past .write t.wBlockSize io iov none

end ThrottledFile

/-! ## What a view shows -/

/-- Of the bytes `R` that are left, the view shows the first block: whole segments and one more, `back`, of which
`remaining` bytes come behind it. Or nothing is left. -/
def SplitIovectorView.Shows (v : SplitIovectorView) (R : List Nat) : Prop := (R = [] ∧ v.iovcnt = 0) ∨
    ∃ pre back post, v.arr.drop v.iov = pre ++ back :: post ∧ v.iovcnt = pre.length + 1 ∧
      R = bytes pre ++ (back.bytes ++ (addresses (back.iovBase + back.iovLen) v.remaining ++ bytes post)) ∧
      sum pre + back.iovLen = min v.blockSize R.length

section View

variable {v : SplitIovectorView} {R : List Nat} (past : Iovec)

lemma SplitIovectorView.Shows.segments (h : v.Shows R) : bytes v.segments = R.take v.blockSize := by
  unfold SplitIovectorView.segments
  obtain ⟨rfl, hcnt⟩ | ⟨pre, back, post, hd, hcnt, hR, hle⟩ := h
  · rw [hcnt, take_zero, take_nil]
    rfl
  have hsp : pre ++ back :: post = (pre ++ [back]) ++ post := by
    rw [append_assoc]
    rfl
  have hsh : (bytes pre ++ back.bytes).length = min v.blockSize R.length := by
    rw [length_append, bytes_length, Iovec.bytes_length, hle]
  rw [hd, hcnt, hsp, take_left' (by rw [length_append]; rfl), bytes_append, bytes_cons, bytes_nil,
    append_nil, take_eq_take_min, ← hsh, hR, ← append_assoc, take_left]

/-- Where the loop of `shrink_less_than` ends: in the segment that has the last byte of the block, or behind all. -/
lemma shrinkLoop_spec (view : List Iovec) {size : Nat} (hs : 0 < size) :
    (∃ pre p post, view = pre ++ p :: post ∧ (shrinkLoop view size).1 = pre.length + 1 ∧
      (shrinkLoop view size).2 ≤ p.iovLen ∧ sum pre + (p.iovLen - (shrinkLoop view size).2) = size) ∨
    (shrinkLoop view size = (view.length, 0) ∧ sum view < size) := by
  induction view generalizing size with
  | nil => exact .inr ⟨rfl, hs⟩
  | cons p ps ih =>
    unfold shrinkLoop
    by_cases hp : size ≤ p.iovLen
    · rw [if_pos hp]
      refine .inl ⟨[], p, ps, rfl, rfl, Nat.sub_le .., ?_⟩
      rw [sum_nil]
      dsimp only
      omega
    · rw [if_neg hp]
      obtain ⟨pre, q, post, rfl, hcnt, hle, hsu⟩ | ⟨ha, hsu⟩ := ih (show 0 < size - p.iovLen by omega)
      · refine .inl ⟨p :: pre, q, post, rfl, ?_, hle, ?_⟩
        · rw [hcnt]
          rfl
        · rw [sum_cons]
          dsimp only
          omega
      · refine .inr ⟨by rw [ha]; rfl, ?_⟩
        rw [sum_cons]
        omega

section
variable {α : Type} {arr pre post : List α} {i : Nat} {p : α} (h : arr.drop i = pre ++ p :: post)
include h

lemma getD_drop_middle (d : α) : arr.getD (i + pre.length) d = p := by
  have hg := congrArg (fun l => l.getD pre.length d) h
  simpa [getD_eq_getElem?_getD, getElem?_drop] using hg

lemma drop_set_middle (x : α) : (arr.set (i + pre.length) x).drop i = pre ++ x :: post := by
  rw [drop_set, if_neg (by omega), Nat.add_sub_cancel_left, h, set_append_right _ _ le_rfl, Nat.sub_self]
  rfl

end

variable {pre post : List Iovec} {rem : Nat}

lemma cut_shows {p f b : Iovec} (hv : v.arr.drop v.iov = pre ++ p :: post)
    (hle : rem ≤ p.iovLen) (hsu : sum pre + (p.iovLen - rem) = min v.blockSize (sum (v.arr.drop v.iov))) :
    SplitIovectorView.Shows { v with
      iovcnt := pre.length + 1
      remaining := rem
      f0 := f
      b0 := b
      arr := v.arr.set (v.iov + pre.length) { p with iovLen := p.iovLen - rem } } (bytes (v.arr.drop v.iov)) := by
  refine .inr ⟨pre, { p with iovLen := p.iovLen - rem }, post, drop_set_middle hv _, rfl, ?_, ?_⟩
  · have hby : p.bytes = addresses p.iovBase (p.iovLen - rem) ++ addresses (p.iovBase + (p.iovLen - rem)) rem := by
      rw [addresses_append, Nat.sub_add_cancel hle]
      rfl
    rw [hv, bytes_append, bytes_cons, hby, append_assoc]
    rfl
  · rw [bytes_length]
    exact hsu

lemma segments_all (hcnt : v.iovcnt = v.arr.length - v.iov) : v.segments = v.arr.drop v.iov := by
  unfold SplitIovectorView.segments
  rw [hcnt]
  exact take_of_length_le (by rw [length_drop])

section
variable (hb : 0 < v.blockSize) (hcnt : v.iovcnt = v.arr.length - v.iov)
include hb hcnt

lemma doShrink_cut {p : Iovec} (hv : v.arr.drop v.iov = pre ++ p :: post)
    (hlo : shrinkLoop (v.arr.drop v.iov) v.blockSize = (pre.length + 1, rem)) (hle : rem ≤ p.iovLen)
    (hsu : sum pre + (p.iovLen - rem) = min v.blockSize (sum (v.arr.drop v.iov))) :
    ∃ v', v.doShrink past = some v' ∧ v'.blockSize = v.blockSize ∧ v'.Shows (bytes (v.arr.drop v.iov)) := by
  unfold doShrink
  dsimp only
  rw [segments_all hcnt, shrinkLessThan, if_neg (ne_of_gt hb), hlo]
  dsimp only
  rw [if_neg (by omega), show v.iov + (pre.length + 1) - 1 = v.iov + pre.length by omega, getD_drop_middle hv]
  exact ⟨_, rfl, rfl, cut_shows hv hle hsu⟩

lemma doShrink_shows (hba : v.arr.drop v.iov ≠ [] ∨ 0 < v.iov) :
    ∃ v', v.doShrink past = some v' ∧ v'.blockSize = v.blockSize ∧ v'.Shows (bytes (v.arr.drop v.iov)) := by
  obtain ⟨pre, p, post, hv, ho, hle, hsu⟩ | ⟨ha, hsu⟩ := shrinkLoop_spec (v.arr.drop v.iov) hb
  · refine doShrink_cut past hb hcnt hv (Prod.ext ho rfl) hle ?_
    have ht := congrArg sum hv
    rw [sum_append, sum_cons] at ht
    rw [min_eq_left (by omega)]
    exact hsu
  · obtain hn | ⟨pre, p, hv⟩ := eq_nil_or_concat (v.arr.drop v.iov)
    · -- nothing is left; `back()` is the element before
      unfold doShrink
      dsimp only
      rw [segments_all hcnt, shrinkLessThan, if_neg (ne_of_gt hb), ha, hn]
      dsimp only [length_nil]
      rw [if_neg (by have := hba.resolve_left (fun h => h hn); omega)]
      exact ⟨_, rfl, rfl, .inl ⟨rfl, rfl⟩⟩
    · rw [concat_eq_append] at hv
      refine doShrink_cut past hb hcnt hv ?_ (Nat.zero_le _) ?_
      · rw [ha, hv, length_append]
        rfl
      · have ht := congrArg sum hv
        rw [sum_append, sum_cons, sum_nil] at ht
        omega

end

lemma new_shows {iov : List Iovec} {blockSize : Nat} (hb : 0 < blockSize) (hi : iov ≠ []) :
    ∃ v, new past iov blockSize = some v ∧ v.blockSize = blockSize ∧ v.Shows (bytes iov) := by
  unfold new init
  exact doShrink_shows past hb rfl (.inl hi)

lemma next_shows (hb : 0 < v.blockSize) (hR : R ≠ []) (h : v.Shows R) :
    ∃ v', v.next past = some v' ∧ v'.blockSize = v.blockSize ∧ v'.Shows (R.drop v.blockSize) := by
  obtain ⟨hn, -⟩ | ⟨pre, back, post, hd, hcnt, hby, hle⟩ := h
  · exact absurd hn hR
  -- the shown bytes are `b` or all that is left
  have ht := congrArg length hby
  rw [length_append, length_append, length_append, bytes_length, bytes_length, Iovec.bytes_length,
    addresses_length] at ht
  have hr : R.drop v.blockSize = addresses (back.iovBase + back.iovLen) v.remaining ++ bytes post := by
    have hsho : (bytes pre ++ back.bytes).length = sum pre + back.iovLen := by
      rw [length_append, bytes_length, Iovec.bytes_length]
    by_cases hf : v.blockSize ≤ R.length
    · rw [hby, ← append_assoc, drop_left' (by omega)]
    have hno : addresses (back.iovBase + back.iovLen) v.remaining ++ bytes post = [] := by
      apply eq_nil_of_length_eq_zero
      rw [length_append, addresses_length, bytes_length]
      omega
    rw [hno, drop_eq_nil_of_le (by omega)]
  -- restoring the first segment leaves the last one
  have ha : (if 1 < v.iovcnt then v.arr.set v.iov v.f0 else v.arr).drop (v.iov + pre.length) = back :: post := by
    have ho : v.arr.drop (v.iov + pre.length) = back :: post := by
      rw [← drop_drop, hd, drop_left]
    split
    · rw [drop_set_of_lt (by omega)]
      exact ho
    · exact ho
  unfold SplitIovectorView.next
  dsimp only
  rw [hcnt] at ha ⊢
  rw [show v.iov + (pre.length + 1) - 1 = v.iov + pre.length by omega]
  generalize (if 1 < pre.length + 1 then v.arr.set v.iov v.f0 else v.arr) = arr at ha ⊢
  by_cases h0 : v.remaining = 0
  · -- the next block begins with the next segment
    have hpo : (arr.set (v.iov + pre.length) v.b0).drop (v.iov + (pre.length + 1)) = post := by
      rw [drop_set_of_lt (by omega), ← add_assoc, ← drop_drop, ha]
      rfl
    have hne : R.drop v.blockSize = bytes post := by
      rw [hr, h0]
      rfl
    rw [if_pos h0, hne, ← hpo]
    unfold init
    exact doShrink_shows past hb (by rw [length_set]) (.inr (show 0 < v.iov + (pre.length + 1) by omega))
  · have hg : arr.getD (v.iov + pre.length) past = back :=
      getD_drop_middle (show arr.drop (v.iov + pre.length) = [] ++ back :: post from ha) past
    have hse := fun x => drop_set_middle (show arr.drop (v.iov + pre.length) = [] ++ back :: post from ha) x
    simp only [length_nil, add_zero, nil_append] at hse
    rw [if_neg h0, hg]
    by_cases hsh : v.remaining < v.blockSize
    · -- with the rest of the cut segment
      have hne : R.drop v.blockSize =
          bytes ((arr.set (v.iov + pre.length) ⟨back.iovBase + back.iovLen, v.remaining⟩).drop (v.iov + pre.length)) := by
        rw [hse, hr, bytes_cons]
        rfl
      rw [if_pos hsh, hne]
      exact doShrink_shows past hb (by rw [length_set]) (.inl (by rw [hse]; exact cons_ne_nil _ _))
    · -- a whole block of the cut segment
      rw [if_neg hsh]
      refine ⟨_, rfl, rfl, .inr ⟨[], _, post, hse _, rfl, ?_, ?_⟩⟩
      · rw [hr, bytes_nil, nil_append, ← append_assoc]
        congr 1
        change _ = addresses (back.iovBase + back.iovLen) v.blockSize ++ addresses (back.iovBase + back.iovLen + v.blockSize) _
        rw [addresses_append, Nat.add_sub_cancel' (Nat.le_of_not_lt hsh)]
      · rw [hr, length_append, addresses_length, sum_nil]
        dsimp only
        omega

end View

/-! ## Block by block is the same -/

section Calls

variable {io : Io} {d : Direction} {offset : Option Nat} {past : Iovec}

lemma moved_zero (io : Io) (offset : Option Nat) : io.moved offset 0 = io.position := ite_self _

section
variable {io' io : Io} {m : Nat} (h : io'.position = io.moved offset m)
include h

lemma start_after : io'.start (offset.map (· + m)) = io.start offset + m := by
  unfold Io.start Io.moved at *
  cases offset with
  | none => exact h
  | some => rfl

lemma moved_after (n : Nat) : io'.moved (offset.map (· + m)) n = io.moved offset (m + n) := by
  unfold Io.moved at *
  cases offset with
  | none =>
    change io'.position = io.position + m at h
    change io'.position + n = io.position + (m + n)
    omega
  | some => exact h

end

lemma vectored_nil (io : Io) (d : Direction) (offset : Option Nat) : io.vectored d [] offset = (0, io) := by
  cases d with
  | read =>
    change (((read io.file 0 (io.start offset)).length : Int), (⟨io.mem, io.file, io.moved offset _⟩ : Io)) = _
    rw [show read io.file 0 (io.start offset) = [] from take_zero]
    change (0, (⟨io.mem, io.file, io.moved offset 0⟩ : Io)) = _
    rw [moved_zero]
  | write =>
    change (0, (⟨io.mem, io.file, io.moved offset 0⟩ : Io)) = _
    rw [moved_zero]

lemma vectored_le (io : Io) (d : Direction) (as : List Nat) (offset : Option Nat) :
    0 ≤ (io.vectored d as offset).1 ∧ (io.vectored d as offset).1 ≤ as.length := by
  unfold Io.vectored
  cases d with dsimp only
  | read =>
    rw [read_length]
    omega
  | write =>
    omega

variable {as : List Nat}

lemma vectored_append (h : (io.vectored d as offset).1 = as.length) (bs : List Nat) :
    io.vectored d (as ++ bs) offset =
      ((as.length : Int) + ((io.vectored d as offset).2.vectored d bs (offset.map (· + as.length))).1,
        ((io.vectored d as offset).2.vectored d bs (offset.map (· + as.length))).2) := by
  cases d with
  | read =>
    have hle : (read io.file as.length (io.start offset)).length = as.length := Int.ofNat.inj h
    unfold Io.vectored
    dsimp only
    rw [hle, start_after rfl, moved_after rfl, length_append, read_add, scatter_append _ hle.symm,
      length_append, hle, Int.natCast_add]
  | write =>
    unfold Io.vectored
    dsimp only
    rw [start_after rfl, moved_after rfl, length_append, map_append, ← write_write, length_map, Int.natCast_add]

lemma vectored_short (h : (io.vectored d as offset).1 < as.length) (bs : List Nat) :
    io.vectored d (as ++ bs) offset = io.vectored d as offset := by
  cases d with
  | read =>
    unfold Io.vectored at h ⊢
    dsimp only at h ⊢
    have hlen := read_length io.file as.length (io.start offset)
    have he : read io.file (as ++ bs).length (io.start offset) = read io.file as.length (io.start offset) := by
      rw [read_eq_read_iff, length_append]
      omega
    rw [he, scatter_short _ (by omega)]
  | write =>
    unfold Io.vectored at h
    dsimp only at h
    omega

lemma splitIoLoop_same {b fuel : Nat} {cnt : Int} {t : Transfer} {R : List Nat} (hb : 0 < b) (hv : t.view.blockSize = b)
    (h : t.view.Shows R) (hfue : R.length < fuel) :
    ∃ t', splitIoLoop (func d) (adv past) b fuel R.length cnt t =
        some (cnt + (t.io.vectored d R t.offset).1, t') ∧ t'.io = (t.io.vectored d R t.offset).2 := by
  induction fuel generalizing cnt t R with
  | zero => omega
  | succ fuel ih =>
    unfold splitIoLoop
    by_cases hR : R = []
    · subst hR
      rw [vectored_nil]
      refine ⟨t, ?_, rfl⟩
      rw [length_nil, if_pos rfl, Int.add_zero]
    have hpo := length_pos_iff.2 hR
    rw [if_neg (by omega)]
    -- the block that is shown, and what comes behind it
    have hsp := take_append_drop b R
    have hlen : (R.take b).length = min R.length b := by rw [length_take, min_comm]
    obtain ⟨hn, hle⟩ := vectored_le t.io d (R.take b) t.offset
    generalize hbl : t.io.vectored d (R.take b) t.offset = r at hn hle
    have hf : func d t = (r.1, { t with io := r.2 }) := by
      unfold func
      rw [h.segments, hv, hbl]
    dsimp only
    rw [hf]
    dsimp only
    by_cases hsh : r.1 < (min R.length b : Nat)
    · rw [if_pos hsh, if_pos hn]
      rw [← hlen, ← hbl] at hsh
      have hsa := vectored_short hsh (R.drop b)
      rw [hsp, hbl] at hsa
      rw [hsa, Int.add_comm]
      exact ⟨_, rfl, rfl⟩
    · rw [if_neg hsh]
      have hfu : r.1 = (R.take b).length := by omega
      have hsa := vectored_append (hbl ▸ hfu) (R.drop b)
      rw [hsp, hbl] at hsa
      obtain ⟨v', hne, hv', hsho⟩ := next_shows past (by omega) hR h
      rw [hv] at hv' hsho
      have ha : adv past { t with io := r.2 } (R.take b).length =
          some ⟨r.2, t.offset.map (· + (R.take b).length), v'⟩ := by
        unfold adv
        rw [hne]
        rfl
      obtain ⟨t', hlo, hi⟩ := @ih (cnt + (R.take b).length) ⟨r.2, t.offset.map (· + (R.take b).length), v'⟩
        (R.drop b) hv' hsho (by rw [length_drop]; omega)
      refine ⟨t', ?_, ?_⟩
      · rw [hfu, Int.toNat_natCast, ha, bind_some, show R.length - (R.take b).length = (R.drop b).length by
          rw [length_drop]; omega, hlo, hsa, Int.add_assoc]
      · rw [hi, hsa]

/-- Without a block size or without a segment, the constructor writes before the array. -/
lemma new_eq_none (past : Iovec) {blockSize : Nat} {iov : List Iovec} (h : blockSize = 0 ∨ iov = []) :
    new past iov blockSize = none := by
  have hcnt : (shrinkLessThan iov blockSize).1 = 0 := by
    unfold shrinkLessThan
    by_cases hb : blockSize = 0
    · rw [if_pos hb]
    · rw [if_neg hb, h.resolve_left hb]
      rfl
  unfold new init doShrink SplitIovectorView.segments
  dsimp only
  rw [drop_zero, take_length, hcnt]
  rfl

/-- Block by block is the same as one call exactly when the block size is not 0 and there is a segment. -/
lemma throttledVectored_iff (past : Iovec) (d : Direction) (blockSize : Nat) (io : Io) (iov : List Iovec)
    (offset : Option Nat) : throttledVectored past d blockSize io iov offset = some (io.vectored d (bytes iov) offset) ↔
    0 < blockSize ∧ iov ≠ [] := by
  unfold throttledVectored
  constructor
  · intro h
    by_contra hn
    rw [new_eq_none past (by by_contra hno; exact hn ⟨by omega, fun hni => hno (.inr hni)⟩)] at h
    cases h
  · rintro ⟨hb, hi⟩
    obtain ⟨v, hne, hv, hsh⟩ := new_shows past hb hi
    rw [hne, bind_some]
    unfold splitIo
    by_cases ho : blockSize = 0 ∨ sum iov ≤ blockSize
    · have ha : bytes v.segments = bytes iov := by
        rw [hsh.segments, hv]
        exact take_of_length_le (by rw [bytes_length]; omega)
      rw [if_pos ho]
      unfold func
      dsimp only
      rw [ha]
      rfl
    · obtain ⟨t', hlo, hio⟩ := @splitIoLoop_same d past blockSize (sum iov + 1) 0 ⟨io, offset, v⟩ (bytes iov) hb hv hsh
        (by rw [bytes_length]; omega)
      rw [bytes_length] at hlo
      rw [if_neg ho, hlo, map_some, hio, Int.zero_add]

end Calls

/-- The vectored calls transfer the same bytes and return the same count as one call of the file below exactly when
the block size of their direction is not 0 and there is a segment. -/
theorem vectored_same_iff (t : ThrottledFile) (past : Iovec) (io : Io) (iov : List Iovec) (offset : Nat) :
    (t.preadv2 past io iov offset = some (io.vectored .read (bytes iov) (some offset)) ↔ 0 < t.rBlockSize ∧ iov ≠ []) ∧
    (t.readv past io iov = some (io.vectored .read (bytes iov) none) ↔ 0 < t.rBlockSize ∧ iov ≠ []) ∧
    (t.pwritev2 past io iov offset = some (io.vectored .write (bytes iov) (some offset)) ↔ 0 < t.wBlockSize ∧ iov ≠ []) ∧
    (t.writev past io iov = some (io.vectored .write (bytes iov) none) ↔ 0 < t.wBlockSize ∧ iov ≠ []) := by
  refine ⟨?_, ?_, ?_, ?_⟩
  · exact throttledVectored_iff past .read t.rBlockSize io iov (some offset)
  · exact throttledVectored_iff past .read t.rBlockSize io iov none
  · exact throttledVectored_iff past .write t.wBlockSize io iov (some offset)
  · exact throttledVectored_iff past .write t.wBlockSize io iov none

/-- Without a block size, which is the default, the view has no segment and its `back()` is before the array. -/
theorem vectored_no_block : shrinkLessThan [⟨100, 4⟩] 0 = (0, 4) ∧
    ((⟨0, 0⟩ : ThrottledFile).preadv2 ⟨0, 0⟩ ⟨fun _ => 0, [1, 2, 3, 4], 0⟩ [⟨100, 4⟩] 0).isNone ∧
    (Io.vectored ⟨fun _ => 0, [1, 2, 3, 4], 0⟩ .read (bytes [⟨100, 4⟩]) (some 0)).1 = 4 := by
  decide +kernel

end Photon.Fs
