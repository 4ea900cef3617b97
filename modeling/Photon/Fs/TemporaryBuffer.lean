import Photon.Common.CopyIov
import Photon.Common.IovectorPush
import Photon.Fs.Underlay
import Photon.Lib.Pieces
/-!
# A temporary buffer in pieces

An `IOVector` gets its memory from an allocator that may hand out less than it is asked
for, so the buffer can lie in up to 28 pieces. What the pieces hold is compared with a
buffer in one piece by `Mirrors`.
-/

namespace Photon.Fs

open List Nat

open Photon.Iovector (IOAlloc Iovec bytes sum slice landed firstLen extractFront extractBack memcpyIov bytes_length bytes_cons
  bytes_append bytes_nil sum_nil sum_cons sum_append)

/-! ## The temporary buffer -/

/-- `memcpy_iov`, with as many turns as it needs; what lies behind the arrays is not used. -/
def memcpyView (mem : Mem) (d s : List Iovec) (size : Nat) : Option (Nat × Mem) :=
  memcpyIov (size + d.length + s.length + 1) ⟨0, 0⟩ ⟨0, 0⟩ mem d s size

def sliceTmp (wbuf : List Iovec) (count : Nat) (offset : Int) : List Iovec :=
  ((slice wbuf count offset 32).map Prod.snd).getD []

def zeroView (mem : Mem) (view : List Iovec) : Mem :=
  view.foldl (fun mem p => writeBytes mem p.iovBase (replicate p.iovLen 0)) mem

/-! ## Parts of the pieces -/

/-- The bytes in the pieces that `slice` passes before it comes to one longer than the offset. -/
def skipped (wbuf : List Iovec) (offset : Nat) : Nat := sum (wbuf.takeWhile fun p => p.iovLen ≤ offset)

variable {wbuf : List Iovec}

lemma skipped_eq_zero_iff (hpo : ∀ v ∈ wbuf, 0 < v.iovLen) (hn : wbuf ≠ []) (off : Nat) :
    skipped wbuf off = 0 ↔ off < firstLen wbuf := by
  obtain ⟨p, ps, rfl⟩ := exists_cons_of_ne_nil hn
  have hp := hpo p mem_cons_self
  rw [skipped, firstLen, if_neg (ne_of_gt hp)]
  by_cases hle : p.iovLen ≤ off
  · rw [takeWhile_cons_of_pos (by simpa using hle), sum_cons]
    omega
  · rw [takeWhile_cons_of_neg (by simpa using hle), sum_nil]
    omega

lemma firstLen_pos (hpo : ∀ v ∈ wbuf, 0 < v.iovLen) (hsu : 0 < sum wbuf) : wbuf ≠ [] ∧ 0 < firstLen wbuf := by
  cases wbuf with
  | nil => exact absurd hsu (lt_irrefl 0)
  | cons p ps =>
    have hp := hpo p mem_cons_self
    exact ⟨cons_ne_nil p ps, by rwa [firstLen, if_neg (ne_of_gt hp)]⟩

lemma bytes_landed_eq (wbuf : List Iovec) (off : Nat) :
    bytes (landed wbuf off) = (bytes wbuf).drop (skipped wbuf off) := by
  have hsp : bytes wbuf = bytes (wbuf.takeWhile fun p => p.iovLen ≤ off) ++ bytes (landed wbuf off) := by
    rw [← bytes_append, landed, takeWhile_append_dropWhile]
  rw [hsp, skipped, ← bytes_length, drop_left]

lemma bytes_slice {view : List Iovec} {slots : Nat} (h1 : slots ≠ 0) (hle : view.length ≤ slots) (count off : Nat) :
    bytes (((slice view count off slots).map Prod.snd).getD []) =
      ((bytes view).drop (skipped view off + off)).take count := by
  obtain ⟨taken, ht, hb⟩ := @Photon.Iovector.sliceLoop_eq slots view count off [] 0 (by simpa using hle)
  unfold slice
  rw [if_neg h1, ht]
  change bytes ([] ++ taken) = _
  rw [nil_append, hb, bytes_landed_eq, drop_drop]

lemma bytes_sliceTmp (hle : wbuf.length ≤ 32) (count off : Nat) :
    bytes (sliceTmp wbuf count off) = ((bytes wbuf).drop (skipped wbuf off + off)).take count :=
  bytes_slice (by decide) hle count off

lemma zeroView_eq (mem : Mem) (view : List Iovec) :
    zeroView mem view = scatter mem (bytes view) (replicate (sum view) 0) := by
  unfold zeroView
  induction view generalizing mem with
  | nil => rfl
  | cons p view ih =>
    have hp : scatter mem p.bytes (replicate p.iovLen 0) = writeBytes mem p.iovBase (replicate p.iovLen 0) := by
      have h := scatter_addresses mem p.iovBase (replicate p.iovLen (0 : Byte))
      rwa [length_replicate] at h
    rw [foldl_cons, ih, ← hp, bytes_cons, sum_cons, replicate_add, scatter_append _ (by simp)]

lemma memcpyView_eq {d s : List Iovec} (hse : ∀ x ∈ bytes d, x ∉ bytes s) (mem : Mem) (size : Nat) :
    memcpyView mem d s size = some (min size (min (sum d) (sum s)),
      scatter mem ((bytes d).take (min size (min (sum d) (sum s))))
        (((bytes s).map mem).take (min size (min (sum d) (sum s))))) := by
  obtain ⟨⟨mem', hr, hm, -⟩, -⟩ := Photon.Iovector.memcpy_pipe_iov ⟨0, 0⟩ ⟨0, 0⟩ mem d s size (lt_succ_self _)
  rw [memcpyView, hr, hm, copyBytes_zip, map_take]
  intro x hx hxs
  exact hse x (mem_of_mem_take hx) (mem_of_mem_take hxs)

def joined (mem : Mem) (iov : List Iovec) (buf : Nat) : Mem := fun x => mem ((bytes iov).getD (x - buf) 0)

lemma readBytes_joined (mem : Mem) (iov : List Iovec) (buf : Nat) :
    readBytes (joined mem iov buf) buf (sum iov) = (bytes iov).map mem := by
  apply ext_getElem (by simp)
  intro i hi hi'
  rw [length_map] at hi'
  rw [getElem_readBytes, getElem_map, joined, Nat.add_sub_cancel_left, getD_eq_getElem _ _ hi']

lemma mirrors_joined (mem : Mem) (wbuf : List Iovec) : Mirrors (bytes wbuf) mem mem (joined mem wbuf 0) where
  inside i hi := by rw [joined, Nat.sub_zero, getD_eq_getElem _ _ hi]
  outside x _ := rfl

/-- The temporary buffer has no byte twice and none of the caller's. -/
structure Fresh (wbuf iov : List Iovec) : Prop where
  nodup : (bytes wbuf).Nodup
  apart : ∀ x ∈ bytes iov, x ∉ bytes wbuf
end Photon.Fs
