import Mathlib.Algebra.Ring.Int.Defs
import Photon.Common.Iovector
import Photon.Lib.ByteFile
import Photon.Lib.LittleEndian
/-!
# The file below

The files of `fs` are built over another file, which is a byte array here. A call of it can
be cut short or fail, as its `CallResult` says.
-/

namespace Photon.Fs

open ByteFile List

open Photon.Iovector (Iovec bytes sum)

abbrev Byte := BitVec 8

abbrev Mem := Nat → Byte

/-- How a call of the underlying file ends: it does all that the file allows, at most `n`
bytes of it, or it fails. -/
inductive CallResult
  | full
  | short (n : Nat)
  | error
  deriving DecidableEq

/-- The number of bytes a call for `count` bytes may handle; `none` is -1. -/
def CallResult.limit : CallResult → Nat → Option Nat
  | .full, count => some count
  | .short n, count => some (min n count)
  | .error, _ => none

/-- The bytes that `pread` of the underlying file delivers; `none` is -1. -/
def underPread (r : CallResult) (f : List Byte) (count offset : Nat) : Option (List Byte) :=
  (r.limit count).map fun n => ByteFile.read f n offset

/-- `pwrite` of the underlying file: the return value and the file after it. -/
def underPwrite (r : CallResult) (f bs : List Byte) (offset : Nat) : Int × List Byte :=
  match r.limit bs.length with
  | none => (-1, f)
  | some n => (n, ByteFile.write 0 f (bs.take n) offset)

lemma underPwrite_full (f bs : List Byte) (off : Nat) :
    underPwrite .full f bs off = ((bs.length : Int), write 0 f bs off) := by
  change ((bs.length : Int), write 0 f (bs.take bs.length) off) = _
  rw [take_length]

def deliver (mem : Mem) (buf : Nat) : Option (List Byte) → Int × Mem
  | none => (-1, mem)
  | some bs => (bs.length, writeBytes mem buf bs)

def deliverv (mem : Mem) (iov : List Iovec) : Option (List Byte) → Int × Mem
  | none => (-1, mem)
  | some bs => (bs.length, scatter mem (bytes iov) bs)

def underPreadv (r : CallResult) (f : List Byte) (mem : Mem) (iov : List Iovec) (offset : Nat) : Int × Mem :=
  deliverv mem iov (underPread r f (sum iov) offset)

variable {iov : List Iovec} {off : Nat} {f : List Byte} {r : CallResult}

lemma underPreadv_eq {o : Option (List Byte)}
    (h : underPread r f (sum iov) off = o) (mem : Mem) : underPreadv r f mem iov off = deliverv mem iov o := by
  rw [underPreadv, h]

lemma underPreadv_full (h : off + sum iov ≤ f.length) (mem : Mem) :
    underPreadv .full f mem iov off = ((sum iov : Int), scatter mem (bytes iov) (read f (sum iov) off)) := by
  have hle : (read f (sum iov) off).length = sum iov := by
    rw [read_length]
    omega
  change (((read f (sum iov) off).length : Int), scatter mem (bytes iov) (read f (sum iov) off)) = _
  rw [hle]

lemma underPread_length_le {bs : List Byte} {count : Nat}
    (h : underPread r f count off = some bs) : bs.length ≤ count := by
  obtain ⟨n, hn, rfl⟩ := Option.map_eq_some_iff.1 h
  rw [read_length]
  cases r with
  | full | short m => simp only [CallResult.limit, Option.some.injEq] at hn; omega
  | error => cases hn

lemma exists_mark {n m : Nat} (h : m < n) :
    ∃ f : List Byte, f.length = n ∧ ∀ i, f.getD i 0 = if i = m then 1 else 0 := by
  refine ⟨(replicate n 0).set m 1, by simp, ?_⟩
  intro i
  simp only [getD_eq_getElem?_getD, getElem?_set, length_replicate, getElem?_replicate]
  by_cases hi : m = i
  · rw [if_pos hi, if_pos h, if_pos hi.symm]
    rfl
  · rw [if_neg hi, if_neg (Ne.symm hi)]
    split <;> rfl

def toInt64 (n : Nat) : Int := (BitVec.ofNat 64 n).toInt

lemma toInt64_eq {n : Nat} (h : n < 2 ^ 64) : toInt64 n = if n < 2 ^ 63 then (n : Int) else n - 2 ^ 64 := by
  rw [toInt64, BitVec.toInt_eq_toNat_cond, BitVec.toNat_ofNat, Nat.mod_eq_of_lt h]
  split <;> split <;> omega

end Photon.Fs
