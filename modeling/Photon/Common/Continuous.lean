import Photon.Common.Extract
import Photon.Lib.LittleEndian
/-!
# `extract_front_continuous` and `extract_back_continuous`

An `iovector` together with the memory its segments are in and the buffers it allocates.
A range that is inside the first (or last) segment is handed out as it is; one that is not
is copied to a buffer of its own. New buffers come from `brk` on, where nothing else is.
-/

namespace Photon.Iovector

open List

variable {ptr : Nat} {view' : List Iovec} {taken : List Nat}

abbrev Byte := BitVec 8

abbrev Mem := Nat → Byte

def INT_MAX : Nat := 2 ^ 31 - 1

/-- The class `iovector`. -/
structure Vec where
  mem : Mem
  view : List Iovec
  /-- Where the allocator takes the next buffer from. -/
  brk : Nat
  nbases : Nat := 0
  capacity : Nat := 32

/-- `do_malloc`; `none` is `nullptr`. -/
def Vec.malloc (v : Vec) (size : Nat) : Option (Nat × Vec) :=
  if v.capacity ≤ v.nbases ∨ INT_MAX < size then none
  else some (v.brk, { v with brk := v.brk + size, nbases := v.nbases + 1 })

/-- `iovector_view::extract_front_continuous`. -/
def frontContinuous : List Iovec → Nat → Option (Nat × List Iovec)
  | [], _ => none
  | f :: vs, bytes =>
    if f.iovLen < bytes then none
    else
      let left : Iovec := ⟨f.iovBase + bytes, f.iovLen - bytes⟩
      some (f.iovBase, if left.iovLen = 0 then vs else left :: vs)

/-- `iovector_view::extract_back_continuous`; the view is listed from its last segment on. -/
def backContinuous : List Iovec → Nat → Option (Nat × List Iovec)
  | [], _ => none
  | b :: vs, bytes =>
    if b.iovLen < bytes then none
    else
      let left : Iovec := ⟨b.iovBase, b.iovLen - bytes⟩
      some (b.iovBase + left.iovLen, if left.iovLen = 0 then vs else left :: vs)

def Vec.extractFrontContinuous (v : Vec) (bytes : Nat) : Option Nat × Vec :=
  match frontContinuous v.view bytes with
  | some (ptr, view) => (some ptr, { v with view := view })
  | none =>
    if sum v.view < bytes then (none, v)
    else
      match v.malloc bytes with
      | none => (none, v)
      | some (buf, v) =>
        let r := extractFrontBuf v.mem v.view bytes buf
        (some buf, { v with mem := r.out.1, view := r.view })

def Vec.extractBackContinuous (v : Vec) (bytes : Nat) : Option Nat × Vec :=
  match backContinuous v.view.reverse bytes with
  | some (ptr, view) => (some ptr, { v with view := view.reverse })
  | none =>
    if sum v.view < bytes then (none, v)
    else
      match v.malloc bytes with
      | none => (none, v)
      | some (buf, v) =>
        let r := extractBackBuf v.mem v.view bytes buf
        (some buf, { v with mem := r.out.1, view := r.view })

/-! ## What is handed out -/

def Vec.content (v : Vec) : List Byte := (bytes v.view).map v.mem

def Vec.Fresh (v : Vec) : Prop := ∀ a ∈ bytes v.view, a < v.brk

/-- The `n` bytes at `taken` are handed out at `ptr`: there, or in a new buffer. -/
structure Handed (v v' : Vec) (taken : List Nat) (ptr n : Nat) : Prop where
  content : readBytes v'.mem ptr n = taken.map v.mem
  place : addresses ptr n = taken ∧ v'.brk = v.brk ∨ ptr = v.brk ∧ v'.brk = v.brk + n
  frame : ∀ a < v.brk, v'.mem a = v.mem a
  nbases : v'.nbases ≤ v.nbases + 1
  capacity : v'.capacity = v.capacity

lemma content_length (v : Vec) : v.content.length = sum v.view := by simp [Vec.content]

variable {v : Vec} {n : Nat} {view rest : List Iovec}

lemma malloc_eq {size : Nat} (hca : v.nbases < v.capacity) (hsi : size ≤ INT_MAX) :
    v.malloc size = some (v.brk, { v with brk := v.brk + size, nbases := v.nbases + 1 }) := by
  rw [Vec.malloc, if_neg (by omega)]

lemma handed_place (h : addresses ptr n = taken) : Handed v { v with view := view' } taken ptr n := by
  refine ⟨?_, .inl ⟨h, rfl⟩, fun _ _ => rfl, Nat.le_succ _, rfl⟩
  rw [← h]
  rfl

lemma handed_copy {mem' : Mem} (hf : ∀ a ∈ taken, a < v.brk) (hco : Copied v.mem mem' (addresses v.brk n) taken) :
    Handed v { v with mem := mem', view := view', brk := v.brk + n, nbases := v.nbases + 1 } taken v.brk n := by
  have hse : ∀ a ∈ addresses v.brk n, a ∉ taken := by
    intro a ha hm
    have := (mem_addresses.1 ha).1
    have := hf a hm
    omega
  refine ⟨hco.values (addresses_nodup ..) hse, .inr ⟨rfl, rfl⟩, fun a ha => ?_, le_rfl, rfl⟩
  refine hco.frame a fun hm => ?_
  have := (mem_addresses.1 hm).1
  omega

lemma frontContinuous_some (h : frontContinuous view n = some (ptr, rest)) : Cut view n [⟨ptr, n⟩] rest := by
  cases view with
  | nil => cases h
  | cons f vs =>
    rw [frontContinuous] at h
    split at h
    · cases h
    obtain ⟨rfl, rfl⟩ := Prod.mk.inj (Option.some.inj h)
    exact cut_front f vs (by omega)

lemma backContinuous_some (h : backContinuous view n = some (ptr, rest)) :
    Cut view.reverse (sum view - n) rest.reverse [⟨ptr, n⟩] := by
  cases view with
  | nil => cases h
  | cons b vs =>
    rw [backContinuous] at h
    split at h
    · cases h
    obtain ⟨rfl, rfl⟩ := Prod.mk.inj (Option.some.inj h)
    exact cut_back b vs (by omega)

end Photon.Iovector
