import Photon.Common.Iovector
import Photon.Lib.Memory
import Photon.Lib.While
/-!
# `memcpy_iov` and `pipe_iov`

`_copy_pipe_iov` is a template over two cursors, one over the destination and one
over the source. `iov_iterator` walks over a view that stays as it is;
`src_extractor` takes what it passes off the view. A `Cursor` is what the template
needs of either, with the addresses that are still before it.
-/

namespace Photon.Iovector

open List Nat

def Iovec.advance (v : Iovec) (nbytes : Nat) : Iovec := ⟨v.iovBase + nbytes, v.iovLen - nbytes⟩

/-- The operations of a cursor. `rest` are the addresses before it and `segs` bounds the segments; both say what the
operations do. -/
structure Cursor (γ : Type) where
  empty : γ → Bool
  front : γ → Iovec
  advance : γ → Nat → γ
  rest : γ → List Nat
  segs : γ → Nat
  rest_empty : ∀ c, empty c = true → rest c = []
  rest_front : ∀ c, empty c = false → ∃ l, rest c = (front c).bytes ++ l
  rest_advance : ∀ c n, empty c = false → n ≤ (front c).iovLen → rest (advance c n) = (rest c).drop n
  segs_advance : ∀ c n, empty c = false → segs (advance c n) ≤ segs c
  /-- A segment that is passed is not met again. -/
  segs_passed : ∀ c, empty c = false → segs (advance c (front c).iovLen) < segs c

/-! ## The two cursors -/

/-- `iov_iterator`: the segments from `_iov` on, and the part of the first one that is left. -/
structure IovIterator where
  iov : List Iovec
  v : Iovec

open IovIterator

/-- `*_iov`; `past` is what lies behind the array. -/
def deref (past : Iovec) (iov : List Iovec) : Iovec := iov.headD past

def IovIterator.ofView (past : Iovec) (view : List Iovec) : IovIterator := ⟨view, deref past view⟩

/-- `iov_iterator::operator+=`. -/
def IovIterator.add (past : Iovec) (it : IovIterator) (n : Nat) : IovIterator :=
  if n < it.v.iovLen then { it with v := it.v.advance n } else .ofView past it.iov.tail

/-- `src_extractor::operator+=`. -/
def extractorAdd (view : List Iovec) (n : Nat) : List Iovec :=
  match view with
  | [] => []
  | v :: vs => if n < v.iovLen then v.advance n :: vs else vs

def IovIterator.rest (it : IovIterator) : List Nat :=
  match it.iov with
  | [] => []
  | _ :: vs => it.v.bytes ++ bytes vs

variable {n : Nat}

lemma bytes_append_drop (v : Iovec) (h : n ≤ v.iovLen) (l : List Nat) :
    (v.bytes ++ l).drop n = (v.advance n).bytes ++ l := by
  rw [drop_append_of_le_length (by simpa using h)]
  exact congrArg (· ++ l) (v.bytes_drop n).symm

lemma bytes_append_drop_all (v : Iovec) (h : n = v.iovLen) (l : List Nat) : (v.bytes ++ l).drop n = l := by
  rw [h, drop_left' (v.bytes_length)]

lemma IovIterator.rest_ofView (past : Iovec) (view : List Iovec) :
    (ofView past view).rest = bytes view := by
  cases view with
  | nil => rfl
  | cons => simp [ofView, rest, deref]

def iovIterator (past : Iovec) : Cursor IovIterator where
  empty it := it.iov.isEmpty
  front it := it.v
  advance it n := it.add past n
  rest it := it.rest
  segs it := it.iov.length
  rest_empty it h := by
    simp only [List.isEmpty_iff] at h
    simp [rest, h]
  rest_front it h := by
    obtain ⟨iov, v⟩ := it
    cases iov with
    | nil => simp at h
    | cons w ws => exact ⟨bytes ws, rfl⟩
  rest_advance it n h hn := by
    obtain ⟨iov, v⟩ := it
    cases iov with
    | nil => simp at h
    | cons w ws =>
      unfold add
      split
      · exact (bytes_append_drop v hn (bytes ws)).symm
      rename_i hlt
      have hlen : n = v.iovLen := le_antisymm hn (Nat.le_of_not_lt hlt)
      rw [rest_ofView]
      exact (bytes_append_drop_all v hlen (bytes ws)).symm
  segs_advance it n _ := by
    unfold add
    split
    · exact le_rfl
    · simp [ofView]
  segs_passed it h := by
    obtain ⟨iov, v⟩ := it
    cases iov with
    | nil => simp at h
    | cons => simp [add, ofView]

def srcExtractor : Cursor (List Iovec) where
  empty view := view.isEmpty
  front view := view.headD ⟨0, 0⟩
  advance := extractorAdd
  rest := bytes
  segs := length
  rest_empty view h := by
    simp only [List.isEmpty_iff] at h
    simp [h]
  rest_front view h := by
    cases view with
    | nil => simp at h
    | cons v vs => exact ⟨bytes vs, by simp⟩
  rest_advance view n h hn := by
    cases view with
    | nil => simp at h
    | cons v =>
      unfold extractorAdd
      rw [bytes_cons]
      simp only
      split
      · rw [bytes_append_drop v hn, bytes_cons]
      next hlt => rw [bytes_append_drop_all v (le_antisymm hn (Nat.le_of_not_lt hlt))]
  segs_advance view n _ := by
    cases view with
    | nil => exact le_rfl
    | cons =>
      unfold extractorAdd
      simp only
      split <;> simp
  segs_passed view h := by
    cases view with
    | nil => simp at h
    | cons => simp [extractorAdd]

/-! ## The template -/

structure Copying (β γ δ : Type) where
  mem : Nat → β
  size : Nat
  dest : γ
  src : δ

open Copying

section Template

variable {β γ δ : Type} (D : Cursor γ) (S : Cursor δ)

def Copying.goesOn (s : Copying β γ δ) : Bool := s.size != 0 && !D.empty s.dest && !S.empty s.src

def Copying.stepsize (s : Copying β γ δ) : Nat := min s.size (min (D.front s.dest).iovLen (S.front s.src).iovLen)

def Copying.step (s : Copying β γ δ) : Copying β γ δ where
  mem := memcpy s.mem (D.front s.dest).iovBase (S.front s.src).iovBase (s.stepsize D S)
  size := s.size - s.stepsize D S
  dest := D.advance s.dest (s.stepsize D S)
  src := S.advance s.src (s.stepsize D S)

/-- `_copy_pipe_iov`: the return value, and the variables at the end. -/
def copyPipeIov (fuel : Nat) (mem : Nat → β) (dest : γ) (src : δ) (size : Nat) : Option (Nat × Copying β γ δ) :=
  (whileFuel (goesOn D S) (Copying.step D S) fuel ⟨mem, size, dest, src⟩).map fun s => (size - s.size, s)

/-- `n` bytes have been copied, of the addresses `ss` to the addresses `ds`. -/
structure Copying.Done (mem0 : Nat → β) (ds ss : List Nat) (s : Copying β γ δ) (n : Nat) : Prop where
  mem : s.mem = copyBytes mem0 ((ds.take n).zip (ss.take n))
  dest : D.rest s.dest = ds.drop n
  src : S.rest s.src = ss.drop n
  dest_le : n ≤ ds.length
  src_le : n ≤ ss.length

variable {D S}

lemma Cursor.addresses_front {c : γ} (hc : D.empty c = false) (hn : n ≤ (D.front c).iovLen) :
    addresses (D.front c).iovBase n = (D.rest c).take n ∧ n ≤ (D.rest c).length := by
  obtain ⟨l, hl⟩ := D.rest_front c hc
  constructor
  · rw [hl, take_append_of_le_length (by simpa using hn)]
    exact (addresses_take _ hn).symm
  · rw [hl, length_append, Iovec.bytes_length]
    exact hn.trans (le_add_right _ _)

lemma zip_take_add (ds ss : List Nat) {k : Nat} (hd : n ≤ ds.length) (hs : n ≤ ss.length) :
    (ds.take (n + k)).zip (ss.take (n + k)) =
      (ds.take n).zip (ss.take n) ++ ((ds.drop n).take k).zip ((ss.drop n).take k) := by
  rw [take_add, take_add, zip_append (by simp [min_eq_left hd, min_eq_left hs])]

variable {s : Copying β γ δ}

lemma Copying.Done.step {mem0 : Nat → β} {ds ss : List Nat} (h : s.Done D S mem0 ds ss n) (hd : D.empty s.dest = false)
    (hs : S.empty s.src = false) : (s.step D S).Done D S mem0 ds ss (n + s.stepsize D S) := by
  have hk : s.stepsize D S ≤ (D.front s.dest).iovLen := by
    unfold stepsize
    omega
  have hks : s.stepsize D S ≤ (S.front s.src).iovLen := by
    unfold stepsize
    omega
  obtain ⟨hda, hdl⟩ := Cursor.addresses_front hd hk
  obtain ⟨hsa, hsl⟩ := Cursor.addresses_front hs hks
  rw [h.dest, length_drop] at hdl
  rw [h.src, length_drop] at hsl
  have hdn := h.dest_le
  have hsn := h.src_le
  refine ⟨?_, ?_, ?_, by omega, by omega⟩
  · simp only [Copying.step, memcpy]
    rw [hda, hsa, h.dest, h.src, h.mem, zip_take_add ds ss hdn hsn, copyBytes_append]
  · simp only [Copying.step]
    rw [D.rest_advance _ _ hd hk, h.dest, drop_drop]
  · simp only [Copying.step]
    rw [S.rest_advance _ _ hs hks, h.src, drop_drop]

lemma Copying.step_measure (h0 : s.size ≠ 0) (hd : D.empty s.dest = false) (hs : S.empty s.src = false) :
    (s.step D S).size + D.segs (s.step D S).dest + S.segs (s.step D S).src < s.size + D.segs s.dest + S.segs s.src := by
  have hsd := D.segs_advance s.dest (s.stepsize D S) hd
  have hss := S.segs_advance s.src (s.stepsize D S) hs
  simp only [Copying.step]
  by_cases hk : s.stepsize D S = 0
  · have hze : (D.front s.dest).iovLen = 0 ∨ (S.front s.src).iovLen = 0 := by
      unfold stepsize at hk
      omega
    rcases hze with hz | hz
    · have := D.segs_passed s.dest hd
      rw [hz, ← hk] at this
      omega
    · have := S.segs_passed s.src hs
      rw [hz, ← hk] at this
      omega
  · omega

lemma copyPipeIov_spec (mem : Nat → β) (dest : γ) (src : δ) (size : Nat) {fuel : Nat}
    (hf : size + D.segs dest + S.segs src < fuel) :
    ∃ s, copyPipeIov D S fuel mem dest src size = some (min size (min (D.rest dest).length (S.rest src).length), s) ∧
      s.Done D S mem (D.rest dest) (S.rest src) (min size (min (D.rest dest).length (S.rest src).length)) := by
  let I : Copying β γ δ → Prop := fun s =>
    s.size ≤ size ∧ s.Done D S mem (D.rest dest) (S.rest src) (size - s.size)
  have hbo : ∀ s, I s → s.goesOn D S = true → I (s.step D S) ∧
      (s.step D S).size + D.segs (s.step D S).dest + S.segs (s.step D S).src <
        s.size + D.segs s.dest + S.segs s.src := by
    rintro s ⟨hle, hdo⟩ hg
    simp only [goesOn, Bool.and_eq_true, bne_iff_ne, Bool.not_eq_true'] at hg
    obtain ⟨⟨h0, hd⟩, hs⟩ := hg
    have hk : s.stepsize D S ≤ s.size := by
      unfold stepsize
      omega
    have hn : size - (s.step D S).size = size - s.size + s.stepsize D S := by
      simp only [Copying.step]
      omega
    refine ⟨⟨(sub_le ..).trans hle, ?_⟩, step_measure h0 hd hs⟩
    rw [hn]
    exact hdo.step hd hs
  have hi : I ⟨mem, size, dest, src⟩ := by
    refine ⟨le_rfl, ?_⟩
    rw [Nat.sub_self]
    exact ⟨by simp [copyBytes], by simp, by simp, zero_le _, zero_le _⟩
  obtain ⟨s, hr, ⟨-, hdo⟩, hst⟩ := whileFuel_inv (I := I)
    (μ := fun s : Copying β γ δ => s.size + D.segs s.dest + S.segs s.src) hbo hi hf
  -- at the end all of `size` is copied, or one side has no more bytes
  have hn : size - s.size = min size (min (D.rest dest).length (S.rest src).length) := by
    have hdl := hdo.dest_le
    have hsl := hdo.src_le
    simp only [goesOn, Bool.and_eq_false_iff, bne_eq_false_iff_eq, Bool.not_eq_false'] at hst
    rcases hst with (h | h) | h
    · omega
    · have hd := hdo.dest
      rw [D.rest_empty _ h] at hd
      have := congrArg length hd
      rw [length_drop, length_nil] at this
      omega
    · have hs := hdo.src
      rw [S.rest_empty _ h] at hs
      have := congrArg length hs
      rw [length_drop, length_nil] at this
      omega
  rw [← hn]
  exact ⟨s, by simp [copyPipeIov, hr], hdo⟩

end Template

/-! ## The functions -/

section Functions

variable {β : Type}

/-- `iovector_view::memcpy_iov`: the return value and the memory; `pastD` and `pastS` are what lies behind the arrays.
-/
def memcpyIov (fuel : Nat) (pastD pastS : Iovec) (mem : Nat → β) (d s : List Iovec) (size : Nat) :
    Option (Nat × (Nat → β)) :=
  (copyPipeIov (iovIterator pastD) (iovIterator pastS) fuel mem (.ofView pastD d) (.ofView pastS s) size).map
    fun r => (r.1, r.2.mem)

/-- `iovector_view::pipe_iov` and `iovector::pipe_iov`: also what is left in the source. -/
def pipeIov (fuel : Nat) (pastD : Iovec) (mem : Nat → β) (d src : List Iovec) (size : Nat) :
    Option (Nat × (Nat → β) × List Iovec) :=
  (copyPipeIov (iovIterator pastD) srcExtractor fuel mem (.ofView pastD d) src size).map
    fun r => (r.1, r.2.mem, r.2.src)

lemma Copying.Done.copied {γ δ : Type} {D : Cursor γ} {S : Cursor δ} {mem0 : Nat → β} {ds ss : List Nat}
    {s : Copying β γ δ} (h : s.Done D S mem0 ds ss n) : Copied mem0 s.mem (ds.take n) (ss.take n) := by
  rw [h.mem]
  refine .of_copies ?_ (.refl _)
  rw [length_take_of_le h.dest_le, length_take_of_le h.src_le]

/-- For views with any segments and every size, `memcpy_iov` and `pipe_iov` end. They copy as many bytes as are asked
for, there and have room, the `i`-th byte of the source to the `i`-th of the destination, and return how many;
`pipe_iov` leaves the others in the source. -/
theorem memcpy_pipe_iov (pastD pastS : Iovec) (mem : Nat → β) (d s : List Iovec) (size : Nat) {fuel : Nat}
    (hf : size + d.length + s.length < fuel) :
    let n := min size (min (sum d) (sum s))
    (∃ mem', memcpyIov fuel pastD pastS mem d s size = some (n, mem') ∧
      mem' = copyBytes mem (((bytes d).take n).zip ((bytes s).take n)) ∧
      Copied mem mem' ((bytes d).take n) ((bytes s).take n)) ∧
    ∃ mem' left, pipeIov fuel pastD mem d s size = some (n, mem', left) ∧
      mem' = copyBytes mem (((bytes d).take n).zip ((bytes s).take n)) ∧
      Copied mem mem' ((bytes d).take n) ((bytes s).take n) ∧ bytes left = (bytes s).drop n := by
  intro n
  have hd : (iovIterator pastD).rest (.ofView pastD d) = bytes d := rest_ofView pastD d
  have hs : (iovIterator pastS).rest (.ofView pastS s) = bytes s := rest_ofView pastS s
  constructor
  · obtain ⟨r, hr, hdo⟩ := copyPipeIov_spec (D := iovIterator pastD) (S := iovIterator pastS) mem
      (.ofView pastD d) (.ofView pastS s) size hf
    rw [hd, hs, bytes_length, bytes_length] at hr hdo
    exact ⟨r.mem, by rw [memcpyIov, hr]; rfl, hdo.mem, hdo.copied⟩
  · obtain ⟨r, hr, hdo⟩ := copyPipeIov_spec (D := iovIterator pastD) (S := srcExtractor) mem (.ofView pastD d) s size hf
    have hs' : srcExtractor.rest s = bytes s := rfl
    rw [hd, hs', bytes_length, bytes_length] at hr hdo
    exact ⟨r.mem, r.src, by rw [pipeIov, hr]; rfl, hdo.mem, hdo.copied, hdo.src⟩

/-- Segments of 1, 0 and 3 bytes are piped to segments of 2 and 2 bytes, three bytes of them. -/
theorem memcpy_pipe_iov_three : ∃ mem' left,
    pipeIov 9 ⟨0, 0⟩ (fun a => a) [⟨100, 2⟩, ⟨200, 2⟩] [⟨0, 1⟩, ⟨0, 0⟩, ⟨10, 3⟩] 3 = some (3, mem', left) ∧
      mem' 200 = 11 ∧ bytes left = [12] := by
  obtain ⟨-, mem', left, hr, -, hco, hle⟩ := memcpy_pipe_iov ⟨0, 0⟩ ⟨0, 0⟩ (fun a => a)
    [⟨100, 2⟩, ⟨200, 2⟩] [⟨0, 1⟩, ⟨0, 0⟩, ⟨10, 3⟩] 3 (by decide : 3 + 2 + 3 < 9)
  have hv := hco.values (by decide) (by decide)
  exact ⟨mem', left, hr, Option.some.inj (congrArg (·[2]?) hv), hle⟩

end Functions

end Photon.Iovector
