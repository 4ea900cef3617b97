import Photon.Common.Continuous
/-!
# Pushing memory onto an iovector

`push_back(bytes)` and `push_front(bytes)` allocate memory and link it in: the first piece, and
then the pieces the allocator makes of the rest. There is a fixed number of slots. When none is
left at that end the first piece is not linked in, but its length is returned all the same.
-/

namespace Photon.Iovector

open List

/-- `IOAlloc`, asked for a buffer of at least one byte and at most `size`; the calls are numbered. -/
structure IOAlloc where
  allocate : Nat → Nat → Option Iovec
  within : ∀ n size v, allocate n size = some v → 0 < v.iovLen ∧ v.iovLen ≤ size

/-- An allocator that has pieces of `most` bytes, one behind the other. -/
def IOAlloc.chunked (start most : Nat) : IOAlloc where
  allocate n size := if 0 < min size most then some ⟨start + n * most, min size most⟩ else none
  within n size v h := by
    obtain ⟨hpos, rfl⟩ := Option.ite_some_none_eq_some.1 h
    exact ⟨hpos, min_le_left ..⟩

/-- The loop of `iovector_view::shrink_to`. -/
def shrinkLoop (size0 : Nat) : List Iovec → Nat → Nat × List Iovec
  | [], size => (size0 - size, [])
  | v :: vs, size =>
    if size ≤ v.iovLen then (size0, [{ v with iovLen := size }])
    else
      let (ret, view) := shrinkLoop size0 vs (size - v.iovLen)
      (ret, v :: view)

def shrinkTo (view : List Iovec) (size : Nat) : Nat × List Iovec :=
  if size = 0 then (0, []) else shrinkLoop size view size

inductive Side where
  | front
  | back

structure Slots where
  capacity : Nat
  iovBegin : Nat
  view : List Iovec
  nbases : Nat := 0

namespace Slots

def room (v : Slots) : Side → Nat
  | .front => v.iovBegin
  | .back => v.capacity - (v.iovBegin + v.view.length)

def push (v : Slots) (side : Side) (iov : Iovec) : Nat × Slots :=
  if v.room side = 0 then (0, v)
  else
    match side with
    | .front => (iov.iovLen, { v with iovBegin := v.iovBegin - 1, view := iov :: v.view })
    | .back => (iov.iovLen, { v with view := v.view ++ [iov] })

variable (alloc : IOAlloc)

def newIovec (v : Slots) (bytes : Nat) : Iovec × Slots :=
  if v.capacity ≤ v.nbases then (⟨0, 0⟩, v)
  else
    match alloc.allocate v.nbases (min bytes INT_MAX) with
    | none => (⟨0, 0⟩, v)
    | some iov => (iov, { v with nbases := v.nbases + 1 })

/-- The loop of `push_front_more` and `push_back_more`; a turn takes at least one of the `bytes`. -/
def pushMore (side : Side) (bytes0 : Nat) : Nat → Nat → Slots → Nat × Slots
  | 0, bytes, v => (bytes0 - bytes, v)
  | fuel + 1, bytes, v =>
    if bytes = 0 ∨ v.room side = 0 then (bytes0 - bytes, v)
    else
      let r := v.newIovec alloc bytes
      if r.1.iovLen = 0 then (bytes0 - bytes, r.2)
      else pushMore side bytes0 fuel (bytes - r.1.iovLen) (r.2.push side r.1).2

def pushBytes (v : Slots) (side : Side) (bytes : Nat) : Nat × Slots :=
  let r := v.newIovec alloc bytes
  if r.1.iovLen = 0 then (0, r.2)
  else
    let p := r.2.push side r.1
    if p.1 = bytes then (bytes, p.2)
    else
      let rest := bytes - r.1.iovLen
      let m := pushMore alloc side rest rest rest p.2
      (r.1.iovLen + m.1, m.2)

def truncate (v : Slots) (size : Nat) : Nat × Slots :=
  if size = sum v.view then (size, v)
  else
    let (ret, view) := shrinkTo v.view size
    if ret = size then (size, { v with view := view })
    else
      let p := v.pushBytes alloc .back (size - ret)
      (ret + p.1, p.2)

/-! ## What is linked in -/

lemma push_sum (v : Slots) (side : Side) (iov : Iovec) :
    sum (v.push side iov).2.view = sum v.view + (v.push side iov).1 := by
  unfold push
  split
  · rfl
  · cases side with
    | front => exact (sum_cons ..).trans (add_comm ..)
    | back => exact (sum_append ..).trans (by simp [sum_cons])

lemma push_eq {v : Slots} {side : Side} (h : v.room side ≠ 0) (iov : Iovec) : (v.push side iov).1 = iov.iovLen := by
  unfold push
  rw [if_neg h]
  cases side <;> rfl

lemma newIovec_spec (v : Slots) (bytes : Nat) : (v.newIovec alloc bytes).2.view = v.view ∧
    (v.newIovec alloc bytes).2.room = v.room ∧ (v.newIovec alloc bytes).1.iovLen ≤ bytes := by
  unfold newIovec
  split
  · exact ⟨rfl, rfl, Nat.zero_le _⟩
  split
  · exact ⟨rfl, rfl, Nat.zero_le _⟩
  · next iov h => exact ⟨rfl, rfl, (alloc.within _ _ _ h).2.trans (min_le_left ..)⟩

lemma pushMore_sum (side : Side) {bytes0 bytes : Nat} (fuel : Nat) (v : Slots) (hb : bytes ≤ bytes0) :
    sum (pushMore alloc side bytes0 fuel bytes v).2.view + (bytes0 - bytes) =
      sum v.view + (pushMore alloc side bytes0 fuel bytes v).1 := by
  induction fuel generalizing bytes v with
  | zero => rfl
  | succ fuel ih =>
    have hnew := newIovec_spec alloc v bytes
    rw [pushMore]
    generalize v.newIovec alloc bytes = r at hnew ⊢
    obtain ⟨hv, hr, hle⟩ := hnew
    split
    · rfl
    next hg =>
      dsimp only
      split
      · rw [hv]
      · have hpu := push_sum r.2 side r.1
        rw [push_eq (by rw [hr]; exact fun h => hg (.inr h)), hv] at hpu
        have hrest := ih (r.2.push side r.1).2 ((Nat.sub_le bytes r.1.iovLen).trans hb)
        omega

lemma pushMore_full {side : Side} {v : Slots} (h : v.room side = 0) (bytes0 fuel bytes : Nat) :
    pushMore alloc side bytes0 fuel bytes v = (bytes0 - bytes, v) := by
  cases fuel with
  | zero => rfl
  | succ => rw [pushMore, if_pos (.inr h)]

lemma pushBytes_iff (v : Slots) (side : Side) (bytes : Nat) :
    sum v.view + (v.pushBytes alloc side bytes).1 = sum (v.pushBytes alloc side bytes).2.view ↔
      v.room side ≠ 0 ∨ (v.newIovec alloc bytes).1.iovLen = 0 := by
  have hnew := newIovec_spec alloc v bytes
  unfold pushBytes
  generalize v.newIovec alloc bytes = r at hnew ⊢
  obtain ⟨hv, hr, hle⟩ := hnew
  dsimp only
  split
  · next h0 => simp [h0, hv]
  next h0 =>
    have hpu := push_sum r.2 side r.1
    rw [← hv]
    by_cases hf : v.room side = 0
    · -- the piece is lost
      refine iff_of_false ?_ (by simp [hf, h0])
      rw [show r.2.push side r.1 = (0, r.2) from if_pos (by rw [hr, hf]), if_neg (by dsimp only; omega),
        pushMore_full alloc (by rw [hr, hf])]
      dsimp only
      omega
    · refine iff_of_true ?_ (.inl hf)
      rw [push_eq (by rw [hr]; exact hf)] at hpu ⊢
      split
      · dsimp only
        omega
      · have hm := pushMore_sum alloc side (bytes - r.1.iovLen) (r.2.push side r.1).2 (le_refl (bytes - r.1.iovLen))
        dsimp only
        omega

lemma shrinkLoop_sum {size0 size : Nat} (view : List Iovec) (h : size ≤ size0) :
    if size ≤ sum view then (shrinkLoop size0 view size).1 = size0 ∧ sum (shrinkLoop size0 view size).2 = size
    else (shrinkLoop size0 view size).1 = size0 - (size - sum view) := by
  induction view generalizing size with
  | nil =>
    split
    next h0 =>
      have h0 : size = 0 := Nat.le_zero.mp h0
      exact ⟨by rw [shrinkLoop, h0, Nat.sub_zero], h0.symm⟩
    · rfl
  | cons p view ih =>
    rw [shrinkLoop, sum_cons]
    by_cases hp : size ≤ p.iovLen
    · rw [if_pos hp, if_pos (by omega)]
      exact ⟨rfl, by simp [sum_cons]⟩
    · rw [if_neg hp]
      have hrest := ih (show size - p.iovLen ≤ size0 by omega)
      dsimp only
      split
      · rw [if_pos (by omega)] at hrest
        rw [sum_cons]
        omega
      · rw [if_neg (by omega)] at hrest
        omega

lemma pushMore_le (side : Side) (bytes0 fuel bytes : Nat) (v : Slots) :
    (pushMore alloc side bytes0 fuel bytes v).1 ≤ bytes0 := by
  induction fuel generalizing bytes v with
  | zero => exact Nat.sub_le ..
  | succ fuel ih =>
    rw [pushMore]
    split
    · exact Nat.sub_le ..
    · dsimp only
      split
      · exact Nat.sub_le ..
      · exact ih ..

/-- The view ends where the slots do, and has no empty pieces. -/
structure Packed (v : Slots) (b c : Nat) : Prop where
  iovBegin : v.iovBegin = b
  capacity : v.capacity = c
  fits : b + v.view.length ≤ c
  pos : ∀ p ∈ v.view, 0 < p.iovLen

section
variable {b c : Nat} {v : Slots}

lemma Packed.newIovec (h : v.Packed b c) (bytes : Nat) :
    (v.newIovec alloc bytes).2.Packed b c := by
  unfold Slots.newIovec
  split
  · exact h
  · split
    · exact h
    · exact ⟨h.iovBegin, h.capacity, h.fits, h.pos⟩

lemma Packed.push (h : v.Packed b c) {iov : Iovec} (hp : 0 < iov.iovLen) :
    (v.push .back iov).2.Packed b c := by
  unfold Slots.push
  split
  · exact h
  next hr =>
    refine ⟨h.iovBegin, h.capacity, ?_, ?_⟩
    · rw [room, h.iovBegin, h.capacity] at hr
      rw [length_append, length_singleton]
      omega
    · rw [forall_mem_append, forall_mem_singleton]
      exact ⟨h.pos, hp⟩

lemma Packed.pushMore (h : v.Packed b c) (bytes0 fuel bytes : Nat) :
    (pushMore alloc .back bytes0 fuel bytes v).2.Packed b c := by
  induction fuel generalizing bytes v with
  | zero => exact h
  | succ fuel ih =>
    rw [Slots.pushMore]
    split
    · exact h
    · dsimp only
      split
      · exact h.newIovec alloc bytes
      next hz => exact ih ((h.newIovec alloc bytes).push (Nat.pos_of_ne_zero hz)) _

lemma Packed.pushBytes (h : v.Packed b c) (bytes : Nat) :
    (v.pushBytes alloc .back bytes).2.Packed b c ∧ (v.pushBytes alloc .back bytes).1 ≤ bytes := by
  have hle := (newIovec_spec alloc v bytes).2.2
  unfold Slots.pushBytes
  dsimp only
  split
  · exact ⟨h.newIovec alloc bytes, Nat.zero_le _⟩
  next hz =>
    have hpu := (h.newIovec alloc bytes).push (Nat.pos_of_ne_zero hz)
    split
    · exact ⟨hpu, le_rfl⟩
    · have hm := pushMore_le alloc .back (bytes - (v.newIovec alloc bytes).1.iovLen)
        (bytes - (v.newIovec alloc bytes).1.iovLen) (bytes - (v.newIovec alloc bytes).1.iovLen)
        ((v.newIovec alloc bytes).2.push .back (v.newIovec alloc bytes).1).2
      exact ⟨hpu.pushMore alloc .., by dsimp only; omega⟩

end

/-- Pushing returns how much longer the vector is, and `truncate` its new length, exactly when there is a free slot
at that end wherever memory has to be linked in. -/
theorem push_returns_iff (alloc : IOAlloc) (v : Slots) :
    (∀ side bytes, sum v.view + (v.pushBytes alloc side bytes).1 = sum (v.pushBytes alloc side bytes).2.view ↔
      v.room side ≠ 0 ∨ (v.newIovec alloc bytes).1.iovLen = 0) ∧
    ∀ size, (v.truncate alloc size).1 = sum (v.truncate alloc size).2.view ↔
      size ≤ sum v.view ∨ v.room .back ≠ 0 ∨ (v.newIovec alloc (size - sum v.view)).1.iovLen = 0 := by
  refine ⟨pushBytes_iff alloc v, fun size => ?_⟩
  have hsh := shrinkLoop_sum v.view (le_refl size)
  unfold truncate shrinkTo
  by_cases he : size = sum v.view
  · rw [if_pos he]
    exact iff_of_true he (.inl he.le)
  rw [if_neg he]
  by_cases h0 : size = 0
  · simp [h0]
  rw [if_neg h0]
  dsimp only
  split at hsh
  next hle =>
    rw [if_pos hsh.1]
    exact iff_of_true hsh.2.symm (.inl hle)
  next hlt =>
    have hr : (shrinkLoop size v.view size).1 = sum v.view := by omega
    rw [hr, if_neg (Ne.symm he), pushBytes_iff, or_iff_right hlt]

/-- A vector with one slot, in use: eight bytes are said to be pushed, and the length is still four. -/
theorem full_not_pushed :
    let v : Slots := ⟨1, 0, [⟨0, 4⟩], 0⟩
    let alloc := IOAlloc.chunked 100 8
    ((v.pushBytes alloc .back 8).1 = 8 ∧ sum (v.pushBytes alloc .back 8).2.view = 4) ∧
      ((v.pushBytes alloc .front 8).1 = 8 ∧ sum (v.pushBytes alloc .front 8).2.view = 4) ∧
      (v.truncate alloc 12).1 = 12 ∧ sum (v.truncate alloc 12).2.view = 4 := by
  decide

end Slots

/-! ## An empty vector -/

/-- `push_back(bytes)` to an empty `IOVector`, which has 28 free elements at its back. -/
def IOAlloc.pushBack (alloc : IOAlloc) (bytes : Nat) : List Iovec :=
  (Slots.pushBytes alloc { capacity := 32, iovBegin := 4, view := [] } .back bytes).2.view

lemma IOAlloc.pushBack_spec (alloc : IOAlloc) (size : Nat) :
    sum (alloc.pushBack size) ≤ size ∧ (alloc.pushBack size).length ≤ 28 ∧ ∀ v ∈ alloc.pushBack size, 0 < v.iovLen := by
  have hp : Slots.Packed { capacity := 32, iovBegin := 4, view := [] } 4 32 :=
    ⟨rfl, rfl, by decide, forall_mem_nil _⟩
  obtain ⟨hpa, hle⟩ := hp.pushBytes alloc size
  have hsu := (Slots.pushBytes_iff alloc { capacity := 32, iovBegin := 4, view := [] } .back size).2 (.inl (by decide))
  refine ⟨?_, ?_, hpa.pos⟩
  · rw [pushBack, ← hsu, sum_nil, zero_add]
    exact hle
  · have hf := hpa.fits
    rw [pushBack]
    omega

end Photon.Iovector
