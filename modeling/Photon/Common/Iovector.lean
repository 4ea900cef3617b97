import Mathlib.Algebra.Order.Group.Int
import Mathlib.Algebra.Ring.Nat
import Mathlib.Data.List.Nodup
import Mathlib.Data.List.Range
import Mathlib.Data.List.TakeWhile
import Mathlib.Data.Option.Basic
/-!
# `iovector_view::slice`

A segment is a base address and a length, and denotes the addresses of its
bytes. `slice` takes `count` bytes from `offset` on, as segments of the output
view. Sizes are below `2 ^ 63`, so no sum of them overflows `off_t`.
-/

namespace Photon.Iovector

open List

structure Iovec where
  iovBase : Nat
  iovLen : Nat
  deriving DecidableEq

/-- The addresses a segment denotes. -/
def Iovec.bytes (p : Iovec) : List Nat := (range p.iovLen).map (p.iovBase + ·)

/-- The addresses a view denotes, in order. -/
def bytes (view : List Iovec) : List Nat := view.flatMap Iovec.bytes

def sum (view : List Iovec) : Nat := (view.map Iovec.iovLen).sum

def cut (p : Iovec) (count : Nat) (offset pos : Int) : Iovec :=
  let q := if offset > pos then
      { iovBase := p.iovBase + (offset - pos).toNat, iovLen := p.iovLen - (offset - pos).toNat }
    else p
  if count < q.iovLen then { q with iovLen := count } else q

/-- The loop of `slice`; `out` is the output so far, in a view with `slots` slots. -/
def sliceLoop (offset : Int) (slots : Nat) : List Iovec → Nat → Int → List Iovec → Nat → Nat × List Iovec
  | [], _, _, out, ret => (ret, out)
  | p :: ps, count, pos, out, ret =>
    if count ≠ 0 ∧ pos + p.iovLen > offset then
      let q := cut p count offset pos
      if (out ++ [q]).length = slots then (ret + q.iovLen, out ++ [q])
      else sliceLoop offset slots ps (count - q.iovLen) (pos + p.iovLen) (out ++ [q]) (ret + q.iovLen)
    else sliceLoop offset slots ps count pos out ret

/-- `iovector_view::slice`: the return value, and the segments left in the output; `none` is -1. -/
def slice (view : List Iovec) (count : Nat) (offset : Int) (slots : Nat) : Option (Nat × List Iovec) :=
  if slots = 0 then none else some (sliceLoop offset slots view count 0 [] 0)

/-! ## Bytes of a view -/

@[simp] lemma Iovec.bytes_length (p : Iovec) : p.bytes.length = p.iovLen := by simp [Iovec.bytes]

@[simp] lemma bytes_nil : bytes [] = [] := rfl

@[simp] lemma bytes_cons (p : Iovec) (ps : List Iovec) : bytes (p :: ps) = p.bytes ++ bytes ps := by
  simp [bytes]

@[simp] lemma bytes_append (ps qs : List Iovec) : bytes (ps ++ qs) = bytes ps ++ bytes qs := by
  simp [bytes]

@[simp] lemma sum_nil : sum [] = 0 := rfl

@[simp] lemma sum_cons (p : Iovec) (ps : List Iovec) : sum (p :: ps) = p.iovLen + sum ps := by simp [sum]

@[simp] lemma sum_append (ps qs : List Iovec) : sum (ps ++ qs) = sum ps + sum qs := by simp [sum]

@[simp] lemma bytes_length (ps : List Iovec) : (bytes ps).length = sum ps := by
  induction ps with
  | nil => rfl
  | cons p ps ih => simp [ih]

lemma Iovec.bytes_drop (p : Iovec) (n : Nat) : (⟨p.iovBase + n, p.iovLen - n⟩ : Iovec).bytes = p.bytes.drop n := by
  refine ext_getElem (by simp) fun i h1 h2 => ?_
  simp only [Iovec.bytes, getElem_map, getElem_range, getElem_drop]
  omega

lemma Iovec.bytes_take (p : Iovec) {n : Nat} (hn : n ≤ p.iovLen) : (⟨p.iovBase, n⟩ : Iovec).bytes = p.bytes.take n := by
  refine ext_getElem (by simpa using hn) fun i h1 h2 => ?_
  simp [Iovec.bytes]

/-! ## The loop -/

lemma cut_bytes (p : Iovec) (count : Nat) (offset pos : Int) :
    (cut p count offset pos).bytes = (p.bytes.drop (offset - pos).toNat).take count := by
  unfold cut
  generalize hcu : (if offset > pos then
    (⟨p.iovBase + (offset - pos).toNat, p.iovLen - (offset - pos).toNat⟩ : Iovec) else p) = q
  have hq : q.bytes = p.bytes.drop (offset - pos).toNat := by
    rw [← hcu]
    split
    · exact p.bytes_drop _
    · have h0 : (offset - pos).toNat = 0 := by omega
      rw [h0, drop_zero]
  rw [← hq]
  simp only
  split
  next hlt => exact q.bytes_take (le_of_lt hlt)
  next hg => rw [take_of_length_le (by simpa using hg)]

lemma cut_iovLen (p : Iovec) (count : Nat) (offset pos : Int) :
    (cut p count offset pos).iovLen = min count (p.iovLen - (offset - pos).toNat) := by
  rw [← Iovec.bytes_length, cut_bytes]
  simp

/-- The output gets the segments `taken`, and the loop returns how many bytes they have. -/
def Takes (r : Nat × List Iovec) (ret : Nat) (out taken : List Iovec) : Prop := r = (ret + sum taken, out ++ taken)

lemma Takes.cons {ret : Nat} {out taken : List Iovec} {q : Iovec}
    (h : Takes r (ret + q.iovLen) (out ++ [q]) taken) : Takes r ret out (q :: taken) := by
  unfold Takes at *
  rw [h]
  simp [add_assoc]

lemma take_count (l1 l2 : List Nat) (count : Nat) :
    l1.take count ++ l2.take (count - min count l1.length) = (l1 ++ l2).take count := by
  rw [take_append]
  congr 2
  omega

variable {r : Nat × List Iovec} {count offset : Nat} {p : Iovec} {view taken : List Iovec} {slots : Nat}

lemma takes_cut (offset pos : Int) (ret : Nat) {ps out : List Iovec}
    (rest : List Nat) (hg : count ≠ 0 ∧ pos + p.iovLen > offset) (hsl : out.length + (p :: ps).length ≤ slots)
    (ih : ∃ taken, Takes (sliceLoop offset slots ps (count - (cut p count offset pos).iovLen) (pos + p.iovLen)
        (out ++ [cut p count offset pos]) (ret + (cut p count offset pos).iovLen))
        (ret + (cut p count offset pos).iovLen) (out ++ [cut p count offset pos]) taken ∧
      bytes taken = rest.take (count - (cut p count offset pos).iovLen))
    (hr : ps = [] → rest = []) :
    ∃ taken, Takes (sliceLoop offset slots (p :: ps) count pos out ret) ret out taken ∧
      bytes taken = (p.bytes.drop (offset - pos).toNat ++ rest).take count := by
  have hby : (p.bytes.drop (offset - pos).toNat ++ rest).take count =
      (cut p count offset pos).bytes ++ rest.take (count - (cut p count offset pos).iovLen) := by
    rw [cut_bytes, cut_iovLen, ← take_count]
    simp
  unfold sliceLoop
  simp only [if_pos hg]
  split
  · -- the output is full, so this was the last segment
    rename_i hf
    have hps : ps = [] := by
      refine eq_nil_of_length_eq_zero ?_
      simp only [length_append, length_cons, length_nil] at hf hsl
      omega
    refine ⟨[cut p count offset pos], by simp [Takes], ?_⟩
    rw [hby, hr hps]
    simp
  · obtain ⟨taken, ht, hb⟩ := ih
    refine ⟨cut p count offset pos :: taken, ht.cons, ?_⟩
    rw [hby, bytes_cons, hb]

lemma sliceLoop_past {offset : Int} (view : List Iovec) (count : Nat) (pos : Int) (out : List Iovec)
    (ret : Nat) (hpo : offset < pos) (hsl : out.length + view.length ≤ slots) :
    ∃ taken, Takes (sliceLoop offset slots view count pos out ret) ret out taken ∧
      bytes taken = (bytes view).take count := by
  induction view generalizing count pos out ret with
  | nil => exact ⟨[], by simp [sliceLoop, Takes], by simp⟩
  | cons p ps ih =>
    by_cases hg : count ≠ 0 ∧ pos + p.iovLen > offset
    · have h0 : (offset - pos).toNat = 0 := by omega
      have hcut := takes_cut offset pos ret (bytes ps) hg hsl
        (ih _ _ _ _ (by omega) (by simp at hsl ⊢; omega)) (fun h => by simp [h])
      simpa [h0] using hcut
    · have hco : count = 0 := by
        by_contra h
        exact hg ⟨h, by omega⟩
      obtain ⟨taken, ht, hb⟩ := ih count pos out ret hpo (by simp at hsl; omega)
      refine ⟨taken, ?_, ?_⟩
      · unfold sliceLoop
        rwa [if_neg hg]
      · simpa [hco] using hb

/-- The segments from the first one that is longer than the offset. -/
def landed (view : List Iovec) (offset : Nat) : List Iovec := view.dropWhile fun p => p.iovLen ≤ offset

lemma landed_skip (h : p.iovLen ≤ offset) (ps : List Iovec) :
    landed (p :: ps) offset = landed ps offset := dropWhile_cons_of_pos (by simpa using h)

lemma landed_stop (h : offset < p.iovLen) (ps : List Iovec) :
    landed (p :: ps) offset = p :: ps := dropWhile_cons_of_neg (by simpa using h)

/-- What the loop computes: the segments before `landed` are skipped, but `pos` stays 0, so all of the offset is
taken from the bytes of `landed`. -/
lemma sliceLoop_eq (view : List Iovec) (count offset : Nat) (out : List Iovec) (ret : Nat)
    (hsl : out.length + view.length ≤ slots) :
    ∃ taken, Takes (sliceLoop offset slots view count 0 out ret) ret out taken ∧
      bytes taken = ((bytes (landed view offset)).drop offset).take count := by
  induction view with
  | nil => exact ⟨[], by simp [sliceLoop, Takes], by simp [landed]⟩
  | cons p ps ih =>
    have hps : out.length + ps.length ≤ slots := by simp at hsl; omega
    by_cases hle : p.iovLen ≤ offset
    · obtain ⟨taken, ht, hb⟩ := ih hps
      refine ⟨taken, ?_, ?_⟩
      · unfold sliceLoop
        rwa [if_neg (by omega)]
      · rw [hb, landed_skip hle]
    · rw [landed_stop (Nat.lt_of_not_le hle)]
      by_cases hco : count = 0
      · obtain ⟨taken, ht, hb⟩ := ih hps
        refine ⟨taken, ?_, ?_⟩
        · unfold sliceLoop
          rwa [if_neg (by omega)]
        · simpa [hco] using hb
      · have hcut := takes_cut offset 0 ret (bytes ps) ⟨hco, by omega⟩ hsl
          (sliceLoop_past ps _ _ _ _ (by omega) (by simp at hsl ⊢; omega)) (fun h => by simp [h])
        have hd : (bytes (p :: ps)).drop offset = p.bytes.drop offset ++ bytes ps := by
          rw [bytes_cons, drop_append_of_le_length (by simp; omega)]
        rw [hd]
        simpa using hcut

/-! ## What `slice` is to compute -/

def byteAt (view : List Iovec) (pos : Int) : Option Nat := if 0 ≤ pos then (bytes view)[pos.toNat]? else none

def wanted (view : List Iovec) (count : Nat) (offset : Int) : Nat := min count (max 0 ((sum view : Int) - offset)).toNat

/-- The return value is the number of bytes to take, and the output denotes them, from the offset on. -/
def Correct (view : List Iovec) (count : Nat) (offset : Int) (r : Nat × List Iovec) : Prop :=
  r.1 = wanted view count offset ∧
    (bytes r.2).map some = (range (wanted view count offset)).map fun i : Nat => byteAt view (offset + i)

instance (view : List Iovec) (count : Nat) (offset : Int) (r : Nat × List Iovec) :
    Decidable (Correct view count offset r) := inferInstanceAs (Decidable (_ ∧ _))

def firstLen : List Iovec → Nat
  | [] => 0
  | p :: ps => if p.iovLen = 0 then firstLen ps else p.iovLen

/-- There is nothing to take, or the offset is in the first segment that has bytes. -/
def InFirst (view : List Iovec) (count : Nat) (offset : Int) : Prop :=
  count = 0 ∨ (sum view : Int) ≤ offset ∨ (0 ≤ offset ∧ offset < firstLen view)

lemma range_byteAt (view : List Iovec) (count offset : Nat) :
    (range (wanted view count offset)).map (fun i : Nat => byteAt view (offset + i)) =
      (((bytes view).drop offset).take count).map some := by
  have hw : wanted view count offset = min count (sum view - offset) := by
    unfold wanted
    omega
  refine ext_getElem (by simp [hw]) fun i h1 h2 => ?_
  have hi : offset + i < (bytes view).length := by
    simp [hw] at h1 ⊢
    omega
  have h0 : (0 : Int) ≤ offset + i := by omega
  have hn : ((offset : Int) + i).toNat = offset + i := by omega
  simp only [getElem_map, getElem_range, getElem_take, getElem_drop, byteAt, if_pos h0, hn]
  exact getElem?_eq_getElem hi

lemma correct_iff (hr : r.1 = sum r.2) :
    Correct view count offset r ↔ bytes r.2 = ((bytes view).drop offset).take count := by
  unfold Correct
  rw [range_byteAt]
  constructor
  · intro h
    exact map_injective_iff.2 (Option.some_injective _) h.2
  intro h
  refine ⟨?_, by rw [h]⟩
  rw [hr, ← bytes_length, h]
  simp only [length_take, length_drop, bytes_length, wanted]
  omega

/-! ## When it does -/

lemma landed_append (view : List Iovec) (offset : Nat) : ∃ skipped, view = skipped ++ landed view offset :=
  ⟨view.takeWhile fun p => p.iovLen ≤ offset, takeWhile_append_dropWhile.symm⟩

lemma sum_landed_le (view : List Iovec) (offset : Nat) : sum (landed view offset) ≤ sum view := by
  obtain ⟨skipped, h⟩ := landed_append view offset
  have := congrArg sum h
  rw [sum_append] at this
  omega

lemma bytes_landed (h : offset < firstLen view) : bytes (landed view offset) = bytes view := by
  induction view with
  | nil => simp [firstLen] at h
  | cons p ps ih =>
    unfold firstLen at h
    split at h
    next h0 =>
      have hp : p.bytes = [] := eq_nil_of_length_eq_zero (by simpa using h0)
      rw [landed_skip (by omega), ih h, bytes_cons, hp, nil_append]
    · rw [landed_stop h]

lemma sum_landed_lt (hf : firstLen view ≤ offset) (hs : 0 < sum view) : sum (landed view offset) < sum view := by
  induction view with
  | nil => simp at hs
  | cons p ps ih =>
    unfold firstLen at hf
    split at hf
    next h0 =>
      rw [landed_skip (by omega), sum_cons, h0, zero_add]
      exact ih hf (by simpa [h0] using hs)
    · have := sum_landed_le ps offset
      rw [landed_skip hf, sum_cons]
      omega

/-- When bytes are skipped, the first byte of the output is not the one at the offset. -/
lemma drop_landed_ne (hn : (bytes view).Nodup) (hc : count ≠ 0)
    (ho : offset < sum view) (hlt : sum (landed view offset) < sum view) :
    ((bytes (landed view offset)).drop offset).take count ≠ ((bytes view).drop offset).take count := by
  intro he
  obtain ⟨skipped, hv⟩ := landed_append view offset
  have hsu : sum view = sum skipped + sum (landed view offset) := by
    have := congrArg sum hv
    rwa [sum_append] at this
  have hby : bytes view = bytes skipped ++ bytes (landed view offset) := by
    have := congrArg bytes hv
    rwa [bytes_append] at this
  -- the byte both sides begin with
  have hr : (((bytes view).drop offset).take count)[0]? = (bytes view)[offset]? := by
    rw [getElem?_take_of_lt (Nat.pos_of_ne_zero hc), getElem?_drop, add_zero]
  have hle : (((bytes (landed view offset)).drop offset).take count)[0]? = (bytes view)[sum skipped + offset]? := by
    rw [getElem?_take_of_lt (Nat.pos_of_ne_zero hc), getElem?_drop, add_zero, hby,
      getElem?_append_right (by simp), bytes_length, Nat.add_sub_cancel_left]
  rw [he, hr] at hle
  have hin : offset < (bytes view).length := by simpa using ho
  have := (getElem?_inj hin hn).1 hle
  omega

lemma slice_nat (hb : bytes taken = ((bytes (landed view offset)).drop offset).take count) :
    (InFirst view count offset → Correct view count offset (sum taken, taken)) ∧
      ((bytes view).Nodup → Correct view count offset (sum taken, taken) → InFirst view count offset) := by
  rw [correct_iff rfl, hb]
  constructor
  · rintro (hc | hle | ⟨-, hlt⟩)
    · simp [hc]
    · -- there is nothing from the offset on, and less in `landed`
      have hl' : sum view ≤ offset := by omega
      have hla := sum_landed_le view offset
      rw [drop_of_length_le (by simp; omega), drop_of_length_le (by simpa using hl')]
    · rw [bytes_landed (by omega)]
  · intro hnd he
    by_contra hn
    simp only [InFirst, not_or, not_and, not_lt, not_le] at hn
    obtain ⟨hc, ho, hf⟩ := hn
    have hf' : firstLen view ≤ offset := by
      have := hf (by omega)
      omega
    exact drop_landed_ne hnd hc (by omega) (sum_landed_lt hf' (by omega)) he

lemma slice_negative {offset : Int} (ho : offset < 0) (hb : bytes taken = (bytes view).take count) :
    (InFirst view count offset → Correct view count offset (sum taken, taken)) ∧
      (Correct view count offset (sum taken, taken) → InFirst view count offset) := by
  constructor
  · rintro (hc | hle | ⟨h0, -⟩)
    · subst hc
      rw [take_zero] at hb
      have hsu : sum taken = 0 := by rw [← bytes_length, hb]; rfl
      simp [Correct, wanted, hb, hsu]
    · omega
    · omega
  · intro hco
    by_contra hno
    have hc : count ≠ 0 := fun h => hno (.inl h)
    have hpo : 0 < wanted view count offset := by
      unfold wanted
      omega
    have h0 := congrArg (·[0]?) hco.2
    rw [getElem?_map, getElem?_map, getElem?_range hpo] at h0
    simp only [Option.map_some, byteAt, if_neg (show ¬0 ≤ offset + ((0 : Nat) : Int) by omega)] at h0
    cases h : (bytes taken)[0]? <;> simp [h] at h0

/-- `slice` with room for as many segments as the view has returns; what it returns is right if there is nothing
to take, or the offset is in the first segment that has bytes. Otherwise it is wrong, for a view that has no byte
twice. -/
theorem slice_correct_iff (view : List Iovec) (count : Nat) (offset : Int) (slots : Nat) (h1 : slots ≠ 0)
    (hs : view.length ≤ slots) :
    ∃ r, slice view count offset slots = some r ∧ (InFirst view count offset → Correct view count offset r) ∧
      ((bytes view).Nodup → Correct view count offset r → InFirst view count offset) := by
  unfold slice
  rw [if_neg h1]
  have hsl : ([] : List Iovec).length + view.length ≤ slots := by simpa using hs
  rcases lt_or_ge offset 0 with ho | ho
  · obtain ⟨taken, ht, hb⟩ := sliceLoop_past view count 0 [] 0 ho hsl
    have h := slice_negative ho hb
    refine ⟨(sum taken, taken), ?_, h.1, fun _ => h.2⟩
    rw [ht]
    simp
  · obtain ⟨k, rfl⟩ := Int.eq_ofNat_of_zero_le ho
    obtain ⟨taken, ht, hb⟩ := sliceLoop_eq view count k [] 0 hsl
    refine ⟨(sum taken, taken), ?_, slice_nat hb⟩
    rw [ht]
    simp

/-- The offset is in the first of two segments, and bytes of both are taken. -/
theorem slice_correct_iff_first : ∃ r, slice [⟨0, 3⟩, ⟨8, 5⟩] 4 1 2 = some r ∧ r.1 = 4 ∧
    Correct [⟨0, 3⟩, ⟨8, 5⟩] 4 1 r := by
  obtain ⟨r, hr, hco, -⟩ := slice_correct_iff [⟨0, 3⟩, ⟨8, 5⟩] 4 1 2 (by decide) (by decide)
  have h := hco (.inr (.inr (by decide)))
  exact ⟨r, hr, h.1, h⟩

/-- The offset is in the second segment: one byte is returned, and not the first of the two that were asked for. -/
theorem slice_skipped : slice [⟨0, 3⟩, ⟨8, 5⟩] 2 4 2 = some (1, [⟨12, 1⟩]) ∧ wanted [⟨0, 3⟩, ⟨8, 5⟩] 2 4 = 2 ∧
    byteAt [⟨0, 3⟩, ⟨8, 5⟩] 4 = some 9 ∧ ¬Correct [⟨0, 3⟩, ⟨8, 5⟩] 2 4 (1, [⟨12, 1⟩]) := by
  decide

end Photon.Iovector
