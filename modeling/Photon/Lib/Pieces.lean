import Photon.Lib.LittleEndian
/-!
# A buffer in pieces

A list of addresses without duplicates is a buffer that may lie in pieces. `Mirrors` says
that it holds what a buffer in one piece holds; bytes that go to some of the addresses are
then bytes that go to a range of that buffer.
-/

open Function

section Scatter

variable {β : Type} {mem : Nat → β} {as : List Nat}

lemma scatter_of_notMem {x : Nat} (h : x ∉ as) (bs : List β) : scatter mem as bs x = mem x := by
  induction as generalizing mem bs with
  | nil => rfl
  | cons a as ih =>
    rw [List.mem_cons, not_or] at h
    cases bs with
    | nil => rfl
    | cons b =>
      rw [scatter, ih h.2]
      exact update_of_ne h.1 b mem

lemma scatter_congr {mem' : Nat → β} {x : Nat} (h : mem x = mem' x) (as : List Nat) (bs : List β) :
    scatter mem as bs x = scatter mem' as bs x := by
  induction as generalizing mem mem' bs with
  | nil => exact h
  | cons a as ih =>
    cases bs with
    | nil => exact h
    | cons =>
      apply ih
      by_cases hx : x = a
      · rw [hx, update_self, update_self]
      · rw [update_of_ne hx, update_of_ne hx, h]

lemma scatter_getElem (hn : as.Nodup) (bs : List β) {i : Nat} (h : i < as.length) :
    scatter mem as bs as[i] = bs.getD i (mem as[i]) := by
  induction as generalizing mem bs i with
  | nil => cases h
  | cons a as ih =>
    rw [List.nodup_cons] at hn
    cases bs with
    | nil => rfl
    | cons b bs =>
      cases i with
      | zero =>
        rw [List.getElem_cons_zero, scatter, scatter_of_notMem hn.1]
        exact update_self a b mem
      | succ i =>
        have hi : i < as.length := Nat.lt_of_succ_lt_succ h
        have hne : as[i] ≠ a := fun he => hn.1 (he ▸ List.getElem_mem hi)
        rw [List.getElem_cons_succ, scatter, ih hn.2 bs hi, update_of_ne hne]
        rfl

lemma take_map_scatter (mem : Nat → β) (hn : as.Nodup) {bs : List β} (hle : bs.length ≤ as.length) :
    (as.map (scatter mem as bs)).take bs.length = bs := by
  apply List.ext_getElem (by simp [min_eq_left hle])
  intro i hi hi'
  rw [List.getElem_take, List.getElem_map, scatter_getElem hn bs (by omega), List.getD_eq_getElem _ _ hi']

lemma scatter_addresses (mem : Nat → β) (a : Nat) (bs : List β) :
    scatter mem (addresses a bs.length) bs = writeBytes mem a bs := by
  funext x
  by_cases hx : a ≤ x ∧ x < a + bs.length
  · have hi : x - a < (addresses a bs.length).length := by
      rw [addresses_length]
      omega
    have hat : (addresses a bs.length)[x - a] = x := by
      simp only [addresses, List.getElem_map, List.getElem_range]
      omega
    have hv := @scatter_getElem _ mem _ (addresses_nodup a bs.length) bs _ hi
    rw [hat] at hv
    rw [hv, writeBytes_of_mem mem hx.1 hx.2 (mem x)]
  · rw [scatter_of_notMem (fun hm => hx (mem_addresses.1 hm)), writeBytes_of_notMem mem (by omega)]

lemma copyBytes_zip {dst src : List Nat} (h : ∀ a ∈ dst, a ∉ src) :
    copyBytes mem (dst.zip src) = scatter mem dst (src.map mem) := by
  induction dst generalizing mem src with
  | nil => rfl
  | cons d dst ih =>
    cases src with
    | nil => rfl
    | cons s src =>
      have hd := h d List.mem_cons_self
      rw [List.mem_cons, not_or] at hd
      have hsa : src.map (update mem d (mem s)) = src.map mem := by
        apply List.map_congr_left
        intro x hx
        apply update_of_ne
        rintro rfl
        exact hd.2 hx
      rw [List.zip_cons_cons, copyBytes, ih fun a ha hs => h a (List.mem_cons_of_mem d ha) (List.mem_cons_of_mem s hs),
        hsa]
      rfl

end Scatter

/-- The addresses `as`, taken as one buffer, hold `ptr`; everything else is as in `mem0`. -/
structure Mirrors {β : Type} (as : List Nat) (mem0 mem ptr : Nat → β) : Prop where
  inside : ∀ i (h : i < as.length), mem as[i] = ptr i
  outside : ∀ x, x ∉ as → mem x = mem0 x

namespace Mirrors

open List

variable {β : Type} {as : List Nat} {mem0 mem ptr : Nat → β}

section
variable (h : Mirrors as mem0 mem ptr)
include h

lemma scatter_drop (hn : as.Nodup) (o : Nat) (bs : List β) :
    Mirrors as mem0 (scatter mem (as.drop o) bs) (writeBytes ptr o bs) := by
  constructor
  · intro i hi
    unfold writeBytes
    by_cases ho : o ≤ i
    · have hi' : i - o < (as.drop o).length := by
        rw [length_drop]
        omega
      have hat : as[i] = (as.drop o)[i - o] := by
        rw [getElem_drop]
        congr 1
        omega
      rw [if_pos ho, hat, scatter_getElem (hn.sublist (drop_sublist o as)) bs hi', ← hat, h.inside i hi]
    · -- the address is not among those from the `o`-th on
      have hno : as[i] ∉ as.drop o := by
        intro hm
        obtain ⟨j, hj, he⟩ := getElem_of_mem hm
        rw [getElem_drop] at he
        have := (hn.getElem_inj_iff).1 he
        omega
      rw [if_neg ho, scatter_of_notMem hno, h.inside i hi]
  · intro x hx
    rw [scatter_of_notMem (fun hm => hx (mem_of_mem_drop hm)), h.outside x hx]

lemma scatter_take (hnd : as.Nodup) {o n : Nat} {bs : List β} (hn : bs.length ≤ ((as.drop o).take n).length) :
    Mirrors as mem0 (scatter mem ((as.drop o).take n) bs) (writeBytes ptr o bs) := by
  rw [← scatter_short mem hn ((as.drop o).drop n), take_append_drop]
  exact h.scatter_drop hnd o bs

lemma map_eq : as.map mem = readBytes ptr 0 as.length := by
  apply ext_getElem (by simp)
  intro i hi _
  rw [length_map] at hi
  rw [getElem_map, h.inside i hi, getElem_readBytes, zero_add]

end

end Mirrors
