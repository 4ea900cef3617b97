import Mathlib.Order.Bounds.Defs
import Photon.Common.ObjectCache
/-!
# The idle list of an ExpireContainerBase

`enqueue` gives an item its time and puts it at the end of `_list`, so with a clock
that does not go back the list is in the order of these times. `expire` looks at the
items from the front on and stops at the first that is to stay.
-/

namespace Photon.ObjectCache

open Function List

variable {K V : Type}

inductive Op (K V : Type) where
  /-- `insert` of an item that is not in the set. -/
  | insert (i : Nat) (it : Item K V)
  | enqueue (i : Nat)
  /-- `_list.pop`. -/
  | pop (i : Nat)
  /-- `_set.erase` of an item that is not on the list. -/
  | erase (i : Nat)
  | clear
  | expire
  | time (now : Nat)

section Code

variable [DecidableEq K]

def Data.expire (d : Data K V) (limit : Nat) : Data K V :=
  let r := d.expireLoop limit d.list d.set
  { d with list := r.2.1, set := r.2.2 }

def Data.enqueue (d : Data K V) (lifespan i : Nat) (it : Item K V) : Data K V :=
  { d.setItem i { it with timeout := satAdd d.now lifespan } with list := d.list.erase i ++ [i] }

def Data.op (lifespan limit : Nat) (d : Data K V) : Op K V → Option (Data K V)
  | .insert i it =>
    if i ∈ d.set then none
    else if (d.find it.key).isSome then some d
    else some { d.setItem i it with set := d.set ++ [i] }
  | .enqueue i => if i ∈ d.set then (d.items i).map (d.enqueue lifespan i) else none
  | .pop i => some { d with list := d.list.erase i }
  | .erase i => if i ∈ d.set ∧ i ∉ d.list then some { d with set := d.setErase d.set i } else none
  | .clear => some { d with list := [], set := [] }
  | .expire => some (d.expire limit)
  | .time now => if d.now ≤ now then some { d with now := now } else none

def container (K V : Type) [DecidableEq K] (lifespan limit : Nat) : Machine (Data K V) (Op K V) :=
  ⟨{}, Data.op lifespan limit⟩

end Code

def InOrder (items : Nat → Option (Item K V)) (list : List Nat) : Prop :=
  list.Pairwise fun i j => ∀ a ∈ items i, ∀ b ∈ items j, a.timeout ≤ b.timeout

structure Ordered (lifespan : Nat) (d : Data K V) : Prop where
  indexed : Indexed d.keyOf d.list d.set
  sorted : InOrder d.items d.list
  due : ∀ i ∈ d.list, ∃ it ∈ d.items i, it.timeout ≤ satAdd d.now lifespan

variable {d d' : Data K V} {lifespan limit i : Nat} {it it' : Item K V} {set list : List Nat}

lemma Ordered.empty (d : Data K V) : Ordered lifespan { d with list := [], set := [] } where
  indexed := ⟨nodup_nil, fun _ hi => absurd hi not_mem_nil, nodup_nil, fun _ hi => absurd hi not_mem_nil⟩
  sorted := .nil
  due _ hi := absurd hi not_mem_nil

section
variable (h : Ordered lifespan d)
include h

lemma Ordered.shrink (hid : Indexed d.keyOf list set) (hli : list.Sublist d.list) :
    Ordered lifespan { d with list := list, set := set } :=
  ⟨hid, h.sorted.sublist hli, fun i hi => h.due i (hli.subset hi)⟩

lemma Ordered.others (hli : list.Sublist d.list) (hi : i ∉ list) (it : Item K V) :
    InOrder (update d.items i (some it)) list ∧
      ∀ j ∈ list, ∃ jt ∈ update d.items i (some it) j, jt.timeout ≤ satAdd d.now lifespan := by
  have hite : ∀ j ∈ list, update d.items i (some it) j = d.items j := fun j hj =>
    update_of_ne (fun he : j = i => hi (he ▸ hj)) _ _
  refine ⟨(h.sorted.sublist hli).imp_of_mem fun {a b} ha hb hab => ?_, fun j hj => ?_⟩
  · rwa [hite a ha, hite b hb]
  · rw [hite j hj]
    exact h.due j (hli.subset hj)

lemma Ordered.enqueue (hi : i ∈ d.set) (hit : d.items i = some it) (hk : it'.key = it.key)
    (ht : it'.timeout = satAdd d.now lifespan) :
    Ordered lifespan { d.setItem i it' with list := d.list.erase i ++ [i] } := by
  obtain ⟨hso, hd⟩ := h.others erase_sublist h.indexed.list_nodup.not_mem_erase it'
  have hse : update d.items i (some it') i = some it' := update_self ..
  refine ⟨Data.keyOf_setItem_eq hit hk ▸ h.indexed.requeue hi, ?_, fun j hj => ?_⟩
  · -- every other item was enqueued before
    refine pairwise_append.2 ⟨hso, pairwise_singleton .., fun a ha b hb x hx y hy => ?_⟩
    obtain ⟨x', hx', hle⟩ := hd a ha
    cases hx.symm.trans hx'
    rw [mem_singleton.1 hb] at hy
    cases hse.symm.trans hy
    exact ht ▸ hle
  · rcases mem_append.1 hj with hj | hj
    · exact hd j hj
    · rw [mem_singleton.1 hj]
      exact ⟨_, hse, le_of_eq ht⟩

variable [DecidableEq K]

lemma Ordered.op {o : Op K V} (ho : d.op lifespan limit o = some d') : Ordered lifespan d' := by
  cases o with simp only [Data.op] at ho
  | insert i it =>
    split at ho
    · cases ho
    next hi =>
      split at ho <;> cases ho
      · exact h
      next hf =>
        obtain ⟨hso, hd⟩ := h.others (.refl _) (fun hl => hi (h.indexed.list_set i hl)) it
        exact ⟨h.indexed.insert it hi (Data.find_none (by simpa using hf)), hso, hd⟩
  | enqueue =>
    split at ho
    next hi =>
      obtain ⟨it, hit, rfl⟩ := Option.map_eq_some_iff.1 ho
      exact h.enqueue hi hit rfl rfl
    · cases ho
  | pop =>
    cases ho
    exact h.shrink (h.indexed.part (.refl _) erase_sublist fun j hj => h.indexed.list_set j (mem_of_mem_erase hj))
      erase_sublist
  | erase =>
    split at ho <;> cases ho
    next hi =>
      obtain ⟨hsu, hm⟩ := h.indexed.mem_setErase hi.1
      exact h.shrink (h.indexed.part hsu (.refl _) fun j hj =>
        (hm j).2 ⟨h.indexed.list_set j hj, fun heq => hi.2 (heq ▸ hj)⟩) (.refl _)
  | clear =>
    cases ho
    exact .empty d
  | expire =>
    cases ho
    have he := h.indexed.expireLoop_spec limit
    exact h.shrink he.indexed (IsSuffix.sublist ⟨_, he.append⟩)
  | time =>
    split at ho <;> cases ho
    next hle =>
      refine ⟨h.indexed, h.sorted, fun j hj => ?_⟩
      obtain ⟨jt, hjt, hd⟩ := h.due j hj
      exact ⟨jt, hjt, le_trans hd (by dsimp only [satAdd]; omega)⟩

end

/-- Nothing is to go when the first `n` items are gone from the list and from the set. -/
def Data.Kept (d : Data K V) (limit n : Nat) : Prop := ∀ x ∈ (d.list.drop n).head?, ¬ d.Goes limit (d.set.length - n) x

/-- After every history the idle list is in order, and `expire` takes from list and set the shortest part of its front
behind which no item is expired and the set is within the limit. -/
theorem expire_shortest [DecidableEq K] (lifespan limit : Nat) (os : List (Op K V)) (d : Data K V)
    (hrun : (container K V lifespan limit).run os = some d) :
    InOrder d.items d.list ∧ ∃ n, IsLeast {n | d.Kept limit n} n ∧ (d.expire limit).list = d.list.drop n ∧
      (∀ x, x ∈ (d.expire limit).set ↔ x ∈ d.set ∧ x ∉ d.list.take n) ∧
      ∀ x ∈ (d.expire limit).list, ∀ it ∈ d.items x, d.now ≤ it.timeout := by
  have h : Ordered lifespan d := Machine.run_inv (M := container K V lifespan limit) (.empty {}) (fun hi => hi.op) hrun
  obtain ⟨-, ha, -, hm, hk, hg⟩ := h.indexed.expireLoop_spec limit
  unfold Data.expire
  generalize d.expireLoop limit d.list d.set = r at *
  dsimp only
  have hd : d.list.drop r.1.length = r.2.1 := by rw [← ha, drop_left]
  have ht : d.list.take r.1.length = r.1 := by rw [← ha, take_left]
  refine ⟨h.sorted, r.1.length, ⟨?_, fun n hn => ?_⟩, hd.symm, by rwa [ht], fun x hx it hit => ?_⟩
  · change d.Kept limit r.1.length
    rwa [Data.Kept, hd]
  · by_contra hlt
    obtain ⟨x, hx, hx'⟩ := hg n (Nat.lt_of_not_le hlt)
    exact hn x hx hx'
  · -- what is behind the first is not expired either
    have hso := h.sorted
    rw [InOrder, ← ha, pairwise_append] at hso
    cases hr : r.2.1 with
    | nil =>
      rw [hr] at hx
      cases hx
    | cons y =>
      rw [hr] at hx hk hso
      have hf := hk y rfl
      obtain ⟨jt, hj, -⟩ := h.due y (by rw [← ha, hr]; simp)
      have hno : d.now ≤ jt.timeout := Nat.le_of_not_lt fun hlt => hf (.inl ⟨jt, hj, hlt⟩)
      rcases mem_cons.1 hx with rfl | hx
      · cases hj.symm.trans hit
        exact hno
      · exact le_trans hno ((pairwise_cons.1 hso.2.1).1 x hx jt hj it hit)

/-- Two items enqueued at 0 and 5 with a lifespan of 10: at 12 the first goes, though there is room for two. -/
theorem expire_shortest_two : ∃ d, (container Nat Unit 10 2).run [.insert 0 { key := 7 }, .insert 1 { key := 8 }, .enqueue 0,
      .time 5, .enqueue 1, .time 12] = some d ∧ InOrder d.items [0, 1] ∧ (d.expire 2).list = [1] ∧
      ∃ n, IsLeast {n | d.Kept 2 n} n ∧ (d.expire 2).list = d.list.drop n := by
  have hr : (container Nat Unit 10 2).run [.insert 0 { key := 7 }, .insert 1 { key := 8 }, .enqueue 0, .time 5,
      .enqueue 1, .time 12] = some _ := rfl
  obtain ⟨hso, n, hn, hli, -⟩ := expire_shortest 10 2 _ _ hr
  exact ⟨_, hr, hso, by decide, n, hn, hli⟩

end Photon.ObjectCache
