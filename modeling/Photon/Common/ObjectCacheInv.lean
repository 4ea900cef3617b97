import Photon.Common.ObjectCache
/-!
# The threads of an object cache

Each step keeps the items, the set and the list in order (`Good`), keeps the balance
of references and of recyclers, and leaves to the other threads what they count on
(`Rely`): the mutex and the object of an item they construct, that an item they wait
to recycle stays in the set, and that an item out of the set stays out.
-/

namespace Photon.ObjectCache

open List Function Option Roster Pc Data

variable {limit lifespan : Nat} {K V : Type}

def Pc.holds : Pc K V → Option Nat
  | .mtxLock i _ | .mtxLocked i _ | .ctor i | .mtxUnlock i | .check i | .release i _ _ _ => some i
  | _ => none

def Pc.recycles : Pc K V → Option Nat
  | .semWait i _ _ | .erase i _ _ | .delete i _ _ => some i
  | _ => none

/-- The items a call has taken out of the set and has still to delete. -/
def Pc.deletes : Pc K V → List Nat
  | .delete i _ _ => [i]
  | .deleteAll xs _ _ => xs
  | _ => []

def Pc.holdsItem (i : Nat) (p : Pc K V) : Bool := p.holds = some i

def Pc.recyclesItem (i : Nat) (p : Pc K V) : Bool := p.recycles = some i

def Knows (d : Data K V) (t : Nat) : Pc K V → Prop
  | .mtxLocked i _ | .mtxUnlock i => ∃ it, d.items i = some it ∧ it.mtx = some t
  | .ctor i => ∃ it, d.items i = some it ∧ it.mtx = some t ∧ it.obj = none
  | .semWait i _ _ => i ∈ d.set
  | .erase i _ _ => i ∈ d.set ∧ d.refcnt i = 0
  | .delete i _ _ => i < d.next ∧ i ∉ d.set
  | .deleteAll xs _ _ => ∀ i ∈ xs, i < d.next ∧ i ∉ d.set ∧ d.recycling i = false
  | .idle _ | .find _ _ | .blocked _ _ | .mtxLock _ _ | .check _ | .release _ _ _ _ | .expire _ _ => True

/-- What a step of thread `t` in `p` leaves to the others. -/
structure Rely (t : Nat) (p : Pc K V) (d d' : Data K V) : Prop where
  mtx : ∀ u ≠ t, ∀ i it, d.items i = some it → 0 < it.refcnt → it.mtx = some u →
    ∃ it', d'.items i = some it' ∧ it'.mtx = some u ∧ it'.obj = it.obj
  stays : ∀ i ∈ d.set, p.recycles ≠ some i → d.recycling i = true → i ∈ d'.set
  zero : ∀ i, d.recycling i = true → d.refcnt i = 0 → d'.refcnt i = 0
  gone : ∀ i, i < d.next → i ∉ d.set → i ∉ d'.set ∧ (d.recycling i = false → d'.recycling i = false)
  next_le : d.next ≤ d'.next

variable {d d' : Data K V} {t u i : Nat} {p p' q : Pc K V}

lemma Rely.refl (t : Nat) (p : Pc K V) (d : Data K V) : Rely t p d d where
  mtx := fun _ _ _ it hit _ hm => ⟨it, hit, hm, rfl⟩
  stays := fun _ hi _ _ => hi
  zero := fun _ _ h => h
  gone := fun _ _ h => ⟨h, fun h => h⟩
  next_le := le_rfl

lemma Knows.stable (hr : Rely t p d d') (hu : u ≠ t) (hh : ∀ i, q.holds = some i → 0 < d.refcnt i)
    (hre : ∀ i, q.recycles = some i → d.recycling i = true ∧ p.recycles ≠ some i) (h : Knows d u q) : Knows d' u q := by
  cases q with
  | mtxLocked i cooldown | mtxUnlock i =>
    obtain ⟨it, hit, hm⟩ := h
    obtain ⟨it', hit', hm', -⟩ := hr.mtx u hu i it hit (refcnt_eq hit ▸ hh i rfl) hm
    exact ⟨it', hit', hm'⟩
  | ctor i =>
    obtain ⟨it, hit, hm, ho⟩ := h
    obtain ⟨it', hit', hm', ho'⟩ := hr.mtx u hu i it hit (refcnt_eq hit ▸ hh i rfl) hm
    exact ⟨it', hit', hm', ho'.trans ho⟩
  | semWait i => exact hr.stays i h (hre i rfl).2 (hre i rfl).1
  | erase i => exact ⟨hr.stays i h.1 (hre i rfl).2 (hre i rfl).1, hr.zero i (hre i rfl).1 h.2⟩
  | delete i => exact ⟨lt_of_lt_of_le h.1 hr.next_le, (hr.gone i h.1 h.2).1⟩
  | deleteAll =>
    intro i hi
    obtain ⟨h1, h2, h3⟩ := h i hi
    obtain ⟨h4, h5⟩ := hr.gone i h1 h2
    exact ⟨lt_of_lt_of_le h1 hr.next_le, h4, h5 h3⟩
  | _ => trivial

/-- A step of thread `t` from `p` to `p'`: references and recyclers balance, who takes an item out of the set deletes
it, a reference is added only to an item that is not being recycled, and an item disappears only if nobody refers to it.
-/
structure Keeps (d : Data K V) (t : Nat) (p : Pc K V) (d' : Data K V) (p' : Pc K V) : Prop where
  good : Good d'
  knows : Knows d' t p'
  rely : Rely t p d d'
  references : ∀ i, d'.refcnt i + d.refs.count i + (if p.holdsItem i then 1 else 0) =
    d.refcnt i + d'.refs.count i + (if p'.holdsItem i then 1 else 0)
  recyclers : ∀ i, (if d'.recycling i then 1 else 0) + (if p.recyclesItem i then 1 else 0) =
    (if d.recycling i then 1 else 0) + (if p'.recyclesItem i then 1 else 0)
  out : ∀ i, (d'.items i).isSome = true → i ∉ d'.set →
    i ∈ p'.deletes ∨ (d.items i).isSome = true ∧ i ∉ d.set ∧ i ∉ p.deletes
  taken : ∀ i, d.refcnt i < d'.refcnt i → d'.recycling i = false
  deleted : ∀ i, d'.items i = none → d.refcnt i = 0

open Keeps

/-! ## Kinds of steps -/

variable {j : Nat}

lemma holdsItem_of_holds (h : ∀ k, p.holds = some k → k = i) (hj : j ≠ i) : p.holdsItem j = false := by
  rw [Pc.holdsItem, decide_eq_false_iff_not]
  exact fun hp => hj (h j hp)

lemma recyclesItem_of_recycles (h : ∀ k, p.recycles = some k → k = i) (hj : j ≠ i) : p.recyclesItem j = false := by
  rw [Pc.recyclesItem, decide_eq_false_iff_not]
  exact fun hp => hj (h j hp)

lemma holdsItem_congr (h : p'.holds = p.holds) (i : Nat) : p'.holdsItem i = p.holdsItem i := by
  rw [Pc.holdsItem, Pc.holdsItem, h]

lemma recyclesItem_congr (h : p'.recycles = p.recycles) (i : Nat) : p'.recyclesItem i = p.recyclesItem i := by
  rw [Pc.recyclesItem, Pc.recyclesItem, h]

lemma out_of_eq (hd : p'.deletes = p.deletes) (hl : (d.items j).isSome = true) (hj : j ∉ d.set) :
    j ∈ p'.deletes ∨ (d.items j).isSome = true ∧ j ∉ d.set ∧ j ∉ p.deletes := by
  rw [hd]
  by_cases h : j ∈ p.deletes
  · exact .inl h
  · exact .inr ⟨hl, hj, h⟩

lemma Keeps.move (hg : Good d) (hk : Knows d t p')
    (h : (p'.holds, p'.recycles, p'.deletes) = (p.holds, p.recycles, p.deletes)) : Keeps d t p d p' where
  good := hg
  knows := hk
  rely := Rely.refl t p d
  references := fun i => by rw [holdsItem_congr (congrArg (·.1) h)]
  recyclers := fun i => by rw [recyclesItem_congr (congrArg (·.2.1) h)]
  out := fun _ => out_of_eq (congrArg (·.2.2) h)
  taken := fun i h => absurd h (lt_irrefl _)
  deleted := fun i => refcnt_of_none

lemma Keeps.refs (hg : Good d) {refs : List Nat} (hk : Knows { d with refs := refs } t p')
    (hr : p'.recycles = p.recycles) (hd : p'.deletes = p.deletes)
    (hco : ∀ i, d.refs.count i + (if p.holdsItem i then 1 else 0) = refs.count i + (if p'.holdsItem i then 1 else 0)) :
    Keeps d t p { d with refs := refs } p' where
  good := { hg with }
  knows := hk
  rely := ⟨fun _ _ _ it hit _ hm => ⟨it, hit, hm, rfl⟩, fun _ hi _ _ => hi, fun _ _ h => h, fun _ _ h => ⟨h, fun h => h⟩,
    le_rfl⟩
  references := fun i => by
    have := hco i
    simp only [refcnt]
    omega
  recyclers := fun i => by rw [recyclesItem_congr hr]; rfl
  out := fun _ hl hj => out_of_eq hd hl hj
  taken := fun i h => absurd h (lt_irrefl _)
  deleted := fun i => refcnt_of_none

section Item
variable {it it' : Item K V} {list refs : List Nat}

lemma refcnt_setItem (j : Nat) :
    refcnt { d.setItem i it' with list := list, refs := refs } j = if j = i then it'.refcnt else d.refcnt j := by
  rcases eq_or_ne j i with rfl | hj
  · simp [refcnt, setItem]
  · simp [refcnt, setItem, hj]

lemma recycling_setItem (j : Nat) :
    recycling { d.setItem i it' with list := list, refs := refs } j =
      if j = i then it'.recycle.isSome else d.recycling j := by
  rcases eq_or_ne j i with rfl | hj
  · simp [recycling, setItem]
  · simp [recycling, setItem, hj]

lemma Keeps.setItem (hit : d.items i = some it) (hg : Good { d.setItem i it' with list := list, refs := d.refs })
    (hk : Knows { d.setItem i it' with list := list, refs := d.refs } t p')
    (hh : ∀ j, p.holds = some j → j = i) (hh' : ∀ j, p'.holds = some j → j = i)
    (hr : ∀ j, p.recycles = some j → j = i) (hr' : ∀ j, p'.recycles = some j → j = i) (hd : p'.deletes = p.deletes)
    (hmt : ∀ u ≠ t, it.mtx = some u → 0 < it.refcnt → it'.mtx = some u ∧ it'.obj = it.obj)
    (hze : it.recycle.isSome = true → it.refcnt = 0 → it'.refcnt = 0)
    (hgo : i ∉ d.set → it.recycle = none → it'.recycle = none)
    (href : it'.refcnt + (if p.holdsItem i then 1 else 0) = it.refcnt + (if p'.holdsItem i then 1 else 0))
    (hre : (if it'.recycle.isSome then 1 else 0) + (if p.recyclesItem i then 1 else 0) =
      (if it.recycle.isSome then 1 else 0) + (if p'.recyclesItem i then 1 else 0))
    (ht : it.refcnt < it'.refcnt → it'.recycle = none) :
    Keeps d t p { d.setItem i it' with list := list, refs := d.refs } p' where
  good := hg
  knows := hk
  rely := {
    mtx := by
      intro u hu j jt hjt hpo hm
      rcases eq_or_ne j i with rfl | hj
      · cases hit.symm.trans hjt
        obtain ⟨h1, h2⟩ := hmt u hu hm hpo
        exact ⟨it', update_self .., h1, h2⟩
      · exact ⟨jt, (update_of_ne hj ..).trans hjt, hm, rfl⟩
    stays := fun _ hj _ _ => hj
    zero := by
      intro j hj hz
      rw [refcnt_setItem]
      split
      next he =>
        subst he
        rw [recycling_eq hit] at hj
        rw [refcnt_eq hit] at hz
        exact hze hj hz
      · exact hz
    gone := by
      intro j hj ho
      refine ⟨ho, fun hn => ?_⟩
      rw [recycling_setItem]
      split
      next he =>
        subst he
        rw [recycling_eq hit] at hn
        rw [hgo ho (by simpa using hn)]
        rfl
      · exact hn
    next_le := le_rfl }
  references := by
    intro j
    rw [refcnt_setItem]
    rcases eq_or_ne j i with rfl | hj
    · rw [if_pos rfl, refcnt_eq hit]
      dsimp only
      omega
    · rw [if_neg hj, holdsItem_of_holds hh hj, holdsItem_of_holds hh' hj]
  recyclers := by
    intro j
    rw [recycling_setItem]
    rcases eq_or_ne j i with rfl | hj
    · rw [if_pos rfl, recycling_eq hit]
      exact hre
    · rw [if_neg hj, recyclesItem_of_recycles hr hj, recyclesItem_of_recycles hr' hj]
  out := by
    intro j hl hj
    refine out_of_eq hd ?_ hj
    by_cases hji : j = i
    · rw [hji, hit]
      rfl
    · rw [← hl]
      exact congrArg isSome (update_of_ne hji ..).symm
  taken := by
    intro j hlt
    rw [refcnt_setItem] at hlt
    rw [recycling_setItem]
    split at hlt
    next he =>
      subst he
      rw [refcnt_eq hit] at hlt
      rw [if_pos rfl, ht hlt]
      rfl
    · exact absurd hlt (lt_irrefl _)
  deleted := by
    intro j hj
    rcases eq_or_ne j i with rfl | hji
    · cases (update_self ..).symm.trans hj
    · have hjn : d.items j = none := (update_of_ne hji ..).symm.trans hj
      exact refcnt_of_none hjn

end Item

lemma Keeps.delete (hg : Good d) (ho : i ∉ d.set) (hite : d' = { d with items := update d.items i none })
    (hk : Knows d' t p') (hh : p.holds = none) (hh' : p'.holds = none) (hr : ∀ j, p.recycles = some j → j = i)
    (hr' : p'.recycles = none) (hd : ∀ j ∈ p.deletes, j ≠ i → j ∈ p'.deletes) (hrec : d.recycling i = p.recyclesItem i) :
    Keeps d t p d' p' := by
  have hze := hg.refcnt_of_notMem ho
  have hcn : ∀ j, d'.refcnt j = d.refcnt j := by
    intro j
    rcases eq_or_ne j i with rfl | hj
    · rw [hze]
      simp [refcnt, hite]
    · simp [refcnt, hite, hj]
  have hre : ∀ j, j ≠ i → d'.recycling j = d.recycling j := fun j hj => by simp [recycling, hite, hj]
  have hse : d'.recycling i = false := by simp [recycling, hite]
  subst hite
  refine {
    good := hg.delete ho
    knows := hk
    rely := ⟨?_, fun _ hj _ _ => hj, fun j _ hz => (hcn j).trans hz, fun j _ hj => ⟨hj, fun hn => ?_⟩, le_rfl⟩
    references := fun j => by simp only [hcn, Pc.holdsItem, hh, hh']
    recyclers := fun j => ?_
    out := fun j hl hj => ?_
    taken := fun j hlt => absurd hlt (by rw [hcn j]; exact lt_irrefl _)
    deleted := fun j hj => ?_ }
  · intro u _ j jt hjt hpo hm
    have hji : j ≠ i := by
      rintro rfl
      rw [refcnt_eq hjt] at hze
      omega
    exact ⟨jt, (update_of_ne hji ..).trans hjt, hm, rfl⟩
  · by_cases hji : j = i
    · exact hji ▸ hse
    · exact (hre j hji).trans hn
  · have hno : p'.recyclesItem j = false := by simp [Pc.recyclesItem, hr']
    rw [hno]
    rcases eq_or_ne j i with rfl | hji
    · rw [hse, hrec]
      simp
    · rw [hre j hji, recyclesItem_of_recycles hr hji]
  · dsimp only at hl
    have hji : j ≠ i := by
      rintro rfl
      rw [update_self] at hl
      cases hl
    rw [update_of_ne hji] at hl
    by_cases hp : j ∈ p.deletes
    · exact .inl (hd j hp hji)
    · exact .inr ⟨hl, hj, hp⟩
  · rw [← hcn j]
    exact refcnt_of_none hj

lemma Keeps.remove {set list : List Nat} (hg : Good { d with set := set, list := list })
    (hk : Knows { d with set := set, list := list } t p') (hh : p'.holds = p.holds) (hr : p'.recycles = p.recycles)
    (hd : p.deletes = []) (hd' : ∀ j ∈ d.set, j ∉ set → j ∈ p'.deletes) (hse : ∀ j ∈ set, j ∈ d.set)
    (hst : ∀ j ∈ d.set, p.recycles ≠ some j → d.recycling j = true → j ∈ set) :
    Keeps d t p { d with set := set, list := list } p' where
  good := hg
  knows := hk
  rely := ⟨fun _ _ _ it hit _ hm => ⟨it, hit, hm, rfl⟩, hst, fun _ _ h => h,
    fun _ _ hj => ⟨fun h => hj (hse _ h), fun h => h⟩, le_rfl⟩
  references := fun i => by rw [holdsItem_congr hh]; rfl
  recyclers := fun i => by rw [recyclesItem_congr hr]; rfl
  out := by
    intro j hl hj
    by_cases hjd : j ∈ d.set
    · exact .inl (hd' j hjd hj)
    · exact .inr ⟨hl, hjd, by simp [hd]⟩
  taken := fun i h => absurd h (lt_irrefl _)
  deleted := fun i => refcnt_of_none

variable {key : K}

lemma Keeps.insert [DecidableEq K] (hg : Good d) (h : d.find key = none) (hk : Knows (d.insert key) t p')
    (hh : p.holds = none) (hh' : p'.holds = some d.next) (hr : p.recycles = none) (hr' : p'.recycles = none)
    (hd : p'.deletes = p.deletes) : Keeps d t p (d.insert key) p' := by
  have hno : d.items d.next = none := hg.fresh _ le_rfl
  have hse : (d.insert key).items d.next = some { key := key, refcnt := 1 } := update_self ..
  have hite : ∀ j, j ≠ d.next → (d.insert key).items j = d.items j := fun j hj => update_of_ne hj ..
  have hcn : ∀ j, (d.insert key).refcnt j = d.refcnt j + if d.next = j then 1 else 0 := by
    intro j
    rcases eq_or_ne d.next j with rfl | hj
    · rw [refcnt_eq hse, if_pos rfl, refcnt, hno]
    · rw [if_neg hj, refcnt, hite j (Ne.symm hj)]
      rfl
  have hre : ∀ j, (d.insert key).recycling j = d.recycling j := by
    intro j
    rcases eq_or_ne j d.next with rfl | hj
    · rw [recycling_eq hse, recycling, hno]
      rfl
    · rw [recycling, hite j hj]
      rfl
  refine {
    good := hg.insert h
    knows := hk
    rely := ⟨?_, fun j hj _ _ => mem_append_left _ hj, fun j hj hz => ?_, fun j hj ho => ⟨?_, fun hn => ?_⟩,
      Nat.le_succ _⟩
    references := fun j => ?_
    recyclers := fun j => by simp only [hre, Pc.recyclesItem, hr, hr']
    out := fun j hl hj => ?_
    taken := fun j hlt => ?_
    deleted := fun j hj => ?_ }
  · intro u _ j jt hjt _ hm
    have hj : j ≠ d.next := by
      rintro rfl
      rw [hno] at hjt
      cases hjt
    exact ⟨jt, (hite j hj).trans hjt, hm, rfl⟩
  · have hj' : d.next ≠ j := by
      rintro rfl
      rw [recycling, hno] at hj
      cases hj
    rw [hcn j, if_neg hj', hz]
  · intro hme
    rcases mem_append.1 hme with hme | hme
    · exact ho hme
    · have := mem_singleton.1 hme
      omega
  · rw [hre j, hn]
  · have href : (d.insert key).refs = d.refs := rfl
    simp only [hcn, href, holdsItem, hh, hh', reduceCtorEq, decide_false, Bool.false_eq_true, if_false,
      some.injEq, decide_eq_true_eq]
    omega
  · have hjn : j ≠ d.next := by
      rintro rfl
      exact hj (by simp [Data.insert])
    rw [hite j hjn] at hl
    exact out_of_eq hd hl (fun hme => hj (mem_append_left _ hme))
  · rw [hcn j] at hlt
    rw [hre j]
    split at hlt
    · next he => rw [← he, recycling, hno]
    · omega
  · rcases eq_or_ne j d.next with rfl | hjn
    · rw [hse] at hj
      cases hj
    · rw [hite j hjn] at hj
      exact refcnt_of_none hj

/-! ## Every step -/

section Step
variable {it it' : Item K V}

lemma Keeps.touch (hg : Good d) (hit : d.items i = some it) (hp : p.holds = some i) (hp' : p'.holds = some i)
    (hr : p.recycles = none) (hr' : p'.recycles = none) (hd : p'.deletes = p.deletes)
    (hk : Knows (d.setItem i it') t p') (hke : it'.key = it.key)
    (hcn : it'.refcnt = it.refcnt) (hre : it'.recycle = it.recycle)
    (hmt : ∀ u ≠ t, it.mtx = some u → it'.mtx = some u ∧ it'.obj = it.obj) : Keeps d t p (d.setItem i it') p' := by
  have hgo : Good { d.setItem i it' with list := d.list, refs := d.refs } :=
    hg.setItem hit hke hg.list_nodup (fun _ _ => Iff.rfl) (hg.list_set i)
      (fun hi => by rw [hcn, hre]; exact hg.idle i hi it hit)
      (fun hpo => hg.referenced i (by rw [refcnt_eq hit]; omega))
      (fun c hc => by rw [hcn]; exact hg.signalled i it c hit (hre ▸ hc))
  have hh : p.holdsItem i = true := by simp [Pc.holdsItem, hp]
  have hh' : p'.holdsItem i = true := by simp [Pc.holdsItem, hp']
  refine setItem hit hgo hk (fun j hj => ?_) (fun j hj => ?_) (fun j hj => ?_) (fun j hj => ?_) hd
    (fun u hu hm _ => hmt u hu hm) (fun _ => hcn.trans) (fun _ => hre.trans) (by rw [hcn, hh, hh'])
    (by rw [hre, recyclesItem_congr (hr'.trans hr.symm)]) (fun h => absurd h (by omega))
  · exact (some.inj (hp.symm.trans hj)).symm
  · exact (some.inj (hp'.symm.trans hj)).symm
  · cases hr.symm.trans hj
  · cases hr'.symm.trans hj

variable {cooldown lifespan : Nat} {destroy more : Bool}

section
variable (hg : Good d)
include hg

/-- An item that is being recycled is not on the list: popping it changes nothing. -/
lemma keeps_find_recycling [DecidableEq K] (hf : d.find key = some i)
    (hit : d.items i = some it) (hr : it.recycle.isSome = true) :
    Keeps d t (.find key cooldown) { d with list := d.list.erase i } (.blocked key cooldown) := by
  have hn : i ∉ d.list := fun hl => by
    rw [((hg.idle i (find_some hf).1 it hit).1 hl).2] at hr
    cases hr
  rw [erase_of_not_mem hn]
  exact move hg trivial rfl

lemma keeps_find [DecidableEq K] (hf : d.find key = some i)
    (hit : d.items i = some it) (hr : it.recycle = none) :
    Keeps d t (.find key cooldown) { d.setItem i { it with refcnt := it.refcnt + 1 } with list := d.list.erase i }
      (.mtxLock i cooldown) := by
  have hse := (find_some hf).1
  have hn : i ∉ d.list.erase i := hg.list_nodup.not_mem_erase
  refine setItem hit (hg.setItem hit rfl (hg.list_nodup.erase i) (fun j => mem_erase_of_ne) ?_ ?_
    (fun _ => hse) ?_) trivial nofun (fun _ h => (some.inj h).symm) nofun
    nofun rfl (fun _ _ hm _ => ⟨hm, rfl⟩) ?_ (fun _ h => h) ?_ rfl (fun _ => hr)
  · exact fun h => absurd h hn
  · exact fun _ => ⟨fun h => absurd h hn, fun h => absurd h.1 (Nat.succ_ne_zero _)⟩
  · intro c hc
    rw [hr] at hc
    cases hc
  · intro hs
    rw [hr] at hs
    cases hs
  · simp [Pc.holdsItem, Pc.holds]

lemma keeps_release [DecidableEq K] {recycle : Bool} (hit : d.items i = some it) (hpo : 0 < it.refcnt) :
    Keeps d t (.release i recycle destroy more) (d.refRelease lifespan i it recycle).1
      (if (d.refRelease lifespan i it recycle).2 then .semWait i destroy more else .expire none more) := by
  have hset : i ∈ d.set := hg.referenced i (by rw [refcnt_eq hit]; exact hpo)
  obtain ⟨it', list, he, hr⟩ := hg.refRelease_spec lifespan hit hpo recycle
  generalize d.refRelease lifespan i it recycle = r at he hr ⊢
  obtain ⟨d', waits⟩ := r
  obtain rfl : d' = _ := he
  have hgo : Good { d.setItem i it' with list := list, refs := d.refs } :=
    hg.setItem hit hr.key hr.nodup hr.others (fun _ => hset) (fun _ => hr.idle) (fun _ => hset) hr.signalled
  have hse : (Pc.release i recycle destroy more : Pc K V).holdsItem i = true := by simp [Pc.holdsItem, Pc.holds]
  have hcn := hr.refcnt
  refine setItem hit hgo ?_ (fun j hj => (some.inj hj).symm) (fun j hj => ?_) (fun j hj => by cases hj)
    (fun j hj => ?_) ?_ (fun u _ hu _ => ⟨hr.mtx.trans hu, hr.obj⟩) (fun _ h0 => by omega) (fun h => absurd hset h) ?_ ?_
    (fun h => by omega)
  · cases waits with
    | true => exact hset
    | false => trivial
  · cases waits <;> cases hj
  · cases waits with
    | true => exact (some.inj hj).symm
    | false => cases hj
  · cases waits <;> rfl
  · rw [hse]
    cases waits <;> simpa [Pc.holdsItem, Pc.holds] using hcn
  · cases waits with
    | true =>
      obtain ⟨h1, h2⟩ := hr.recycles rfl
      simp [Pc.recyclesItem, Pc.recycles, h1, h2]
    | false => simp [Pc.recyclesItem, Pc.recycles, hr.keeps rfl]

lemma keeps_semWait {c : Nat} (hse : i ∈ d.set) (hit : d.items i = some it) (hr : it.recycle = some (c + 1)) :
    Keeps d t (.semWait i destroy more) (d.setItem i { it with recycle := some c }) (.erase i destroy more) := by
  have h0 := hg.signalled i it c hit hr
  have hn : i ∉ d.list := fun hl => by
    rw [((hg.idle i hse it hit).1 hl).2] at hr
    cases hr
  have hgo : Good { d.setItem i { it with recycle := some c } with list := d.list, refs := d.refs } :=
    hg.setItem hit rfl hg.list_nodup (fun _ _ => Iff.rfl) (fun _ => hse)
      (fun _ => ⟨fun h => absurd h hn, (fun h => by cases h.2)⟩) (fun _ => hse) (fun _ _ => h0)
  refine setItem hit hgo ⟨hse, ?_⟩ nofun nofun
    (fun _ h => (some.inj h).symm) (fun _ h => (some.inj h).symm) rfl (fun _ _ hm _ => ⟨hm, rfl⟩) (fun _ h => h)
    (fun h => absurd hse h) rfl ?_ (fun h => absurd h (lt_irrefl _))
  · rw [refcnt_setItem, if_pos rfl]
    exact h0
  · rw [hr]
    rfl

lemma keeps_erase [DecidableEq K] (hse : i ∈ d.set) (h0 : d.refcnt i = 0) (hr : d.recycling i = true) :
    Keeps d t (.erase i destroy more) { d with set := d.setErase d.set i } (.delete i destroy more) := by
  obtain ⟨it, hit⟩ := hg.set_live i hse
  obtain ⟨hsu, hm⟩ := hg.indexed.mem_setErase hse
  have hn : i ∉ d.list := fun hl => by
    rw [recycling_eq hit, ((hg.idle i hse it hit).1 hl).2] at hr
    cases hr
  have hgo : ∀ j ∈ d.set, j ∉ d.setErase d.set i → j = i := fun j hj ho =>
    Decidable.byContradiction fun hne => ho ((hm j).2 ⟨hj, hne⟩)
  have hgoo : Good { d with set := d.setErase d.set i, list := d.list } := by
    refine hg.remove (hg.indexed.part hsu (.refl _) fun j hj => ?_) hsu (fun _ _ => Iff.rfl) (fun j hj ho => ?_)
    · exact (hm j).2 ⟨hg.list_set j hj, fun he => hn (he ▸ hj)⟩
    · rw [hgo j hj ho]
      exact h0
  refine remove hgoo ⟨hg.lt_next hit, fun h => ((hm i).1 h).2 rfl⟩ rfl rfl rfl (fun j hj ho => ?_)
    (fun j hj => ((hm j).1 hj).1) (fun j hj hne _ => ?_)
  · exact mem_singleton.2 (hgo j hj ho)
  · exact (hm j).2 ⟨hj, fun he => hne (he ▸ rfl)⟩

lemma keeps_expire [DecidableEq K] {ret : Option V} : Keeps d t (.expire ret more)
      { d with list := (d.expireLoop limit d.list d.set).2.1, set := (d.expireLoop limit d.list d.set).2.2 }
      (.deleteAll (d.expireLoop limit d.list d.set).1 ret more) := by
  obtain ⟨hidx, ha, hsu, hm, -⟩ := hg.indexed.expireLoop_spec limit
  generalize d.expireLoop limit d.list d.set = r at hidx ha hsu hm ⊢
  obtain ⟨xs, list, set⟩ := r
  dsimp only at hidx ha hsu hm ⊢
  -- what is taken off the list has no references and is not being recycled
  have hid : ∀ j ∈ d.list, d.refcnt j = 0 ∧ d.recycling j = false := by
    intro j hj
    obtain ⟨jt, hjt⟩ := hg.set_live j (hg.list_set j hj)
    obtain ⟨h1, h2⟩ := (hg.idle j (hg.list_set j hj) jt hjt).1 hj
    exact ⟨by rw [refcnt_eq hjt, h1], by rw [recycling_eq hjt, h2]; rfl⟩
  have hxs : ∀ j ∈ xs, j ∈ d.list := fun j hj => by
    rw [← ha]
    exact mem_append_left _ hj
  have hgo : ∀ j ∈ d.set, j ∉ set → j ∈ xs := fun j hj ho =>
    Decidable.byContradiction fun hx => ho ((hm j).2 ⟨hj, hx⟩)
  have hgoo : Good { d with set := set, list := list } := by
    refine hg.remove hidx hsu (fun j hj => ?_) (fun j hj ho => ?_)
    · rw [← ha, mem_append]
      exact ⟨.inr, fun h => h.resolve_left ((hm j).1 hj).2⟩
    · exact (hid j (hxs j (hgo j hj ho))).1
  refine remove hgoo (fun j hj => ?_) rfl rfl rfl hgo (fun j hj => ((hm j).1 hj).1) (fun j hj _ hr => ?_)
  · obtain ⟨jt, hjt⟩ := hg.set_live j (hg.list_set j (hxs j hj))
    exact ⟨hg.lt_next hjt, fun h => ((hm j).1 h).2 hj, (hid j (hxs j hj)).2⟩
  · refine (hm j).2 ⟨hj, fun hx => ?_⟩
    rw [(hid j (hxs j hx)).2] at hr
    cases hr

lemma advance_keeps [DecidableEq K] (hk : Knows d t p)
    (hh : ∀ i, p.holds = some i → 0 < d.refcnt i) (hre : ∀ i, p.recycles = some i → d.recycling i = true)
    (h : advance lifespan limit d t p = some (d', p')) : Keeps d t p d' p' := by
  cases p with
  | idle | ctor => cases h
  | find =>
    simp only [advance] at h
    split at h
    next hf =>
      cases h
      exact insert hg hf trivial rfl rfl rfl rfl rfl
    next i hf =>
    obtain ⟨it, hit, he⟩ := map_eq_some_iff.1 h
    split at he
    next hr =>
      cases he
      exact keeps_find_recycling hg hf hit hr
    next hr =>
      cases he
      exact keeps_find hg hf hit (by simpa using hr)
  | blocked =>
    cases h
    exact move hg trivial rfl
  | mtxLock =>
    obtain ⟨it, hit, he⟩ := bind_eq_some_iff.1 h
    obtain ⟨hm, he⟩ := ite_some_none_eq_some.1 he
    cases he
    refine touch hg hit rfl rfl rfl rfl rfl ⟨_, update_self .., rfl⟩ rfl rfl rfl (fun u _ hu => ?_)
    rw [hm] at hu
    cases hu
  | mtxLocked =>
    obtain ⟨it, hit, he⟩ := map_eq_some_iff.1 h
    obtain ⟨jt, hjt, hm⟩ := hk
    cases hit.symm.trans hjt
    simp only [Prod.mk.injEq] at he
    obtain ⟨rfl, rfl⟩ := he
    split
    · next hc => exact move hg ⟨it, hit, hm, by simpa using hc.1⟩ rfl
    · exact move hg ⟨it, hit, hm⟩ rfl
  | mtxUnlock =>
    obtain ⟨it, hit, he⟩ := map_eq_some_iff.1 h
    obtain ⟨jt, hjt, hm⟩ := hk
    cases hit.symm.trans hjt
    cases he
    refine touch hg hit rfl rfl rfl rfl rfl trivial rfl rfl rfl (fun u hu hu' => ?_)
    rw [hm] at hu'
    exact absurd (some.inj hu').symm hu
  | check i =>
    obtain ⟨it, -, he⟩ := map_eq_some_iff.1 h
    split at he
    · cases he
      exact move hg trivial rfl
    cases he
    refine refs hg trivial rfl rfl (fun j => ?_)
    simp only [Pc.holdsItem, Pc.holds, count_cons]
    by_cases hj : i = j <;> simp [hj]
  | release i =>
    obtain ⟨it, hit, he⟩ := map_eq_some_iff.1 h
    cases he
    exact keeps_release hg hit (refcnt_eq hit ▸ hh i rfl)
  | semWait =>
    obtain ⟨it, hit, he⟩ := bind_eq_some_iff.1 h
    split at he
    next c hc =>
      cases he
      exact keeps_semWait hg hk hit hc
    · cases he
  | erase i =>
    cases h
    exact keeps_erase hg hk.1 hk.2 (hre i rfl)
  | delete i =>
    obtain ⟨it, -, he⟩ := map_eq_some_iff.1 h
    cases he
    refine delete hg hk.2 rfl trivial rfl rfl (fun j hj => (some.inj hj).symm) rfl
      (fun j hj hn => absurd (mem_singleton.1 hj) hn) ?_
    rw [hre i rfl]
    simp [recyclesItem, recycles]
  | expire =>
    cases h
    exact keeps_expire hg
  | deleteAll xs ret more =>
    cases xs with
    | nil =>
      cases h
      cases more <;> exact move hg trivial rfl
    | cons x =>
      cases h
      obtain ⟨-, ho, hnr⟩ := hk x mem_cons_self
      refine delete hg ho rfl (fun j hj => ?_) rfl rfl nofun rfl
        (fun j hj hn => (mem_cons.1 hj).resolve_left hn) ?_
      · obtain ⟨h1, h2, h3⟩ := hk j (mem_cons_of_mem _ hj)
        refine ⟨h1, h2, ?_⟩
        rcases eq_or_ne j x with rfl | hjx
        · simp [recycling]
        · simpa [recycling, hjx] using h3
      · rw [hnr]
        simp [recyclesItem, recycles]

end

end Step

/-! ## Every run -/

/-- The reference count is the number of references that callers have and that calls in progress have; an item is being
recycled by one call, or not at all; an item out of the set is about to be deleted. -/
structure Inv (s : St K V) : Prop where
  good : Good s.data
  references : ∀ i, s.data.refcnt i = s.data.refs.count i + s.threads.countP (holdsItem i)
  recyclers : ∀ i, (if s.data.recycling i then 1 else 0) = s.threads.countP (recyclesItem i)
  out : ∀ i, (s.data.items i).isSome = true → i ∉ s.data.set → ∃ p ∈ s.threads, i ∈ p.deletes
  knows : ∀ t p, s.threads[t]? = some p → Knows s.data t p

variable {s s' : St K V}

section
variable (hi : Inv s)
include hi

section
variable (hp : s.threads[t]? = some p)
include hp

lemma Inv.holds_pos (h : p.holds = some i) : 0 < s.data.refcnt i := by
  have hpo : 0 < s.threads.countP (holdsItem i) := countP_pos hp (by simp [holdsItem, h])
  have := hi.references i
  omega

lemma Inv.recycles_recycling (h : p.recycles = some i) : s.data.recycling i = true := by
  have hpo : 0 < s.threads.countP (recyclesItem i) := countP_pos hp (by simp [recyclesItem, h])
  rw [← hi.recyclers i] at hpo
  by_cases hr : s.data.recycling i = true
  · exact hr
  · rw [if_neg hr] at hpo
    exact absurd hpo (lt_irrefl _)

lemma Inv.recycler_unique (hq : s.threads[u]? = some q) (hu : u ≠ t)
    (h : q.recycles = some i) : p.recycles ≠ some i := by
  intro h'
  have ht : 2 ≤ s.threads.countP (recyclesItem i) :=
    two_le_countP hu hq hp (by simp [recyclesItem, h]) (by simp [recyclesItem, h'])
  rw [← hi.recyclers i] at ht
  split at ht <;> omega

lemma Inv.keeps (hk : Keeps s.data t p d' p') :
    Inv ⟨d', s.threads.set t p'⟩ where
  good := hk.good
  references := by
    intro i
    have h1 := hi.references i
    have h2 := hk.references i
    have h3 := countP_set_add hp p' (holdsItem i)
    dsimp only
    omega
  recyclers := by
    intro i
    have h1 := hi.recyclers i
    have h2 := hk.recyclers i
    have h3 := countP_set_add hp p' (recyclesItem i)
    dsimp only
    omega
  out := by
    intro i hl hi'
    rcases hk.out i hl hi' with h | ⟨hl, hse, hn⟩
    · obtain ⟨hlt, -⟩ := List.getElem?_eq_some_iff.1 hp
      exact ⟨p', mem_set hlt p', h⟩
    -- another thread has it, and keeps it
    obtain ⟨q, hq, hd⟩ := hi.out i hl hse
    obtain ⟨u, hu⟩ := getElem?_of_mem hq
    have hut : t ≠ u := by
      rintro rfl
      cases hp.symm.trans hu
      exact hn hd
    exact ⟨q, mem_of_getElem? ((getElem?_set_ne hut).trans hu), hd⟩
  knows := by
    intro u q hq
    rcases getElem?_set_cases hq with ⟨rfl, rfl⟩ | ⟨hut, hq⟩
    · exact hk.knows
    · exact (hi.knows u q hq).stable hk.rely hut (fun i => hi.holds_pos hq)
        (fun i h => ⟨hi.recycles_recycling hq h, hi.recycler_unique hp hq hut h⟩)

end

lemma Inv.mem_set (h : i ∈ s.data.refs) : i ∈ s.data.set := by
  have hpo := count_pos_iff.2 h
  have := hi.references i
  exact hi.good.referenced i (by omega)

lemma Inv.keeps_handOver (h : i ∈ s.data.refs) (ret : Option V) (recycle destroy : Bool) :
    Keeps s.data t (.idle ret) { s.data with refs := s.data.refs.erase i } (.release i recycle destroy false) := by
  refine refs hi.good trivial rfl rfl (fun j => ?_)
  simp only [holdsItem, holds, reduceCtorEq, decide_false, Bool.false_eq_true, if_false, some.injEq,
    decide_eq_true_eq]
  rcases eq_or_ne i j with rfl | hj
  · have := count_pos_iff.2 h
    rw [count_erase_self, if_pos rfl]
    omega
  · rw [count_erase_of_ne (Ne.symm hj), if_neg hj]

end

variable {e : Ev K V}

lemma step_cases [DecidableEq K] (hi : Inv s) (h : step lifespan limit s e = some s') :
    (∃ t p d' p', s.threads[t]? = some p ∧ Keeps s.data t p d' p' ∧ s' = ⟨d', s.threads.set t p'⟩) ∨
      ∃ now, s' = { s with data := { s.data with now := now } } := by
  cases e with simp only [step] at h
  | refAcquire t key cooldown =>
    split at h
    next ret hp =>
      cases h
      have hk : Keeps s.data t (.idle ret) s.data (.find key cooldown) := move hi.good trivial rfl
      exact .inl ⟨t, _, _, _, hp, hk, rfl⟩
    · cases h
  | refRelease t i recycle destroy =>
    split at h
    next ret hp =>
      obtain ⟨hme, rfl⟩ := ite_some_none_eq_some.1 h
      exact .inl ⟨t, _, _, _, hp, hi.keeps_handOver hme ret recycle destroy, rfl⟩
    · cases h
  | release t key recycle destroy =>
    split at h
    next ret hp =>
      obtain ⟨hh, h⟩ := ite_none_right_eq_some.1 h
      obtain ⟨j, hj, hke⟩ := hh
      split at h
      next i hf =>
        cases h
        -- the item that is found is the one the caller has a reference to
        obtain ⟨hse, hk'⟩ := find_some hf
        obtain rfl := hi.good.keys j (hi.mem_set hj) i hse (hke.trans hk'.symm)
        exact .inl ⟨t, _, _, _, hp, hi.keeps_handOver hj ret recycle destroy, rfl⟩
      · cases h
        have hk : Keeps s.data t (.idle ret) s.data (.idle none) := move hi.good trivial rfl
        exact .inl ⟨t, _, _, _, hp, hk, rfl⟩
    · cases h
  | expire t =>
    split at h
    next ret hp =>
      cases h
      have hk : Keeps s.data t (.idle ret) s.data (.expire none false) := move hi.good trivial rfl
      exact .inl ⟨t, _, _, _, hp, hk, rfl⟩
    · cases h
  | step t =>
    obtain ⟨p, hp, h⟩ := bind_eq_some_iff.1 h
    obtain ⟨⟨d', p'⟩, ha, rfl⟩ := map_eq_some_iff.1 h
    exact .inl ⟨t, p, d', p', hp, advance_keeps hi.good (hi.knows t p hp) (fun i => hi.holds_pos hp)
      (fun i => hi.recycles_recycling hp) ha, rfl⟩
  | constructed t obj =>
    split at h
    next i hp =>
      obtain ⟨it, hit, rfl⟩ := map_eq_some_iff.1 h
      obtain ⟨jt, hjt, hm, -⟩ := hi.knows t _ hp
      cases hit.symm.trans hjt
      have hk : Keeps s.data t (.ctor i) (s.data.constructed i it obj) (.mtxUnlock i) := by
        refine touch hi.good hit rfl rfl rfl rfl rfl ⟨_, update_self .., hm⟩ rfl rfl rfl (fun u hu hu' => ?_)
        rw [hm] at hu'
        exact absurd (some.inj hu').symm hu
      exact .inl ⟨t, _, _, _, hp, hk, rfl⟩
    · cases h
  | time now =>
    cases h
    exact .inr ⟨now, rfl⟩

lemma Inv.time (hi : Inv s) (now : Nat) : Inv { s with data := { s.data with now := now } } where
  good := ⟨hi.good.1, hi.good.2, hi.good.3, hi.good.4, hi.good.5, hi.good.6, hi.good.7, hi.good.8, hi.good.9⟩
  __ := hi
  knows := by
    intro t p hp
    have h := hi.knows t p hp
    cases p <;> exact h

lemma inv_init [DecidableEq K] (lifespan limit n : Nat) : Inv (machine K V lifespan limit n).init where
  good := ⟨nodup_nil, nofun, nofun, nodup_nil, nofun,
    nofun, fun _ _ => rfl, (fun _ h => absurd h (lt_irrefl _)), nofun⟩
  references := by
    intro i
    simp [machine, refcnt, countP_replicate, holdsItem, holds]
  recyclers := by
    intro i
    simp [machine, recycling, countP_replicate, recyclesItem, recycles]
  out := fun i hl => by cases hl
  knows := by
    intro t p hp
    rw [eq_of_mem_replicate (mem_of_getElem? hp)]
    trivial

lemma inv_step [DecidableEq K] (hi : Inv s) (h : step lifespan limit s e = some s') : Inv s' := by
  rcases step_cases hi h with ⟨t, p, d', p', hp, hk, rfl⟩ | ⟨now, rfl⟩
  · exact hi.keeps hp hk
  · exact hi.time now

lemma Inv.constructor_unique (hi : Inv s) (hp : s.threads[t]? = some (.ctor i)) (hq : s.threads[u]? = some (.ctor i)) :
    t = u := by
  obtain ⟨it, hit, hm, -⟩ := hi.knows t _ hp
  obtain ⟨jt, hj, hm', -⟩ := hi.knows u _ hq
  cases hit.symm.trans hj
  exact some.inj (hm.symm.trans hm')

/-- Somebody has a reference to the item: a caller that got it, or a call in progress. -/
def St.Held (s : St K V) (i : Nat) : Prop := i ∈ s.data.refs ∨ ∃ p ∈ s.threads, p.holds = some i

/-- The item was taken out of the set and the call that did so has still to delete it. -/
def St.Deleting (s : St K V) (i : Nat) : Prop := ∃ p ∈ s.threads, i ∈ p.deletes

lemma Inv.held_pos (hi : Inv s) (h : s.Held i) : 0 < s.data.refcnt i := by
  rcases h with h | ⟨p, hp, hh⟩
  · have hpo := count_pos_iff.2 h
    have := hi.references i
    omega
  · obtain ⟨t, ht⟩ := getElem?_of_mem hp
    exact hi.holds_pos ht hh

lemma Inv.deleting_notMem (hi : Inv s) (h : s.Deleting i) : i ∉ s.data.set := by
  obtain ⟨p, hp, hd⟩ := h
  obtain ⟨t, ht⟩ := getElem?_of_mem hp
  have hk := hi.knows t p ht
  cases p with
  | delete =>
    rw [mem_singleton.1 hd]
    exact hk.2
  | deleteAll => exact (hk i hd).2.1
  | _ => cases hd

lemma Inv.idle_iff (hi : Inv s) {it : Item K V} (hit : s.data.items i = some it) :
    i ∈ s.data.list ↔ it.refcnt = 0 ∧ it.recycle = none ∧ ¬s.Deleting i := by
  constructor
  · intro hl
    have hse := hi.good.list_set i hl
    obtain ⟨h0, hr⟩ := (hi.good.idle i hse it hit).1 hl
    exact ⟨h0, hr, fun hd => hi.deleting_notMem hd hse⟩
  · rintro ⟨h0, hr, hd⟩
    have hse : i ∈ s.data.set := Decidable.byContradiction fun hn => hd (hi.out i (hit ▸ rfl) hn)
    exact (hi.good.idle i hse it hit).2 ⟨h0, hr⟩

lemma Inv.step_deleted [DecidableEq K] (hi : Inv s)
    (h : step lifespan limit s e = some s') (hn : s'.data.items i = none) : ¬s.Held i := by
  intro hh
  have hpo := hi.held_pos hh
  have hz : s.data.refcnt i = 0 := by
    rcases step_cases hi h with ⟨t, p, d', p', -, hk, rfl⟩ | ⟨now, rfl⟩
    · exact hk.deleted i hn
    · exact refcnt_of_none hn
  omega

lemma Inv.step_taken [DecidableEq K] (hi : Inv s) (h : step lifespan limit s e = some s')
    (hlt : s.data.refcnt i < s'.data.refcnt i) : s'.data.recycling i = false := by
  rcases step_cases hi h with ⟨t, p, d', p', -, hk, rfl⟩ | ⟨now, rfl⟩
  · exact hk.taken i hlt
  · exact absurd hlt (lt_irrefl _)

/-- In every state of every run, with any number of threads, and at the step that follows it. -/
theorem objectCache_references [DecidableEq K] {lifespan limit n : Nat} {es : List (Ev K V)}
    (h : (machine K V lifespan limit n).run es = some s) :
    (∀ i, s.data.refcnt i = s.data.refs.count i + s.threads.countP (holdsItem i)) ∧
    (∀ i, s.Held i → ∃ it, s.data.items i = some it ∧ i ∈ s.data.set) ∧
    (s.data.set.Nodup ∧ ∀ i ∈ s.data.set, ∀ j ∈ s.data.set, s.data.keyOf i = s.data.keyOf j → i = j) ∧
    (∀ t u i : Nat, s.threads[t]? = some (.ctor i) → s.threads[u]? = some (.ctor i) → t = u) ∧
    (∀ t i : Nat, s.threads[t]? = some (.ctor i) → ∃ it, s.data.items i = some it ∧ it.obj = none) ∧
    (∀ i it, s.data.items i = some it → (i ∈ s.data.list ↔ it.refcnt = 0 ∧ it.recycle = none ∧ ¬s.Deleting i)) ∧
    ∀ e s', step lifespan limit s e = some s' → (∀ i, s'.data.items i = none → ¬s.Held i) ∧
      ∀ i, s.data.refcnt i < s'.data.refcnt i → s'.data.recycling i = false := by
  have hi : Inv s := Machine.run_inv (inv_init lifespan limit n) inv_step h
  refine ⟨hi.references, fun i hh => ?_, ⟨hi.good.set_nodup, hi.good.keys⟩, fun _ _ _ => hi.constructor_unique,
    fun t i ht => ?_, fun i it => hi.idle_iff, fun e s' hs => ⟨fun i => hi.step_deleted hs, fun i => hi.step_taken hs⟩⟩
  · have hse := hi.good.referenced i (hi.held_pos hh)
    obtain ⟨it, hit⟩ := hi.good.set_live i hse
    exact ⟨it, hit, hse⟩
  · obtain ⟨it, hit, -, ho⟩ := hi.knows t _ ht
    exact ⟨it, hit, ho⟩

def recycleShared : List (Ev Nat Nat) :=
  [.refAcquire 0 5 0, .step 0, .step 0, .step 0, .constructed 0 (some 7), .step 0, .step 0, .step 0, .step 0,
    .refAcquire 1 5 0, .step 1, .step 1, .step 1, .step 1, .step 1, .step 1, .step 1, .refRelease 0 0 true false, .step 0]

theorem objectCache_references_recycleShared :
    ∃ s, (machine Nat Nat 10 8 2).run recycleShared = some s ∧ s.data.refs = [0] ∧ s.data.recycling 0 = true ∧
      s.data.refcnt 0 = s.data.refs.count 0 + s.threads.countP (holdsItem 0) ∧
      ∀ e s', step 10 8 s e = some s' → s'.data.items 0 ≠ none := by
  have hr : (machine Nat Nat 10 8 2).run recycleShared = some _ := rfl
  obtain ⟨h1, -, -, -, -, -, h2⟩ := objectCache_references hr
  refine ⟨_, hr, rfl, rfl, h1 0, fun e s' hs hn => ?_⟩
  exact (h2 e s' hs).1 0 hn (.inl mem_cons_self)

/-- The second thread has added its reference to `_refcnt`; before it returns, the first one gives its own back with
`recycle`. -/
def recycleTaken : List (Ev Nat Nat) :=
  [.refAcquire 0 5 0, .step 0, .step 0, .step 0, .constructed 0 (some 7), .step 0, .step 0, .step 0, .step 0,
    .refAcquire 1 5 0, .step 1, .step 1, .step 1, .step 1, .refRelease 0 0 true false, .step 0]

/-- The call of `ref_acquire` goes on and its caller gets the item, which is being recycled. -/
theorem refAcquire_recycling :
    ∃ s s', (machine Nat Nat 10 8 2).run recycleTaken = some s ∧ step 10 8 s (.step 1) = some s' ∧
      s.data.refs = [] ∧ s.data.recycling 0 = true ∧ s'.data.refs = [0] ∧ s'.data.recycling 0 = true :=
  ⟨_, _, rfl, rfl, rfl, rfl, rfl, rfl⟩

end Photon.ObjectCache
