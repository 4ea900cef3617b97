import Photon.Lib.Machine
import Photon.Lib.Roster
import Photon.Thread.Basic
/-!
# ObjectCacheBase

`_set` is the index by key, `_list` the items nobody refers to, in the order they
became idle. Both are used under `_lock`, so what a function does between taking and
leaving it is one step. The object of an item is constructed under the mutex of the
item. A call of `ref_release` that recycles waits until the last reference is gone,
takes the item out of the set and deletes it; who looks for the key meanwhile waits on
`blocker`, and may be woken at any time.

`refs` is not in the code: the references that callers got and have not given back,
one entry for each. A reference may be given back by any thread. `_refcnt` is taken
not to wrap: there are never 2^32 references to an item.
-/

namespace Photon.ObjectCache

open Function

variable {K V : Type}

/-- `ObjectCacheBase::Item`. `mtx` is the thread that holds the mutex, `recycle` the count of the semaphore that
`_recycle` points to. -/
structure Item (K V : Type) where
  key : K
  obj : Option V := none
  mtx : Option Nat := none
  refcnt : Nat := 0
  recycle : Option Nat := none
  failure : Nat := 0
  timeout : Nat := 0

/-- The cache: the items there are, the number of those ever allocated, `_set` and `_list`. -/
structure Data (K V : Type) where
  items : Nat → Option (Item K V) := fun _ => none
  next : Nat := 0
  set : List Nat := []
  list : List Nat := []
  now : Nat := 0
  refs : List Nat := []

/-- Where a thread is. `more` says that a second `expire` follows: `ref_release` was called by `ref_acquire`. -/
inductive Pc (K V : Type) where
  | idle (ret : Option V)
  /-- `ref_acquire`, before `SCOPED_LOCK(_lock)`. -/
  | find (key : K) (cooldown : Nat)
  /-- In `blocker.wait(_lock)`. -/
  | blocked (key : K) (cooldown : Nat)
  /-- Before `SCOPED_LOCK(item->_mtx)`. -/
  | mtxLock (i cooldown : Nat)
  | mtxLocked (i cooldown : Nat)
  /-- In `ctor(item)`. -/
  | ctor (i : Nat)
  | mtxUnlock (i : Nat)
  /-- Before `if (!item->_obj)`. -/
  | check (i : Nat)
  /-- `ref_release`, before `SCOPED_LOCK(_lock)`. -/
  | release (i : Nat) (recycle destroy more : Bool)
  /-- In `sem.wait(1)`. -/
  | semWait (i : Nat) (destroy more : Bool)
  /-- Before `_set.erase(item)`. -/
  | erase (i : Nat) (destroy more : Bool)
  /-- Before `delete item`. -/
  | delete (i : Nat) (destroy more : Bool)
  | expire (ret : Option V) (more : Bool)
  /-- In `delete_all()` of `expire`, with these items to go. -/
  | deleteAll (xs : List Nat) (ret : Option V) (more : Bool)

structure St (K V : Type) where
  data : Data K V := {}
  threads : List (Pc K V)

inductive Ev (K V : Type) where
  | refAcquire (t : Nat) (key : K) (cooldown : Nat)
  | refRelease (t i : Nat) (recycle destroy : Bool)
  | release (t : Nat) (key : K) (recycle destroy : Bool)
  | expire (t : Nat)
  | step (t : Nat)
  /-- The constructor that thread `t` runs ends with this object. -/
  | constructed (t : Nat) (obj : Option V)
  | time (now : Nat)

section Code
variable [DecidableEq K]

def Data.setItem (d : Data K V) (i : Nat) (it : Item K V) : Data K V :=
  { d with items := update d.items i (some it) }

def Data.keyOf (d : Data K V) (i : Nat) : Option K := (d.items i).map Item.key

def Data.find (d : Data K V) (key : K) : Option Nat := d.set.find? fun i => d.keyOf i = some key

def Data.setErase (d : Data K V) (set : List Nat) (x : Nat) : List Nat := set.eraseP fun j => d.keyOf j = d.keyOf x

/-- `ref_acquire` under `_lock`, when the key is not in the set. -/
def Data.insert (d : Data K V) (key : K) : Data K V :=
  { d.setItem d.next { key := key, refcnt := 1 } with next := d.next + 1, set := d.set ++ [d.next] }

/-- `ref_release` under `_lock`, and whether it is to wait for the item to recycle it. -/
def Data.refRelease (d : Data K V) (lifespan i : Nat) (it : Item K V) (recycle : Bool) : Data K V × Bool :=
  let recycle := recycle && it.recycle.isNone
  let it := if recycle then { it with recycle := some 0 } else it
  let it := { it with refcnt := it.refcnt - 1 }
  if it.refcnt = 0 then
    match it.recycle with
    | some c => (d.setItem i { it with recycle := some (c + 1) }, recycle)
    | none =>
      ({ d.setItem i { it with failure := 0, timeout := satAdd d.now lifespan } with list := d.list.erase i ++ [i] }, recycle)
  else (d.setItem i it, recycle)

/-- The predicate of `expire` over the list, with the set it erases from: what it takes off the list, what stays on it,
and the set. -/
def Data.expireLoop (d : Data K V) (limit : Nat) : List Nat → List Nat → List Nat × List Nat × List Nat
  | [], set => ([], [], set)
  | x :: xs, set =>
    if (∃ it ∈ d.items x, it.timeout < d.now) ∨ set.length > limit then
      let r := d.expireLoop limit xs (d.setErase set x)
      (x :: r.1, r.2)
    else ([], x :: xs, set)

/-- A step of thread `t`; a constructor that runs ends by an event of its own. -/
def advance (lifespan limit : Nat) (d : Data K V) (t : Nat) : Pc K V → Option (Data K V × Pc K V)
  | .idle _ | .ctor _ => none
  | .find key cooldown =>
    match d.find key with
    | none => some (d.insert key, .mtxLock d.next cooldown)
    | some i => (d.items i).map fun it =>
      if it.recycle.isSome then ({ d with list := d.list.erase i }, .blocked key cooldown)
      else ({ d.setItem i { it with refcnt := it.refcnt + 1 } with list := d.list.erase i }, .mtxLock i cooldown)
  | .blocked key cooldown => some (d, .find key cooldown)
  | .mtxLock i cooldown => (d.items i).bind fun it =>
    if it.mtx = none then some (d.setItem i { it with mtx := some t }, .mtxLocked i cooldown) else none
  | .mtxLocked i cooldown => (d.items i).map fun it =>
    (d, if it.obj.isNone ∧ it.failure ≤ d.now - cooldown then .ctor i else .mtxUnlock i)
  | .mtxUnlock i => (d.items i).map fun it => (d.setItem i { it with mtx := none }, .check i)
  | .check i => (d.items i).map fun it =>
    if it.obj.isNone then (d, .release i false true true) else ({ d with refs := i :: d.refs }, .expire none false)
  | .release i recycle destroy more => (d.items i).map fun it =>
    let (d, recycle) := d.refRelease lifespan i it recycle
    (d, if recycle then .semWait i destroy more else .expire none more)
  | .semWait i destroy more => (d.items i).bind fun it =>
    match it.recycle with
    | some (c + 1) => some (d.setItem i { it with recycle := some c }, .erase i destroy more)
    | _ => none
  | .erase i destroy more => some ({ d with set := d.setErase d.set i }, .delete i destroy more)
  | .delete i destroy more => (d.items i).map fun it =>
    ({ d with items := update d.items i none }, .expire (if destroy then none else it.obj) more)
  | .expire ret more =>
    let (xs, list, set) := d.expireLoop limit d.list d.set
    some ({ d with list := list, set := set }, .deleteAll xs ret more)
  | .deleteAll [] ret more => some (d, if more then .expire ret false else .idle ret)
  | .deleteAll (x :: xs) ret more => some ({ d with items := update d.items x none }, .deleteAll xs ret more)

def Data.constructed (d : Data K V) (i : Nat) (it : Item K V) (obj : Option V) : Data K V :=
  d.setItem i { it with obj := obj, failure := if obj.isNone then d.now else it.failure }

def step (lifespan limit : Nat) (s : St K V) : Ev K V → Option (St K V)
  | .refAcquire t key cooldown =>
    match s.threads[t]? with
    | some (.idle _) => some { s with threads := s.threads.set t (.find key cooldown) }
    | _ => none
  | .refRelease t i recycle destroy =>
    match s.threads[t]? with
    | some (.idle _) =>
      if i ∈ s.data.refs then
        some ⟨{ s.data with refs := s.data.refs.erase i }, s.threads.set t (.release i recycle destroy false)⟩
      else none
    | _ => none
  | .release t key recycle destroy =>
    match s.threads[t]? with
    | some (.idle _) =>
      -- the caller has a reference to an item of this key
      if ∃ i ∈ s.data.refs, s.data.keyOf i = some key then
        match s.data.find key with
        | some i =>
          some ⟨{ s.data with refs := s.data.refs.erase i }, s.threads.set t (.release i recycle destroy false)⟩
        | none => some { s with threads := s.threads.set t (.idle none) }
      else none
    | _ => none
  | .expire t =>
    match s.threads[t]? with
    | some (.idle _) => some { s with threads := s.threads.set t (.expire none false) }
    | _ => none
  | .step t =>
    s.threads[t]?.bind fun p =>
      (advance lifespan limit s.data t p).map fun r => ⟨r.1, s.threads.set t r.2⟩
  | .constructed t obj =>
    match s.threads[t]? with
    | some (.ctor i) => (s.data.items i).map fun it =>
      ⟨s.data.constructed i it obj, s.threads.set t (.mtxUnlock i)⟩
    | _ => none
  | .time now => some { s with data := { s.data with now := now } }

def machine (K V : Type) [DecidableEq K] (lifespan limit n : Nat) : Machine (St K V) (Ev K V) :=
  ⟨{ threads := List.replicate n (.idle none) }, step lifespan limit⟩

end Code

/-! ## The items, the set and the list -/

open List

def Data.refcnt (d : Data K V) (i : Nat) : Nat :=
  match d.items i with
  | some it => it.refcnt
  | none => 0

def Data.recycling (d : Data K V) (i : Nat) : Bool :=
  match d.items i with
  | some it => it.recycle.isSome
  | none => false

structure Good (d : Data K V) : Prop where
  set_nodup : d.set.Nodup
  set_live : ∀ i ∈ d.set, ∃ it, d.items i = some it
  keys : ∀ i ∈ d.set, ∀ j ∈ d.set, d.keyOf i = d.keyOf j → i = j
  list_nodup : d.list.Nodup
  list_set : ∀ i ∈ d.list, i ∈ d.set
  idle : ∀ i ∈ d.set, ∀ it, d.items i = some it → (i ∈ d.list ↔ it.refcnt = 0 ∧ it.recycle = none)
  fresh : ∀ i, d.next ≤ i → d.items i = none
  referenced : ∀ i, 0 < d.refcnt i → i ∈ d.set
  signalled : ∀ i it c, d.items i = some it → it.recycle = some (c + 1) → it.refcnt = 0

variable {d d' : Data K V} {i j : Nat} {it it' : Item K V}

lemma Data.refcnt_eq (h : d.items i = some it) : d.refcnt i = it.refcnt := by rw [Data.refcnt, h]

lemma Data.refcnt_of_none (h : d.items i = none) : d.refcnt i = 0 := by rw [Data.refcnt, h]

lemma Data.recycling_eq (h : d.items i = some it) : d.recycling i = it.recycle.isSome := by rw [Data.recycling, h]

lemma Data.keyOf_eq (h : d.items i = some it) : d.keyOf i = some it.key := by rw [Data.keyOf, h, Option.map_some]

variable {key : K} {set list : List Nat}

lemma Data.keyOf_setItem (d : Data K V) (i : Nat) (it : Item K V) :
    (d.setItem i it).keyOf = update d.keyOf i (some it.key) :=
  comp_update (Option.map Item.key) d.items i (some it)

lemma Data.keyOf_setItem_eq (h : d.items i = some it) (hk : it'.key = it.key) : (d.setItem i it').keyOf = d.keyOf := by
  rw [Data.keyOf_setItem, hk, ← Data.keyOf_eq h, update_eq_self]

lemma Data.find_some [DecidableEq K] (h : d.find key = some i) : i ∈ d.set ∧ d.keyOf i = some key :=
  ⟨mem_of_find?_eq_some h, by simpa using find?_some h⟩

lemma Data.find_none [DecidableEq K] (h : d.find key = none) : ∀ i ∈ d.set, d.keyOf i ≠ some key := by
  intro i hi
  simpa using find?_eq_none.1 h i hi

lemma Good.lt_next (hg : Good d) (h : d.items i = some it) : i < d.next := by
  refine Nat.lt_of_not_le fun hle => ?_
  rw [hg.fresh i hle] at h
  cases h

lemma Good.refcnt_of_notMem (hg : Good d) (h : i ∉ d.set) : d.refcnt i = 0 := by
  refine Nat.eq_zero_of_not_pos fun hpo => ?_
  exact h (hg.referenced i hpo)

/-- The set has each key once, and what is on the list is in it. -/
structure Indexed (keyOf : Nat → Option K) (list set : List Nat) : Prop where
  set_nodup : set.Nodup
  keys : ∀ i ∈ set, ∀ j ∈ set, keyOf i = keyOf j → i = j
  list_nodup : list.Nodup
  list_set : ∀ i ∈ list, i ∈ set

lemma Good.indexed (hg : Good d) : Indexed d.keyOf d.list d.set := { hg with }

section Indexed
variable (h : Indexed d.keyOf list set)
include h

lemma Indexed.part {list' set' : List Nat} (hse : set'.Sublist set) (hli : list'.Sublist list)
    (hsu : ∀ i ∈ list', i ∈ set') : Indexed d.keyOf list' set' where
  set_nodup := h.set_nodup.sublist hse
  keys i hi j hj := h.keys i (hse.subset hi) j (hse.subset hj)
  list_nodup := h.list_nodup.sublist hli
  list_set := hsu

lemma Indexed.requeue (hi : i ∈ set) : Indexed d.keyOf (list.erase i ++ [i]) set where
  set_nodup := h.set_nodup
  keys := h.keys
  list_nodup := nodup_append.2 ⟨h.list_nodup.sublist erase_sublist, nodup_singleton i, fun a ha b hb =>
    mem_singleton.1 hb ▸ fun he => h.list_nodup.not_mem_erase (he ▸ ha)⟩
  list_set j hj := by
    rcases mem_append.1 hj with hj | hj
    · exact h.list_set j (mem_of_mem_erase hj)
    · exact mem_singleton.1 hj ▸ hi

lemma Indexed.insert (it : Item K V) (hi : i ∉ set) (hk : ∀ j ∈ set, d.keyOf j ≠ some it.key) :
    Indexed (d.setItem i it).keyOf list (set ++ [i]) := by
  have hn : ∀ j ∈ set, j ≠ i := fun j hj he => hi (he ▸ hj)
  rw [Data.keyOf_setItem]
  refine ⟨?_, fun a ha b hb hab => ?_, h.list_nodup, fun j hj => mem_append_left _ (h.list_set j hj)⟩
  · exact nodup_append.2 ⟨h.set_nodup, nodup_singleton i, fun a ha b hb => mem_singleton.1 hb ▸ hn a ha⟩
  · rcases mem_append.1 ha with ha | ha <;> rcases mem_append.1 hb with hb | hb
    · rw [update_of_ne (hn a ha), update_of_ne (hn b hb)] at hab
      exact h.keys a ha b hb hab
    · rw [mem_singleton.1 hb, update_of_ne (hn a ha), update_self] at hab
      exact absurd hab (hk a ha)
    · rw [mem_singleton.1 ha, update_of_ne (hn b hb), update_self] at hab
      exact absurd hab.symm (hk b hb)
    · rw [mem_singleton.1 ha, mem_singleton.1 hb]

lemma Indexed.mem_setErase [DecidableEq K] (hi : i ∈ set) :
    (d.setErase set i).Sublist set ∧ ∀ j, j ∈ d.setErase set i ↔ j ∈ set ∧ j ≠ i := by
  obtain ⟨a, l1, l2, -, ha, hse, he⟩ :=
    exists_of_eraseP (p := fun j => decide (d.keyOf j = d.keyOf i)) hi (by simp)
  have ha : d.keyOf a = d.keyOf i := by simpa using ha
  obtain rfl : a = i := h.keys a (by rw [hse]; simp) i hi ha
  refine ⟨eraseP_sublist, fun j => ?_⟩
  rw [Data.setErase, he]
  have hn := h.set_nodup
  rw [hse] at hn ⊢
  obtain ⟨-, hn2, hd⟩ := nodup_append.1 hn
  obtain ⟨hno, -⟩ := nodup_cons.1 hn2
  constructor
  · intro hj
    rcases mem_append.1 hj with hj | hj
    · exact ⟨by simp [hj], hd j hj a (by simp)⟩
    · exact ⟨by simp [hj], fun h => hno (h ▸ hj)⟩
  · rintro ⟨hj, hne⟩
    simpa [hne] using hj

end Indexed

lemma Good.setItem (hg : Good d) (h : d.items i = some it) {refs : List Nat}
    (hk : it'.key = it.key) (hli : list.Nodup) (ho : ∀ j ≠ i, j ∈ list ↔ j ∈ d.list) (hset : i ∈ list → i ∈ d.set)
    (hid : i ∈ d.set → (i ∈ list ↔ it'.refcnt = 0 ∧ it'.recycle = none)) (hr : 0 < it'.refcnt → i ∈ d.set)
    (hsi : ∀ c, it'.recycle = some (c + 1) → it'.refcnt = 0) :
    Good { d.setItem i it' with list := list, refs := refs } := by
  have hi : ∀ j, j ≠ i → update d.items i (some it') j = d.items j := fun j hj => update_of_ne hj ..
  have hse : update d.items i (some it') i = some it' := update_self ..
  exact {
    set_nodup := hg.set_nodup
    set_live := by
      intro j hj
      rcases eq_or_ne j i with rfl | hji
      · exact ⟨it', hse⟩
      · obtain ⟨jt, hjt⟩ := hg.set_live j hj
        exact ⟨jt, (hi j hji).trans hjt⟩
    keys := fun a ha b hb hab => hg.keys a ha b hb (Data.keyOf_setItem_eq h hk ▸ hab)
    list_nodup := hli
    list_set := by
      intro j hj
      rcases eq_or_ne j i with rfl | hji
      · exact hset hj
      · exact hg.list_set j ((ho j hji).1 hj)
    idle := by
      intro j hj jt hjt
      rcases eq_or_ne j i with rfl | hji
      · cases hse.symm.trans hjt
        exact hid hj
      · rw [show (j ∈ list ↔ j ∈ d.list) from ho j hji]
        exact hg.idle j hj jt ((hi j hji).symm.trans hjt)
    fresh := by
      intro j hj
      have hlt := hg.lt_next h
      exact (hi j (by dsimp only [Data.setItem] at hj; omega)).trans (hg.fresh j hj)
    referenced := by
      intro j hj
      rcases eq_or_ne j i with rfl | hji
      · have hcn : Data.refcnt { d.setItem j it' with list := list, refs := refs } j = it'.refcnt := Data.refcnt_eq hse
        exact hr (hcn ▸ hj)
      · refine hg.referenced j ?_
        rw [Data.refcnt, ← hi j hji]
        exact hj
    signalled := by
      intro j jt c hjt hc
      rcases eq_or_ne j i with rfl | hji
      · cases hse.symm.trans hjt
        exact hsi c hc
      · exact hg.signalled j jt c ((hi j hji).symm.trans hjt) hc }

lemma Good.remove (hg : Good d) (h : Indexed d.keyOf list set) (hse : set.Sublist d.set)
    (hm : ∀ i ∈ set, i ∈ list ↔ i ∈ d.list) (hgo : ∀ i ∈ d.set, i ∉ set → d.refcnt i = 0) :
    Good { d with set := set, list := list } where
  __ := h
  set_live := fun i hi => hg.set_live i (hse.subset hi)
  idle := by
    intro i hi it hit
    rw [show (i ∈ list ↔ i ∈ d.list) from hm i hi]
    exact hg.idle i (hse.subset hi) it hit
  __ := hg
  referenced := by
    intro i hi
    refine Decidable.byContradiction fun hn => ?_
    have hz := hgo i (hg.referenced i hi) hn
    exact absurd hi (not_lt.2 (le_of_eq hz))

lemma Good.delete (hg : Good d) (h : i ∉ d.set) : Good { d with items := update d.items i none } := by
  have hn : ∀ j ∈ d.set, j ≠ i := fun j hj he => h (he ▸ hj)
  have hi : ∀ j, j ≠ i → update d.items i none j = d.items j := fun j hj => update_of_ne hj ..
  -- what is still there was there
  have ho : ∀ j jt, update d.items i none j = some jt → j ≠ i ∧ d.items j = some jt := by
    intro j jt hj
    have hji : j ≠ i := by
      rintro rfl
      rw [update_self] at hj
      cases hj
    exact ⟨hji, hi j hji ▸ hj⟩
  exact {
    __ := hg
    set_live := by
      intro j hj
      obtain ⟨jt, hjt⟩ := hg.set_live j hj
      exact ⟨jt, (hi j (hn j hj)).trans hjt⟩
    keys := by
      intro a ha b hb hab
      refine hg.keys a ha b hb ?_
      simp only [Data.keyOf, hi a (hn a ha), hi b (hn b hb)] at hab
      exact hab
    idle := fun j hj jt hjt => hg.idle j hj jt (ho j jt hjt).2
    fresh := by
      intro j hj
      by_cases hji : j = i
      · exact hji ▸ update_self ..
      · exact (hi j hji).trans (hg.fresh j hj)
    referenced := by
      intro j hj
      rcases eq_or_ne j i with rfl | hji
      · simp [Data.refcnt] at hj
      · refine hg.referenced j ?_
        rw [Data.refcnt, ← hi j hji]
        exact hj
    signalled := fun j jt c hjt => hg.signalled j jt c (ho j jt hjt).2 }

lemma Good.insert [DecidableEq K] (hg : Good d) (h : d.find key = none) : Good (d.insert key) := by
  have hn : d.next ∉ d.set := by
    intro hm
    obtain ⟨jt, hjt⟩ := hg.set_live _ hm
    exact lt_irrefl _ (hg.lt_next hjt)
  have hse : (d.insert key).items d.next = some { key := key, refcnt := 1 } := update_self ..
  have hi : ∀ j, j ≠ d.next → (d.insert key).items j = d.items j := fun j hj => update_of_ne hj ..
  have hne : ∀ j ∈ d.set, j ≠ d.next := fun j hj he => hn (he ▸ hj)
  have hset : ∀ j, j ∈ (d.insert key).set ↔ j ∈ d.set ∨ j = d.next := fun j => by
    simp [Data.insert]
  exact {
    __ := hg.indexed.insert { key := key, refcnt := 1 } hn (Data.find_none h)
    set_live := by
      intro j hj
      rcases (hset j).1 hj with hj | rfl
      · obtain ⟨jt, hjt⟩ := hg.set_live j hj
        exact ⟨jt, (hi j (hne j hj)).trans hjt⟩
      · exact ⟨_, hse⟩
    idle := by
      intro j hj jt hjt
      rcases (hset j).1 hj with hj | rfl
      · rw [hi j (hne j hj)] at hjt
        exact hg.idle j hj jt hjt
      cases hse.symm.trans hjt
      constructor
      · intro hl
        exact absurd (hg.list_set _ hl) hn
      · rintro ⟨h0, -⟩
        cases h0
    fresh := by
      intro j hj
      have hlt : d.next < j := hj
      rw [hi j (by omega)]
      exact hg.fresh j (by omega)
    referenced := by
      intro j hj
      refine (hset j).2 ?_
      by_cases hjn : j = d.next
      · exact .inr hjn
      · refine .inl (hg.referenced j ?_)
        rw [Data.refcnt, ← hi j hjn]
        exact hj
    signalled := by
      intro j jt c hjt hc
      rcases eq_or_ne j d.next with rfl | hjn
      · cases hse.symm.trans hjt
        cases hc
      · rw [hi j hjn] at hjt
        exact hg.signalled j jt c hjt hc }

/-- What `ref_release` makes of the item and the list: one reference less, and the item goes to the list when it was the
last one, unless the item is being recycled. `waits` says that this call recycles it. -/
structure Released (d : Data K V) (i : Nat) (it it' : Item K V) (list : List Nat) (waits : Bool) : Prop where
  key : it'.key = it.key
  refcnt : it'.refcnt + 1 = it.refcnt
  mtx : it'.mtx = it.mtx
  obj : it'.obj = it.obj
  nodup : list.Nodup
  others : ∀ j ≠ i, j ∈ list ↔ j ∈ d.list
  idle : i ∈ list ↔ it'.refcnt = 0 ∧ it'.recycle = none
  signalled : ∀ c, it'.recycle = some (c + 1) → it'.refcnt = 0
  recycles : waits = true → it.recycle = none ∧ it'.recycle.isSome = true
  keeps : waits = false → it'.recycle.isSome = it.recycle.isSome

lemma Good.refRelease_spec [DecidableEq K] (hg : Good d) (lifespan : Nat) (hit : d.items i = some it)
    (hpo : 0 < it.refcnt) (recycle : Bool) :
    ∃ it' list, (d.refRelease lifespan i it recycle).1 = { d.setItem i it' with list := list, refs := d.refs } ∧
      Released d i it it' list (d.refRelease lifespan i it recycle).2 := by
  have hse : i ∈ d.set := hg.referenced i (by rw [Data.refcnt_eq hit]; exact hpo)
  have hn : i ∉ d.list := fun hl => by
    have := ((hg.idle i hse it hit).1 hl).1
    omega
  -- the item stays off the list while it has references or is being recycled
  have ho : ∀ it' : Item K V, ¬(it'.refcnt = 0 ∧ it'.recycle = none) →
      (i ∈ d.list ↔ it'.refcnt = 0 ∧ it'.recycle = none) :=
    fun it' h => ⟨fun hl => absurd hl hn, fun h' => absurd h' h⟩
  cases hb : (recycle && it.recycle.isNone) with
  | true =>
    have hno : it.recycle = none := by simpa using (Bool.and_eq_true_iff.1 hb).2
    simp only [Data.refRelease, hb, if_true]
    split
    next h0 =>
      refine ⟨_, d.list, rfl, rfl, by dsimp only; omega, rfl, rfl, hg.list_nodup, fun _ _ => Iff.rfl, ho _ ?_,
        fun _ _ => h0, fun _ => ⟨hno, rfl⟩, nofun⟩
      exact fun h => by cases h.2
    next h0 =>
      refine ⟨_, d.list, rfl, rfl, by dsimp only; omega, rfl, rfl, hg.list_nodup, fun _ _ => Iff.rfl, ho _ ?_,
        (fun c hc => by cases hc), fun _ => ⟨hno, rfl⟩, nofun⟩
      exact fun h => by cases h.2
  | false =>
    simp only [Data.refRelease, hb, Bool.false_eq_true, if_false]
    split
    next h0 =>
      cases hc : it.recycle with
      | some =>
        refine ⟨_, d.list, rfl, rfl, by dsimp only; omega, rfl, rfl, hg.list_nodup, fun _ _ => Iff.rfl, ho _ ?_,
          fun _ _ => h0, nofun, fun _ => by rw [hc]; rfl⟩
        exact fun h => by cases h.2
      | none =>
        refine ⟨_, d.list.erase i ++ [i], rfl, rfl, by dsimp only; omega, rfl, rfl, (hg.indexed.requeue hse).list_nodup,
          fun j hj => by simp [hj], ?_, (fun c hc => by cases hc), nofun, fun _ => by rw [hc]⟩
        exact ⟨fun _ => ⟨h0, rfl⟩, fun _ => by simp⟩
    next h0 =>
      refine ⟨_, d.list, rfl, rfl, by dsimp only; omega, rfl, rfl, hg.list_nodup, fun _ _ => Iff.rfl, ho _ ?_, fun c hc => ?_,
        nofun, fun _ => rfl⟩
      · exact fun h => h0 h.1
      · have := hg.signalled i it c hit hc
        omega

/-- The predicate of `expire` holds of an item, with this number of items in the set. -/
def Data.Goes (d : Data K V) (limit size x : Nat) : Prop := (∃ it ∈ d.items x, it.timeout < d.now) ∨ size > limit

/-- What is taken off the list, what stays on it, and the set, when the front of the list goes up to an item that stays.
-/
structure Expired (d : Data K V) (limit : Nat) (list set : List Nat) (r : List Nat × List Nat × List Nat) : Prop where
  indexed : Indexed d.keyOf r.2.1 r.2.2
  append : r.1 ++ r.2.1 = list
  sublist : r.2.2.Sublist set
  mem : ∀ i, i ∈ r.2.2 ↔ i ∈ set ∧ i ∉ r.1
  kept : ∀ x ∈ r.2.1.head?, ¬ d.Goes limit (set.length - r.1.length) x
  goes : ∀ n < r.1.length, ∃ x ∈ (list.drop n).head?, d.Goes limit (set.length - n) x

lemma Indexed.expireLoop_spec [DecidableEq K] (limit : Nat) : ∀ {list set : List Nat}, Indexed d.keyOf list set →
    Expired d limit list set (d.expireLoop limit list set)
  | [], _, h => by constructor <;> simp [Data.expireLoop, h]
  | x :: xs, s, h => by
    simp only [Data.expireLoop]
    split
    next hg =>
      have hin := h.list_set x mem_cons_self
      obtain ⟨hsu, hm⟩ := h.mem_setErase hin
      have hr : Indexed d.keyOf xs (d.setErase s x) := h.part hsu (sublist_cons_self x xs) fun i hi =>
        (hm i).2 ⟨h.list_set i (mem_cons_of_mem _ hi), fun he => (nodup_cons.1 h.list_nodup).1 (he ▸ hi)⟩
      have hle : ∀ n, (d.setErase s x).length - n = s.length - (n + 1) := by
        intro n
        rw [Data.setErase, length_eraseP_of_mem hin (by simp), Nat.sub_sub, add_comm]
      obtain ⟨h0, h1, h2, h3, h4, h5⟩ := hr.expireLoop_spec limit
      rw [hle] at h4
      refine ⟨h0, by rw [cons_append, h1], h2.trans hsu, fun i => ?_, h4, fun n hlt => ?_⟩
      · rw [h3 i, hm i, mem_cons, not_or, and_assoc]
      · cases n with
        | zero => exact ⟨x, rfl, hg⟩
        | succ n =>
          rw [← hle n]
          exact h5 n (Nat.lt_of_succ_lt_succ hlt)
    next hn =>
      refine ⟨h, rfl, .refl _, by simp, fun y hy => ?_, nofun⟩
      cases hy
      exact hn

end Photon.ObjectCache
