import Mathlib.Data.List.Destutter
import Mathlib.Data.List.Rotate
import Mathlib.Data.List.Sort
import Photon.Lib.Search
/-!
# consistent_hash_map

The nodes in a vector that `sort` orders by their keys; `find` takes the first node
that is not before the key, or the first of all, and `next` goes round. `Compare` is any
strict weak order, and two keys differ when one of them is before the other. An iterator
is its position in the vector. `std::sort` may leave nodes with equal keys in any order;
here no two nodes of a map have equal keys.

What `find` finds depends on the set of nodes only (`Successor`): the least key that is
not before the one looked for, or the least of all when there is none.
-/

namespace Photon.ConsistentHashMap

open List Nat

variable {K V : Type}

structure Map (K V : Type) where
  vector : List (K × V) := []

def Map.pushBack (m : Map K V) (k : K) (v : V) : Map K V := ⟨m.vector ++ [(k, v)]⟩

section

variable (lt : K → K → Bool)

def valueCompare (a b : K × V) : Bool := lt a.1 b.1

variable [DecidableEq K] [DecidableEq V] in
/-- `std::sort`, then `std::unique`, which keeps the first of equal neighbours. -/
def Map.sort (m : Map K V) : Map K V :=
  ⟨(m.vector.insertionSort fun a b => valueCompare lt b a = false).destutter (· ≠ ·)⟩

def Map.find (m : Map K V) (k : K) : Nat :=
  if m.vector.isEmpty then m.vector.length
  else
    let it := lowerBound (fun a => lt a.1 k) m.vector
    if it ≠ m.vector.length then it else 0

def Map.next (m : Map K V) (it : Nat) : Nat := if it + 1 ≠ m.vector.length then it + 1 else 0

/-- `*it`. -/
def Map.deref (m : Map K V) (it : Nat) : Option (K × V) := m.vector[it]?

variable [DecidableEq K] [DecidableEq V] in
/-- The map after the nodes are pushed in this order and sorted. -/
def ofNodes (nodes : List (K × V)) : Map K V := (nodes.foldl (fun (m : Map K V) x => m.pushBack x.1 x.2) {}).sort lt

def Differ (a b : K × V) : Prop := lt a.1 b.1 = true ∨ lt b.1 a.1 = true

end

variable {lt : K → K → Bool}

instance : Std.Symm (Differ (V := V) lt) := ⟨fun _ _ => Or.symm⟩

/-! ## The sorted vector -/

lemma foldl_pushBack (nodes : List (K × V)) (m : Map K V) :
    (nodes.foldl (fun (m : Map K V) x => m.pushBack x.1 x.2) m).vector = m.vector ++ nodes := by
  induction nodes generalizing m with
  | nil => simp
  | cons x nodes ih => rw [foldl_cons, ih]; simp [Map.pushBack]

variable {nodes : List (K × V)}

section

variable [hlt : IsStrictWeakOrder K fun a b => lt a b = true]

lemma not_lt_trans {a b c : K} (hab : lt a b = false) (hbc : lt b c = false) : lt a c = false := by
  by_contra ha
  have ha : lt a c = true := by simpa using ha
  cases hba : lt b a with
  | true => rw [hlt.trans _ _ _ hba ha] at hbc; cases hbc
  | false =>
    cases hcb : lt c b with
    | true => rw [hlt.trans _ _ _ ha hcb] at hab; cases hab
    | false =>
      have h := (hlt.incomp_trans a b c ⟨by simp [hab], by simp [hba]⟩ ⟨by simp [hbc], by simp [hcb]⟩).1
      exact h ha

lemma Differ.ne {a b : K × V} (h : Differ lt a b) : a ≠ b := by
  rintro rfl
  rcases h with h | h <;> exact hlt.irrefl _ h

lemma ofNodes_vector [DecidableEq K] [DecidableEq V] (hd : nodes.Pairwise (Differ lt)) :
    (ofNodes lt nodes).vector.Perm nodes ∧ (ofNodes lt nodes).vector.Pairwise fun a b => lt a.1 b.1 = true := by
  have hv : (nodes.foldl (fun (m : Map K V) x => m.pushBack x.1 x.2) {}).vector = nodes := by
    rw [foldl_pushBack, nil_append]
  have hpe := perm_insertionSort (fun a b : K × V => valueCompare lt b a = false) nodes
  have ht : IsTrans (K × V) fun a b => valueCompare lt b a = false := by
    refine ⟨fun a b c ha hbc => ?_⟩
    unfold valueCompare at ha hbc ⊢
    exact not_lt_trans hbc ha
  have hto : Std.Total fun a b : K × V => valueCompare lt b a = false := ⟨fun a b => by
    by_contra h
    obtain ⟨hba, ha⟩ : lt b.1 a.1 = true ∧ lt a.1 b.1 = true := by simpa [valueCompare] using h
    exact hlt.irrefl _ (hlt.trans _ _ _ hba ha)⟩
  have hso := pairwise_insertionSort (fun a b : K × V => valueCompare lt b a = false) nodes
  have hdi := (hpe.pairwise_iff symm).2 hd
  have hch := (hdi.imp fun h => h.ne).isChain
  rw [ofNodes, Map.sort, hv, destutter_of_isChain _ _ hch]
  refine ⟨hpe, (hso.and hdi).imp fun ⟨hle, hn⟩ => ?_⟩
  -- sorted means not before, and one of two different keys is before the other
  rcases hn with h | h
  · exact h
  · rw [valueCompare, h] at hle
    cases hle

end

/-! ## What find finds -/

/-- Of the nodes, `n` has the least key that is not before `k`, or the least of all
when every key is before `k`. -/
def Successor (lt : K → K → Bool) (nodes : List (K × V)) (k : K) (n : K × V) : Prop := n ∈ nodes ∧
    (lt n.1 k = false ∧ (∀ m ∈ nodes, lt m.1 k = false → lt m.1 n.1 = false) ∨
      (∀ m ∈ nodes, lt m.1 k = true) ∧ ∀ m ∈ nodes, lt m.1 n.1 = false)

variable {k : K} {n : K × V} {m : Map K V}

lemma Successor.unique (hd : nodes.Pairwise (Differ lt)) {n' : K × V}
    (h : Successor lt nodes k n) (h' : Successor lt nodes k n') : n = n' := by
  obtain ⟨hm, h⟩ := h
  obtain ⟨hm', h'⟩ := h'
  by_contra hne
  have hle : lt n'.1 n.1 = false ∧ lt n.1 n'.1 = false := by
    rcases h with ⟨hk, hmi⟩ | ⟨ha, hmi⟩ <;> rcases h' with ⟨hk', hmi'⟩ | ⟨ha', hmi'⟩
    · exact ⟨hmi n' hm' hk', hmi' n hm hk⟩
    · cases hk.symm.trans (ha' n hm)
    · cases hk'.symm.trans (ha n' hm')
    · exact ⟨hmi n' hm', hmi' n hm⟩
  have hdi : Differ lt n n' := hd.forall hm hm' hne
  rcases hdi with h | h
  · cases h.symm.trans hle.2
  · cases h.symm.trans hle.1

lemma Successor.of_cons {x : K × V} (h : Successor lt (x :: nodes) k n) (hn : n ≠ x) : Successor lt nodes k n := by
  obtain ⟨hm, h⟩ := h
  refine ⟨(mem_cons.1 hm).resolve_left hn, ?_⟩
  rcases h with ⟨hk, hmi⟩ | ⟨ha, hmi⟩
  · exact .inl ⟨hk, fun m hm => hmi m (mem_cons_of_mem x hm)⟩
  · exact .inr ⟨fun m hm => ha m (mem_cons_of_mem x hm), fun m hm => hmi m (mem_cons_of_mem x hm)⟩

lemma Successor.perm {nodes' : List (K × V)} (hp : nodes.Perm nodes')
    (h : Successor lt nodes k n) : Successor lt nodes' k n := by
  simpa only [Successor, hp.mem_iff] using h

lemma partitioned_of_sorted [hlt : IsStrictWeakOrder K fun a b => lt a b = true] {l : List (K × V)}
    (hs : l.Pairwise fun a b => lt a.1 b.1 = true) (k : K) : Partitioned (fun a => lt a.1 k) l := by
  intro i j hi hj
  obtain ⟨b, hb, hbk⟩ := (Option.any_eq_true ..).1 hj
  rcases lt_or_eq_of_le hi with hi | rfl
  · obtain ⟨hjl, rfl⟩ := List.getElem?_eq_some_iff.1 hb
    have ha := pairwise_iff_getElem.1 hs i j (by omega) hjl hi
    rw [getElem?_eq_getElem (by omega)]
    exact hlt.trans _ _ _ ha hbk
  · exact hj

lemma find_lt (hn : m.vector ≠ []) (hle : lowerBound (fun a => lt a.1 k) m.vector ≤ m.vector.length) :
    m.find lt k < m.vector.length := by
  have hpo := length_pos_iff.2 hn
  rw [Map.find, if_neg (by simpa using hn)]
  dsimp only
  split <;> omega

lemma find_successor [hlt : IsStrictWeakOrder K fun a b => lt a b = true]
    (hs : m.vector.Pairwise fun a b => lt a.1 b.1 = true) (hn : m.vector ≠ []) (k : K) :
    ∃ n, m.deref (m.find lt k) = some n ∧ Successor lt m.vector k n := by
  obtain ⟨hle, hlo, hh⟩ := lowerBound_spec (partitioned_of_sorted hs k)
  have hfl := find_lt hn hle
  refine ⟨m.vector[m.find lt k], getElem?_eq_getElem hfl, getElem_mem hfl, ?_⟩
  have hm : ∀ i j (hi : i < m.vector.length) (hj : j < m.vector.length), i ≤ j →
      lt m.vector[j].1 m.vector[i].1 = false := by
    intro i j hi hj hij
    by_contra h
    have h : lt m.vector[j].1 m.vector[i].1 = true := by simpa using h
    rcases lt_or_eq_of_le hij with hij | rfl
    · exact hlt.irrefl _ (hlt.trans _ _ _ h (pairwise_iff_getElem.1 hs i j hi hj hij))
    · exact hlt.irrefl _ h
  by_cases he : lowerBound (fun a => lt a.1 k) m.vector = m.vector.length
  · -- every key is before `k`
    have hf : m.find lt k = 0 := by simp [Map.find, hn, he]
    right
    constructor
    · intro a ha
      obtain ⟨i, hi, rfl⟩ := getElem_of_mem ha
      have h := hlo i (by omega)
      rwa [getElem?_eq_getElem hi] at h
    · intro a ha
      obtain ⟨i, hi, rfl⟩ := getElem_of_mem ha
      simp only [hf]
      exact hm 0 i (by omega) hi (zero_le i)
  · have hf : m.find lt k = lowerBound (fun a => lt a.1 k) m.vector := by simp [Map.find, hn, he]
    left
    constructor
    · have h := hh (m.find lt k) (by omega)
      rwa [getElem?_eq_getElem hfl] at h
    intro a ha hak
    obtain ⟨i, hi, rfl⟩ := getElem_of_mem ha
    refine hm _ i hfl hi ?_
    by_contra hlt'
    have h := hlo i (by omega)
    rw [getElem?_eq_getElem hi] at h
    cases hak.symm.trans h

/-! ## Going round -/

lemma next_iterate {it : Nat} (hit : it < m.vector.length) (i : Nat) : m.next^[i] it = (it + i) % m.vector.length := by
  induction i with
  | zero => exact (Nat.mod_eq_of_lt hit).symm
  | succ i ih =>
    rw [Function.iterate_succ_apply', ih, Map.next, ← Nat.add_assoc]
    have hlt := Nat.mod_lt (it + i) (show m.vector.length > 0 by omega)
    have hm : (it + i + 1) % m.vector.length = ((it + i) % m.vector.length + 1) % m.vector.length :=
      (Nat.mod_add_mod ..).symm
    by_cases h : (it + i) % m.vector.length + 1 = m.vector.length
    · rw [if_neg (by simpa using h), hm, h, Nat.mod_self]
    · rw [if_pos h, hm]
      exact (Nat.mod_eq_of_lt (by omega)).symm

lemma deref_next {it : Nat} (hit : it < m.vector.length) :
    ((range m.vector.length).map fun i => m.deref (m.next^[i] it)) = (m.vector.rotate it).map some := by
  refine ext_getElem (by simp) fun i hi _ => ?_
  simp only [getElem_map, getElem_range, Map.deref, next_iterate hit, getElem_rotate]
  rw [Nat.add_comm, getElem?_eq_getElem]

variable [DecidableEq K] [DecidableEq V]

lemma ofNodes_round [IsStrictWeakOrder K fun a b => lt a b = true] (hd : nodes.Pairwise (Differ lt)) (k : K) :
    let m := ofNodes lt nodes
    ((range nodes.length).map fun i => m.deref (m.next^[i] (m.find lt k))).Perm (nodes.map some) ∧
      m.next^[nodes.length] (m.find lt k) = m.find lt k := by
  obtain ⟨hpe, hs⟩ := ofNodes_vector hd
  intro m
  rw [← hpe.length_eq]
  by_cases hn : m.vector = []
  · have hno : nodes = [] := by
      rw [show (ofNodes lt nodes).vector = [] from hn] at hpe
      exact hpe.symm.eq_nil
    rw [show (ofNodes lt nodes).vector = [] from hn, hno]
    exact ⟨.nil, rfl⟩
  · have hf := find_lt hn (lowerBound_spec (partitioned_of_sorted hs k)).1
    refine ⟨?_, ?_⟩
    · rw [deref_next hf]
      exact ((rotate_perm ..).trans hpe).map some
    · rw [next_iterate hf, add_mod_right, mod_eq_of_lt hf]

/-- For nodes with different keys and one node `x` more, both pushed in any order and
sorted: `find` gives `x` or the node it gives without `x`; and in either map `next`
from there visits each node once and then is back. -/
theorem find_next_of_insert [IsStrictWeakOrder K fun a b => lt a b = true] {small large : List (K × V)} {x : K × V}
    (hp : large.Perm (x :: small)) (hd : large.Pairwise (Differ lt)) (k : K) :
    let m := ofNodes lt small
    let m' := ofNodes lt large
    (m'.deref (m'.find lt k) = some x ∨ m'.deref (m'.find lt k) = m.deref (m.find lt k)) ∧
      ((range small.length).map fun i => m.deref (m.next^[i] (m.find lt k))).Perm (small.map some) ∧
      m.next^[small.length] (m.find lt k) = m.find lt k ∧
      ((range large.length).map fun i => m'.deref (m'.next^[i] (m'.find lt k))).Perm (large.map some) ∧
      m'.next^[large.length] (m'.find lt k) = m'.find lt k := by
  have hdx := (hp.pairwise_iff symm).1 hd
  have hds : small.Pairwise (Differ lt) := hdx.of_cons
  obtain ⟨hpe, hs⟩ := ofNodes_vector hds
  obtain ⟨hp', hs'⟩ := ofNodes_vector hd
  intro m m'
  refine ⟨?_, (ofNodes_round hds k).1, (ofNodes_round hds k).2, (ofNodes_round hd k).1, (ofNodes_round hd k).2⟩
  have hne' : m'.vector ≠ [] := by
    intro h
    have hlen := (hp'.trans hp).length_eq
    rw [show (ofNodes lt large).vector = [] from h] at hlen
    cases hlen
  obtain ⟨n', hn', hsu'⟩ := find_successor hs' hne' k
  have hsu' : Successor lt (x :: small) k n' := (hsu'.perm hp').perm hp
  by_cases hx : n' = x
  · exact .inl (hx ▸ hn')
  right
  have hsm := hsu'.of_cons hx
  have hne : m.vector ≠ [] := by
    intro h
    have hm := hpe.mem_iff.2 hsm.1
    rw [show (ofNodes lt small).vector = [] from h] at hm
    cases hm
  obtain ⟨n, hn, hsu⟩ := find_successor hs hne k
  rw [hn', hn, (hsu.perm hpe).unique hds hsm]

theorem find_next_of_insert_wrap :
    let m := ofNodes (fun a b : Nat => decide (a < b)) [(30, 'c'), (10, 'a')]
    let m' := ofNodes (fun a b : Nat => decide (a < b)) [(30, 'c'), (5, 'x'), (10, 'a')]
    m.deref (m.find (fun a b => decide (a < b)) 40) = some (10, 'a') ∧
      m'.deref (m'.find (fun a b => decide (a < b)) 40) = some (5, 'x') ∧
      (m'.deref (m'.find (fun a b => decide (a < b)) 40) = some (5, 'x') ∨
        m'.deref (m'.find (fun a b => decide (a < b)) 40) = m.deref (m.find (fun a b => decide (a < b)) 40)) := by
  have hlt : IsStrictWeakOrder Nat fun a b => decide (a < b) = true :=
    { irrefl := by simp, trans := by simp only [decide_eq_true_eq]; omega
      incomp_trans := by simp only [decide_eq_true_eq]; omega }
  refine ⟨by decide, by decide, ?_⟩
  refine (@find_next_of_insert Nat Char (fun a b => decide (a < b)) _ _ hlt _ _ (5, 'x') ?_ ?_ 40).1
  · decide
  · simp [Differ]

/-- What `find` gives depends on the set of nodes only, not on the order in which they were pushed. -/
theorem find_of_perm [IsStrictWeakOrder K fun a b => lt a b = true] {nodes' : List (K × V)}
    (hp : nodes.Perm nodes') (hd : nodes.Pairwise (Differ lt)) (hne : nodes ≠ []) (k : K) :
    ∃ n, Successor lt nodes k n ∧ (ofNodes lt nodes).deref ((ofNodes lt nodes).find lt k) = some n ∧
      (ofNodes lt nodes').deref ((ofNodes lt nodes').find lt k) = some n := by
  obtain ⟨hpe, hs⟩ := ofNodes_vector hd
  obtain ⟨hpe', hs'⟩ := ofNodes_vector ((hp.pairwise_iff symm).1 hd)
  have hv : ∀ {v : List (K × V)}, v.Perm nodes → v ≠ [] := fun hv h => hne (by rw [h] at hv; exact hv.symm.eq_nil)
  obtain ⟨n, hn, hsu⟩ := find_successor hs (hv hpe) k
  obtain ⟨n', hn', hsu'⟩ := find_successor hs' (hv (hpe'.trans hp.symm)) k
  have hsn := hsu.perm hpe
  obtain rfl := hsn.unique hd (hsu'.perm (hpe'.trans hp.symm))
  exact ⟨n, hsn, hn, hn'⟩

theorem find_of_perm_two : ∃ n, Successor (fun a b : Nat => decide (a < b)) [(30, 'c'), (10, 'a')] 20 n ∧ n.2 = 'c' := by
  have hlt : IsStrictWeakOrder Nat fun a b => decide (a < b) = true :=
    { irrefl := by simp, trans := by simp only [decide_eq_true_eq]; omega
      incomp_trans := by simp only [decide_eq_true_eq]; omega }
  obtain ⟨n, hs, hn, -⟩ := @find_of_perm Nat Char (fun a b => decide (a < b)) _ _ _ hlt _
    (.swap (10, 'a') (30, 'c') []) (by simp [Differ]) (by simp) 20
  cases hn
  exact ⟨_, hs, rfl⟩

end Photon.ConsistentHashMap
