import Mathlib.Data.List.Lex
import Mathlib.Data.Prod.Lex
import Mathlib.Data.List.Sort
import Photon.Lib.Search
/-!
# The children of a document node

`ecosystem/simple_dom.cpp`: a node finds a child by its key through an index sorted by
key and position. The children of one key are enumerated along the siblings, up to the
one that the index marked as the last of its key.
-/

namespace Photon.SimpleDom

open List Option

variable {α : Type} [LinearOrder α]

/-- The key a node gives back, whose length is kept in 12 bits. -/
def getKey (key : List α) : List α := key.take (key.length % 4096)

def children (nodes : List (List α)) : List (List α) := (nodes.take 65535).map getKey

section
variable (ks : List (List α)) (key : List α)

def keyAt (i : Nat) : List α := ks.getD i []

def compare (i j : Nat) : Bool := keyAt ks i < keyAt ks j ∨ (keyAt ks i = keyAt ks j ∧ i < j)

def index : List Nat := (range ks.length).mergeSort fun i j => !compare ks j i

/-- The children that get `FLAG_EQUAL_KEY_LAST`, by the loop over the index. -/
def equalKeyLast : List Nat → List Nat
  | [] => []
  | [b] => [b]
  | a :: b :: rest => if keyAt ks a ≠ keyAt ks b then a :: equalKeyLast (b :: rest) else equalKeyLast (b :: rest)

def get : Option Nat :=
  if ks = [] then none
  else ((index ks)[lowerBound (fun i => keyAt ks i < key) (index ks)]?).filter fun i => key = keyAt ks i

/-- `SameKeyEnumerator::next`, on the siblings from the current one on. -/
def next : List Nat → List Nat
  | [] => []
  | i :: rest => if i ∈ equalKeyLast ks (index ks) then [] else rest.dropWhile fun j => keyAt ks i ≠ keyAt ks j

def enumerate : Nat → List Nat → List Nat
  | 0, _ => []
  | _, [] => []
  | n + 1, i :: rest => i :: enumerate n (next ks (i :: rest))

def enumerableChildren : List Nat :=
  match get ks key with
  | none => []
  | some i => enumerate ks ks.length (range' i (ks.length - i))

def withKey : List Nat := (range ks.length).filter fun i => keyAt ks i = key

def rank (i : Nat) : List α ×ₗ Nat := toLex (keyAt ks i, i)

end

section
variable {ks : List (List α)} {i j : Nat}

lemma rank_lt : rank ks i < rank ks j ↔ keyAt ks i < keyAt ks j ∨ keyAt ks i = keyAt ks j ∧ i < j :=
  Prod.Lex.toLex_lt_toLex

lemma keyAt_le (h : rank ks i ≤ rank ks j) : keyAt ks i ≤ keyAt ks j := Prod.Lex.monotone_fst _ _ h

lemma le_of_rank_le (h : rank ks i ≤ rank ks j) (hk : keyAt ks i = keyAt ks j) : i ≤ j := by
  rcases Prod.Lex.toLex_le_toLex.1 h with h | h
  · exact absurd hk h.ne
  · exact h.2

lemma mem_index : i ∈ index ks ↔ i < ks.length := by simp [index]

lemma index_pairwise : (index ks).Pairwise fun i j => rank ks i < rank ks j := by
  have hle : ∀ i j, (!compare ks j i) = true ↔ rank ks i ≤ rank ks j := by
    intro i j
    rw [← not_lt, rank_lt]
    simp [compare, imp_iff_not_or]
  have hso : (index ks).Pairwise fun i j => rank ks i ≤ rank ks j := by
    simp only [← hle]
    apply pairwise_mergeSort
    · intro a b c
      simp only [hle]
      exact le_trans
    · intro a b
      simpa only [Bool.or_eq_true, hle] using le_total ..
  have hn : (index ks).Nodup := (mergeSort_perm ..).nodup_iff.2 nodup_range
  refine hso.imp₂ (fun a b ha hne => lt_of_le_of_ne ha fun h => hne ?_) hn
  exact congrArg (fun x => (ofLex x).2) h

lemma equalKeyLast_last {l : List Nat} (hl : l.Pairwise fun i j => rank ks i < rank ks j)
    (hi : i ∈ equalKeyLast ks l) : i ∈ l ∧ ∀ j ∈ l, keyAt ks j = keyAt ks i → j ≤ i := by
  fun_induction equalKeyLast ks l with
  | case1 => cases hi
  | case2 b => simp_all
  | case3 a b rest hn ih =>
    obtain ⟨ha, hr⟩ := pairwise_cons.1 hl
    rcases mem_cons.1 hi with rfl | hi
    · refine ⟨mem_cons_self, forall_mem_cons.2 ⟨fun _ => le_rfl, fun j hj hk => ?_⟩⟩
      have hbj : keyAt ks b ≤ keyAt ks j := by
        rcases mem_cons.1 hj with rfl | hj
        · exact le_rfl
        · exact keyAt_le ((pairwise_cons.1 hr).1 j hj).le
      exact absurd (le_antisymm (keyAt_le (ha b mem_cons_self).le) (hk ▸ hbj)) hn
    · obtain ⟨hm, h⟩ := ih hr hi
      exact ⟨mem_cons_of_mem a hm, forall_mem_cons.2 ⟨le_of_rank_le (ha i hm).le, h⟩⟩
  | case4 a b rest he ih =>
    obtain ⟨ha, hr⟩ := pairwise_cons.1 hl
    obtain ⟨hm, h⟩ := ih hr hi
    exact ⟨mem_cons_of_mem a hm, forall_mem_cons.2 ⟨le_of_rank_le (ha i hm).le, h⟩⟩

lemma filter_dropWhile (key : List α) (l : List Nat) :
    (l.dropWhile fun j => key ≠ keyAt ks j).filter (fun j => keyAt ks j = key) = l.filter fun j => keyAt ks j = key := by
  induction l with
  | nil => rfl
  | cons j => by_cases h : key = keyAt ks j <;> simp_all [eq_comm]

lemma enumerate_eq (key : List α) {n : Nat} {cur : List Nat} (hn : cur.length ≤ n) (hcu : cur.Pairwise (· < ·))
    (hlt : ∀ j ∈ cur, j < ks.length) (hke : ∀ i ∈ cur.head?, keyAt ks i = key) :
    enumerate ks n cur = cur.filter fun j => keyAt ks j = key := by
  induction n generalizing cur with
  | zero =>
    obtain rfl := length_eq_zero_iff.1 (Nat.le_zero.1 hn)
    rfl
  | succ n ih =>
    cases cur with
    | nil => rfl
    | cons i rest =>
      obtain rfl := hke i rfl
      obtain ⟨hi, hr⟩ := pairwise_cons.1 hcu
      rw [enumerate, filter_cons_of_pos (by simp), next]
      congr 1
      split
      next hf =>
        have hla := (equalKeyLast_last index_pairwise hf).2
        have hni : enumerate ks n [] = [] := by cases n <;> rfl
        rw [hni, eq_comm, filter_eq_nil_iff]
        intro j hj
        have hle := hla j (mem_index.2 (hlt j (mem_cons_of_mem i hj)))
        simpa using fun hk => absurd (hle hk) (Nat.not_le.2 (hi j hj))
      · have hsu := dropWhile_sublist (l := rest) fun j => decide (keyAt ks i ≠ keyAt ks j)
        rw [ih (hsu.length_le.trans (Nat.le_of_succ_le_succ hn)) (hr.sublist hsu)
          (fun j hj => hlt j (mem_cons_of_mem i (hsu.subset hj))) ?_, filter_dropWhile]
        intro j hj
        have hh := head?_dropWhile_not (fun j => decide (keyAt ks i ≠ keyAt ks j)) rest
        rw [mem_def.1 hj] at hh
        exact (of_decide_eq_false hh |> not_not.1).symm

lemma head?_withKey (key : List α) : (withKey ks key).head? = some i ↔
    i < ks.length ∧ keyAt ks i = key ∧ ∀ j < i, keyAt ks j ≠ key := by
  rw [withKey, head?_filter, find?_range_eq_some]
  simp [and_left_comm]

lemma index_rank {p q : Nat} (hpq : p ≤ q) (hi : (index ks)[p]? = some i) (hj : (index ks)[q]? = some j) :
    rank ks i ≤ rank ks j := by
  obtain ⟨hp, rfl⟩ := List.getElem?_eq_some_iff.1 hi
  obtain ⟨hq, rfl⟩ := List.getElem?_eq_some_iff.1 hj
  rcases hpq.lt_or_eq with h | rfl
  · exact (pairwise_iff_getElem.1 index_pairwise p q hp hq h).le
  · exact le_rfl

lemma get_eq (ks : List (List α)) (key : List α) : get ks key = (withKey ks key).head? := by
  have hpa : Partitioned (fun i => decide (keyAt ks i < key)) (index ks) := by
    intro p q hpq hq
    obtain ⟨j, hj, hlt⟩ := (any_eq_true _ _).1 hq
    have hp : p < (index ks).length := hpq.trans_lt (List.getElem?_eq_some_iff.1 hj).1
    rw [List.getElem?_eq_getElem hp]
    have := keyAt_le (index_rank hpq (getElem?_eq_getElem hp) hj)
    simpa using this.trans_lt (of_decide_eq_true hlt)
  obtain ⟨-, hlo, hh⟩ := lowerBound_spec hpa
  unfold get
  set p := lowerBound (fun i => decide (keyAt ks i < key)) (index ks)
  -- a child with the key is not before `p` in the index
  have ha : ∀ j < ks.length, keyAt ks j = key → ∃ q, p ≤ q ∧ (index ks)[q]? = some j := by
    intro j hj hk
    obtain ⟨q, hq⟩ := getElem?_of_mem (mem_index.2 hj)
    refine ⟨q, ?_, hq⟩
    by_contra h
    have := hlo q (by omega)
    rw [hq] at this
    simp [hk] at this
  have hn : (∀ j < ks.length, keyAt ks j ≠ key) → (withKey ks key).head? = none := fun h => by
    simpa [withKey] using h
  by_cases hks : ks = []
  · simp [hks, withKey]
  rw [if_neg hks]
  cases hp : (index ks)[p]? with
  | none =>
    refine (hn fun j hj hk => ?_).symm
    obtain ⟨q, hpq, hq⟩ := ha j hj hk
    rw [getElem?_eq_none ((getElem?_eq_none_iff.1 hp).trans hpq)] at hq
    cases hq
  | some i =>
    have hi : i < ks.length := mem_index.1 (mem_of_getElem? hp)
    have hg : ¬keyAt ks i < key := by simpa [hp] using hh p le_rfl
    by_cases hk : key = keyAt ks i
    · rw [filter_some, if_pos (by simpa using hk), eq_comm, head?_withKey]
      refine ⟨hi, hk.symm, fun j hj hkj => ?_⟩
      obtain ⟨q, hpq, hq⟩ := ha j (hj.trans hi) hkj
      exact Nat.not_le.2 hj (le_of_rank_le (index_rank hpq hp hq) (hk.symm.trans hkj.symm))
    · rw [filter_some, if_neg (by simpa using hk)]
      refine (hn fun j hj hkj => hk ?_).symm
      obtain ⟨q, hpq, hq⟩ := ha j hj hkj
      exact le_antisymm (not_lt.1 hg) (hkj ▸ keyAt_le (index_rank hpq hp hq))

lemma enumerableChildren_eq (ks : List (List α)) (key : List α) : enumerableChildren ks key = withKey ks key := by
  unfold enumerableChildren
  rw [get_eq]
  cases h : (withKey ks key).head? with
  | none => exact (head?_eq_none_iff.1 h).symm
  | some i =>
    obtain ⟨hi, hk, hf⟩ := (head?_withKey key).1 h
    obtain ⟨m, hm⟩ := Nat.exists_eq_add_of_lt hi
    have hr : range ks.length = range i ++ range' i (ks.length - i) := by
      rw [range_eq_range', range_eq_range', hm, Nat.add_assoc, Nat.add_sub_cancel_left, ← range'_append_1, Nat.zero_add]
    have hbe : (range i).filter (fun j => keyAt ks j = key) = [] := by simpa using hf
    dsimp only
    rw [enumerate_eq key (by simp) pairwise_lt_range' (by simp; omega), withKey, hr, filter_append, hbe]
    · rfl
    · rw [hm, Nat.add_assoc, Nat.add_sub_cancel_left]
      simp [hk, range'_succ]

/-- Look-up by key and enumeration are right for all keys exactly if there are no more than 65535 children and no key
is longer than 4095 bytes. -/
theorem children_by_key_iff (nodes : List (List α)) : (∀ key, get (children nodes) key = (withKey nodes key).head? ∧
        enumerableChildren (children nodes) key = withKey nodes key) ↔
      nodes.length ≤ 65535 ∧ ∀ k ∈ nodes, k.length < 4096 := by
  simp only [get_eq, enumerableChildren_eq]
  constructor
  · intro h
    have hm : ∀ i, (hi : i < nodes.length) → i < (children nodes).length ∧ keyAt (children nodes) i = nodes[i] := by
      intro i hi
      have : i ∈ withKey (children nodes) nodes[i] := by
        rw [(h _).2]
        simp [withKey, keyAt, hi]
      simpa [withKey] using this
    constructor
    · by_contra hlen
      have := (hm 65535 (by omega)).1
      simp [children] at this
    intro k hk
    obtain ⟨i, hi, rfl⟩ := getElem_of_mem hk
    obtain ⟨hlt, hkey⟩ := hm i hi
    have hlen := congrArg length hkey
    rw [keyAt, getD_eq_getElem?_getD, getElem?_eq_getElem hlt] at hlen
    simp [children, getKey] at hlen
    omega
  · rintro ⟨hlen, hke⟩ key
    have hkee : children nodes = nodes := by
      rw [children, take_of_length_le hlen]
      refine (map_congr_left fun k hk => ?_).trans (map_id nodes)
      exact take_of_length_le (Nat.mod_eq_of_lt (hke k hk)).ge
    simp [hkee]

end

/-- The length of a key of 4096 bytes is kept as 0. -/
theorem long_key_lost : ∃ key : List Nat, key.length = 4096 ∧ get (children [key]) key = none ∧ withKey [key] key = [0] := by
  refine ⟨replicate 4096 97, length_replicate, ?_⟩
  generalize hk : replicate 4096 97 = key
  have hle : key.length = 4096 := by rw [← hk, length_replicate]
  have hn : [] ≠ key := fun h => by simp [← h] at hle
  rw [get_eq]
  simp [children, getKey, withKey, keyAt, hle, hn]

end Photon.SimpleDom
