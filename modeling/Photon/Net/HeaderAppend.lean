import Photon.Net.HeaderLayout
/-!
# Appending to the last header

`value_append` makes the value of one header longer: the one whose entry was added last. The
characters go behind the whole text, so it has to be the last line too. `insert` makes both
true.

- `insert_open`, `valueAppend_open`: the header that was inserted last gets a longer value, and
  the others keep theirs.
- `Laid.unique`: the text and the index stand for one list of headers.
-/

namespace Photon.Http

open Estring List Option

namespace HeadersBase

/-- The last line is `e`, and the entry that was added last is its entry. -/
structure Open (h : HeadersBase) (before : List (Bytes × Bytes)) (e : Bytes × Bytes) : Prop where
  laid : h.Laid (before ++ [e])
  last : h.kvs[h.lastKv]? = some (headerEntry (headerText before).length e)

variable {h h' : HeadersBase} {before es : List (Bytes × Bytes)} {key value : Bytes}

/-! ## One list of headers -/

lemma headerIndex_pairwise (start : Nat) (es : List (Bytes × Bytes)) :
    (headerIndex start es).Pairwise fun a b => a.key.offset < b.key.offset := by
  induction es generalizing start with
  | nil => exact List.Pairwise.nil
  | cons e es ih =>
    refine List.Pairwise.cons (fun kv hk => ?_) (ih _)
    have hla := offset_of_mem hk
    have hlen := headerLine_length e
    dsimp only [headerEntry]
    omega

lemma Laid.unique {es1 es2 : List (Bytes × Bytes)} (h1 : h.Laid es1) (h2 : h.Laid es2) : es1 = es2 := by
  have hpe : (headerIndex 0 es1).Perm (headerIndex 0 es2) := h1.index.symm.trans h2.index
  have hi : headerIndex 0 es1 = headerIndex 0 es2 :=
    hpe.eq_of_pairwise (fun a b _ _ ha hba => absurd ha (lt_asymm hba))
      (headerIndex_pairwise 0 es1) (headerIndex_pairwise 0 es2)
  have hm1 := map_pair_headerIndex [] h1.text
  have hm2 := map_pair_headerIndex [] h2.text
  rw [length_nil] at hm1 hm2
  rw [← hm1, ← hm2, hi]

/-! ## Inserting -/

lemma insert_open {dup : Bool} (hl : h.Laid es) (hi : h.insert key value dup = .ok h') : h'.Open es (key, value) := by
  obtain ⟨hf, i, kvs, -, hg, rfl⟩ := insert_cases hi
  have hsm := hl.small
  have hlen := headerLine_length (key, value)
  dsimp only at hlen
  refine ⟨insert_laid hl hi, ?_⟩
  rw [hg, ← hl.bufSize, RStringView16.of_eq (by omega) (by omega), RStringView16.of_eq (by omega) (by omega)]
  rfl

/-! ## Appending -/

variable {e : Bytes × Bytes} {k v t : Bytes}

lemma Open.split (ho : h.Open before e) : ∃ a b, h.kvs = a ++ headerEntry (headerText before).length e :: b ∧
    a.length = h.lastKv ∧ (a ++ b).Perm (headerIndex 0 before) := by
  obtain ⟨hlt, hg⟩ := List.getElem?_eq_some_iff.1 ho.last
  have hsp : h.kvs = h.kvs.take h.lastKv ++ headerEntry (headerText before).length e :: h.kvs.drop (h.lastKv + 1) := by
    rw [← hg, ← drop_eq_getElem_cons hlt, take_append_drop]
  refine ⟨_, _, hsp, by rw [length_take, min_eq_left (le_of_lt hlt)], ?_⟩
  have hi := ho.laid.index
  rw [headerIndex_append, zero_add, hsp] at hi
  have hco := (perm_middle.symm.trans hi).trans (perm_append_singleton ..)
  exact hco.cons_inv

lemma headerLine_append (k v t : Bytes) : headerLine (k, v ++ t) = k ++ (chars ": " ++ v) ++ (t ++ CRLF) := by
  unfold headerLine
  simp only [append_assoc]

lemma Open.text_append (ho : h.Open before (k, v)) (t : Bytes) :
    readBytes (writeBytes h.mem (h.base + h.bufSize - 2) (t ++ CRLF)) h.base (h.bufSize + t.length) =
      headerText (before ++ [(k, v ++ t)]) := by
  have hcr : CRLF.length = 2 := rfl
  have ht := ho.laid.text
  rw [headerText_append, headerText_cons] at ht
  have hli := headerLine_append k v []
  rw [append_nil] at hli
  obtain ⟨front, hf⟩ : ∃ front, front = headerText before ++ (k ++ (chars ": " ++ v)) := ⟨_, rfl⟩
  have ht' : readBytes h.mem h.base h.bufSize = [] ++ (front ++ CRLF) := by
    rw [hli] at ht
    refine ht.trans ?_
    rw [hf]
    simp only [headerText, flatMap_nil, append_nil, append_assoc, nil_append]
  have hlen := congrArg length ht'
  rw [readBytes_length, nil_append, length_append, hcr] at hlen
  have hol := readBytes_middle h.mem ht'
  rw [length_nil, add_zero] at hol
  have hst : h.base + h.bufSize - 2 = h.base + front.length := by omega
  have hsi : h.bufSize + t.length = front.length + (t ++ CRLF).length := by
    rw [length_append, hcr]
    omega
  rw [hst, hsi, readBytes_add, readBytes_writeBytes_of_disjoint _ (.inl le_rfl), readBytes_writeBytes, hol,
    headerText_append, headerText_cons, headerLine_append, hf]
  simp only [headerText, flatMap_nil, append_nil, append_assoc]

lemma map_pair_before (ht : h.text = headerText (before ++ [e])) :
    (headerIndex 0 before).map h.pair = before ∧ h.pair (headerEntry (headerText before).length e) = e := by
  have hm := map_pair_headerIndex [] (ht.trans (nil_append _).symm)
  rw [length_nil, headerIndex_append, map_append, zero_add] at hm
  have hi := append_inj hm (by rw [length_map, headerIndex_length])
  exact ⟨hi.1, (cons.inj hi.2).1⟩

/-- What is as before after `value_append`, in which `t` was appended. -/
structure Appended (h h' : HeadersBase) (t : Bytes) : Prop where
  base : h'.base = h.base
  capacity : h'.capacity = h.capacity
  bufSize : h'.bufSize = h.bufSize + t.length
  kvs : h'.kvs.length = h.kvs.length
  lastKv : h'.lastKv = h.lastKv
  mem : ∀ x < h.base, h'.mem x = h.mem x

lemma valueAppend_open (ho : h.Open before (k, v))
    (hr : h.bufSize + t.length + kvBytes * h.kvs.length ≤ h.capacity) :
    ∃ h' a b, h.valueAppend t = (true, h') ∧ h.Appended h' t ∧ h'.Open before (k, v ++ t) ∧ a.length = h.lastKv ∧
      h.pairs = a ++ (k, v) :: b ∧ h'.pairs = a ++ (k, v ++ t) :: b := by
  obtain ⟨a, b, hk, ha, hpe⟩ := ho.split
  have hco : h.kvs.length = a.length + (b.length + 1) := by rw [hk, length_append, length_cons]
  have hle : h.lastKv < h.kvs.length := by omega
  have hsm := ho.laid.small
  have hsize := ho.laid.bufSize
  have hli := headerLine_length (k, v)
  rw [headerText_append, headerText_cons, length_append, length_append] at hsize
  dsimp only at hli
  have hm : (h.bufSize + t.length) % 2 ^ 16 = h.bufSize + t.length := Nat.mod_eq_of_lt (by omega)
  have hv : (v.length + t.length) % 2 ^ 16 = (v ++ t).length := by
    rw [length_append]
    exact Nat.mod_eq_of_lt (by omega)
  obtain ⟨h1, hh1⟩ : ∃ h1 : HeadersBase, h1 = { h with
      mem := writeBytes h.mem (h.base + h.bufSize - 2) (t ++ CRLF)
      bufSize := h.bufSize + t.length
      kvs := a ++ headerEntry (headerText before).length (k, v ++ t) :: b } := ⟨_, rfl⟩
  have hap : h.valueAppend t = (true, h1) := by
    have hmo : (h.kvs.modify h.lastKv fun kv =>
        { kv with value := { kv.value with length := (kv.value.length + t.length) % 2 ^ 16 } }) =
        a ++ headerEntry (headerText before).length (k, v ++ t) :: b := by
      rw [modify_eq_take_cons_drop hle]
      simp only [hk, ← ha, take_left, getElem_append_right le_rfl, Nat.sub_self, getElem_cons_zero]
      rw [← drop_drop, drop_left]
      dsimp only [headerEntry]
      rw [hv]
      rfl
    unfold valueAppend
    rw [if_neg (not_le.2 hle)]
    dsimp only
    rw [if_neg (by rw [mul_comm]; omega), hm, hmo, hh1]
  have ht : h1.text = headerText (before ++ [(k, v ++ t)]) := by
    rw [hh1]
    exact ho.text_append t
  have hn : h1.kvs.Perm (headerIndex 0 (before ++ [(k, v ++ t)])) := by
    rw [headerIndex_append, zero_add, hh1]
    exact (perm_middle.trans (hpe.cons _)).trans (perm_append_singleton ..).symm
  have hc1 : h1.kvs.length = h.kvs.length := by
    rw [hh1, hco, length_append, length_cons]
  obtain ⟨hma, hla⟩ := map_pair_before ho.laid.text
  obtain ⟨hm1, hl1⟩ := map_pair_before ht
  -- the entries of the other lines denote the same
  have hsa : ∀ kv ∈ a ++ b, h1.pair kv = h.pair kv := fun kv hkv =>
    map_inj_left.1 (hm1.trans hma.symm) kv (hpe.mem_iff.1 hkv)
  refine ⟨h1, a.map h.pair, b.map h.pair, hap, ?_, ⟨⟨ht, hn, ?_, ?_⟩, ?_⟩, ?_, ?_, ?_⟩
  · refine ⟨by rw [hh1], by rw [hh1], by rw [hh1], hc1, by rw [hh1], fun x hx => ?_⟩
    rw [hh1]
    exact writeBytes_of_notMem h.mem (.inl (by omega))
  · rw [hc1, hh1]
    exact hr
  · rw [hh1]
    exact hsm
  · rw [hh1]
    dsimp only
    rw [getElem?_append_right (le_of_eq ha), ha, Nat.sub_self]
    rfl
  · rw [length_map, ha]
  · rw [pairs, hk, map_append, map_cons, hla]
  · have hk1 : h1.kvs = a ++ headerEntry (headerText before).length (k, v ++ t) :: b := by rw [hh1]
    rw [pairs, hk1, map_append, map_cons, hl1]
    congr 1
    · exact map_congr_left fun kv hkv => hsa kv (mem_append_left b hkv)
    · congr 1
      exact map_congr_left fun kv hkv => hsa kv (mem_append_right a hkv)

lemma valueAppend_full (hf : h.capacity < h.bufSize + t.length + kvBytes * h.kvs.length) :
    h.valueAppend t = (false, h) := by
  unfold valueAppend
  split
  · rfl
  dsimp only
  rw [if_pos (by rw [mul_comm]; omega)]

/-! ## The values of other headers -/

lemma getValue_eq (h : HeadersBase) (key : Bytes) :
    h.getValue key = ((h.find key).bind (h.pairs[·]?)).elim [] Prod.snd := by
  unfold getValue pairs
  cases h.find key with
  | none => rfl
  | some i =>
    dsimp only [bind_some]
    rw [getElem?_map]
    cases h.kvs[i]? with
    | none => rfl
    | some => rfl

lemma find_name {i : Nat} (hf : h.find key = some i) : ∃ n, h.names[i]? = some n ∧ icmp n key = 0 := by
  rw [find_eq] at hf
  obtain ⟨n, hn, hi⟩ := bind_eq_some_iff.1 hf
  split at hi <;> cases hi
  rename_i hz
  exact ⟨n, hn, hz⟩

lemma getValue_append {a b : List (Bytes × Bytes)} (hpa : h.pairs = a ++ (k, v) :: b)
    (hp' : h'.pairs = a ++ (k, v ++ t) :: b) (ho : icmp k key ≠ 0) : h'.getValue key = h.getValue key := by
  have hna : h'.names = h.names := by
    rw [names_eq, names_eq, hpa, hp', map_append, map_append]
    rfl
  rw [getValue_eq, getValue_eq, find_congr hna]
  cases hf : h.find key with
  | none => rfl
  | some i =>
    obtain ⟨n, hn, hz⟩ := find_name hf
    have hne : i ≠ a.length := by
      intro hi
      rw [names_eq, hpa, map_append, hi, getElem?_append_right (by rw [length_map]), length_map,
        Nat.sub_self] at hn
      cases hn
      exact ho hz
    dsimp only [bind_some]
    rw [hpa, hp']
    rcases Nat.lt_or_gt_of_ne hne with hlt | hg
    · rw [getElem?_append_left hlt, getElem?_append_left hlt]
    · obtain ⟨j, hj⟩ : ∃ j, i - a.length = j + 1 := ⟨i - a.length - 1, by omega⟩
      rw [getElem?_append_right (le_of_lt hg), getElem?_append_right (le_of_lt hg), hj]
      rfl

end HeadersBase

end Photon.Http
