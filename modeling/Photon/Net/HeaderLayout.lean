import Photon.Net.Headers
/-!
# Layout of the headers

Over the text and the index there is a list of names and values: the text is their lines, one
after the other, and the index has an entry for each of them, in an order of its own. `insert`
adds one at the end, and `reset_host` moves the text and the index and replaces the value of
the first one.
-/

namespace Photon.Http

open Estring List RStringView16

def headerLine (e : Bytes × Bytes) : Bytes := e.1 ++ (chars ": " ++ (e.2 ++ CRLF))

def headerText (es : List (Bytes × Bytes)) : Bytes := es.flatMap headerLine

def headerEntry (start : Nat) (e : Bytes × Bytes) : KV := ⟨⟨start, e.1.length⟩, ⟨start + e.1.length + 2, e.2.length⟩⟩

def headerIndex (start : Nat) : List (Bytes × Bytes) → List KV
  | [] => []
  | e :: es => headerEntry start e :: headerIndex (start + (headerLine e).length) es

lemma headerLine_length (e : Bytes × Bytes) : (headerLine e).length = e.1.length + e.2.length + 4 := by
  have hse : (chars ": ").length = 2 := by decide +kernel
  have he : CRLF.length = 2 := rfl
  rw [headerLine, length_append, length_append, length_append]
  omega

lemma headerText_cons (e : Bytes × Bytes) (es : List (Bytes × Bytes)) :
    headerText (e :: es) = headerLine e ++ headerText es := flatMap_cons

lemma headerText_append (pre post : List (Bytes × Bytes)) :
    headerText (pre ++ post) = headerText pre ++ headerText post := flatMap_append

lemma headerIndex_length (start : Nat) (es : List (Bytes × Bytes)) : (headerIndex start es).length = es.length := by
  induction es generalizing start with
  | nil => rfl
  | cons e es ih => rw [headerIndex, length_cons, ih, length_cons]

lemma headerIndex_append (start : Nat) (pre post : List (Bytes × Bytes)) :
    headerIndex start (pre ++ post) = headerIndex start pre ++ headerIndex (start + (headerText pre).length) post := by
  induction pre generalizing start with
  | nil => rfl
  | cons e pre ih =>
    rw [cons_append, headerIndex, headerIndex, ih, headerText_cons, length_append, add_assoc]
    rfl

variable {start : Nat} {es : List (Bytes × Bytes)} {kv : KV}

lemma mem_headerIndex (h : kv ∈ headerIndex start es) :
    ∃ pre e post, es = pre ++ e :: post ∧ kv = headerEntry (start + (headerText pre).length) e := by
  induction es generalizing start with
  | nil => cases h
  | cons e es ih =>
    rcases mem_cons.1 h with rfl | h
    · exact ⟨[], e, es, rfl, rfl⟩
    · obtain ⟨pre, e', post, rfl, rfl⟩ := ih h
      refine ⟨e :: pre, e', post, rfl, ?_⟩
      rw [headerText_cons, length_append, add_assoc]

namespace HeadersBase

def pair (h : HeadersBase) (kv : KV) : Bytes × Bytes := (h.on kv.key, h.on kv.value)

def pairs (h : HeadersBase) : List (Bytes × Bytes) := h.kvs.map h.pair

/-- The lines are the text, and every one of them is in the index. Behind the text there is room for the index. -/
structure Laid (h : HeadersBase) (es : List (Bytes × Bytes)) : Prop where
  text : h.text = headerText es
  index : h.kvs.Perm (headerIndex 0 es)
  room : h.bufSize + kvBytes * h.kvs.length ≤ h.capacity
  small : h.capacity < 2 ^ 16

variable {h h' : HeadersBase} {e : Bytes × Bytes} {v host : Bytes} {start' : Nat} {d : Int}
  {others : List (Bytes × Bytes)}

lemma pair_headerEntry (pre : Bytes) {post : Bytes} (ht : h.text = pre ++ (headerLine e ++ post)) :
    h.pair (headerEntry pre.length e) = e := by
  have hk : h.on ⟨pre.length, e.1.length⟩ = e.1 := by
    apply on_eq
    rw [ht, headerLine, append_assoc]
  have hv : h.on ⟨(pre ++ (e.1 ++ chars ": ")).length, e.2.length⟩ = e.2 := by
    apply on_eq (c := CRLF ++ post)
    rw [ht, headerLine]
    simp only [append_assoc]
  have hst : (pre ++ (e.1 ++ chars ": ")).length = pre.length + e.1.length + 2 := by
    have hse : (chars ": ").length = 2 := by decide +kernel
    rw [length_append, length_append]
    omega
  rw [hst] at hv
  exact Prod.ext hk hv

lemma map_pair_headerIndex (pre : Bytes) (ht : h.text = pre ++ headerText es) :
    (headerIndex pre.length es).map h.pair = es := by
  induction es generalizing pre with
  | nil => rfl
  | cons e es ih =>
    rw [headerText_cons] at ht
    have hrest := ih (pre ++ headerLine e) (by rw [ht, append_assoc])
    rw [length_append] at hrest
    rw [headerIndex, map_cons, pair_headerEntry pre ht, hrest]

lemma Laid.pairs_perm (hl : h.Laid es) : h.pairs.Perm es := by
  have hm := map_pair_headerIndex [] hl.text
  have hpe := hl.index.map h.pair
  rw [length_nil] at hm
  rwa [hm] at hpe

lemma Laid.length (hl : h.Laid es) : h.kvs.length = es.length := hl.index.length_eq.trans (headerIndex_length 0 es)

lemma Laid.bufSize (hl : h.Laid es) : h.bufSize = (headerText es).length := by
  rw [← hl.text, text_length]

lemma Laid.write (hl : h.Laid es) {a : Nat} {bs : Bytes} (hbe : a + bs.length ≤ h.base) :
    Laid { h with mem := writeBytes h.mem a bs } es ∧ pairs { h with mem := writeBytes h.mem a bs } = h.pairs := by
  have hr : ∀ o n, readBytes (writeBytes h.mem a bs) (h.base + o) n = readBytes h.mem (h.base + o) n := fun o n =>
    readBytes_writeBytes_of_disjoint h.mem (.inr (by omega))
  constructor
  · exact { hl with text := (hr 0 h.bufSize).trans hl.text }
  · exact map_congr_left fun kv _ => Prod.ext (hr ..) (hr ..)

/-! ## Searching -/

def names (h : HeadersBase) : List Bytes := h.kvs.map fun kv => h.on kv.key

lemma names_eq (h : HeadersBase) : h.names = h.pairs.map Prod.fst := by
  rw [names, pairs, map_map]
  rfl

lemma find_eq (h : HeadersBase) (k : Bytes) :
    h.find k = (h.names[lowerBound (fun n => decide (icmp n k < 0)) h.names]?).bind fun n =>
      if icmp n k = 0 then some (lowerBound (fun n => decide (icmp n k < 0)) h.names) else none := by
  rw [find, names, lowerBound_map, getElem?_map]
  cases h.kvs[lowerBound (fun kv => decide (icmp (h.on kv.key) k < 0)) h.kvs]? with
  | none => rfl
  | some => rfl

lemma find_congr (hn : h'.names = h.names) : h'.find = h.find := by
  funext key
  rw [find_eq, find_eq, hn]

/-! ## Inserting -/

lemma kvAddSort_cases {i : Nat} (ha : h.kvAddSort kv = some (i, h')) :
    h'.kvs.Perm (kv :: h.kvs) ∧ h'.kvs[i]? = some kv ∧ h' = { h with kvs := h'.kvs } := by
  rw [kvAddSort] at ha
  split at ha <;> cases ha
  have hle : (h.kvs.take (lowerBound (fun e => h.less e kv) h.kvs)).length = lowerBound (fun e => h.less e kv) h.kvs := by
    rw [length_take, min_eq_left (lowerBound_le_length (fun e => h.less e kv) h.kvs)]
  refine ⟨perm_middle.trans ?_, ?_, rfl⟩
  · rw [take_append_drop]
  · dsimp only
    rw [getElem?_append_right (le_of_eq hle), hle, Nat.sub_self]
    rfl

lemma insert_cases {k : Bytes} {dup : Bool} (hi : h.insert k v dup = .ok h') :
    h.bufSize + (headerLine (k, v)).length + kvBytes * (h.kvs.length + 1) ≤ h.capacity ∧ ∃ i kvs,
      kvs.Perm (⟨.of h.bufSize k.length, .of (h.bufSize + k.length + 2) v.length⟩ :: h.kvs) ∧
      kvs[i]? = some ⟨.of h.bufSize k.length, .of (h.bufSize + k.length + 2) v.length⟩ ∧
      h' = { h with
        mem := writeBytes h.mem (h.base + h.bufSize) (headerLine (k, v))
        bufSize := (h.bufSize + (headerLine (k, v)).length) % 2 ^ 16, kvs, lastKv := i } := by
  have hli := headerLine_length (k, v)
  dsimp only at hli
  have hsi : h.bufSize + k.length + 2 + v.length + 2 = h.bufSize + (headerLine (k, v)).length := by omega
  unfold insert at hi
  split at hi
  · cases hi
  dsimp only at hi
  rw [hsi] at hi
  split at hi
  · cases hi
  rename_i hr
  have hf : h.bufSize + (headerLine (k, v)).length + kvBytes * (h.kvs.length + 1) ≤ h.capacity := by
    rw [mul_comm kvBytes]
    exact not_lt.1 hr
  refine ⟨hf, ?_⟩
  split at hi
  · -- there is room for the entry
    rename_i hn
    rw [kvAddSort] at hn
    split at hn
    next hfu =>
      dsimp only at hfu
      omega
    · cases hn
  next i h1 ha =>
    cases hi
    obtain ⟨hpe, hg, hre⟩ := kvAddSort_cases ha
    refine ⟨i, h1.kvs, hpe, hg, ?_⟩
    rw [hre]
    rfl

lemma insert_laid {k : Bytes} {dup : Bool} (hl : h.Laid es)
    (hi : h.insert k v dup = .ok h') : h'.Laid (es ++ [(k, v)]) := by
  obtain ⟨hf, i, kvs, hpe, -, rfl⟩ := insert_cases hi
  have hsm := hl.small
  have hlen := headerLine_length (k, v)
  dsimp only at hlen
  have hsi : (h.bufSize + (headerLine (k, v)).length) % 2 ^ 16 = h.bufSize + (headerLine (k, v)).length :=
    Nat.mod_eq_of_lt (by omega)
  refine ⟨?_, ?_, ?_, hsm⟩
  · -- the old text, and the line behind it
    have ho : readBytes (writeBytes h.mem (h.base + h.bufSize) (headerLine (k, v))) h.base h.bufSize = headerText es :=
      (readBytes_writeBytes_of_disjoint h.mem (.inl le_rfl)).trans hl.text
    rw [text]
    dsimp only
    rw [hsi, readBytes_add, ho, readBytes_writeBytes, headerText_append, headerText_cons]
    exact congrArg (headerText es ++ ·) (append_nil _).symm
  · have he : (⟨.of h.bufSize k.length, .of (h.bufSize + k.length + 2) v.length⟩ : KV) =
        headerEntry (0 + (headerText es).length) (k, v) := by
      rw [← hl.bufSize, of_eq (by omega) (by omega), of_eq (by omega) (by omega), zero_add]
      rfl
    rw [headerIndex_append]
    calc kvs
      _ |>.Perm (_ :: h.kvs) := hpe
      _ |>.Perm (h.kvs ++ [_]) := (perm_append_singleton ..).symm
      _ |>.Perm (headerIndex 0 es ++ headerIndex (0 + (headerText es).length) [(k, v)]) := by
        rw [he]
        exact hl.index.append_right _
  · dsimp only
    rw [hsi, hpe.length_eq, length_cons]
    exact hf

/-! ## Moving -/

def hostHeader (host : Bytes) : Bytes × Bytes := (chars "Host", host)

lemma hostLine_length (host : Bytes) : (headerLine (hostHeader host)).length = host.length + 8 := by
  have hn : (chars "Host").length = 4 := by decide +kernel
  rw [headerLine_length, hostHeader]
  dsimp only
  omega

lemma shiftKv_headerEntry (hd : start + d = start')
    (hsm : start' + (headerLine e).length < 2 ^ 16) : shiftKv d (headerEntry start e) = headerEntry start' e := by
  rw [headerLine_length] at hsm
  have hk : u16 (start + d) = start' := u16_eq hd (by omega)
  have hv : u16 ((start + e.1.length + 2 : Nat) + d) = start' + e.1.length + 2 := u16_eq (by omega) (by omega)
  rw [shiftKv, headerEntry]
  dsimp only [shift]
  rw [hk, hv]
  rfl

lemma map_shiftKv_headerIndex (hd : start + d = start')
    (hsm : start' + (headerText es).length < 2 ^ 16) : (headerIndex start es).map (shiftKv d) = headerIndex start' es := by
  induction es generalizing start start' with
  | nil => rfl
  | cons e es ih =>
    rw [headerText_cons, length_append] at hsm
    have hn : ((start + (headerLine e).length : Nat) : Int) + d = (start' + (headerLine e).length : Nat) := by omega
    rw [headerIndex, map_cons, shiftKv_headerEntry hd (by omega), ih hn (by omega)]
    rfl

lemma offset_of_mem (h : kv ∈ headerIndex start es) : start ≤ kv.key.offset := by
  obtain ⟨pre, e, post, -, rfl⟩ := mem_headerIndex h
  exact Nat.le_add_right ..

lemma Laid.split (hl : h.Laid (hostHeader host :: others)) :
    ∃ a b, h.kvs = a ++ headerEntry 0 (hostHeader host) :: b ∧ (a ++ b).Perm (headerIndex (host.length + 8) others) := by
  have hi := hl.index
  rw [headerIndex, hostLine_length, zero_add] at hi
  obtain ⟨a, b, ha⟩ := append_of_mem (hi.mem_iff.2 mem_cons_self)
  refine ⟨a, b, ha, ?_⟩
  rw [ha] at hi
  exact (perm_middle.symm.trans hi).cons_inv

lemma Laid.tail (hl : h.Laid (hostHeader host :: others)) :
    readBytes h.mem (h.base + host.length + 8) (h.bufSize - host.length - 8) = headerText others := by
  have ht := hl.text
  have hsize := hl.bufSize
  rw [headerText_cons] at ht hsize
  rw [length_append, hostLine_length] at hsize
  have hle : h.bufSize - host.length - 8 = (headerText others).length := by omega
  have hsp : readBytes h.mem h.base h.bufSize = headerLine (hostHeader host) ++ (headerText others ++ []) := by
    rw [append_nil]
    exact ht
  have hrest := readBytes_middle h.mem hsp
  rw [hostLine_length, ← add_assoc] at hrest
  rw [hle, hrest]

lemma readBytes_moved (mem : Nat → UInt8) (base : Nat) (line rest : Bytes) :
    readBytes (writeBytes (writeBytes mem (base + line.length) rest) base line) base (line.length + rest.length) = line ++ rest := by
  rw [readBytes_add, readBytes_writeBytes, readBytes_writeBytes_of_disjoint _ (.inr le_rfl), readBytes_writeBytes]

lemma hostLine_eq (host : Bytes) : chars "Host: " ++ (host ++ CRLF) = headerLine (hostHeader host) := by
  have hn : chars "Host: " = chars "Host" ++ chars ": " := by decide +kernel
  rw [hn, append_assoc]
  rfl

lemma Laid.moved {host' : Bytes} {a b : List KV}
    (hl : h.Laid (hostHeader host :: others)) (hpe : (a ++ b).Perm (headerIndex (host.length + 8) others))
    (hd : (host.length + 8 : Nat) + d = (host'.length + 8 : Nat))
    (hsm : (headerText (hostHeader host' :: others)).length < 2 ^ 16)
    (ht : h'.text = headerText (hostHeader host' :: others))
    (hk : h'.kvs = a.map (shiftKv d) ++ headerEntry 0 (hostHeader host') :: b.map (shiftKv d)) :
    h'.kvs.Perm (headerIndex 0 (hostHeader host' :: others)) ∧
      h'.pairs = a.map h.pair ++ hostHeader host' :: b.map h.pair := by
  have ho := hl.text
  rw [headerText_cons] at ho ht hsm
  rw [length_append, hostLine_length] at hsm
  have hsh := map_shiftKv_headerIndex hd hsm
  constructor
  · rw [hk, headerIndex, hostLine_length, zero_add, ← hsh]
    refine perm_middle.trans (Perm.cons _ ?_)
    rw [← map_append]
    exact hpe.map _
  · -- both indices denote the other lines
    have hsa : (headerIndex (host.length + 8) others).map (h'.pair ∘ shiftKv d) =
        (headerIndex (host.length + 8) others).map h.pair := by
      have hnew := map_pair_headerIndex _ ht
      have hw := map_pair_headerIndex _ ho
      rw [hostLine_length] at hnew hw
      rw [hw, ← map_map, hsh, hnew]
    have he : ∀ kv ∈ a ++ b, h'.pair (shiftKv d kv) = h.pair kv := fun kv hkv =>
      map_inj_left.1 hsa kv (hpe.mem_iff.1 hkv)
    have hh : h'.pair (headerEntry 0 (hostHeader host')) = hostHeader host' := pair_headerEntry [] ht
    rw [pairs, hk, map_append, map_cons, map_map, map_map, hh]
    congr 1
    · exact map_congr_left fun kv hkv => he kv (mem_append_left b hkv)
    · congr 1
      exact map_congr_left fun kv hkv => he kv (mem_append_right a hkv)

lemma findIdx?_host {a b : List KV} (ha : h.kvs = a ++ headerEntry 0 (hostHeader host) :: b)
    (hpe : (a ++ b).Perm (headerIndex (host.length + 8) others)) : h.kvs.findIdx? (·.key.offset == 0) = some a.length ∧
    (h.kvs[a.length]?.elim 0 fun kv => kv.value.length) = host.length := by
  rw [ha]
  constructor
  · refine findIdx?_append_cons (fun kv hk => beq_false_of_ne ?_) rfl
    have := offset_of_mem (hpe.mem_iff.1 (mem_append_left b hk))
    omega
  · rw [getElem?_append_right le_rfl, Nat.sub_self]
    rfl

/-- There is no room, or the headers move and the first of them has a new value. The others stay as they are, also in
the index. -/
lemma resetHost_laid (hl : h.Laid (hostHeader host :: others))
    {delta : Int} {base : Nat} (hba : h.base + delta = base) (hsm : h.capacity - delta < 65536) (host' : Bytes)
    {lines : Bytes} (hne : headerText (hostHeader host' :: others) = lines) :
    (h.capacity - delta < lines.length + kvBytes * (others.length + 1) ∧ h.resetHost delta host' = some none) ∨
    (lines.length + kvBytes * (others.length + 1) ≤ h.capacity - delta ∧
      ∃ h' a b, h.resetHost delta host' = some (some h') ∧ h'.Laid (hostHeader host' :: others) ∧ h'.base = base ∧
        h'.capacity = h.capacity - delta ∧ h.pairs = a ++ hostHeader host :: b ∧ h'.pairs = a ++ hostHeader host' :: b) := by
  obtain ⟨a, b, ha, hpe⟩ := hl.split
  obtain ⟨hid, ho⟩ := findIdx?_host ha hpe
  have hn : h.kvs.length = others.length + 1 := hl.length
  have hsize := hl.bufSize
  have hs' : lines.length = host'.length + 8 + (headerText others).length := by
    rw [← hne, headerText_cons, length_append, hostLine_length]
  rw [headerText_cons, length_append, hostLine_length] at hsize
  have hsp : h.spaceRemain < delta + (host'.length - host.length : Int) ↔
      h.capacity - delta < lines.length + kvBytes * (others.length + 1) := by
    unfold spaceRemain kvBytes
    omega
  rw [resetHost, hid]
  dsimp only
  rw [ho]
  by_cases hf : h.capacity - delta < lines.length + kvBytes * (others.length + 1)
  · rw [if_pos (hsp.2 hf)]
    exact .inl ⟨hf, rfl⟩
  rw [if_neg fun hlt => hf (hsp.1 hlt)]
  have hb' : (h.base + delta).toNat = base := by omega
  obtain ⟨capacity, hca⟩ : ∃ capacity : Nat, h.capacity - delta = capacity := by
    apply Int.eq_ofNat_of_zero_le
    unfold kvBytes at hf
    omega
  rw [hca] at hsm hf ⊢
  have hc' : u16 capacity = capacity := u16_eq rfl (by omega)
  have hr : lines.length + kvBytes * (others.length + 1) ≤ capacity := by
    unfold kvBytes at *
    omega
  have hs1 : u16 (h.bufSize + (host'.length - host.length : Int)) =
      (headerLine (hostHeader host')).length + (headerText others).length := by
    rw [hostLine_length]
    exact u16_eq (by omega) (by omega)
  have hst : base + host'.length + 8 = base + (headerLine (hostHeader host')).length := by rw [hostLine_length, add_assoc]
  rw [hl.tail, hostLine_eq, hb', hc', hs1, hst]
  obtain ⟨h', hh'⟩ : ∃ h' : HeadersBase, h' = { h with
      mem := writeBytes (writeBytes h.mem (base + (headerLine (hostHeader host')).length) (headerText others)) base
        (headerLine (hostHeader host'))
      base, capacity
      bufSize := (headerLine (hostHeader host')).length + (headerText others).length
      kvs := (h.kvs.map (shiftKv (host'.length - host.length))).set a.length ⟨.of 0 4, .of 6 host'.length⟩ } := ⟨_, rfl⟩
  have ht : h'.text = lines := by
    rw [hh', text, ← hne, headerText_cons]
    exact readBytes_moved ..
  have hk : h'.kvs = a.map (shiftKv (host'.length - host.length)) ++
      headerEntry 0 (hostHeader host') :: b.map (shiftKv (host'.length - host.length)) := by
    have hv : (⟨.of 0 4, .of 6 host'.length⟩ : KV) = headerEntry 0 (hostHeader host') := by
      rw [of_eq (by omega) (by omega), of_eq (by omega) (by omega)]
      rfl
    rw [hh', ha, map_append, map_cons, hv]
    dsimp only
    rw [set_append_right _ _ (by rw [length_map]), length_map, Nat.sub_self]
    rfl
  subst hne
  obtain ⟨hi, hpa⟩ := hl.moved hpe (by omega) (by omega) ht hk
  refine .inr ⟨Int.not_lt.1 hf, h', a.map h.pair, b.map h.pair, by rw [hh'], ⟨ht, hi, ?_, ?_⟩, ?_, ?_, ?_, hpa⟩
  · rw [hi.length_eq, headerIndex_length, ← text_length, ht, hh']
    exact hr
  · rw [hh']
    exact Int.ofNat_lt.1 hsm
  · rw [hh']
  · rw [hh']
  · have hh : h.pair (headerEntry 0 (hostHeader host)) = hostHeader host :=
      pair_headerEntry [] (hl.text.trans (headerText_cons ..))
    rw [pairs, ha, map_append, map_cons, hh]

end HeadersBase

end Photon.Http
