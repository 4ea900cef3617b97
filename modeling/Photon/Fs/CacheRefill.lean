import Photon.Fs.CacheStore
/-!
# What a refill gives the caller (`ICacheStore::do_refill_range`, `fs/cache/store.cpp`)

The buffer has the bytes of the refilled range. Its front or its tail goes to the caller's
segments at once, and what is left of them is read afterwards (`readRest_serves`). Both
coordinates, the offset in the file and the position in the segments, are kept in `Left`:
`copyOut_left` says what is left, and that it is right unless `slice` misplaces the tail.
-/

namespace Photon.Fs

open ByteFile List

open Photon.Iovector (Iovec bytes sum slice extractFront extractBack bytes_length)

namespace CacheStore

variable {query : Query} {opts : CacheOptions} {src : List Byte} {st : CacheStore}

/-! ## Serving the caller -/

/-- The addresses have the bytes of the source from `offset` on; but for them and the buffer nothing has changed. -/
structure Serves (src : List Byte) (as tmp : List Nat) (offset : Nat) (mem mem' : Mem) : Prop where
  inside : ∀ i (h : i < as.length), mem' as[i] = src.getD (offset + i) 0
  outside : ∀ x, x ∉ as → x ∉ tmp → mem' x = mem x

section Serving

variable {as tmp : List Nat} {offset : Nat} {mem : Mem}

lemma scatter_source (mem : Mem) (hn : as.Nodup) (offset o k : Nat) (hk : o + k ≤ as.length)
    (hsr : offset + o + k ≤ src.length) {i : Nat} (h : i < as.length) :
    scatter mem ((as.drop o).take k) (read src k (offset + o)) as[i] =
      if o ≤ i ∧ i < o + k then src.getD (offset + i) 0 else mem as[i] := by
  have hle : (read src k (offset + o)).length = k := by
    rw [read_length]
    omega
  have hm : Mirrors as mem mem fun i => mem (as.getD i 0) :=
    ⟨fun i hi => by rw [getD_eq_getElem _ _ hi], fun _ _ => rfl⟩
  have hm' : Mirrors as mem (scatter mem ((as.drop o).take k) (read src k (offset + o)))
      (writeBytes (fun i => mem (as.getD i 0)) o (read src k (offset + o))) := by
    apply hm.scatter_take hn
    rw [hle, length_take, length_drop]
    omega
  rw [hm'.inside i h]
  split
  next hin =>
    rw [writeBytes_of_mem _ hin.1 (by omega) 0, getD_read, if_pos (by omega)]
    congr 1
    omega
  next ho => rw [writeBytes_of_notMem _ (by omega), getD_eq_getElem _ _ h]

/-- What is left of the input are the `k` addresses from the `o`-th on; the others are served. -/
structure Left (src : List Byte) (as tmp : List Nat) (offset : Nat) (mem : Mem) (c : CopyOut) (o k : Nat) : Prop where
  input : bytes c.input = (as.drop o).take k
  room : o + k ≤ as.length
  ret : c.ret + k = as.length
  at_offset : c.offset = offset + o
  done : ∀ i (h : i < as.length), i < o ∨ o + k ≤ i → c.mem as[i] = src.getD (offset + i) 0
  outside : ∀ x, x ∉ as → x ∉ tmp → c.mem x = mem x

variable {c : CopyOut}

lemma Left.serves {o k : Nat} (h : Left src as tmp offset mem c o k) (hn : as.Nodup)
    (hsr : offset + as.length ≤ src.length) :
    Serves src as tmp offset mem (scatter c.mem (bytes c.input) (read src k (offset + o))) := by
  have hroom := h.room
  rw [h.input]
  constructor
  · intro i hi
    rw [scatter_source c.mem hn offset o k hroom (by omega) hi]
    split
    · rfl
    next ho => exact h.done i hi (by omega)
  · intro x hx ht
    rw [scatter_of_notMem fun hm => hx (mem_of_mem_drop (mem_of_mem_take hm)), h.outside x hx ht]

section
variable (hq : Covers opts.pageSize query) (hv : Valid opts.pageSize src st)
include hq hv

lemma readRest_eq {cnt : Nat}
    (hr : c.ret + sum c.input = cnt) (hpo : 0 < sum c.input) (hin : c.offset + sum c.input ≤ src.length) :
    (opts.writeBack = true ∧ ∃ mem', readRest query opts src st cnt c = .returns (-1) mem' st) ∨
      readRest query opts src st cnt c =
        .returns cnt (scatter c.mem (bytes c.input) (read src (sum c.input) c.offset)) st := by
  unfold readRest
  rw [if_pos (by omega)]
  dsimp only
  rw [tryPreadv2_eq hq hv c.mem hpo hin]
  by_cases hhi : 0 ≤ (query st.cached c.offset (sum c.input)).1 ∧ (query st.cached c.offset (sum c.input)).2 = 0
  · right
    rw [if_pos hhi, if_pos (show TryPreadvResult.hit ⟨0, _, _⟩ = true from decide_eq_true ⟨rfl, Int.natCast_nonneg _⟩)]
  have hm : TryPreadvResult.hit ⟨(query st.cached c.offset (sum c.input)).2, (query st.cached c.offset (sum c.input)).1,
      c.mem⟩ = false := decide_eq_false fun hh => hhi ⟨hh.2, hh.1⟩
  rw [if_neg hhi, hm, if_neg Bool.false_ne_true]
  by_cases hw : opts.writeBack = true
  · rw [if_pos hw]
    exact .inl ⟨hw, _, rfl⟩
  right
  rw [if_neg hw, underPreadv_full hin]
  dsimp only
  rw [if_neg (show ¬((sum c.input : Int) + c.ret ≠ cnt) by omega)]

lemma readRest_serves (hn : as.Nodup) (hsr : offset + as.length ≤ src.length) {o k : Nat}
    (h : Left src as tmp offset mem c o k) : ∃ ret mem', readRest query opts src st as.length c = .returns ret mem' st ∧
    (ret < 0 ∨ (ret = as.length ∧ Serves src as tmp offset mem mem')) := by
  have hr := h.ret
  have hroom := h.room
  have hsu : sum c.input = k := by
    rw [← bytes_length, h.input, length_take, length_drop]
    omega
  by_cases ha : c.ret = as.length
  · refine ⟨as.length, c.mem, ?_, .inr ⟨rfl, fun i hi => h.done i hi (by omega), h.outside⟩⟩
    unfold readRest
    exact if_neg fun hne => hne ha
  have hse := h.serves hn hsr
  have hat := h.at_offset
  obtain ⟨-, mem', hf⟩ | ho := readRest_eq hq hv (show c.ret + sum c.input = as.length by omega) (by omega)
    (show c.offset + sum c.input ≤ src.length by omega)
  · exact ⟨-1, mem', hf, .inl (by decide)⟩
  · rw [hsu, hat] at ho
    exact ⟨as.length, _, ho, .inr ⟨rfl, hse⟩⟩

end

lemma left_all {input : List Iovec} (has : bytes input = as) {mem1 : Mem}
    (ho : ∀ x, x ∉ as → x ∉ tmp → mem1 x = mem x) :
    Left src as tmp offset mem ⟨0, input, offset, mem1⟩ 0 as.length where
  input := by rw [drop_zero, take_length, has]
  room := by omega
  ret := zero_add as.length
  at_offset := rfl
  done i hi hor := by omega
  outside := ho

structure Loaded (src : List Byte) (buffer input : List Iovec) (off size : Nat) (mem mem1 : Mem) : Prop where
  fresh : Fresh buffer input
  nodup : (bytes input).Nodup
  content : (bytes buffer).map mem1 = ByteFile.read src size off
  sum_eq : sum buffer = size
  inFile : off + size ≤ src.length
  outside : ∀ x, x ∉ bytes buffer → mem1 x = mem x

lemma loaded_scatter {buffer input : List Iovec} (hf : Fresh buffer input) (hn : (bytes input).Nodup) {off size : Nat}
    (hsu : sum buffer = size) (hin : off + size ≤ src.length) (mem : Mem) :
    Loaded src buffer input off size mem (scatter mem (bytes buffer) (read src size off)) where
  fresh := hf
  nodup := hn
  content := by
    have hle : (read src size off).length = (bytes buffer).length := by
      rw [read_length, bytes_length]
      omega
    have ht := take_map_scatter mem hf.nodup (le_of_eq hle)
    rwa [take_of_length_le (by rw [length_map, hle])] at ht
  sum_eq := hsu
  inFile := hin
  outside x hx := scatter_of_notMem hx _

section Copy

variable {buffer input : List Iovec} {off size : Nat} {mem1 : Mem}

section
variable (h : Loaded src buffer input off size mem mem1)
include h

lemma copyOut_front (hw : opts.writeBack = false) (ho : off ≤ offset) (hin : offset + sum input ≤ src.length) :
    ∃ c k, copyOut opts buffer off size (sum input) input offset mem1 = some c ∧
      Left src (bytes input) (bytes buffer) offset mem c k (sum input - k) := by
  have hsu := h.sum_eq
  have hrest := Iovector.bytes_extractFront buffer (offset - off)
  unfold copyOut
  rw [hw, if_neg Bool.false_ne_true, if_pos ho]
  generalize (extractFront buffer (offset - off)).view = rest at hrest ⊢
  have hle : sum rest = size - (offset - off) := by
    rw [← bytes_length, hrest, length_drop, bytes_length, hsu]
  have hse : ∀ x ∈ bytes input, x ∉ bytes rest := by
    intro x hx hxr
    rw [hrest] at hxr
    exact h.fresh.apart x hx (mem_of_mem_drop hxr)
  rw [memcpyView_eq hse, hle]
  obtain ⟨k, hk⟩ : ∃ k, k = min (sum input) (min (sum input) (size - (offset - off))) := ⟨_, rfl⟩
  have hd : ((bytes rest).map mem1).take k = read src k (offset + 0) := by
    rw [hrest, map_drop, h.content, drop_read, take_read, read_eq_read_iff.2]
    · rw [add_zero, Nat.add_sub_cancel' ho]
    · omega
  rw [← hk, hd]
  have hcut := Iovector.bytes_extractFront input k
  refine ⟨_, k, rfl, ?_, by rw [bytes_length]; omega, by rw [bytes_length]; dsimp only; omega, rfl, ?_, ?_⟩
  · dsimp only
    rw [hcut, take_of_length_le]
    rw [length_drop, bytes_length]
  · intro i hi hor
    rw [bytes_length] at hi
    dsimp only
    have hva := scatter_source mem1 h.nodup offset 0 k (by rw [bytes_length]; omega) (show offset + 0 + k ≤ src.length by omega)
      (show i < (bytes input).length by rwa [bytes_length])
    rw [drop_zero] at hva
    rw [hva, if_pos (by omega)]
  · intro x hx ht
    dsimp only
    rw [scatter_of_notMem fun hm => hx (mem_of_mem_take hm), h.outside x ht]

lemma copyOut_tail (hw : opts.writeBack = false) (ho : offset < off)
    (he : offset + sum input ≤ off + size) (hme : off < offset + sum input) (hm : sum input < 2 ^ 64)
    {skip : Nat} (hsk : skipped input (off - offset) + (off - offset) = skip) :
    copyOut opts buffer off size (sum input) input offset mem1 = some ⟨sum input - skip,
        (extractBack input (sum input - skip)).view, offset,
        scatter mem1 ((bytes input).drop skip)
          (read src (sum input - skip) off)⟩ := by
  have hsu := h.sum_eq
  have hn : input.length ≠ 0 := by
    intro h0
    rw [length_eq_zero_iff.1 h0] at hme
    change off < offset + 0 at hme
    omega
  have hco : (sum input + 2 ^ 64 - (off - offset)) % 2 ^ 64 = sum input - (off - offset) := by omega
  have ht := bytes_slice hn le_rfl (sum input - (off - offset)) (off - offset)
  rw [hsk] at ht
  unfold copyOut
  rw [hw, if_neg Bool.false_ne_true, if_neg (by omega), if_pos he]
  dsimp only
  rw [hco]
  generalize ((slice input (sum input - (off - offset)) ((off - offset : Nat) : Int) input.length).map Prod.snd).getD [] = tail
    at ht ⊢
  rw [take_of_length_le (by rw [length_drop, bytes_length]; omega)] at ht
  have hle : sum tail = sum input - skip := by
    rw [← bytes_length, ht, length_drop, bytes_length]
  have hse : ∀ x ∈ bytes tail, x ∉ bytes buffer := by
    intro x hx
    rw [ht] at hx
    exact h.fresh.apart x (mem_of_mem_drop hx)
  have hk : min (2 ^ 64 - 1) (min (sum tail) (sum buffer)) = sum input - skip := by omega
  have hd : ((bytes buffer).map mem1).take (sum input - skip) = read src (sum input - skip) off := by
    rw [h.content, take_read, min_eq_left (by omega)]
  rw [memcpyView_eq hse, hk, hd, take_of_length_le (by rw [bytes_length, hle]), ht]
  rfl

lemma copyOut_left (hin : offset + sum input ≤ src.length)
    (hme : off < offset + sum input) (hma : sum input < 2 ^ 64)
    (hsl : opts.writeBack = false → offset < off → offset + sum input ≤ off + size →
      skipped input (off - offset) = 0 ∨ sum input ≤ skipped input (off - offset) + (off - offset)) :
    ∃ c o k, copyOut opts buffer off size (sum input) input offset mem1 = some c ∧
      Left src (bytes input) (bytes buffer) offset mem c o k := by
  have ha : Left src (bytes input) (bytes buffer) offset mem ⟨0, input, offset, mem1⟩ 0 (bytes input).length :=
    left_all rfl fun x _ => h.outside x
  by_cases hw : opts.writeBack = true
  · refine ⟨_, _, _, ?_, ha⟩
    unfold copyOut
    rw [if_pos hw]
  have hw' : opts.writeBack = false := Bool.not_eq_true _ ▸ hw
  by_cases ho : off ≤ offset
  · obtain ⟨c, k, hc, hle⟩ := copyOut_front h hw' ho hin
    exact ⟨c, k, _, hc, hle⟩
  by_cases he : offset + sum input ≤ off + size
  · rw [copyOut_tail h hw' (by omega) he hme hma rfl]
    obtain hz | hnone := hsl hw' (by omega) he
    · rw [hz, zero_add]
      refine ⟨_, 0, off - offset, rfl, ?_, by rw [bytes_length]; omega, by rw [bytes_length]; dsimp only; omega, rfl, ?_, ?_⟩
      · dsimp only
        rw [Iovector.bytes_extractBack, drop_zero]
        congr 1
        omega
      · intro i hi hor
        rw [bytes_length] at hi
        dsimp only
        have hva := scatter_source mem1 h.nodup offset (off - offset) (sum input - (off - offset))
          (by rw [bytes_length]; omega) (show offset + (off - offset) + (sum input - (off - offset)) ≤ src.length by omega)
          (show i < (bytes input).length by rwa [bytes_length])
        rw [take_of_length_le (by rw [length_drop, bytes_length]), Nat.add_sub_cancel' (by omega)] at hva
        rw [hva, if_pos (by omega)]
      · intro x hx ht
        dsimp only
        rw [scatter_of_notMem fun hm => hx (mem_of_mem_drop hm), h.outside x ht]
    · -- no segment is longer than the part before the range, and nothing is copied
      rw [Nat.sub_eq_zero_of_le hnone]
      refine ⟨_, 0, (bytes input).length, rfl, ?_, by omega, by dsimp only; omega, rfl, fun i hi hor => by omega, ?_⟩
      · dsimp only
        rw [Iovector.bytes_extractBack, Nat.sub_zero, drop_zero, bytes_length]
      · intro x hx ht
        dsimp only
        rw [show read src 0 off = [] from take_zero, scatter_nil, h.outside x ht]
  · refine ⟨_, _, _, ?_, ha⟩
    unfold copyOut
    rw [if_neg hw, if_neg ho, if_neg he]

end

end Copy

lemma Serves.eq_scatter {mem' : Mem} (h : Serves src as tmp offset mem mem') (hn : as.Nodup)
    (hin : offset + as.length ≤ src.length) {x : Nat} (hx : x ∉ tmp) :
    mem' x = scatter mem as (read src as.length offset) x := by
  by_cases hm : x ∈ as
  · obtain ⟨i, hi, rfl⟩ := getElem_of_mem hm
    rw [h.inside i hi, scatter_getElem hn _ hi, getD_read_of_lt hi (by omega) _ 0]
  · rw [scatter_of_notMem hm, h.outside x hm hx]

end Serving

/-! ## The refill -/

section Refill

variable {offset : Nat} {mem : Mem} {p : Pass}

lemma sum_buffer_le (p : Pass) (off size : Nat) : sum (p.buffer off size) ≤ size := by
  unfold Pass.buffer
  cases hpi : p.pinWbuf off size with
  | none => exact (p.alloc.pushBack_spec size).1
  | some buffer => exact le_of_eq (p.pin_sum off size buffer hpi)

variable {input : List Iovec}

lemma Loaded.valid_refill {buffer : List Iovec} {off size : Nat} {mem1 : Mem}
    (h : Loaded src buffer input off size mem mem1) (hv : Valid opts.pageSize src st) (k : Nat) :
    Valid opts.pageSize src (st.refill (((bytes buffer).map mem1).take k) off) := by
  apply CacheStore.valid_refill hv
  intro j hj
  rw [h.content, take_read] at hj ⊢
  rw [read_length] at hj
  rw [getD_read, if_pos (by omega)]
  exact ⟨by omega, rfl⟩

lemma doRefillRange_copy (hn : (bytes input).Nodup) (hf : ∀ off size, Fresh (p.buffer off size) input)
    {off size rsize : Nat} (hr : clip st.actualSize off size = rsize) (hin : off + rsize ≤ src.length) (mem : Mem)
    (hbu : ¬(!opts.writeBack && p.busy) = true) (hlo : ¬(!p.locked || !p.sameSize) = true)
    (hsu : sum (p.buffer off rsize) = rsize) :
    ∃ mem1, Loaded src (p.buffer off rsize) input off rsize mem mem1 ∧
      ∀ c, copyOut opts (p.buffer off rsize) off rsize (sum input) input offset mem1 = some c →
        doRefillRange query opts src st p off size (sum input) st.actualSize input offset mem =
          readRest query opts src (st.refill (((bytes (p.buffer off rsize)).map mem1).take p.written) off) (sum input) c := by
  refine ⟨_, loaded_scatter (hf off rsize) hn hsu hin mem, ?_⟩
  intro c hc
  unfold doRefillRange
  rw [if_neg hbu]
  dsimp only
  rw [hr, if_neg hlo, if_neg (by rw [hsu]; simp), underPreadv_full (by rw [hsu]; exact hin), hsu]
  dsimp only
  rw [if_neg (show ¬((rsize : Int) ≠ rsize) from fun hne => hne rfl), hc]

lemma doRefillRange_safe (hq : Covers opts.pageSize query) (hv : Valid opts.pageSize src st)
    (hnd : (bytes input).Nodup) (hf : ∀ off size, Fresh (p.buffer off size) input) (off size : Nat)
    (hin : offset + sum input ≤ st.actualSize) (hme : off < offset + sum input) (hma : sum input < 2 ^ 64)
    (hsl : opts.writeBack = false → p.busy = false → p.locked = true → p.sameSize = true →
      clip st.actualSize off size ≤ sum (p.buffer off (clip st.actualSize off size)) → offset < off →
      offset + sum input ≤ off + clip st.actualSize off size →
        skipped input (off - offset) = 0 ∨ sum input ≤ skipped input (off - offset) + (off - offset)) (mem : Mem) :
    doRefillRange query opts src st p off size (sum input) st.actualSize input offset mem = .again ∨
      ∃ ret mem' st', doRefillRange query opts src st p off size (sum input) st.actualSize input offset mem =
          .returns ret mem' st' ∧ Valid opts.pageSize src st' ∧
        (ret < 0 ∨ (ret = sum input ∧ ∀ x, (∀ off size, x ∉ bytes (p.buffer off size)) →
          mem' x = scatter mem (bytes input) (read src (sum input) offset) x)) := by
  have hle := hv.size_le
  have hso : fromSource src st mem input offset =
      .returns (sum input) (scatter mem (bytes input) (read src (sum input) offset)) st := by
    unfold fromSource
    rw [underPreadv_full (by omega)]
  have hcl : off + clip st.actualSize off size ≤ src.length := by
    unfold clip
    split <;> omega
  generalize hrs : clip st.actualSize off size = rsize at hsl hcl
  have hbuf := sum_buffer_le p off rsize
  by_cases hbu : (!opts.writeBack && p.busy) = true
  · unfold doRefillRange
    rw [if_pos hbu, hso]
    exact .inr ⟨_, _, st, rfl, hv, .inr ⟨rfl, fun x _ => rfl⟩⟩
  by_cases hlo : (!p.locked || !p.sameSize) = true
  · unfold doRefillRange
    rw [if_neg hbu]
    exact .inl (if_pos hlo)
  by_cases hm : ((p.pinWbuf off rsize).isNone && decide (sum (p.buffer off rsize) < rsize)) = true
  · -- no memory for the buffer
    unfold doRefillRange
    rw [if_neg hbu]
    dsimp only
    rw [hrs, if_neg hlo, if_pos hm]
    by_cases hwb : opts.writeBack = true
    · rw [if_pos hwb]
      exact .inr ⟨_, _, st, rfl, hv, .inl (by decide)⟩
    · rw [if_neg hwb, hso]
      exact .inr ⟨_, _, st, rfl, hv, .inr ⟨rfl, fun x _ => rfl⟩⟩
  have hsu : sum (p.buffer off rsize) = rsize := by
    cases hpi : p.pinWbuf off rsize with
    | none =>
      rw [hpi] at hm
      simp only [Option.isNone_none, Bool.true_and, decide_eq_true_eq] at hm
      omega
    | some buffer =>
      rw [Pass.buffer, hpi]
      exact p.pin_sum off rsize buffer hpi
  obtain ⟨mem1, hl, hco⟩ := @doRefillRange_copy query opts src st offset p input hnd hf off size rsize hrs hcl mem hbu
    hlo hsu
  have hw : opts.writeBack = false → p.busy = false := by
    intro hwb
    rw [hwb] at hbu
    simpa using hbu
  simp only [Bool.or_eq_true, Bool.not_eq_true', not_or, Bool.not_eq_false] at hlo
  obtain ⟨c, o, k, hc, hlef⟩ := copyOut_left hl (show offset + sum input ≤ src.length by omega) hme hma
    fun hwb => hsl hwb (hw hwb) hlo.1 hlo.2 (le_of_eq hsu.symm)
  rw [hco c hc]
  obtain ⟨ret, mem', hres, hr⟩ := readRest_serves hq (hl.valid_refill hv p.written) hnd
    (by rw [bytes_length]; omega) hlef
  rw [bytes_length] at hres hr
  refine .inr ⟨ret, mem', _, hres, hl.valid_refill hv p.written, ?_⟩
  obtain hn | ⟨hre, hse⟩ := hr
  · exact .inl hn
  · refine .inr ⟨hre, ?_⟩
    intro x hx
    rw [hse.eq_scatter hnd (by rw [bytes_length]; omega) (hx off rsize), bytes_length]

end Refill

end CacheStore

end Photon.Fs
