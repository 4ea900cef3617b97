import Photon.Fs.CacheRefill
/-!
# `ICacheStore::preadv2` is right (`fs/cache/store.cpp`)

A pass from the label `again` on serves the caller or retries (`pass_safe`), unless it
misplaces a tail (`pass_misplaced`). `passes_safe` goes over all passes of a call, and
`preadv2_right_iff` says when a call is right.
-/

namespace Photon.Fs

open ByteFile TryPreadvResult
open List hiding sum

open Photon.Iovector (IOAlloc Iovec bytes sum slice extractFront extractBack bytes_length)

namespace CacheStore

variable {query : Query} {opts : CacheOptions} {src : List Byte} {st : CacheStore}

/-! ## One pass -/

/-- The return value is the number of bytes that there are, and the segments have the bytes of the source. `free` are
the addresses that do not belong to a buffer of the call. -/
def Right (src : List Byte) (iov : List Iovec) (offset : Nat) (mem : Mem) (free : Nat → Prop) (ret : Int) (mem' : Mem) : Prop :=
  ret = (min (sum iov) (src.length - offset) : Nat) ∧
    ∀ x, free x → mem' x = scatter mem (bytes iov) (ByteFile.read src (sum iov) offset) x

/-- For an input of `n` bytes and the answer `q` of `queryRefillRange`: the tail of the input is to come from the
buffer, and `slice` passes bytes before it comes to a segment that is longer than the part of the input before the
range. -/
structure TailMisplaced (opts : CacheOptions) (actualSize : Nat) (p : Pass) (input : List Iovec) (offset n : Nat)
    (q : Int × Nat) : Prop where
  flags : opts.cacheOnly = false ∧ opts.writeBack = false
  miss : 0 ≤ q.1 ∧ 0 < q.2
  refills : p.opened = true ∧ p.busy = false ∧ p.locked = true ∧ p.sameSize = true
  memory : clip actualSize q.1.toNat q.2 ≤ sum (p.buffer q.1.toNat (clip actualSize q.1.toNat q.2))
  tail : offset < q.1.toNat ∧ offset + n ≤ q.1.toNat + clip actualSize q.1.toNat q.2
  passed : 0 < skipped input (q.1.toNat - offset) ∧ skipped input (q.1.toNat - offset) + (q.1.toNat - offset) < n

def Misplaces (query : Query) (opts : CacheOptions) (st : CacheStore) (p : Pass) (iov : List Iovec) (offset : Nat) : Prop :=
  offset < st.actualSize ∧ iov.length ≤ 28 ∧
    TailMisplaced opts st.actualSize p (input st.actualSize iov offset) offset (iovSize st.actualSize iov offset)
      (query st.cached offset (iovSize st.actualSize iov offset))

section OnePass

variable {iov : List Iovec} {offset : Nat} {mem : Mem} {p : Pass} {actualSize : Nat}

section
variable (h : offset < actualSize)
include h

lemma bytes_input (iov : List Iovec) :
    bytes (input actualSize iov offset) = (bytes iov).take (iovSize actualSize iov offset) := by
  unfold input iovSize
  split
  · rw [Iovector.bytes_extractBack]
    congr 1
    omega
  · rw [← bytes_length, take_length]

lemma sum_input (iov : List Iovec) : sum (input actualSize iov offset) = iovSize actualSize iov offset := by
  rw [← bytes_length, bytes_input h, length_take, bytes_length]
  unfold iovSize
  split <;> omega

lemma input_nodup (hnd : (bytes iov).Nodup) : (bytes (input actualSize iov offset)).Nodup := by
  rw [bytes_input h]
  exact hnd.sublist (take_sublist ..)

lemma input_fresh {buffer : List Iovec} (hfresh : Fresh buffer iov) : Fresh buffer (input actualSize iov offset) := by
  refine ⟨hfresh.nodup, ?_⟩
  intro x hx
  rw [bytes_input h] at hx
  exact hfresh.apart x (mem_of_mem_take hx)

end

section
variable (hv : Valid opts.pageSize src st) (hknown : offset + sum iov ≤ st.actualSize ∨ st.actualSize = src.length)
  (hin : offset < st.actualSize)
include hv hknown hin

lemma iovSize_eq : iovSize st.actualSize iov offset = min (sum iov) (src.length - offset) ∧
    offset + iovSize st.actualSize iov offset ≤ st.actualSize := by
  have hle := hv.size_le
  unfold iovSize
  split <;> omega

lemma right_of_input {free : Nat → Prop} {mem' : Mem} {size : Nat} (hsi : iovSize st.actualSize iov offset = size)
    (h : ∀ x, free x → mem' x = scatter mem (bytes (input st.actualSize iov offset)) (read src size offset) x) :
    Right src iov offset mem free size mem' := by
  have hm := iovSize_eq hv hknown hin
  have hby := bytes_input hin iov
  rw [hsi] at hm hby
  refine ⟨by rw [hm.1], ?_⟩
  intro x hx
  have hr : read src (sum iov) offset = read src size offset := by
    rw [read_eq_read_iff]
    omega
  have hle : (read src size offset).length ≤ ((bytes iov).take size).length := by
    rw [read_length, length_take, bytes_length]
    omega
  rw [h x hx, hby, hr, ← scatter_short mem hle ((bytes iov).drop size), take_append_drop]

end

section
variable (hq : Covers opts.pageSize query) (hv : Valid opts.pageSize src st)
include hq hv

lemma pass_refill (hin : offset < st.actualSize) {size : Nat} (hsi : iovSize st.actualSize iov offset = size)
    (hpos : 0 < size) (he : offset + size ≤ st.actualSize) (hf : iov.length ≤ 28) {q : Int × Nat}
    (hqq : query st.cached offset size = q) (hm : 0 ≤ q.1 ∧ 0 < q.2) (ho : opts.cacheOnly = false)
    (hop : p.opened = true) (mem : Mem) :
    pass query opts src st p mem iov offset =
      doRefillRange query opts src st p q.1.toNat q.2 (sum (input st.actualSize iov offset)) st.actualSize
        (input st.actualSize iov offset) offset mem := by
  have hle := hv.size_le
  have hsu := sum_input hin iov
  rw [hsi] at hsu
  have hhi : hit ⟨q.2, q.1, mem⟩ = false := decide_eq_false fun hh => ne_of_gt hm.2 hh.1
  have hn : ¬(0 ≤ q.1 ∧ q.2 = 0) := fun h => ne_of_gt hm.2 h.2
  unfold pass
  rw [if_neg (show ¬st.actualSize ≤ offset by omega), if_neg (show ¬28 < iov.length by omega)]
  dsimp only
  rw [tryPreadv2_eq hq hv mem (by omega) (by omega), hsu, hqq, if_neg hn, hhi, ho, hop]
  dsimp only
  rw [if_neg Bool.false_ne_true, if_neg Bool.false_ne_true, if_neg (by decide), if_neg (show ¬q.1 < 0 by omega), hsi]

section
variable (hknown : offset + sum iov ≤ st.actualSize ∨ st.actualSize = src.length)
include hknown

section
variable (hpos : 0 < sum iov) (hmax : sum iov < 2 ^ 64) (hnd : (bytes iov).Nodup)
  (hfresh : ∀ off size, Fresh (p.buffer off size) iov)
include hpos hmax hnd hfresh

lemma pass_safe (hf : offset < st.actualSize → iov.length ≤ 28) (hpl : ¬Misplaces query opts st p iov offset) :
    pass query opts src st p mem iov offset = .again ∨
      ∃ ret mem' st', pass query opts src st p mem iov offset = .returns ret mem' st' ∧ Valid opts.pageSize src st' ∧
        (ret < 0 ∨ Right src iov offset mem (fun x => ∀ off size, x ∉ bytes (p.buffer off size)) ret mem') := by
  have hle := hv.size_le
  unfold pass
  by_cases ho : st.actualSize ≤ offset
  · -- behind the end of the file
    rw [if_pos ho]
    refine .inr ⟨0, mem, st, rfl, hv, .inr ⟨?_, ?_⟩⟩
    · rw [show min (sum iov) (src.length - offset) = 0 by omega]
      rfl
    intro x _
    have hni : read src (sum iov) offset = [] := by
      rw [← length_eq_zero_iff, read_length]
      omega
    rw [hni, scatter_nil]
  have hin : offset < st.actualSize := by omega
  obtain ⟨hsi, he⟩ := iovSize_eq hv hknown hin
  have hsu := sum_input hin iov
  have hri := fun mem' => @right_of_input opts src st iov offset mem hv hknown hin
    (fun x => ∀ off size, x ∉ bytes (p.buffer off size)) mem' _ rfl
  have hnd' := input_nodup hin hnd
  have hf' := fun off size => input_fresh hin (hfresh off size)
  unfold Misplaces at hpl
  rw [if_neg ho, if_neg (not_lt.2 (hf hin))]
  dsimp only
  generalize iovSize st.actualSize iov offset = size at *
  generalize input st.actualSize iov offset = inp at *
  rw [tryPreadv2_eq hq hv mem (by omega) (by omega), hsu]
  by_cases hhi : 0 ≤ (query st.cached offset size).1 ∧ (query st.cached offset size).2 = 0
  · -- nothing is missing
    have htr : hit ⟨0, (size : Int), scatter mem (bytes inp) (read src size offset)⟩ = true :=
      decide_eq_true ⟨rfl, Int.natCast_nonneg _⟩
    have hd := hri _ fun x _ => rfl
    rw [if_pos hhi, htr, if_pos rfl, if_pos rfl]
    dsimp only
    split <;> exact .inr ⟨_, _, st, rfl, hv, .inr hd⟩
  generalize hqq : query st.cached offset size = q at hhi ⊢
  have hmi : hit ⟨q.2, q.1, mem⟩ = false := decide_eq_false fun hh => hhi ⟨hh.2, hh.1⟩
  rw [if_neg hhi, hmi, if_neg Bool.false_ne_true, if_neg Bool.false_ne_true]
  dsimp only
  by_cases hon : opts.cacheOnly = true
  · rw [if_pos hon]
    exact .inr ⟨-1, mem, st, rfl, hv, .inl (by decide)⟩
  rw [if_neg hon]
  by_cases hop : p.opened = true
  swap
  · rw [if_pos (by simpa using hop)]
    exact .inr ⟨-1, mem, st, rfl, hv, .inl (by decide)⟩
  rw [if_neg (by simpa using hop)]
  by_cases hn : q.1 < 0
  · rw [if_pos hn]
    by_cases hw : opts.writeBack = true
    · rw [if_pos hw]
      exact .inr ⟨q.1, mem, st, rfl, hv, .inl hn⟩
    · rw [if_neg hw, fromSource, underPreadv_full (by omega), hsu]
      exact .inr ⟨_, _, st, rfl, hv, .inr (hri _ fun x _ => rfl)⟩
  · -- through the buffer
    have hp' : 0 < q.2 := by omega
    have hm : q.1.toNat < offset + size := by
      have := (hq.meets st.cached offset size (by rw [hqq]; omega) (by rw [hqq]; omega)).1
      rw [hqq] at this
      omega
    have hsl : opts.writeBack = false → p.busy = false → p.locked = true → p.sameSize = true →
        clip st.actualSize q.1.toNat q.2 ≤ sum (p.buffer q.1.toNat (clip st.actualSize q.1.toNat q.2)) → offset < q.1.toNat →
        offset + sum inp ≤ q.1.toNat + clip st.actualSize q.1.toNat q.2 →
          skipped inp (q.1.toNat - offset) = 0 ∨ sum inp ≤ skipped inp (q.1.toNat - offset) + (q.1.toNat - offset) := by
      intro hw hbu hlo hsa hme hof ht
      by_contra hno
      rw [hsu] at ht hno
      rw [not_or] at hno
      apply hpl
      rw [hqq]
      exact ⟨hin, hf hin, ⟨Bool.not_eq_true _ ▸ hon, hw⟩, ⟨by omega, hp'⟩, ⟨hop, hbu, hlo, hsa⟩, hme,
        ⟨hof, ht⟩, by omega⟩
    rw [if_neg hn, ← hsu]
    obtain ha | ⟨ret, mem', st', hr, hv', hn' | ⟨hva, hme'⟩⟩ := doRefillRange_safe hq hv hnd' hf'
      q.1.toNat q.2 (by omega) (by omega) (by omega) hsl mem
    · exact .inl ha
    · exact .inr ⟨ret, mem', st', hr, hv', .inl hn'⟩
    · refine .inr ⟨ret, mem', st', hr, hv', .inr ?_⟩
      rw [hsu] at hva hme'
      rw [hva]
      exact hri mem' hme'

/-- A pass that misplaces the tail returns as if all were well, but the first byte that it copies is not the one that
belongs there. -/
lemma pass_misplaced {off : Nat} (ho : (query st.cached offset (iovSize st.actualSize iov offset)).1.toNat = off)
    (h : Misplaces query opts st p iov offset) (mem : Mem) :
    ∃ mem' st', pass query opts src st p mem iov offset = .returns (iovSize st.actualSize iov offset) mem' st' ∧
      mem' ((bytes iov).getD (skipped (input st.actualSize iov offset) (off - offset) + (off - offset)) 0) = src.getD off 0 := by
  obtain ⟨hin, hf, ht⟩ := h
  have hle := hv.size_le
  obtain ⟨hsi, he⟩ := iovSize_eq hv hknown hin
  have hsu := sum_input hin iov
  have hby := bytes_input hin iov
  have hn' := input_nodup hin hnd
  have hf' := fun off size => input_fresh hin (hfresh off size)
  have hr := @pass_refill query opts src st iov offset p hq hv hin _ rfl
  generalize iovSize st.actualSize iov offset = size at *
  generalize input st.actualSize iov offset = inp at *
  generalize hqq : query st.cached offset size = q at ho ht
  obtain ⟨⟨hon, hw⟩, hmi, ⟨hop, hbu, hlo, hsa⟩, hme, hta, hpa⟩ := ht
  rw [ho] at hme hta hpa
  have hcl : off + clip st.actualSize off q.2 ≤ src.length := by
    unfold clip
    split <;> omega
  obtain ⟨mem1, hl, hco⟩ := @doRefillRange_copy query opts src st offset p inp hn' hf' off q.2 _ rfl hcl mem
    (by rw [hbu]; simp) (by rw [hlo, hsa]; simp) (le_antisymm (sum_buffer_le p ..) hme)
  rw [hr (by omega) he hf hqq hmi hon hop, ho,
    hco _ (copyOut_tail hl hw hta.1 (by omega) (by omega) (by omega) rfl), hsu]
  generalize hs : skipped inp (off - offset) + (off - offset) = j at hpa ⊢
  -- the rest of the input are the `j` bytes before
  have hre : bytes (extractBack inp (size - j)).view = (bytes inp).take j := by
    rw [Iovector.bytes_extractBack, hsu]
    congr 1
    omega
  have hlen : sum (extractBack inp (size - j)).view = j := by
    rw [← bytes_length, hre, length_take, bytes_length]
    omega
  obtain ⟨hw', -⟩ | hok := readRest_eq hq (hl.valid_refill hv p.written)
    (c := ⟨size - j, (extractBack inp (size - j)).view, offset, scatter mem1 ((bytes inp).drop j) (read src (size - j) off)⟩)
    (show size - j + sum _ = size by rw [hlen]; omega)
    (show 0 < sum _ by rw [hlen]; omega) (show offset + sum _ ≤ src.length by rw [hlen]; omega)
  · rw [hw] at hw'
    cases hw'
  refine ⟨_, _, hok, ?_⟩
  dsimp only
  rw [hre]
  have hj : j < (bytes inp).length := by
    rw [bytes_length]
    omega
  have hat : (bytes iov).getD j 0 = (bytes inp)[j] := by
    have hj' : j < (bytes iov).length := by
      rw [bytes_length]
      omega
    rw [getD_eq_getElem _ _ hj']
    simp only [hby, getElem_take]
  -- it is not among them, and gets the first byte of the range
  have hn : (bytes inp)[j] ∉ (bytes inp).take j := by
    intro hm
    obtain ⟨i, hi, heq⟩ := getElem_of_mem hm
    rw [getElem_take] at heq
    rw [length_take] at hi
    have := (hn'.getElem_inj_iff).1 heq
    omega
  have hd : 0 < ((bytes inp).drop j).length := by
    rw [length_drop]
    omega
  have hfi : (bytes inp)[j] = ((bytes inp).drop j)[0] := by
    rw [getElem_drop]
    simp only [add_zero]
  rw [hat, scatter_of_notMem hn, hfi, scatter_getElem (hn'.sublist (drop_sublist ..)) _ hd,
    getD_read_of_lt (by omega) (by omega) _ 0, add_zero]

end

end

end

end OnePass

/-! ## The call -/

/-- The segments fit in the `IOVector`, and no pass misplaces a tail. -/
def Placed (query : Query) (opts : CacheOptions) (iov : List Iovec) (offset : Nat) : CacheStore → List Pass → Prop
  | _, [] => True
  | st, p :: ps => (offset < st.actualSize → iov.length ≤ 28) ∧ ¬Misplaces query opts st p iov offset ∧
      Placed query opts iov offset p.next ps

/-- A pass has memory that nobody uses for its buffer, and a store that is right after `EAGAIN`. -/
structure Sound (pageSize : Nat) (src : List Byte) (iov : List Iovec) (offset : Nat) (p : Pass) : Prop where
  fresh : ∀ off size, Fresh (p.buffer off size) iov
  valid : Valid pageSize src p.next
  known : offset + sum iov ≤ p.next.actualSize ∨ p.next.actualSize = src.length

/-- A call that returns keeps the cache right, and is right itself if it is successful. -/
def Safe (pageSize : Nat) (src : List Byte) (iov : List Iovec) (offset : Nat) (mem : Mem) (free : Nat → Prop) : PassResult → Prop
  | .again => True
  | .undefined => False
  | .returns ret mem' st' => Valid pageSize src st' ∧ (0 ≤ ret → Right src iov offset mem free ret mem')

section Call

variable {iov : List Iovec} {offset : Nat} {mem : Mem}

/-- The addresses that no pass uses for its buffer. -/
def Free (ps : List Pass) (x : Nat) : Prop := ∀ p ∈ ps, ∀ off size, x ∉ bytes (p.buffer off size)

section
variable (hq : Covers opts.pageSize query) (hpos : 0 < sum iov) (hmax : sum iov < 2 ^ 64) (hnd : (bytes iov).Nodup)
include hq hpos hmax hnd

lemma passes_cons {p : Pass} {ps : List Pass} (hv : Valid opts.pageSize src st)
    (hknown : offset + sum iov ≤ st.actualSize ∨ st.actualSize = src.length)
    (hfresh : ∀ off size, Fresh (p.buffer off size) iov) (hf : offset < st.actualSize → iov.length ≤ 28)
    (hpl : ¬Misplaces query opts st p iov offset)
    (hrest : Safe opts.pageSize src iov offset mem (Free ps) (passes query opts src mem iov offset p.next ps)) :
    Safe opts.pageSize src iov offset mem (Free (p :: ps)) (passes query opts src mem iov offset st (p :: ps)) := by
  unfold passes
  obtain ha | ⟨ret, mem', st', hre, hv', hres⟩ :=
    @pass_safe query opts src st iov offset mem p hq hv hknown hpos hmax hnd hfresh hf hpl
  · rw [ha]
    dsimp only
    cases hr : passes query opts src mem iov offset p.next ps with
    | again => exact trivial
    | undefined =>
      rw [hr] at hrest
      exact hrest
    | returns =>
      rw [hr] at hrest
      refine ⟨hrest.1, ?_⟩
      intro hre
      exact ⟨(hrest.2 hre).1, fun x hx => (hrest.2 hre).2 x fun p' hp' => hx p' (mem_cons_of_mem p hp')⟩
  · rw [hre]
    refine ⟨hv', ?_⟩
    intro hpo'
    obtain hn | ⟨hva, hm⟩ := hres
    · omega
    · exact ⟨hva, fun x hx => hm x (hx p mem_cons_self)⟩

/-- The loop, by induction over its passes: each starts from a store that is right. -/
lemma passes_safe (ps : List Pass) (st : CacheStore) (hv : Valid opts.pageSize src st)
    (hknown : offset + sum iov ≤ st.actualSize ∨ st.actualSize = src.length)
    (hps : ∀ p ∈ ps, Sound opts.pageSize src iov offset p) (hpl : Placed query opts iov offset st ps) :
    Safe opts.pageSize src iov offset mem (Free ps) (passes query opts src mem iov offset st ps) := by
  induction ps generalizing st with
  | nil => exact trivial
  | cons p ps ih =>
    obtain ⟨hf, hm, hr⟩ := hpl
    have hp := hps p mem_cons_self
    apply passes_cons hq hpos hmax hnd hv hknown hp.fresh hf hm
    exact ih p.next hp.valid hp.known (fun p' hp' => hps p' (mem_cons_of_mem p hp')) hr

/-- For a content in which the byte that is copied differs from the right one, a pass that misplaces the tail is not
right. -/
lemma unsafe_of_misplaces {p : Pass} (hfresh : ∀ off n, Fresh (p.buffer off n) iov) {src0 : List Byte}
    (hv0 : Valid opts.pageSize src0 st) (hknown : offset + sum iov ≤ st.actualSize ∨ st.actualSize = src0.length)
    (h : Misplaces query opts st p iov offset) :
    ∃ src : List Byte, src.length = src0.length ∧ ¬Safe opts.pageSize src iov offset (fun _ => 0) (Free [p])
      (passes query opts src (fun _ => 0) iov offset { st with media := src } [p]) := by
  obtain ⟨hin, he⟩ := iovSize_eq hv0 hknown h.1
  have ht := h.2.2.tail
  have hpa := h.2.2.passed
  generalize hof : (query st.cached offset (iovSize st.actualSize iov offset)).1.toNat = off at ht hpa
  obtain ⟨j, hj⟩ : ∃ j, skipped (input st.actualSize iov offset) (off - offset) + (off - offset) = j := ⟨_, rfl⟩
  rw [hj] at hpa
  obtain ⟨src, hle, ho⟩ := exists_mark (show offset + j < src0.length by omega)
  refine ⟨src, hle, ?_⟩
  intro hsa
  obtain ⟨mem', st', hpas, hva⟩ := pass_misplaced hq (hv0.remedia hle) (by rwa [hle]) hpos hmax hnd hfresh hof h
    (fun _ => 0)
  unfold passes at hsa
  rw [hpas] at hsa
  have hj' : j < (bytes iov).length := by
    rw [bytes_length]
    omega
  have hr := (hsa.2 (Int.natCast_nonneg _)).2 ((bytes iov).getD j 0) fun p' hp' off size => by
    rw [mem_singleton.1 hp', getD_eq_getElem _ _ hj']
    exact (hfresh off size).apart _ (getElem_mem hj')
  dsimp only at hva
  rw [hj] at hva
  rw [hva, getD_eq_getElem _ _ hj', scatter_getElem hnd _ hj', getD_read_of_lt (by omega) (by omega) _ 0, ho, ho,
    if_pos rfl, if_neg (by omega)] at hr
  exact absurd hr (by decide)

end

variable {stat : Option Nat} {st1 : CacheStore}

lemma sized_known (hv : Valid opts.pageSize src st) (hst : ∀ size, stat = some size → size = src.length)
    (h : sized opts stat st iov offset = some st1) :
    Valid opts.pageSize src st1 ∧ (offset + sum iov ≤ st1.actualSize ∨ st1.actualSize = src.length) := by
  unfold sized at h
  split at h
  · obtain ⟨hv1, hsi⟩ := valid_trygetSize hv hst h
    exact ⟨hv1, .inr hsi⟩
  next hin =>
    cases h
    exact ⟨hv, .inl (by omega)⟩

lemma setCachedSize_media (pageSize : Nat) (media : List Byte) (cachedSize : Nat) :
    setCachedSize pageSize { st with media := media } cachedSize =
      { setCachedSize pageSize st cachedSize with media := media } := by
  unfold setCachedSize evict
  dsimp only
  split
  · rfl
  split
  · rfl
  split <;> rfl

lemma sized_media (stat : Option Nat) (media : List Byte) :
    sized opts stat { st with media := media } iov offset =
      (sized opts stat st iov offset).map fun st1 => { st1 with media := media } := by
  unfold sized trygetSize
  dsimp only
  split
  · split
    · rfl
    rw [Option.map_map]
    congr 1
    funext size
    dsimp only [Function.comp]
    rw [setCachedSize_media]
    split <;> dsimp only <;> split <;> rfl
  · rfl

lemma preadv2_nothing (hv : Valid opts.pageSize src st) {offset : Int} (hno : ¬(0 ≤ offset ∧ 0 < sum iov)) (stat : Option Nat)
    (ps : List Pass) (free : Nat → Prop) :
    Safe opts.pageSize src iov offset.toNat mem free (preadv2 query opts src st stat ps mem iov offset) := by
  unfold preadv2
  by_cases hn : offset < 0
  · rw [if_pos hn]
    exact ⟨hv, fun h => absurd h (by decide)⟩
  have hz : sum iov = 0 := by omega
  rw [if_neg hn, if_pos hz]
  refine ⟨hv, fun _ => ⟨by rw [hz, Nat.zero_min]; rfl, ?_⟩⟩
  intro x _
  rw [hz, show read src 0 offset.toNat = [] from take_zero, scatter_nil]

lemma preadv2_sized {offset : Int} (h0 : 0 ≤ offset) (hpos : 0 < sum iov)
    (hs : sized opts stat st iov offset.toNat = some st1) (src : List Byte) (ps : List Pass) (mem : Mem) :
    preadv2 query opts src st stat ps mem iov offset = passes query opts src mem iov offset.toNat st1 ps := by
  unfold preadv2
  rw [if_neg (by omega), if_neg (by omega), hs]

end Call

/-- `preadv2`, for every right cache and every source, range and segmentation without a byte twice. Whatever it meets,
it is right when it is successful and keeps the cache right, if the segments fit in an `IOVector` and no pass
misplaces a tail; and for a call of one pass only then. -/
theorem preadv2_right_iff (query : Query) (opts : CacheOptions) (hq : Covers opts.pageSize query) (iov : List Iovec)
    (offset : Int) (hnd : (bytes iov).Nodup) (hmax : sum iov < 2 ^ 63) (stat : Option Nat) :
    (∀ src st ps mem, Valid opts.pageSize src st → (∀ size, stat = some size → size = src.length) →
      (∀ p ∈ ps, Sound opts.pageSize src iov offset.toNat p) →
      (0 ≤ offset → 0 < sum iov → ∀ st1, sized opts stat st iov offset.toNat = some st1 →
        Placed query opts iov offset.toNat st1 ps) →
      Safe opts.pageSize src iov offset.toNat mem (Free ps) (preadv2 query opts src st stat ps mem iov offset)) ∧
    ∀ st p size, (∃ src, src.length = size ∧ Valid opts.pageSize src st) → (∀ s, stat = some s → s = size) →
      (∀ off n, Fresh (p.buffer off n) iov) →
      ((∀ src media mem, src.length = size → Valid opts.pageSize src { st with media := media } →
          Safe opts.pageSize src iov offset.toNat mem (Free [p])
            (preadv2 query opts src { st with media := media } stat [p] mem iov offset)) ↔
        (0 ≤ offset → 0 < sum iov → ∀ st1, sized opts stat st iov offset.toNat = some st1 →
          Placed query opts iov offset.toNat st1 [p])) := by
  constructor
  · intro src st ps mem hv hst hps hpl
    by_cases hg : 0 ≤ offset ∧ 0 < sum iov
    · cases hs : sized opts stat st iov offset.toNat with
      | none =>
        unfold preadv2
        rw [if_neg (by omega), if_neg (by omega), hs]
        exact ⟨hv, fun h => absurd h (by decide)⟩
      | some st1 =>
        obtain ⟨hv1, hknown⟩ := sized_known hv hst hs
        rw [preadv2_sized hg.1 hg.2 hs]
        exact passes_safe hq hg.2 (by omega) hnd ps st1 hv1 hknown hps (hpl hg.1 hg.2 st1 hs)
    · exact preadv2_nothing hv hg stat ps _
  intro st p size hso hst hfresh
  -- what the media have in them does not matter for the size
  have hme : ∀ {st1}, sized opts stat st iov offset.toNat = some st1 → ∀ media,
      sized opts stat { st with media := media } iov offset.toNat = some { st1 with media := media } := by
    intro st1 hs media
    rw [sized_media, hs]
    rfl
  constructor
  · intro hsa h0 hpos st1 hs
    obtain ⟨src0, hl0, hv0⟩ := hso
    obtain ⟨hv1, hknown⟩ := sized_known hv0 (fun s h => (hst s h).trans hl0.symm) hs
    refine ⟨?_, ?_, trivial⟩
    · intro hin
      by_contra hmany
      have hba := hsa src0 st.media (fun _ => 0) hl0 hv0
      rw [preadv2_sized h0 hpos hs] at hba
      unfold passes pass at hba
      rw [if_neg (show ¬st1.actualSize ≤ offset.toNat by omega), if_pos (show 28 < iov.length by omega)] at hba
      exact hba
    · intro hm
      obtain ⟨src, hle, hu⟩ := unsafe_of_misplaces hq hpos (by omega) hnd hfresh hv1 hknown hm
      apply hu
      rw [← preadv2_sized h0 hpos (hme hs src)]
      exact hsa src src (fun _ => 0) (hle.trans hl0) (hv0.remedia hle)
  · intro hpl src media mem hle hv
    by_cases hg : 0 ≤ offset ∧ 0 < sum iov
    · cases hs : sized opts stat st iov offset.toNat with
      | none =>
        unfold preadv2
        rw [if_neg (by omega), if_neg (by omega), sized_media, hs]
        exact ⟨hv, fun h => absurd h (by decide)⟩
      | some st1 =>
        obtain ⟨hf, hm, -⟩ := hpl hg.1 hg.2 st1 hs
        obtain ⟨hv1, hknown⟩ := sized_known hv (fun s h => (hst s h).trans hle.symm) (hme hs media)
        rw [preadv2_sized hg.1 hg.2 (hme hs media)]
        exact passes_cons hq hg.2 (by omega) hnd hv1 hknown hfresh hf hm trivial
    · exact preadv2_nothing hv hg stat [p] _

def firstPage : CacheStore where
  media := [0, 1, 2, 3]
  cached i := decide (i < 4)
  actualSize := 12
  cachedSize := 12
  truncated := false

def plainPass : Pass where
  opened := true
  busy := false
  locked := true
  sameSize := true
  pinWbuf := fun _ size => some [⟨1000, size⟩]
  alloc := IOAlloc.chunked 1000 0
  written := 8
  next := firstPage
  pin_sum := by
    intro off size buffer h
    cases h
    simp [sum]

lemma firstPage_valid : Valid 4 [0, 1, 2, 3, 4, 5, 6, 7, 8, 9, 10, 11] firstPage where
  size_le := le_rfl
  sized _ := rfl
  content := by
    intro i hi
    have ha : ∀ i < 4, i < 12 ∧ i < 4 ∧ firstPage.media.getD i 0 =
        ([0, 1, 2, 3, 4, 5, 6, 7, 8, 9, 10, 11] : List Byte).getD i 0 := by decide
    exact ha i (of_decide_eq_true hi)

lemma plainPass_fresh {iov : List Iovec} (h : ∀ x ∈ bytes iov, x < 1000) (off size : Nat) :
    Fresh (plainPass.buffer off size) iov := by
  have hby : bytes (plainPass.buffer off size) = addresses 1000 size := append_nil _
  refine ⟨by rw [hby]; exact addresses_nodup .., ?_⟩
  intro x hx hm
  rw [hby, mem_addresses] at hm
  have := h x hx
  omega

/-- A first segment of eight bytes is longer than the page that is cached, so that the tail is in its place. -/
theorem preadv2_right_firstPage :
    Safe 4 [0, 1, 2, 3, 4, 5, 6, 7, 8, 9, 10, 11] [⟨100, 8⟩, ⟨200, 4⟩] 0 (fun _ => 0) (Free [plainPass])
      (preadv2 (missingPages 4) ⟨4, false, false⟩ [0, 1, 2, 3, 4, 5, 6, 7, 8, 9, 10, 11] firstPage (some 12) [plainPass]
        (fun _ => 0) [⟨100, 8⟩, ⟨200, 4⟩] 0) := by
  refine (preadv2_right_iff (missingPages 4) ⟨4, false, false⟩ (missingPages_covers (by decide)) [⟨100, 8⟩, ⟨200, 4⟩] 0
    (by decide) (by decide) (some 12)).1 _ firstPage [plainPass] _ firstPage_valid (fun size h => (Option.some.inj h).symm) ?_ ?_
  · intro p hp
    rw [mem_singleton.1 hp]
    exact ⟨plainPass_fresh (by decide), firstPage_valid, .inr rfl⟩
  · intro _ _ st1 hs
    cases hs
    exact ⟨fun _ => by decide, fun hm => absurd hm.2.2.passed.1 (by decide +kernel), trivial⟩

/-- With segments of four and eight bytes the call returns 12, but the last four addresses have the bytes 4 to 7 of the
file and not the bytes 8 to 11. -/
theorem preadv2_tail_misplaced :
    ∃ mem st, preadv2 (missingPages 4) ⟨4, false, false⟩ [0, 1, 2, 3, 4, 5, 6, 7, 8, 9, 10, 11] firstPage (some 12)
        [plainPass] (fun _ => 0) [⟨100, 4⟩, ⟨200, 8⟩] 0 = .returns 12 mem st ∧
      (bytes [⟨100, 4⟩, ⟨200, 8⟩]).map mem = [0, 1, 2, 3, 4, 5, 6, 7, 4, 5, 6, 7] :=
  ⟨_, _, rfl, by decide +kernel⟩

end CacheStore

end Photon.Fs
