import Photon.Fs.TemporaryBuffer
/-!
# `ICacheStore::preadv2` (`fs/cache/store.cpp`)

A read is served from the cache, from the source, or from both: what is missing in the
cache is read from the source into a buffer, which goes to the cache and gives the front
or the tail of the caller's segments. The rest is then read from the cache, or from the
source if it is not there. `queryRefillRange` and the media belong to the cache below and
are only described. Reads and writes of the media and the source are those of byte arrays.
-/

namespace Photon.Fs

open ByteFile List Nat

open Photon.Iovector (IOAlloc Iovec bytes sum slice extractFront extractBack bytes_length)

/-! ## The store -/

/-- `ICacheStore`; `cached` says which bytes of the media are there. -/
structure CacheStore where
  media : List Byte
  cached : Nat → Bool
  actualSize : Nat
  cachedSize : Nat
  truncated : Bool

/-- `queryRefillRange`: an offset, negative for an error, and a size, which is 0 if nothing is missing. -/
abbrev Query := (Nat → Bool) → Nat → Nat → Int × Nat

/-- The page size, and the flags of the file and the call that matter. -/
structure CacheOptions where
  pageSize : Nat
  cacheOnly : Bool
  writeBack : Bool

structure Pass where
  /-- `open_src_file` succeeds. -/
  opened : Bool
  /-- There are too many refills already, and the flags allow to read around the cache. -/
  busy : Bool
  /-- `try_lock_wait` gets the range. -/
  locked : Bool
  /-- `actual_size_` is the same under the lock. -/
  sameSize : Bool
  /-- The buffer that `pin_wbuf` gives for a range, if it does. -/
  pinWbuf : Nat → Nat → Option (List Iovec)
  alloc : IOAlloc
  /-- How many bytes of the buffer are in the cache when the call goes on: all, fewer after an error, none if another
  thread is to write them. -/
  written : Nat
  /-- The store as it is found after `EAGAIN`. -/
  next : CacheStore
  pin_sum : ∀ off size buffer, pinWbuf off size = some buffer → sum buffer = size

def Pass.buffer (p : Pass) (off size : Nat) : List Iovec := (p.pinWbuf off size).getD (p.alloc.pushBack size)

inductive PassResult
  | again
  | undefined
  | returns (ret : Int) (mem : Mem) (st : CacheStore)

/-- `try_preadv_result`; `refill_offset` and `size` are a union. -/
structure TryPreadvResult where
  refillSize : Nat
  value : Int
  mem : Mem

def TryPreadvResult.hit (tr : TryPreadvResult) : Bool := tr.refillSize = 0 ∧ 0 ≤ tr.value

/-- What `do_refill_range` has copied to the caller, and what is left of the input. -/
structure CopyOut where
  ret : Nat
  input : List Iovec
  offset : Nat
  mem : Mem

namespace CacheStore

def evict (st : CacheStore) (start : Nat) : CacheStore :=
  { st with cached := fun i => st.cached i && decide (i < start) }

def setCachedSize (pageSize : Nat) (st : CacheStore) (cachedSize : Nat) : CacheStore :=
  if cachedSize = st.cachedSize then st
  else if cachedSize < st.cachedSize then st.evict cachedSize
  else if st.cachedSize % pageSize ≠ 0 then st.evict (st.cachedSize / pageSize * pageSize)
  else st

/-- `tryget_size`; `stat` is `st_size`, or `none` if the source cannot be opened or asked. `none` is -1. -/
def trygetSize (pageSize : Nat) (stat : Option Nat) (st : CacheStore) : Option CacheStore :=
  if st.actualSize % pageSize ≠ 0 ∨ st.truncated then some st
  else
    stat.map fun size =>
      let st := if st.cachedSize < size then setCachedSize pageSize st size else st
      if st.actualSize < size ∧ ¬st.truncated then { st with actualSize := size } else st

def refill (st : CacheStore) (bs : List Byte) (off : Nat) : CacheStore := { st with
    media := ByteFile.write 0 st.media bs off
    cached := fun i => st.cached i || decide (off ≤ i ∧ i < off + bs.length) }

variable (query : Query)

def tryPreadv2 (st : CacheStore) (mem : Mem) (iov : List Iovec) (offset : Nat) : TryPreadvResult :=
  let q := query st.cached offset (sum iov)
  if 0 ≤ q.1 ∧ q.2 = 0 then
    let got := underPreadv .full st.media mem iov offset
    if got.1 ≠ sum iov then ⟨2 ^ 64 - 1, -1, got.2⟩ else ⟨0, got.1, got.2⟩
  else ⟨q.2, q.1, mem⟩

variable (opts : CacheOptions) (src : List Byte)

def copyOut (buffer : List Iovec) (refillOff refillSize count : Nat) (input : List Iovec) (offset : Nat) (mem : Mem) :
    Option CopyOut :=
  if opts.writeBack then some ⟨0, input, offset, mem⟩
  else if refillOff ≤ offset then
    (memcpyView mem input (extractFront buffer (offset - refillOff)).view count).map fun r =>
      ⟨r.1, (extractFront input r.1).view, offset + r.1, r.2⟩
  else if offset + count ≤ refillOff + refillSize then
    let tail := ((slice input ((count + 2 ^ 64 - (refillOff - offset)) % 2 ^ 64) (refillOff - offset : Nat)
      input.length).map Prod.snd).getD []
    (memcpyView mem tail buffer (2 ^ 64 - 1)).map fun r => ⟨r.1, (extractBack input r.1).view, offset, r.2⟩
  else some ⟨0, input, offset, mem⟩

def readRest (st : CacheStore) (count : Nat) (c : CopyOut) : PassResult :=
  if c.ret ≠ count then
    let tr := tryPreadv2 query st c.mem c.input c.offset
    if tr.hit then .returns count tr.mem st
    else if opts.writeBack then .returns (-1) tr.mem st
    else
      let got := underPreadv .full src tr.mem c.input c.offset
      if got.1 + c.ret ≠ count then .returns (-1) got.2 st else .returns count got.2 st
  else .returns count c.mem st

def fromSource (st : CacheStore) (mem : Mem) (input : List Iovec) (offset : Nat) : PassResult :=
  let got := underPreadv .full src mem input offset
  .returns got.1 got.2 st

/-- The size of the range that is refilled, up to the end of the file. -/
def clip (actualSize refillOff size : Nat) : Nat := if actualSize < refillOff + size then actualSize - refillOff else size

def doRefillRange (st : CacheStore) (p : Pass) (refillOff size count actualSize : Nat) (input : List Iovec) (offset : Nat)
    (mem : Mem) : PassResult :=
  if !opts.writeBack && p.busy then fromSource src st mem input offset
  else
    let refillSize := clip actualSize refillOff size
    let buffer := p.buffer refillOff refillSize
    if !p.locked || !p.sameSize then .again
    else if (p.pinWbuf refillOff refillSize).isNone && decide (sum buffer < refillSize) then
      if opts.writeBack then .returns (-1) mem st else fromSource src st mem input offset
    else
      let got := underPreadv .full src mem buffer refillOff
      if got.1 ≠ refillSize then .returns (-1) got.2 st
      else
        match copyOut opts buffer refillOff refillSize count input offset got.2 with
        | none => .undefined
        | some c => readRest query opts src (st.refill (((bytes buffer).map got.2).take p.written) refillOff) count c

def input (actualSize : Nat) (iov : List Iovec) (offset : Nat) : List Iovec :=
  if actualSize < offset + sum iov then (extractBack iov (offset + sum iov - actualSize)).view else iov

def iovSize (actualSize : Nat) (iov : List Iovec) (offset : Nat) : Nat :=
  if actualSize < offset + sum iov then actualSize - offset else sum iov

/-- One pass of `preadv2` from `again` on. More than 28 segments do not fit in the `IOVector`. -/
def pass (st : CacheStore) (p : Pass) (mem : Mem) (iov : List Iovec) (offset : Nat) : PassResult :=
  if st.actualSize ≤ offset then .returns 0 mem st
  else if 28 < iov.length then .undefined
  else
    let input := input st.actualSize iov offset
    let tr := tryPreadv2 query st mem input offset
    if opts.cacheOnly then .returns (if tr.hit then tr.value else -1) tr.mem st
    else if tr.hit then .returns tr.value tr.mem st
    else if !p.opened then .returns (-1) tr.mem st
    else if tr.value < 0 then
      if opts.writeBack then .returns tr.value tr.mem st else fromSource src st tr.mem input offset
    else doRefillRange query opts src st p tr.value.toNat tr.refillSize (iovSize st.actualSize iov offset) st.actualSize input
      offset tr.mem

/-- The loop of `preadv2`; `again` if it does not end within these passes. -/
def passes (mem : Mem) (iov : List Iovec) (offset : Nat) : CacheStore → List Pass → PassResult
  | _, [] => .again
  | st, p :: ps =>
    match pass query opts src st p mem iov offset with
    | .again => passes mem iov offset p.next ps
    | .undefined => .undefined
    | .returns ret mem st => .returns ret mem st

/-- The size of the file is asked for if the range is not inside of what is known. -/
def sized (stat : Option Nat) (st : CacheStore) (iov : List Iovec) (offset : Nat) : Option CacheStore :=
  if st.actualSize ≤ offset ∨ st.actualSize < offset + sum iov then trygetSize opts.pageSize stat st else some st

def preadv2 (st : CacheStore) (stat : Option Nat) (ps : List Pass) (mem : Mem) (iov : List Iovec) (offset : Int) :
    PassResult :=
  if offset < 0 then .returns (-1) mem st
  else if sum iov = 0 then .returns 0 mem st
  else
    match sized opts stat st iov offset.toNat with
    | none => .returns (-1) mem st
    | some st => passes query opts src mem iov offset.toNat st ps

/-! ## What is assumed -/

/-- `queryRefillRange` says that nothing is missing only when that is so, and else gives a range of whole pages that
meets the request and has all that is missing of it. -/
structure Covers (pageSize : Nat) (query : Query) : Prop where
  hit : ∀ cached off n, 0 ≤ (query cached off n).1 → (query cached off n).2 = 0 → ∀ i, off ≤ i → i < off + n →
    cached i = true
  aligned : ∀ cached off n, 0 ≤ (query cached off n).1 → pageSize ∣ (query cached off n).1.toNat ∧
    pageSize ∣ (query cached off n).2
  meets : ∀ cached off n, 0 ≤ (query cached off n).1 → 0 < (query cached off n).2 →
    (query cached off n).1 < (off + n : Nat) ∧ off < (query cached off n).1 + (query cached off n).2
  missing : ∀ cached off n, 0 ≤ (query cached off n).1 → 0 < (query cached off n).2 → ∀ i : Nat, off ≤ i → i < off + n →
    cached i = false → (query cached off n).1 ≤ i ∧ i < (query cached off n).1 + (query cached off n).2

/-- The bytes that are cached are those of the source, and the size is that of the source unless it can still be
asked for. -/
structure Valid (pageSize : Nat) (src : List Byte) (st : CacheStore) : Prop where
  size_le : st.actualSize ≤ src.length
  sized : st.truncated = true ∨ st.actualSize % pageSize ≠ 0 → st.actualSize = src.length
  content : ∀ i, st.cached i = true → i < src.length ∧ i < st.media.length ∧ st.media.getD i 0 = src.getD i 0

/-! ## The parts -/

variable {query opts src} {st : CacheStore} {pageSize : Nat}

lemma valid_evict (h : Valid pageSize src st) (start : Nat) : Valid pageSize src (st.evict start) where
  __ := h
  content i hi := h.content i (Bool.and_eq_true_iff.1 hi).1

lemma Valid.remedia {src' : List Byte} (h : Valid pageSize src st) (hle : src'.length = src.length) :
    Valid pageSize src' { st with media := src' } where
  size_le := by
    rw [hle]
    exact h.size_le
  sized := by
    rw [hle]
    exact h.sized
  content i hi := by
    rw [hle]
    exact ⟨(h.content i hi).1, (h.content i hi).1, rfl⟩

lemma valid_refill (h : Valid pageSize src st) {off : Nat} {bs : List Byte}
    (hbs : ∀ j < bs.length, off + j < src.length ∧ bs.getD j 0 = src.getD (off + j) 0) :
    Valid pageSize src (st.refill bs off) where
  __ := h
  content i hi := by
    unfold refill at hi ⊢
    dsimp only at hi ⊢
    rw [getD_write]
    have hle : st.media.length ≤ (write 0 st.media bs off).length := by
      by_cases hn : bs = []
      · rw [hn, write_nil]
      · rw [write_length hn]
        omega
    by_cases hin : off ≤ i ∧ i < off + bs.length
    · obtain ⟨hsr, hv⟩ := hbs (i - off) (by omega)
      rw [if_pos hin, hv, Nat.add_sub_cancel' hin.1]
      rw [Nat.add_sub_cancel' hin.1] at hsr
      have hn : bs ≠ [] := ne_nil_of_length_pos (by omega)
      refine ⟨hsr, ?_, rfl⟩
      rw [write_length hn]
      omega
    · rw [if_neg hin]
      rw [decide_eq_false hin, Bool.or_false] at hi
      obtain ⟨hsr, hm, hv⟩ := h.content i hi
      exact ⟨hsr, by omega, hv⟩

lemma valid_trygetSize (h : Valid opts.pageSize src st) {st' : CacheStore} {stat : Option Nat}
    (hsta : ∀ size, stat = some size → size = src.length) (hg : trygetSize opts.pageSize stat st = some st') :
    Valid opts.pageSize src st' ∧ st'.actualSize = src.length := by
  unfold trygetSize at hg
  split at hg
  next hf =>
    cases hg
    exact ⟨h, h.sized hf.symm⟩
  next ha =>
    obtain ⟨size, hsi, hst⟩ := Option.map_eq_some_iff.1 hg
    rw [hsta size hsi] at hst
    have ht : st.truncated = false := by
      rw [not_or] at ha
      exact Bool.not_eq_true _ ▸ ha.2
    -- the eviction of the last page keeps the sizes
    obtain ⟨st1, hs1, hv, hsa⟩ : ∃ st1, (if st.cachedSize < src.length then
        setCachedSize opts.pageSize st src.length else st) = st1 ∧ Valid opts.pageSize src st1 ∧
          st1.actualSize = st.actualSize ∧ st1.truncated = st.truncated := by
      unfold setCachedSize
      split
      · split
        · exact ⟨st, rfl, h, rfl, rfl⟩
        split
        · exact ⟨_, rfl, valid_evict h _, rfl, rfl⟩
        split
        · exact ⟨_, rfl, valid_evict h _, rfl, rfl⟩
        · exact ⟨st, rfl, h, rfl, rfl⟩
      · exact ⟨st, rfl, h, rfl, rfl⟩
    dsimp only at hst
    rw [hs1] at hst
    split at hst
    · rw [← hst]
      exact ⟨⟨le_rfl, fun _ => rfl, hv.content⟩, rfl⟩
    next hn =>
      rw [← hst]
      refine ⟨hv, ?_⟩
      rw [hsa.2, ht] at hn
      have := hv.size_le
      simp only [Bool.false_eq_true, not_false_eq_true, and_true] at hn
      omega

lemma tryPreadv2_eq (hq : Covers opts.pageSize query) (h : Valid opts.pageSize src st) (mem : Mem) {iov : List Iovec}
    {offset : Nat} (hpo : 0 < sum iov) (hin : offset + sum iov ≤ src.length) :
    tryPreadv2 query st mem iov offset =
      if 0 ≤ (query st.cached offset (sum iov)).1 ∧ (query st.cached offset (sum iov)).2 = 0 then
        ⟨0, sum iov, scatter mem (bytes iov) (read src (sum iov) offset)⟩
      else ⟨(query st.cached offset (sum iov)).2, (query st.cached offset (sum iov)).1, mem⟩ := by
  unfold tryPreadv2
  dsimp only
  split
  next hh =>
    have hca := hq.hit st.cached offset (sum iov) hh.1 hh.2
    have hlo : offset + sum iov ≤ st.media.length := by
      have := (h.content (offset + sum iov - 1) (hca _ (by omega) (by omega))).2.1
      omega
    have hsa : read st.media (sum iov) offset = read src (sum iov) offset := by
      apply ext_getD 0
      · rw [read_length, read_length]
        omega
      intro i hi
      rw [read_length] at hi
      rw [getD_read, getD_read, if_pos (by omega), if_pos (by omega)]
      exact (h.content (offset + i) (hca _ (by omega) (by omega))).2.2
    rw [underPreadv_full hlo, hsa]
    exact if_neg (fun hn => hn rfl)
  next => rfl

/-! ## A query -/

def missingPages (pageSize : Nat) : Query := fun cached off n =>
  match (range n).find? fun i => !cached (off + i), (range n).find? fun i => !cached (off + n - 1 - i) with
  | some i, some j =>
    let left := (off + i) / pageSize * pageSize
    let right := ((off + n - 1 - j) / pageSize + 1) * pageSize
    ((left : Int), right - left)
  | _, _ => (0, 0)

lemma missingPages_covers (h : 0 < pageSize) : Covers pageSize (missingPages pageSize) := by
  -- either nothing is missing, or both ends are found, and what is missing is between them
  have hca : ∀ (cached : Nat → Bool) (off n : Nat),
      (missingPages pageSize cached off n = (0, 0) ∧ ∀ i, off ≤ i → i < off + n → cached i = true) ∨
      ∃ first last, off ≤ first ∧ first ≤ last ∧ last < off + n ∧
        (∀ i, off ≤ i → i < off + n → cached i = false → first ≤ i ∧ i ≤ last) ∧
        missingPages pageSize cached off n =
          (((first / pageSize * pageSize : Nat) : Int), (last / pageSize + 1) * pageSize - first / pageSize * pageSize) := by
    intro cached off n
    unfold missingPages
    cases hi : (range n).find? fun i => !cached (off + i) with
    | none =>
      refine .inl ⟨rfl, ?_⟩
      intro i ho hlt
      have := find?_eq_none.1 hi (i - off) (mem_range.2 (by omega))
      rw [Nat.add_sub_cancel' ho] at this
      simpa using this
    | some i =>
      obtain ⟨hm, hin, hbef⟩ := find?_range_eq_some.1 hi
      rw [mem_range] at hin
      cases hj : (range n).find? fun i => !cached (off + n - 1 - i) with
      | none =>
        have := find?_eq_none.1 hj (n - 1 - i) (mem_range.2 (by omega))
        rw [show off + n - 1 - (n - 1 - i) = off + i by omega] at this
        exact absurd hm this
      | some j =>
        obtain ⟨-, hin', haf⟩ := find?_range_eq_some.1 hj
        rw [mem_range] at hin'
        have hbe : ∀ k, off ≤ k → k < off + n → cached k = false → off + i ≤ k ∧ k ≤ off + n - 1 - j := by
          intro k ho hlt hk
          constructor
          · by_contra hlo
            have := hbef (k - off) (by omega)
            rw [Nat.add_sub_cancel' ho, hk] at this
            exact absurd this (by decide)
          · by_contra hh
            have := haf (off + n - 1 - k) (by omega)
            rw [show off + n - 1 - (off + n - 1 - k) = k by omega, hk] at this
            exact absurd this (by decide)
        have hi' : cached (off + i) = false := by simpa using hm
        have := hbe (off + i) (by omega) (by omega) hi'
        exact .inr ⟨off + i, off + n - 1 - j, by omega, this.2, by omega, hbe, rfl⟩
  have hlo : ∀ k, k / pageSize * pageSize ≤ k := fun k => div_mul_le_self k pageSize
  have hh : ∀ k, k < (k / pageSize + 1) * pageSize := fun k => by
    rw [mul_comm]
    exact lt_mul_div_succ k h
  constructor
  · intro cached off n _ hz i ho hlt
    obtain ⟨-, ha⟩ | ⟨first, last, -, hle, -, -, he⟩ := hca cached off n
    · exact ha i ho hlt
    have := hlo first
    have := hh last
    rw [he] at hz
    dsimp only at hz
    omega
  · intro cached off n _
    obtain ⟨he, -⟩ | ⟨first, last, -, -, -, -, he⟩ := hca cached off n
    · rw [he]
      exact ⟨Nat.dvd_zero _, Nat.dvd_zero _⟩
    · rw [he]
      exact ⟨Nat.dvd_mul_left .., dvd_sub (Nat.dvd_mul_left ..) (Nat.dvd_mul_left ..)⟩
  · intro cached off n _ hpo
    obtain ⟨he, -⟩ | ⟨first, last, ho, hle, hlt, -, he⟩ := hca cached off n
    · rw [he] at hpo
      exact absurd hpo (by decide)
    have := hlo first
    have := hh last
    rw [he]
    dsimp only
    omega
  · intro cached off n _ hpo i ho hlt hm
    obtain ⟨he, -⟩ | ⟨first, last, -, -, -, hbe, he⟩ := hca cached off n
    · rw [he] at hpo
      exact absurd hpo (by decide)
    have := hlo first
    have := hh last
    have := hbe i ho hlt hm
    rw [he]
    dsimp only
    omega

end CacheStore

end Photon.Fs
