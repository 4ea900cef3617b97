import Photon.Common.Extract
import Photon.Net.ChunkedBody
/-!
# BodyReadStream

A body of a declared length: first what was received with the header, then the stream. Over
it, the body is one list of bytes, and every call takes from its front.
-/

namespace Photon.Http

open Iovector Option Prod
open List hiding sum

inductive Ending where
  | closed
  | failed
  | waiting
  deriving DecidableEq

/-- `m_stream->read` of `n` bytes: what it takes from the stream and returns; `none` when it does not return. -/
def streamRead (stream : Bytes) (ending : Ending) (n : Nat) : Option (Bytes × Int) :=
  if n ≤ stream.length then some (stream.take n, n)
  else
    match ending with
    | .closed => some (stream, stream.length)
    | .failed => some (stream, -1)
    | .waiting => none

structure BodyReadStream where
  /-- `m_partial_body_remain` bytes from `m_partial_body_buf` on. -/
  partialBody : Bytes
  bodyRemain : Nat
  stream : Bytes
  ending : Ending
  deriving DecidableEq

namespace BodyReadStream

def read (s : BodyReadStream) (count : Nat) : Option (BodyReadStream × Bytes × Int) :=
  let count := if count > s.bodyRemain then s.bodyRemain else count
  let n := min count s.partialBody.length
  let got := s.partialBody.take n
  let s := { s with partialBody := s.partialBody.drop n, bodyRemain := s.bodyRemain - n }
  let count := count - n
  if count > 0 then
    match streamRead s.stream s.ending count with
    | none => none
    | some (data, r) =>
      let s := { s with stream := s.stream.drop data.length }
      if r < 0 then some (s, got ++ data, r)
      else some ({ s with bodyRemain := s.bodyRemain - r.toNat }, got ++ data, n + r)
  else some (s, got, n)

def place (base : Nat) (got : Bytes) : List (Nat × UInt8) := (addresses base got.length).zip got

def readvLoop : Nat → BodyReadStream → List Iovec → List (Nat × UInt8) → Int →
    Option (BodyReadStream × List (Nat × UInt8) × Int)
  | 0, _, _, _, _ => none
  | _ + 1, s, [], out, ret => some (s, out, ret)
  | fuel + 1, s, v :: vs, out, ret =>
    match s.read v.iovLen with
    | none => none
    | some (s, got, tmp) =>
      let out := out ++ place v.iovBase got
      if tmp < 0 then some (s, out, tmp)
      else if tmp = 0 then some (s, out, ret)
      else readvLoop fuel s (extractFront (v :: vs) tmp.toNat).view out (ret + tmp)

def readv (s : BodyReadStream) (iov : List Iovec) : Option (BodyReadStream × List (Nat × UInt8) × Int) :=
  readvLoop (sum iov + 1) s iov [] 0

inductive Call where
  | read (buf count : Nat)
  | readv (iov : List Iovec)
  deriving DecidableEq

def Call.iov : Call → List Iovec
  | read buf count => [⟨buf, count⟩]
  | readv iov => iov

def call (s : BodyReadStream) : Call → Option (BodyReadStream × List (Nat × UInt8) × Int)
  | .read buf count => (s.read count).map fun r => (r.1, place buf r.2.1, r.2.2)
  | .readv iov => s.readv iov

/-- The calls, one after the other: what each of them writes and returns. -/
def calls (s : BodyReadStream) : List Call → Option (BodyReadStream × List (List (Nat × UInt8) × Int))
  | [] => some (s, [])
  | c :: cs =>
    match s.call c with
    | none => none
    | some (s, out) => (s.calls cs).map fun r => (r.1, out :: r.2)

end BodyReadStream

/-! ## Closing -/

/-- `doio_loop`; `none` when `iocb` does not return, or the fuel is out. -/
def doioLoop {σ : Type} (iocb : σ → Option (σ × Int)) (step : σ → Nat → σ × Bool) : Nat → σ → Nat → Option (σ × Int)
  | 0, _, _ => none
  | fuel + 1, s, n =>
    match iocb s with
    | none => none
    | some (s, ret) =>
      if ret < 0 then some (s, ret)
      else if ret = 0 then some (s, n)
      else
        let (s, more) := step s ret.toNat
        if more then doioLoop iocb step fuel s (n + ret.toNat) else some (s, (n + ret.toNat : Nat))

structure Skip where
  stream : Bytes
  count : Nat
  deriving DecidableEq

open Skip

def Skip.io (ending : Ending) (s : Skip) : Option (Skip × Int) :=
  (streamRead s.stream ending (min s.count 1024)).map fun r => ({ s with stream := s.stream.drop r.1.length }, r.2)

def Skip.step (s : Skip) (ret : Nat) : Skip × Bool :=
  let s := { s with count := s.count - ret }
  (s, decide (s.count > 0))

/-- `ISocketStream::skip_read`; the result of the loop is converted to `bool`. -/
def skipRead (stream : Bytes) (ending : Ending) (count : Nat) : Option (Bytes × Bool) :=
  (doioLoop (io ending) step (count + 1) ⟨stream, count⟩ 0).map fun r => (r.1.stream, decide (r.2 ≠ 0))

def SKIP_LIMIT : Nat := 4 * 1024

namespace BodyReadStream

/-- `m_body_remain - m_partial_body_remain`, a `size_t`. -/
def streamRemain (s : BodyReadStream) : Nat := (s.bodyRemain + (2 ^ 64 - s.partialBody.length)) % 2 ^ 64

def close (s : BodyReadStream) : Option (BodyReadStream × Int) :=
  if s.streamRemain > SKIP_LIMIT then some (s, -1)
  else if s.streamRemain = 0 then some (s, 0)
  else
    match skipRead s.stream s.ending s.streamRemain with
    | none => none
    | some (stream, ok) => some ({ s with stream }, if ok then 0 else -1)

end BodyReadStream

def skipRemain : Option BodyReadStream → Option (Option BodyReadStream × Int)
  | none => some (none, -1)
  | some s => s.close.map fun r => (some r.1, if r.2 = 0 then 0 else -1)

/-! ## The body -/

variable {stream : Bytes} {ending : Ending} {count fuel : Nat}

namespace BodyReadStream

def body (s : BodyReadStream) : Bytes := (s.partialBody ++ s.stream).take s.bodyRemain

/-- The stream does not fail, and does not have to be waited for. -/
def Feeds (s : BodyReadStream) : Prop := s.ending = .closed ∨ s.bodyRemain ≤ s.partialBody.length + s.stream.length

structure Took (s s' : BodyReadStream) (k : Nat) : Prop where
  partialBody : s'.partialBody = s.partialBody.drop k
  stream : s'.stream = s.stream.drop (k - s.partialBody.length)
  bodyRemain : s'.bodyRemain = s.bodyRemain - k
  ending : s'.ending = s.ending
  le : k ≤ s.body.length

lemma body_length (s : BodyReadStream) : s.body.length = min s.bodyRemain (s.partialBody.length + s.stream.length) := by
  rw [body, length_take, length_append]

variable {s s' : BodyReadStream} {k : Nat}

lemma Took.body_eq (h : Took s s' k) : s'.body = s.body.drop k := by
  rw [body, h.partialBody, h.stream, h.bodyRemain, ← drop_append, body, drop_take]

lemma Took.feeds (h : Took s s' k) (hs : s.Feeds) : s'.Feeds := by
  rcases hs with hs | hs
  · exact .inl (h.ending.trans hs)
  · right
    rw [h.partialBody, h.stream, h.bodyRemain, length_drop, length_drop]
    omega

lemma Took.refl (s : BodyReadStream) : Took s s 0 := ⟨rfl, by rw [Nat.zero_sub, drop_zero], rfl, rfl, Nat.zero_le _⟩

lemma Took.trans {s'' : BodyReadStream} {m : Nat} (h : Took s s' k) (h' : Took s' s'' m) : Took s s'' (k + m) := by
  have hle := h.le
  have hl' := h'.le
  constructor
  · rw [h'.partialBody, h.partialBody, drop_drop]
  · rw [h'.stream, h.stream, h.partialBody, drop_drop, length_drop]
    congr 1
    omega
  · rw [h'.bodyRemain, h.bodyRemain]
    omega
  · exact h'.ending.trans h.ending
  · rw [h.body_eq, length_drop] at hl'
    omega

variable {n : Nat} {v : Iovec}

lemma streamRead_eq (h : ending = .closed ∨ n ≤ stream.length) :
    streamRead stream ending n = some (stream.take n, ((stream.take n).length : Int)) := by
  unfold streamRead
  split
  next hle => rw [length_take_of_le hle]
  rename_i hlt
  rcases h with rfl | h
  · rw [take_of_length_le (by omega)]
  · exact absurd h hlt

lemma read_took (hs : s.Feeds) (count : Nat) :
    ∃ s', s.read count = some (s', s.body.take count, ((min count s.body.length : Nat) : Int)) ∧
      Took s s' (min count s.body.length) := by
  have hlen := s.body_length
  -- the bytes wanted, and how many of them the partial body has
  obtain ⟨c, hc⟩ : ∃ c, c = min count s.bodyRemain := ⟨_, rfl⟩
  have hcl : (if count > s.bodyRemain then s.bodyRemain else count) = c := by
    split <;> omega
  have ht : s.body.take count = s.partialBody.take c ++ s.stream.take (c - s.partialBody.length) := by
    rw [body, take_take, ← hc, take_append]
  have hpa : s.partialBody.take (min c s.partialBody.length) = s.partialBody.take c := by
    rw [← take_take, take_length]
  unfold read
  dsimp only
  rw [hcl, hpa]
  split
  next hm =>
    have hn : min c s.partialBody.length = s.partialBody.length := by omega
    rw [hn] at hm ⊢
    have hf : s.ending = .closed ∨ c - s.partialBody.length ≤ s.stream.length := by
      rcases hs with hs | hs
      · exact .inl hs
      · exact .inr (by omega)
    have hg : (s.stream.take (c - s.partialBody.length)).length = min count s.body.length - s.partialBody.length := by
      rw [length_take]
      grind
    rw [streamRead_eq hf]
    dsimp only
    rw [if_neg (by omega), hg, ht]
    refine ⟨_, congrArg some (Prod.ext rfl (Prod.ext rfl ?_)), ?_, rfl, ?_, rfl, ?_⟩
    · dsimp only
      omega
    · dsimp only
      rw [drop_length, drop_of_length_le (by omega)]
    · dsimp only
      omega
    · omega
  next ha =>
    have hno : c - s.partialBody.length = 0 := by omega
    have hn : min c s.partialBody.length = min count s.body.length := by omega
    rw [ht, hno, take_zero, append_nil, hn]
    refine ⟨_, rfl, rfl, ?_, rfl, rfl, by omega⟩
    rw [show min count s.body.length - s.partialBody.length = 0 by omega, drop_zero]

/-! ## Vectored reads -/

lemma extractFront_view (vs : List Iovec) (hpo : 0 < n) (hle : n ≤ v.iovLen) :
    (extractFront (v :: vs) n).view = if v.iovLen - n = 0 then vs else ⟨v.iovBase + n, v.iovLen - n⟩ :: vs := by
  rw [extractFront, doExtractFront, if_neg (by omega), extractFrontLoop, if_pos hle]
  dsimp only [Iovector.discard]
  split <;> rfl

lemma extractFront_bytes (vs : List Iovec) (hpo : 0 < n) (hle : n ≤ v.iovLen) :
    bytes (extractFront (v :: vs) n).view = (bytes (v :: vs)).drop n := by
  rw [extractFront_view vs hpo hle, bytes_cons, drop_append_of_le_length (by rwa [Iovec.bytes_length])]
  split
  next hz => rw [drop_of_length_le (by rw [Iovec.bytes_length]; omega), nil_append]
  · rw [bytes_cons, Iovec.bytes_drop]

lemma place_eq (vs : List Iovec) (l : Bytes) :
    place v.iovBase (l.take v.iovLen) = ((bytes (v :: vs)).zip l).take (min v.iovLen l.length) := by
  have ha : addresses v.iovBase (min v.iovLen l.length) = (bytes (v :: vs)).take (min v.iovLen l.length) := by
    rw [bytes_cons, take_append_of_le_length (by rw [Iovec.bytes_length]; omega)]
    exact v.bytes_take (min_le_left ..)
  have hd : l.take (min v.iovLen l.length) = l.take v.iovLen := by
    rw [← take_take, take_length]
  unfold place zip
  rw [take_zipWith, ← ha, hd, length_take]

lemma readvLoop_took (hs : s.Feeds) {view : List Iovec} (hf : sum view < fuel) (out : List (Nat × UInt8)) (ret : Int) :
    ∃ s' k, readvLoop fuel s view out ret = some (s', out ++ ((bytes view).zip s.body).take k, ret + k) ∧
    Took s s' k ∧ ((∀ v ∈ view, 0 < v.iovLen) → k = min (sum view) s.body.length) := by
  induction fuel generalizing s view out ret with
  | zero => omega
  | succ fuel ih =>
    cases view with
    | nil => exact ⟨s, 0, by simp [readvLoop], .refl s, fun _ => by simp⟩
    | cons v vs =>
      obtain ⟨s1, hr, ht⟩ := read_took hs v.iovLen
      obtain ⟨k1, hk1⟩ : ∃ k1, k1 = min v.iovLen s.body.length := ⟨_, rfl⟩
      rw [← hk1] at hr ht
      have hsu : sum (v :: vs) = v.iovLen + sum vs := sum_cons v vs
      have hpl : place v.iovBase (s.body.take v.iovLen) = ((bytes (v :: vs)).zip s.body).take k1 :=
        hk1 ▸ place_eq vs s.body
      rw [readvLoop, hr]
      dsimp only
      rw [if_neg (by omega), hpl]
      split
      next hze =>
        have hk : k1 = 0 := by omega
        subst hk
        exact ⟨s1, 0, by simp, ht, fun hpo => by have := hpo v mem_cons_self; omega⟩
      next hpo =>
        have hp1 : 0 < k1 := by omega
        have hl1 : k1 ≤ v.iovLen := by omega
        have hby := extractFront_bytes vs hp1 hl1
        have hv := extractFront_view vs hp1 hl1
        rw [Int.toNat_natCast]
        generalize (extractFront (v :: vs) k1).view = view at hby hv ⊢
        have hlen := congrArg length hby
        rw [length_drop, bytes_length, bytes_length] at hlen
        obtain ⟨s2, k2, hlo, ht2, ha⟩ := ih (ht.feeds hs) (show sum view < fuel by omega)
          (out ++ ((bytes (v :: vs)).zip s.body).take k1) (ret + k1)
        refine ⟨s2, k1 + k2, ?_, ht.trans ht2, fun hn => ?_⟩
        · rw [hlo, hby, ht.body_eq]
          have hz : ((bytes (v :: vs)).drop k1).zip (s.body.drop k1) = ((bytes (v :: vs)).zip s.body).drop k1 := by
            unfold zip
            rw [drop_zipWith]
          rw [hz, append_assoc, ← take_add, Int.add_assoc, Int.natCast_add]
        · have hn' : ∀ u ∈ view, 0 < u.iovLen := by
            intro u hu
            rw [hv] at hu
            split at hu
            · exact hn u (mem_cons_of_mem _ hu)
            rcases mem_cons.1 hu with rfl | hu
            · dsimp only
              omega
            · exact hn u (mem_cons_of_mem _ hu)
          have := ha hn'
          rw [ht.body_eq, length_drop] at this
          omega

/-- A read may ask for nothing; the segments of a vectored read have bytes. -/
def Call.NonEmpty : Call → Prop
  | read _ _ => True
  | readv iov => ∀ v ∈ iov, 0 < v.iovLen

lemma call_took (hs : s.Feeds) (c : Call) : ∃ s' k, s.call c = some (s', ((bytes c.iov).zip s.body).take k, (k : Int)) ∧
    Took s s' k ∧ (c.NonEmpty → k = min (sum c.iov) s.body.length) := by
  cases c with
  | read buf count =>
    obtain ⟨s', hr, ht⟩ := read_took hs count
    have hpl : place buf (s.body.take count) = _ := place_eq (v := ⟨buf, count⟩) [] s.body
    refine ⟨s', _, ?_, ht, fun _ => by simp [Call.iov]⟩
    rw [call, hr, map_some, hpl]
    rfl
  | readv iov =>
    obtain ⟨s', k, hlo, ht, ha⟩ := readvLoop_took hs (Nat.lt_succ_self (sum iov)) [] 0
    refine ⟨s', k, ?_, ht, ha⟩
    rw [call, readv, hlo, nil_append, Int.zero_add]
    rfl

lemma calls_took (hs : s.Feeds) (cs : List Call) : ∃ s' outs k, s.calls cs = some (s', outs) ∧ Took s s' k := by
  induction cs generalizing s with
  | nil => exact ⟨s, [], 0, rfl, .refl s⟩
  | cons c cs ih =>
    obtain ⟨s1, k1, hcal, ht1, -⟩ := call_took hs c
    obtain ⟨s2, outs, k2, hca, ht2⟩ := ih (ht1.feeds hs)
    refine ⟨s2, (((bytes c.iov).zip s.body).take k1, k1) :: outs, k1 + k2, ?_, ht1.trans ht2⟩
    rw [calls, hcal]
    dsimp only
    rw [hca]
    rfl

def asked (cs : List Call) : Nat := (cs.map fun c => sum c.iov).sum

/-- The calls take from the body what they ask for, one after the other. -/
def deliver (body : Bytes) : List Call → List (List (Nat × UInt8) × Int)
  | [] => []
  | c :: cs => ((bytes c.iov).zip body, ((min (sum c.iov) body.length : Nat) : Int)) :: deliver (body.drop (sum c.iov)) cs

lemma drop_min_length (l : Bytes) (n : Nat) : l.drop (min n l.length) = l.drop n := by
  rcases le_total n l.length with h | h
  · rw [min_eq_left h]
  · rw [min_eq_right h, drop_length, drop_of_length_le h]

lemma calls_deliver (hs : s.Feeds) {cs : List Call} (hcs : ∀ c ∈ cs, c.NonEmpty) :
    ∃ s', s.calls cs = some (s', deliver s.body cs) ∧ Took s s' (min (asked cs) s.body.length) := by
  induction cs generalizing s with
  | nil => exact ⟨s, rfl, by simpa [asked] using Took.refl s⟩
  | cons c cs ih =>
    obtain ⟨s1, k, hcal, ht1, ha⟩ := call_took hs c
    obtain rfl := ha (hcs c mem_cons_self)
    obtain ⟨s2, hca, ht2⟩ := ih (ht1.feeds hs) fun d hd => hcs d (mem_cons_of_mem _ hd)
    have hask : asked (c :: cs) = sum c.iov + asked cs := by simp [asked]
    have hw : ((bytes c.iov).zip s.body).take (min (sum c.iov) s.body.length) = (bytes c.iov).zip s.body :=
      take_of_length_le (by rw [length_zip, bytes_length])
    rw [ht1.body_eq, drop_min_length] at hca ht2
    refine ⟨s2, ?_, ?_⟩
    · rw [calls, hcal, hw]
      dsimp only
      rw [hca]
      rfl
    · have ht := ht1.trans ht2
      rw [length_drop] at ht
      rwa [show min (sum c.iov) s.body.length + min (asked cs) (s.body.length - sum c.iov) =
        min (asked (c :: cs)) s.body.length by omega] at ht

lemma map_snd_zip_take (as : List Nat) (l : Bytes) : (as.zip l).map snd = l.take as.length := by
  induction as generalizing l with
  | nil => rfl
  | cons a as ih =>
    cases l with
    | nil => rfl
    | cons => rw [zip_cons_cons, map_cons, ih, length_cons, take_succ_cons]

lemma deliver_data (body : Bytes) (cs : List Call) :
    (deliver body cs).flatMap (fun out => out.1.map snd) = body.take (asked cs) := by
  induction cs generalizing body with
  | nil => rfl
  | cons c cs ih =>
    have ha : asked (c :: cs) = sum c.iov + asked cs := by simp [asked]
    have hd : ((bytes c.iov).zip body).map snd = body.take (sum c.iov) := by
      rw [map_snd_zip_take, bytes_length]
    rw [deliver, flatMap_cons, ih, ha, take_add, hd]

end BodyReadStream

open BodyReadStream

/-- On a stream that ends after its bytes, or has all of the body, every call writes the next bytes of the body to its
segments, in order and as far as there are any. All together that is the body from its front on, and the stream is read
no further than the body goes. -/
theorem body_read (s : BodyReadStream) (hs : s.Feeds) (cs : List Call) (hcs : ∀ c ∈ cs, c.NonEmpty) :
    ∃ s' k, s.calls cs = some (s', deliver s.body cs) ∧ (deliver s.body cs).flatMap (fun out => out.1.map snd) =
        (s.partialBody ++ s.stream).take (min (asked cs) s.bodyRemain) ∧
      k = min (asked cs) (min s.bodyRemain (s.partialBody ++ s.stream).length) ∧
      s'.partialBody ++ s'.stream = (s.partialBody ++ s.stream).drop k ∧
      s'.stream = s.stream.drop (k - s.partialBody.length) := by
  obtain ⟨s', hca, ht⟩ := calls_deliver hs hcs
  have hle : s.body.length = min s.bodyRemain (s.partialBody ++ s.stream).length := length_take
  rw [hle] at ht
  refine ⟨s', _, hca, ?_, rfl, ?_, ht.stream⟩
  · rw [deliver_data, body, take_take]
  · rw [ht.partialBody, ht.stream, ← drop_append]

/-- Five bytes are declared, two of them are there, and the stream has those of the next message behind the rest. -/
theorem body_read_five : ∃ s',
    calls ⟨chars "he", 5, chars "lloGET", .waiting⟩ [.read 0 3, .readv [⟨10, 1⟩, ⟨20, 9⟩]] =
      some (s', [([(0, 104), (1, 101), (2, 108)], 3), ([(10, 108), (20, 111)], 2)]) ∧ s'.stream = chars "GET" := by
  obtain ⟨s', k, hca, -, rfl, -, hst⟩ := body_read ⟨chars "he", 5, chars "lloGET", .waiting⟩ (.inr (by decide +kernel))
    [.read 0 3, .readv [⟨10, 1⟩, ⟨20, 9⟩]] (by simp [Call.NonEmpty])
  refine ⟨s', hca.trans ?_, hst.trans (by decide +kernel)⟩
  congr 2

/-! ## Closing -/

lemma doioLoop_skip (n : Nat) (hf : count < fuel) (hpo : 0 < count) (hle : count ≤ stream.length) :
    doioLoop (io ending) step fuel ⟨stream, count⟩ n = some (⟨stream.drop count, 0⟩, ((n + count : Nat) : Int)) := by
  induction fuel generalizing stream count n with
  | zero => omega
  | succ fuel ih =>
    have hm : min count 1024 ≤ stream.length := by omega
    have hlen : (stream.take (min count 1024)).length = min count 1024 := length_take_of_le hm
    have hi : io ending ⟨stream, count⟩ = some (⟨stream.drop (min count 1024), count⟩, ((min count 1024 : Nat) : Int)) := by
      rw [io, streamRead_eq (.inr hm), map_some, hlen]
    rw [doioLoop, hi]
    dsimp only [step]
    rw [if_neg (by omega), if_neg (by omega), Int.toNat_natCast]
    split
    next hmo =>
      rw [decide_eq_true_iff] at hmo
      rw [ih _ (by omega) hmo (by rw [length_drop]; omega), drop_drop,
        show min count 1024 + (count - min count 1024) = count by omega,
        show n + min count 1024 + (count - min count 1024) = n + count by omega]
    next hla =>
      rw [decide_eq_true_iff] at hla
      rw [show min count 1024 = count by omega, Nat.sub_self]

lemma skipRead_eq (ending : Ending) (hpo : 0 < count) (hle : count ≤ stream.length) :
    skipRead stream ending count = some (stream.drop count, true) := by
  rw [skipRead, doioLoop_skip 0 (Nat.lt_succ_self count) hpo hle, map_some]
  congr 2
  rw [decide_eq_true_iff]
  omega

/-- On a stream with less than is to be skipped, all of it is skipped. -/
lemma doioLoop_short (ending : Ending) (n : Nat) (hf : stream.length < fuel) (hlt : stream.length < count) :
    (ending = .waiting → doioLoop (io ending) step fuel ⟨stream, count⟩ n = none) ∧
      (ending = .closed →
        ∃ c, doioLoop (io ending) step fuel ⟨stream, count⟩ n = some (⟨[], c⟩, ((n + stream.length : Nat) : Int))) ∧
      (ending = .failed → ∃ c, doioLoop (io ending) step fuel ⟨stream, count⟩ n = some (⟨[], c⟩, -1)) := by
  induction fuel generalizing stream count n with
  | zero => omega
  | succ fuel ih =>
    by_cases hm : min count 1024 ≤ stream.length
    · have hlen : (stream.take (min count 1024)).length = min count 1024 := length_take_of_le hm
      have hd : (stream.drop (min count 1024)).length = stream.length - min count 1024 := length_drop
      rw [doioLoop, io, streamRead_eq (.inr hm), map_some, hlen]
      dsimp only [step]
      rw [if_neg (by omega), if_neg (by omega), Int.toNat_natCast, if_pos (decide_eq_true (by omega))]
      obtain ⟨hw, hc, hf⟩ := ih (n + min count 1024)
        (show (stream.drop (min count 1024)).length < fuel by omega)
        (show (stream.drop (min count 1024)).length < count - min count 1024 by omega)
      rw [hd, show n + min count 1024 + (stream.length - min count 1024) = n + stream.length by omega] at hc
      exact ⟨hw, hc, hf⟩
    · refine ⟨?_, ?_, ?_⟩ <;> rintro rfl <;> rw [doioLoop, io, streamRead, if_neg hm]
      · rfl
      · dsimp only [map_some, step]
        rw [if_neg (by omega), drop_length, Int.toNat_natCast]
        split
        next h0 => exact ⟨count, by rw [Int.natCast_eq_zero.1 h0, Nat.add_zero]⟩
        next h0 =>
          -- the stream has ended, which the next read finds
          obtain ⟨c, hc⟩ := (ih (n + stream.length)
            (show ([] : Bytes).length < fuel by rw [length_nil]; omega)
            (show ([] : Bytes).length < count - stream.length by rw [length_nil]; omega)).2.1 rfl
          rw [if_pos (decide_eq_true (by omega)), hc]
          exact ⟨c, rfl⟩
      · exact ⟨count, by simp⟩

lemma skipRead_short (ending : Ending) (hlt : stream.length < count) : (∃ st, skipRead stream ending count = some (st, true)) ↔
    ¬(ending = .waiting ∨ stream = [] ∧ ending = .closed) := by
  obtain ⟨hw, hc, hf⟩ := doioLoop_short ending 0 (Nat.lt_succ_of_lt hlt) hlt
  rw [skipRead]
  cases ending with
  | waiting => simp [hw rfl]
  | closed =>
    obtain ⟨c, hc⟩ := hc rfl
    simp [hc]
  | failed =>
    obtain ⟨c, hf⟩ := hf rfl
    simp [hf]

namespace BodyReadStream

variable {s s' : BodyReadStream}

lemma streamRemain_eq (hr : s.bodyRemain < 2 ^ 64) (hpa : s.partialBody.length < 2 ^ 63) :
    (s.partialBody.length ≤ s.bodyRemain → s.streamRemain = s.bodyRemain - s.partialBody.length) ∧
      (s.bodyRemain < s.partialBody.length → SKIP_LIMIT < s.streamRemain) := by
  unfold streamRemain SKIP_LIMIT
  constructor <;> intro h <;> omega

lemma close_eq (ha : s.bodyRemain ≤ s.partialBody.length + s.stream.length) (hr : s.bodyRemain < 2 ^ 64)
    (hpa : s.partialBody.length < 2 ^ 63) :
    s.close = if s.partialBody.length ≤ s.bodyRemain ∧ s.bodyRemain ≤ s.partialBody.length + SKIP_LIMIT then
      some ({ s with stream := s.stream.drop (s.bodyRemain - s.partialBody.length) }, 0) else some (s, -1) := by
  obtain ⟨hfi, ho⟩ := streamRemain_eq hr hpa
  rw [close]
  by_cases hbi : s.streamRemain > SKIP_LIMIT
  · rw [if_pos hbi, if_neg]
    rintro ⟨hle, hli⟩
    have := hfi hle
    omega
  · have hle : s.partialBody.length ≤ s.bodyRemain := by
      by_contra hlt
      exact hbi (ho (by omega))
    have hre := hfi hle
    have hf : s.partialBody.length ≤ s.bodyRemain ∧ s.bodyRemain ≤ s.partialBody.length + SKIP_LIMIT := ⟨hle, by omega⟩
    rw [if_neg hbi, if_pos hf, hre]
    split
    next hz => rw [hz, drop_zero]
    next hpo =>
      rw [skipRead_eq s.ending (by omega) (by omega)]
      rfl

/-- What is left of the declared body is more than there is. -/
def Short (s : BodyReadStream) : Prop := s.partialBody.length + s.stream.length < s.bodyRemain

lemma streamRead_some {n : Nat} {data : Bytes} {r : Int} (h : streamRead stream ending n = some (data, r)) :
    data.length ≤ stream.length ∧ (r < 0 ∨ r = data.length) := by
  unfold streamRead at h
  split at h
  next hle =>
    cases h
    rw [length_take_of_le hle]
    exact ⟨hle, .inr rfl⟩
  cases ending <;> cases h
  · exact ⟨le_rfl, .inr rfl⟩
  · exact ⟨le_rfl, .inl (by decide)⟩

lemma Short.read (hs : s.Short) {got : Bytes} {r : Int} (h : s.read count = some (s', got, r)) :
    s'.Short ∧ s'.bodyRemain ≤ s.bodyRemain := by
  unfold Short at hs ⊢
  unfold BodyReadStream.read at h
  dsimp only at h
  generalize (if count > s.bodyRemain then s.bodyRemain else count) = c at h
  split at h
  · split at h
    · cases h
    next data ret hd =>
      obtain ⟨hle, hret⟩ := streamRead_some hd
      split at h
      all_goals
        cases h
        dsimp only
        rw [length_drop, length_drop]
        omega
  · cases h
    dsimp only
    rw [length_drop]
    omega

lemma Short.readvLoop (hs : s.Short) {view : List Iovec} {out out' : List (Nat × UInt8)} {ret r : Int}
    (h : readvLoop fuel s view out ret = some (s', out', r)) : s'.Short ∧ s'.bodyRemain ≤ s.bodyRemain := by
  induction fuel generalizing s view out ret with
  | zero => cases h
  | succ fuel ih =>
    cases view with
    | nil =>
      cases h
      exact ⟨hs, le_rfl⟩
    | cons v vs =>
      rw [BodyReadStream.readvLoop] at h
      split at h
      · cases h
      next s1 got tmp hr =>
        obtain ⟨hs1, hle⟩ := hs.read hr
        dsimp only at h
        split at h
        · cases h
          exact ⟨hs1, hle⟩
        split at h
        · cases h
          exact ⟨hs1, hle⟩
        · obtain ⟨hs2, hle'⟩ := ih hs1 h
          exact ⟨hs2, hle'.trans hle⟩

lemma Short.calls (hs : s.Short) {cs : List Call} {outs : List (List (Nat × UInt8) × Int)}
    (h : s.calls cs = some (s', outs)) : s'.Short ∧ s'.bodyRemain ≤ s.bodyRemain := by
  induction cs generalizing s outs with
  | nil =>
    cases h
    exact ⟨hs, le_rfl⟩
  | cons c cs ih =>
    rw [BodyReadStream.calls] at h
    split at h
    · cases h
    next s1 out hc =>
      have hs1 : s1.Short ∧ s1.bodyRemain ≤ s.bodyRemain := by
        cases c with
        | read buf n =>
          obtain ⟨r, hr, he⟩ := map_eq_some_iff.1 hc
          cases he
          exact hs.read hr
        | readv iov => exact hs.readvLoop hc
      obtain ⟨r, hr, he⟩ := map_eq_some_iff.1 h
      cases he
      obtain ⟨hs2, hle⟩ := ih hs1.1 hr
      exact ⟨hs2, hle.trans hs1.2⟩

lemma Short.close (hs : s.Short) (hr : s.bodyRemain < 2 ^ 64) : (∃ s', s.close = some (s', 0)) ↔
    ¬(SKIP_LIMIT < s.streamRemain ∨ s.ending = .waiting ∨ s.stream = [] ∧ s.ending = .closed) := by
  unfold Short at hs
  have hre : s.streamRemain = s.bodyRemain - s.partialBody.length := by
    unfold streamRemain
    omega
  rw [BodyReadStream.close]
  by_cases hbi : s.streamRemain > SKIP_LIMIT
  · simp [hbi]
  have hsk := skipRead_short s.ending (show s.stream.length < s.streamRemain by omega)
  rw [if_neg hbi, if_neg (by omega), not_or, ← hsk]
  constructor
  · rintro ⟨s', h⟩
    split at h
    · cases h
    next st ok hok =>
      cases ok with
      | false => cases h
      | true => exact ⟨hbi, st, hok⟩
  · rintro ⟨-, st, hok⟩
    rw [hok]
    exact ⟨_, rfl⟩

/-- The declared body was there, and `s'` is behind it. -/
def Consumed (s s' : BodyReadStream) : Prop :=
  s.bodyRemain ≤ s.partialBody.length + s.stream.length ∧ s'.stream = (s.partialBody ++ s.stream).drop s.bodyRemain

end BodyReadStream

/-- After any reads, a close that succeeds, and `skip_remain`, has consumed the body exactly when there is all that is
left of it, or too much is left to be skipped, or the stream never ends, or it has ended already. It succeeds on a
stream with all of the body when what was received with the header is not more than the body, and what was not is at
most `SKIP_LIMIT` bytes. -/
theorem body_close (s0 : BodyReadStream) (hremain : s0.bodyRemain < 2 ^ 64) (hpart : s0.partialBody.length < 2 ^ 63)
    (cs : List Call) (s : BodyReadStream) (outs : List (List (Nat × UInt8) × Int)) (hcalls : s0.calls cs = some (s, outs)) :
    let ready := s.bodyRemain ≤ s.partialBody.length + s.stream.length ∨
      SKIP_LIMIT < s.streamRemain ∨ s.ending = .waiting ∨ s.stream = [] ∧ s.ending = .closed
    ((∀ s', s.close = some (s', 0) → Consumed s0 s') ↔ ready) ∧
      ((∀ s', skipRemain (some s) = some (some s', 0) → Consumed s0 s') ↔ ready) ∧
      (s0.bodyRemain ≤ s0.partialBody.length + s0.stream.length → s0.partialBody.length ≤ s0.bodyRemain →
        s0.bodyRemain ≤ s0.partialBody.length + SKIP_LIMIT → ∃ s', s.close = some (s', 0)) := by
  have hsk : ∀ s', skipRemain (some s) = some (some s', 0) ↔ s.close = some (s', 0) := by
    intro s'
    rw [skipRemain, map_eq_some_iff]
    constructor
    · rintro ⟨⟨s2, ret⟩, hr, he⟩
      rw [Prod.mk.injEq, some.injEq] at he
      obtain ⟨rfl, hz⟩ := he
      split at hz
      next hr0 => exact (show ret = 0 from hr0) ▸ hr
      · cases hz
    · exact fun h => ⟨_, h, rfl⟩
  intro ready
  have hcl : ((∀ s', s.close = some (s', 0) → Consumed s0 s') ↔ ready) ∧
      (s0.bodyRemain ≤ s0.partialBody.length + s0.stream.length → s0.partialBody.length ≤ s0.bodyRemain →
        s0.bodyRemain ≤ s0.partialBody.length + SKIP_LIMIT → ∃ s', s.close = some (s', 0)) := by
    by_cases hall : s0.bodyRemain ≤ s0.partialBody.length + s0.stream.length
    · obtain ⟨s1, outs1, k, hc1, ht⟩ := calls_took (.inr hall) cs
      obtain ⟨rfl, -⟩ : s1 = s ∧ outs1 = outs := by
        rw [hcalls] at hc1
        cases hc1
        exact ⟨rfl, rfl⟩
      have hle := ht.le
      rw [body_length] at hle
      have hp := congrArg length ht.partialBody
      have hst := congrArg length ht.stream
      rw [length_drop] at hp hst
      have hb := ht.bodyRemain
      have hcl := close_eq (s := s1) (by omega) (by omega) (by omega)
      refine ⟨⟨fun _ => .inl (by omega), fun _ s' hs' => ⟨hall, ?_⟩⟩, fun _ h1 h2 => ?_⟩
      · rw [hcl] at hs'
        split at hs'
        next hf =>
          cases hs'
          dsimp only
          have hg : s0.partialBody.drop s0.bodyRemain = [] := drop_of_length_le (by omega)
          rw [ht.stream, drop_drop, drop_append, hg, nil_append]
          congr 1
          omega
        · cases hs'
      · rw [hcl, if_pos ⟨by omega, by omega⟩]
        exact ⟨_, rfl⟩
    · have hsh : s0.Short := by
        unfold Short
        omega
      obtain ⟨hs, hle⟩ := hsh.calls hcalls
      refine ⟨?_, fun h => absurd h hall⟩
      have hno : (∀ s', s.close = some (s', 0) → Consumed s0 s') ↔ ¬∃ s', s.close = some (s', 0) :=
        ⟨fun h ⟨s', hs'⟩ => hall (h s' hs').1, fun h s' hs' => absurd ⟨s', hs'⟩ h⟩
      rw [hno, hs.close (hle.trans_lt hremain), not_not]
      exact ⟨.inr, fun h => h.resolve_left (Nat.not_le.2 hs)⟩
  simp only [hsk]
  exact ⟨hcl.1, hcl⟩

theorem body_close_three : ∃ s', calls ⟨chars "he", 5, chars "lloGET", .waiting⟩ [.read 0 3] =
    some (s', [([(0, 104), (1, 101), (2, 108)], 3)]) ∧ ∀ s'', s'.close = some (s'', 0) → s''.stream = chars "GET" := by
  have hca : calls ⟨chars "he", 5, chars "lloGET", .waiting⟩ [.read 0 3] =
      some (⟨[], 2, chars "loGET", .waiting⟩, [([(0, 104), (1, 101), (2, 108)], 3)]) := by decide +kernel
  refine ⟨_, hca, fun s'' hs => ?_⟩
  exact (((body_close _ (by decide +kernel) (by decide +kernel) _ _ _ hca).1.2 (.inl (by decide +kernel))) s'' hs).2

/-- Ten bytes are declared and the stream has two of them. Whether it then ends or fails, the close succeeds. -/
theorem close_short :
    close ⟨[], 10, [1, 2], .closed⟩ = some (⟨[], 10, [], .closed⟩, 0) ∧
    close ⟨[], 10, [1, 2], .failed⟩ = some (⟨[], 10, [], .failed⟩, 0) ∧
    skipRemain (some ⟨[], 10, [1, 2], .closed⟩) = some (some ⟨[], 10, [], .closed⟩, 0) := by
  decide +kernel

end Photon.Http
