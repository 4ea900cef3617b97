import Photon.Net.HeaderLayout
import Photon.Net.Message
import Photon.Net.Url
/-!
# Request::redirect

A request has its request line and behind it the headers, in one buffer. `redirect` writes
another request line, of another length, and another value of `Host`, and moves the other
headers.
-/

namespace Photon.Http

open Estring List Option

def urlScheme (secure : Bool) : Bytes := if secure then chars "https://" else chars "http://"

def fullUrlSize (u : URL) : Nat := u.targetText.length + u.hostPortText.length + (urlScheme u.secure).length

def requestLine (v : Verb) (secure : Bool) (hostPort target : Bytes) (enableProxy : Bool) : Bytes :=
  verbstr v ++ (chars " " ++
    ((if enableProxy then urlScheme secure ++ hostPort else []) ++ (target ++ chars " HTTP/1.1\r\n")))

namespace Message

/-- `make_request_line`. The query is always in the text of the URL; `apart` is how far that is from a copy of the
target. -/
def makeRequestLine (m : Message) (apart : Int) (v : Verb) (u : URL) (enableProxy : Bool) : Message :=
  let line := requestLine v u.secure u.hostPortText u.targetText enableProxy
  let disp : Nat := (verbstr v).length + 1
  let apart := if u.tmpTarget = none then 0 else apart
  { m with
    headers := { m.headers with mem := writeBytes m.mem m.base line }
    bufSize := line.length % 2 ^ 16
    verb := v
    startLine := .request
      { target := .of disp (if enableProxy then fullUrlSize u else u.targetText.length)
        path := .of (u16 (u.path.offset - u.target.offset + disp)) u.path.length
        query := .of (u16 (u.query.offset + apart - u.target.offset + disp)) u.query.length
        port := u.port
        secure := u.secure } }

/-- `Request::reset`; `none` when `from_string` is undefined, `some none` is -1. Whether the host is inserted is not
looked at. -/
def resetRequest (m : Message) (apart : Int) (v : Verb) (url : Bytes) (enableProxy : Bool) : Option (Option Message) :=
  match ({} : URL).fromString url with
  | none => none
  | some (_, u) =>
    if m.capacity ≤ u.targetText.length + 21 + (verbstr v).length then some none
    else
      let m := { m with bufSize := 0, status := .INIT }
      let m := m.makeRequestLine apart v u enableProxy
      match m.headers.reset (m.base + m.bufSize) (u16 (m.capacity - m.bufSize)) 0 with
      | none => some none
      | some headers =>
        some (some { m with headers := (headers.insert (chars "Host") u.hostPortText).toOption.getD headers })

def host (m : Message) : Bytes := m.headers.getValue (chars "Host")

def secure (m : Message) : Bool :=
  match m.startLine with
  | .request r => r.secure
  | .response _ => false

/-- `redirect`; `none` when it is undefined, `some none` is -1. What `from_string` returns is not looked at. -/
def redirect (m : Message) (apart : Int) (v : Verb) (location : Bytes) (enableProxy : Bool) : Option (Option Message) :=
  let location := if urlScheme false <+: location ∨ urlScheme true <+: location then location
    else urlScheme m.secure ++ (m.host ++ location)
  match ({} : URL).fromString location with
  | none => none
  | some (_, u) =>
    let newSize := (verbstr v).length + 12 + (if enableProxy then fullUrlSize u else u.targetText.length)
    match m.headers.resetHost (newSize - m.bufSize) u.hostPortText with
    | none => none
    | some none => some none
    | some (some headers) =>
      some (some (makeRequestLine { m with headers, bufSize := newSize % 2 ^ 16 } apart v u enableProxy))

/-- The request line and the headers: what `send_header` sends, without the empty line. -/
def whole (m : Message) : Bytes := readBytes m.mem m.base (m.bufSize + m.headers.bufSize)

/-- A request: made by `reset` in a buffer that is large enough, then changed by `insert` and `redirect`. -/
inductive IsRequest : Message → Prop where
  | reset {m m' : Message} {apart : Int} {v : Verb} {url : Bytes} {enableProxy : Bool} (hsmall : m.capacity < 2 ^ 16)
      (hreset : m.resetRequest apart v url enableProxy = some (some m')) (hline : m'.bufSize ≤ m'.capacity)
      (hhost : m'.headers.kvs ≠ []) : IsRequest m'
  | insert {m : Message} {h : HeadersBase} {key value : Bytes} {dup : Bool} (hm : IsRequest m)
      (hinsert : m.headers.insert key value dup = .ok h) : IsRequest { m with headers := h }
  | redirect {m m' : Message} {apart : Int} {v : Verb} {location : Bytes} {enableProxy : Bool} (hm : IsRequest m)
      (hredirect : m.redirect apart v location enableProxy = some (some m')) : IsRequest m'

/-- The headers are behind the request line, and have the rest of the buffer. -/
structure Laid (m : Message) (host : Bytes) (others : List (Bytes × Bytes)) : Prop where
  base : m.headers.base = m.base + m.bufSize
  capacity : m.headers.capacity + m.bufSize = m.capacity
  small : m.capacity < 2 ^ 16
  headers : m.headers.Laid (HeadersBase.hostHeader host :: others)

end Message

open HeadersBase Message

/-! ## The request line -/

lemma requestLine_length (v : Verb) (u : URL) (enableProxy : Bool) :
    (requestLine v u.secure u.hostPortText u.targetText enableProxy).length =
      (verbstr v).length + 12 + if enableProxy then fullUrlSize u else u.targetText.length := by
  have hsp : (chars " ").length = 1 := by decide +kernel
  have he : (chars " HTTP/1.1\r\n").length = 11 := by decide +kernel
  unfold requestLine fullUrlSize
  simp only [length_append]
  cases enableProxy with
  | false =>
    simp only [Bool.false_eq_true, if_false, length_nil]
    omega
  | true =>
    simp only [if_true, length_append]
    omega

variable {m m' : Message} {line : Bytes} {enableProxy : Bool} {h : HeadersBase}

lemma makeRequestLine_whole {es : List (Bytes × Bytes)} (hl : m.headers.Laid es) (apart : Int) (v : Verb)
    (u : URL) (enableProxy : Bool) (hli : line = requestLine v u.secure u.hostPortText u.targetText enableProxy)
    (hba : m.headers.base = m.base + line.length)
    (hsm : line.length < 2 ^ 16) (hm : m' = m.makeRequestLine apart v u enableProxy) : m'.headers.Laid es ∧
    m'.headers.pairs = m.headers.pairs ∧ m'.bufSize = line.length ∧ m'.whole = line ++ headerText es := by
  obtain ⟨hla, hpa⟩ := hl.write (le_of_eq hba.symm)
  have hsi : m'.bufSize = line.length := by
    rw [hm, makeRequestLine, ← hli]
    exact Nat.mod_eq_of_lt hsm
  subst hli hm
  refine ⟨hla, hpa, hsi, ?_⟩
  rw [whole, hsi, readBytes_add]
  have hh : readBytes (m.makeRequestLine apart v u enableProxy).mem m.headers.base m.headers.bufSize = headerText es :=
    hla.text
  rw [hba] at hh
  exact congrArg₂ _ (readBytes_writeBytes ..) hh

/-! ## One redirect -/

lemma redirect_step {host : Bytes} {others : List (Bytes × Bytes)} (hm : m.Laid host others)
    (apart : Int) {v : Verb} {location : Bytes} {ok : Bool} {u : URL}
    (hu : ({} : URL).fromString (if urlScheme false <+: location ∨ urlScheme true <+: location then location
      else urlScheme m.secure ++ (m.host ++ location)) = some (ok, u))
    (hli : line = requestLine v u.secure u.hostPortText u.targetText enableProxy) :
    (m.capacity < line.length + (headerText (hostHeader u.hostPortText :: others)).length +
      kvBytes * (others.length + 1) ∧
      m.redirect apart v location enableProxy = some none) ∨
    ∃ m' a b, m.redirect apart v location enableProxy = some (some m') ∧ m'.Laid u.hostPortText others ∧
      m'.whole = line ++ headerText (hostHeader u.hostPortText :: others) ∧
      m.headers.pairs = a ++ hostHeader host :: b ∧ m'.headers.pairs = a ++ hostHeader u.hostPortText :: b := by
  have hle : line.length = (verbstr v).length + 12 + if enableProxy then fullUrlSize u else u.targetText.length := by
    rw [hli, requestLine_length]
  have hmb := hm.base
  have hmc := hm.capacity
  have hms := hm.small
  have hba : m.headers.base + (line.length - m.bufSize : Int) = (m.base + line.length : Nat) := by omega
  rw [redirect]
  dsimp only
  rw [hu]
  dsimp only
  rw [← hle]
  rcases resetHost_laid hm.headers hba (by omega) u.hostPortText rfl with
    ⟨hf, hr⟩ | ⟨hro, h', a, b, hr, hl, hb, hc, hpa, hp'⟩
  · rw [hr]
    refine .inl ⟨?_, rfl⟩
    unfold kvBytes at *
    omega
  · rw [hr]
    have hsm : line.length < 2 ^ 16 := by
      unfold kvBytes at *
      omega
    obtain ⟨hl', hp'', hsi, hw⟩ := makeRequestLine_whole
      (m := { m with headers := h', bufSize := line.length % 2 ^ 16 })
      hl apart v u enableProxy hli hb hsm rfl
    refine .inr ⟨_, a, b, rfl, ⟨?_, ?_, hms, hl'⟩, hw, hpa, hp''.trans hp'⟩
    · rw [hsi]
      exact hb
    · rw [hsi]
      show h'.capacity + line.length = m.capacity
      omega

/-! ## All requests -/

lemma insert_keeps {h' : HeadersBase} {k v : Bytes} {dup : Bool} (hi : h.insert k v dup = .ok h') :
    h'.base = h.base ∧ h'.capacity = h.capacity := by
  obtain ⟨-, i, kvs, -, -, rfl⟩ := insert_cases hi
  exact ⟨rfl, rfl⟩

lemma laid_nil (hsi : h.bufSize = 0) (hk : h.kvs = []) (hsm : h.capacity < 2 ^ 16) : h.Laid [] where
  text := length_eq_zero_iff.1 (h.text_length.trans hsi)
  index := by
    rw [hk]
    exact Perm.nil
  room := by
    rw [hsi, hk]
    exact Nat.zero_le _
  small := hsm

lemma resetRequest_laid {m' : Message} {apart : Int} {v : Verb} {url : Bytes} (hsm : m.capacity < 2 ^ 16)
    (hr : m.resetRequest apart v url enableProxy = some (some m')) (hli : m'.bufSize ≤ m'.capacity)
    (hho : m'.headers.kvs ≠ []) : ∃ host, m'.Laid host [] := by
  unfold resetRequest at hr
  split at hr
  · cases hr
  rename_i ok u hu
  split at hr
  · cases hr
  dsimp only at hr
  rw [HeadersBase.reset, if_pos rfl] at hr
  dsimp only at hr
  obtain ⟨m1, hm1⟩ : ∃ m1 : Message, m1 =
    makeRequestLine { m with bufSize := 0, status := .INIT } apart v u enableProxy := ⟨_, rfl⟩
  have hc1 : m1.capacity = m.capacity := by rw [hm1]; rfl
  rw [← hm1] at hr
  obtain ⟨h, hh⟩ : ∃ h : HeadersBase, h = { m1.headers with
      base := m1.base + m1.bufSize, capacity := u16 (m1.capacity - m1.bufSize), bufSize := 0,
      kvs := [], lastKv := 0 } := ⟨_, rfl⟩
  rw [← hh] at hr
  cases hi : h.insert (chars "Host") u.hostPortText with rw [hi] at hr
  | error =>
    cases hr
    rw [hh] at hho
    exact absurd rfl hho
  | ok h' =>
    cases hr
    have hl' : m1.bufSize ≤ m1.capacity := hli
    obtain ⟨hba, hca⟩ := insert_keeps hi
    have hu16 : u16 (m1.capacity - m1.bufSize) = m1.capacity - m1.bufSize := u16_eq (by omega) (by omega)
    have hc' : h.capacity = m1.capacity - m1.bufSize := by rw [hh]; exact hu16
    have hn : h.Laid [] := laid_nil (by rw [hh]) (by rw [hh]) (by omega)
    refine ⟨u.hostPortText, ?_, ?_, ?_, insert_laid hn hi⟩
    · show h'.base = m1.base + m1.bufSize
      rw [hba, hh]
    · show h'.capacity + m1.bufSize = m1.capacity
      omega
    · show m1.capacity < 2 ^ 16
      omega

lemma Message.IsRequest.laid (hm : IsRequest m) : ∃ host others, m.Laid host others := by
  induction hm with
  | reset hsm hre hli hh =>
    obtain ⟨host, hl⟩ := resetRequest_laid hsm hre hli hh
    exact ⟨host, [], hl⟩
  | insert hm hi ih =>
    obtain ⟨host, others, hl⟩ := ih
    obtain ⟨hba, hca⟩ := insert_keeps hi
    have hnew := insert_laid hl.headers hi
    rw [cons_append] at hnew
    exact ⟨host, _, hba.trans hl.base, (congrArg (· + _) hca).trans hl.capacity, hl.small, hnew⟩
  | @redirect m m' apart v location enableProxy hm hr ih =>
    obtain ⟨host, others, hl⟩ := ih
    cases hu : ({} : URL).fromString (if urlScheme false <+: location ∨ urlScheme true <+: location then location
        else urlScheme m.secure ++ (m.host ++ location)) with
    | none =>
      rw [Message.redirect] at hr
      dsimp only at hr
      rw [hu] at hr
      cases hr
    | some p =>
      obtain ⟨ok, u⟩ := p
      rcases redirect_step hl apart hu rfl with ⟨-, hn⟩ | ⟨m1, a, b, hso, hl1, -⟩
      · rw [hn] at hr
        cases hr
      · rw [hso] at hr
        cases hr
        exact ⟨_, others, hl1⟩

/-! ## The text of the buffer -/

/-- The redirect succeeds: the buffer has the new request line, the new host and the other headers as they were, and so
has the index. -/
def Redirected (m : Message) (apart : Int) (v : Verb) (p : Parts) (enableProxy : Bool) (host : Bytes)
    (others : List (Bytes × Bytes)) : Prop :=
  ∃ m' a b, m.redirect apart v p.text enableProxy = some (some m') ∧
    m'.whole = requestLine v p.secure p.hostPort p.target enableProxy ++ headerText (hostHeader p.hostPort :: others) ∧
    m.headers.pairs = a ++ hostHeader host :: b ∧ m'.headers.pairs = a ++ hostHeader p.hostPort :: b ∧
    m'.headers.find = m.headers.find

/-- What `redirect` uses of a URL is that of `p`. -/
def Taken (location : Bytes) (p : Parts) (enableProxy : Bool) : Prop :=
  ∃ ok u, ({} : URL).fromString location = some (ok, u) ∧ u.hostPortText = p.hostPort ∧ u.targetText = p.target ∧
    (enableProxy = true → u.secure = p.secure)

lemma urlScheme_append_inj {s1 s2 : Bool} {x y : Bytes} (h : urlScheme s1 ++ x = urlScheme s2 ++ y) :
    s1 = s2 ∧ x = y := by
  have hf : urlScheme false = [104, 116, 116, 112, 58, 47, 47] := by decide +kernel
  have ht : urlScheme true = [104, 116, 116, 112, 115, 58, 47, 47] := by decide +kernel
  cases s1 <;> cases s2 <;> simp [hf, ht] at h <;> exact ⟨rfl, h⟩

lemma requestLine_inj {v : Verb} {s1 s2 : Bool} {hostPort t1 t2 : Bytes}
    (h : requestLine v s1 hostPort t1 enableProxy = requestLine v s2 hostPort t2 enableProxy) :
    t1 = t2 ∧ (enableProxy = true → s1 = s2) := by
  have h := append_cancel_left (append_cancel_left h)
  cases enableProxy with
  | false => exact ⟨append_cancel_right h, fun he => by cases he⟩
  | true =>
    rw [if_pos rfl, if_pos rfl, append_assoc, append_assoc] at h
    obtain ⟨hs, h⟩ := urlScheme_append_inj h
    exact ⟨append_cancel_right (append_cancel_left h), fun _ => hs⟩

/-- The one entry that is replaced is that of the host. -/
lemma hostHeader_inj {host x y : Bytes} {a b a' b' : List (Bytes × Bytes)}
    (h : a ++ hostHeader host :: b = a' ++ hostHeader host :: b')
    (h' : a ++ hostHeader x :: b = a' ++ hostHeader y :: b') : x = y := by
  have hp : (a ++ b).Perm (a' ++ b') :=
    (perm_cons (hostHeader host)).1 (perm_middle.symm.trans ((Perm.of_eq h).trans perm_middle))
  have hp' : (hostHeader x :: (a ++ b)).Perm (hostHeader y :: (a ++ b)) :=
    (perm_middle.symm.trans ((Perm.of_eq h').trans perm_middle)).trans (hp.symm.cons _)
  have he : hostHeader x ::ₘ ((a ++ b : List _) : Multiset _) = hostHeader y ::ₘ ((a ++ b : List _) : Multiset _) :=
    Multiset.coe_eq_coe.2 hp'
  exact congrArg Prod.snd ((Multiset.cons_inj_left _).1 he)

lemma redirected_iff {host : Bytes} {others : List (Bytes × Bytes)} (hl : m.Laid host others) (apart : Int) (v : Verb)
    (p : Parts) (hroom : (requestLine v p.secure p.hostPort p.target enableProxy).length +
      (headerText (hostHeader p.hostPort :: others)).length + kvBytes * (others.length + 1) ≤ m.capacity) :
    Redirected m apart v p enableProxy host others ↔ Taken (if urlScheme false <+: p.text ∨ urlScheme true <+: p.text
      then p.text else urlScheme m.secure ++ (m.host ++ p.text)) p enableProxy := by
  constructor
  · rintro ⟨m', a, b, hr, hw, hpa, hp', -⟩
    rcases hu : ({} : URL).fromString (if urlScheme false <+: p.text ∨ urlScheme true <+: p.text then p.text
      else urlScheme m.secure ++ (m.host ++ p.text)) with _ | ⟨ok, u⟩
    · rw [redirect] at hr
      dsimp only at hr
      rw [hu] at hr
      cases hr
    rcases redirect_step hl apart hu rfl with ⟨-, hn⟩ | ⟨m1, a1, b1, hso, -, hw1, hpa1, hp1⟩
    · rw [hn] at hr
      cases hr
    rw [hso] at hr
    cases hr
    have hh : p.hostPort = u.hostPortText := hostHeader_inj (hpa.symm.trans hpa1) (hp'.symm.trans hp1)
    rw [hw, hh] at hw1
    obtain ⟨ht, hs⟩ := requestLine_inj (append_cancel_right hw1)
    exact ⟨ok, u, hu, hh.symm, ht.symm, fun he => (hs he).symm⟩
  · rintro ⟨ok, u, hu, hh, ht, hs⟩
    have hli : requestLine v p.secure p.hostPort p.target enableProxy =
        requestLine v u.secure u.hostPortText u.targetText enableProxy := by
      rw [hh, ht]
      cases enableProxy with
      | false => rfl
      | true => rw [hs rfl]
    have hst := redirect_step hl apart hu hli
    rw [hh] at hst
    rcases hst with ⟨hf, -⟩ | ⟨m', a, b, hso, -, hw, hpa, hp'⟩
    · exact absurd hroom (not_le.2 hf)
    · refine ⟨m', a, b, hso, hw, hpa, hp', find_congr ?_⟩
      rw [names_eq, names_eq, hpa, hp', map_append, map_append]
      rfl

lemma urlScheme_prefix_iff {p : Parts} {s : Bytes} (hs : p.scheme = some s) :
    urlScheme false <+: p.text ∨ urlScheme true <+: p.text ↔ s = chars "http" ∨ s = chars "https" := by
  have hte : ∃ z, p.text = s ++ (chars "://" ++ z) := by
    rw [Parts.text, hs, elim_some, append_assoc]
    exact ⟨_, rfl⟩
  obtain ⟨z, hte⟩ := hte
  have hfi : findSub (chars "://") p.text = some s.length := by
    rw [hte]
    exact findSub_append (colon_notMem (p.scheme_ok s hs)) (prefix_append ..)
  have hone : ∀ (b : Bool) (t : Bytes), urlScheme b = t ++ chars "://" → 58 ∉ t → (urlScheme b <+: p.text ↔ s = t) := by
    intro b t hb ht
    rw [hb]
    constructor
    · rintro ⟨y, hy⟩
      rw [append_assoc] at hy
      have hft : findSub (chars "://") p.text = some t.length := by
        rw [← hy]
        exact findSub_append ht (prefix_append ..)
      rw [hfi] at hft
      have hta := congrArg (take s.length) (hte.symm.trans hy.symm)
      rwa [take_left, some.inj hft, take_left] at hta
    · rintro rfl
      rw [hte, ← append_assoc]
      exact prefix_append ..
  exact or_congr (hone false (chars "http") (by decide +kernel) (by decide +kernel))
    (hone true (chars "https") (by decide +kernel) (by decide +kernel))

/-- `GET http://a/`. -/
def sampleRequest : Option Message := (emptyRequest.resetRequest 0 .GET (chars "http://a/") false).join

end Photon.Http
