import Photon.Net.Headers
/-!
# Receiving a header

`receive_bytes` puts what the socket gives behind what the buffer has, and `append_bytes`
looks for the end of the header. It searches the bytes that came last and three before them.
-/

namespace Photon.Http

open Estring List Option

inductive Verb where
  | UNKNOWN | DELETE | GET | HEAD | POST | PUT | CONNECT | OPTIONS | TRACE | COPY | LOCK | MKCOL | MOV | PROPFIND
  | PROPPATCH | SEARCH | UNLOCK | BIND | REBIND | UNBIND | ACL | REPORT | MKACTIVITY | CHECKOUT | MERGE | MSEARCH
  | NOTIFY | SUBSCRIBE | UNSUBSCRIBE | PATCH | PURGE | MKCALENDAR | LINK | UNLINK
  deriving DecidableEq

def verbs : List (Verb × Bytes) :=
  [(.UNKNOWN, chars "UNKNOWN"), (.DELETE, chars "DELETE"), (.GET, chars "GET"), (.HEAD, chars "HEAD"),
    (.POST, chars "POST"), (.PUT, chars "PUT"), (.CONNECT, chars "CONNECT"), (.OPTIONS, chars "OPTIONS"),
    (.TRACE, chars "TRACE"), (.COPY, chars "COPY"), (.LOCK, chars "LOCK"), (.MKCOL, chars "MKCOL"),
    (.MOV, chars "MOV"), (.PROPFIND, chars "PROPFIND"), (.PROPPATCH, chars "PROPPATCH"), (.SEARCH, chars "SEARCH"),
    (.UNLOCK, chars "UNLOCK"), (.BIND, chars "BIND"), (.REBIND, chars "REBIND"), (.UNBIND, chars "UNBIND"),
    (.ACL, chars "ACL"), (.REPORT, chars "REPORT"), (.MKACTIVITY, chars "MKACTIVITY"), (.CHECKOUT, chars "CHECKOUT"),
    (.MERGE, chars "MERGE"), (.MSEARCH, chars "MSEARCH"), (.NOTIFY, chars "NOTIFY"), (.SUBSCRIBE, chars "SUBSCRIBE"),
    (.UNSUBSCRIBE, chars "UNSUBSCRIBE"), (.PATCH, chars "PATCH"), (.PURGE, chars "PURGE"),
    (.MKCALENDAR, chars "MKCALENDAR"), (.LINK, chars "LINK"), (.UNLINK, chars "UNLINK")]

def verbstr (v : Verb) : Bytes := (verbs.lookup v).getD []

def stringToVerb (s : Bytes) : Verb := ((verbs.find? fun v => v.2 == s).map Prod.fst).getD .UNKNOWN

inductive MessageStatus where
  | INIT
  | HEADER_SENT
  | BODY_SENT
  | HEADER_PARSED
  deriving DecidableEq

def MAX_TRANSFER_BYTES : Nat := 4 * 1024
def RESERVED_INDEX_SIZE : Nat := 1024

structure RequestLine where
  target : RStringView16 := {}
  path : RStringView16 := {}
  query : RStringView16 := {}
  port : Nat := 80
  secure : Bool := false
  deriving DecidableEq

structure StatusLine where
  statusMessage : RStringView16 := {}
  statusCode : Nat := 0
  deriving DecidableEq

inductive StartLine where
  | request (r : RequestLine)
  | response (r : StatusLine)
  deriving DecidableEq

/-- Where `receive_bytes` and `append_bytes` return a negative number. -/
inductive Failure where
  | noBuffer
  | doubleParse
  | peerClosed
  | invalidMethod
  | invalidScheme
  | invalidStatusCode
  | headers
  deriving DecidableEq

/-- 0, 1, 2 and the negative numbers. -/
inductive Received where
  | parsed
  | endOfStream
  | more
  | failed (why : Failure)
  deriving DecidableEq

structure Message where
  /-- They are in the buffer of the message. -/
  headers : HeadersBase
  /-- `m_buf`. -/
  base : Nat
  capacity : Nat
  bufSize : Nat := 0
  body : RStringView16 := {}
  version : RStringView16 := {}
  verb : Verb := .UNKNOWN
  status : MessageStatus := .INIT
  abandon : Bool := false
  startLine : StartLine

namespace Message

def mem (m : Message) : Nat → UInt8 := m.headers.mem

def text (m : Message) : Bytes := readBytes m.mem m.base m.bufSize

/-- `partial_body`; it is empty if `m_body` is not inside of the text. -/
def partialBody (m : Message) : Bytes := if m.text.length < m.body.offset + m.body.length then [] else m.body.on m.text

def parseRequestLine (m : Message) (r : RequestLine) (p : Parser) : Except Failure Parser × Message :=
  let (verbStr, p) := p.extractUntilChar 32
  let m := { m with verb := stringToVerb (readBytes m.mem (m.base + verbStr.offset) verbStr.length) }
  if m.verb = .UNKNOWN then (.error .invalidMethod, m)
  else
    let (target, p) := p.extractUntilChar 32
    let p := p.skipString (chars "HTTP/")
    let (version, p) := p.extractUntilChar CR
    let m := { m with startLine := .request { r with target }, version }
    if version.length ≥ 6 then (.error .invalidScheme, m) else (.ok (p.skipChars LF), m)

def parseStatusLine (m : Message) (r : StatusLine) (p : Parser) : Except Failure Parser × Message :=
  let p := p.skipString (chars "HTTP/")
  let (version, p) := p.extractUntilChar 32
  let m := { m with version }
  if version.length ≥ 6 then (.error .invalidScheme, m)
  else
    let (code, p) := p.extractInteger
    if code = 0 ∨ code ≥ 1000 then (.error .invalidStatusCode, m)
    else
      let p := p.skipChars 32
      let (statusMessage, p) := p.extractUntilChar CR
      (.ok (p.skipChars LF), { m with startLine := .response { r with statusCode := code, statusMessage } })

def parseStartLine (m : Message) (p : Parser) : Except Failure Parser × Message :=
  match m.startLine with
  | .request r => m.parseRequestLine r p
  | .response r => m.parseStatusLine r p

/-- What `append_bytes` does when the header is complete. After a failure of `headers.reset` they are the ones before
it. -/
def parseHeader (m : Message) : Received × Message :=
  match m.parseStartLine ⟨m.text, 0⟩ with
  | (.error why, m) => (.failed why, m)
  | (.ok p, m) =>
    match m.headers.reset (m.base + p.pos) (m.capacity - p.pos) (m.bufSize - p.pos) with
    | none => (.failed .headers, m)
    | some headers =>
      let abandon := headers.getValue (chars "Connection") == chars "close" || headers.getValue (chars "Trailer") != []
      (.parsed, { m with headers, abandon, status := .HEADER_PARSED })

def appendBytes (m : Message) (size : Nat) : Received × Message :=
  if m.status = .HEADER_PARSED then (.failed .doubleParse, m)
  else if m.bufSize + size ≥ m.capacity then (.failed .noBuffer, m)
  else
    let income := m.bufSize
    -- not before the buffer: the subtraction stops at 0
    let left := income - 3
    let m := { m with bufSize := m.bufSize + size }
    let whole := readBytes m.mem (m.base + left) (m.bufSize - left)
    match findSub (CRLF ++ CRLF) whole with
    | none => (.more, m)
    | some pos =>
      let pos := pos + 4 - (income - left)
      parseHeader { m with body := .of (income + pos) (size - pos) }

def fill (m : Message) (got : Bytes) : Message :=
  { m with headers := { m.headers with mem := writeBytes m.mem (m.base + m.bufSize) got } }

def receiveBytes (sock : Socket) (m : Message) (stream : Bytes) : Option (Received × Message × Bytes) :=
  if m.capacity ≤ m.bufSize + (MAX_TRANSFER_BYTES + RESERVED_INDEX_SIZE) then some (.failed .noBuffer, m, stream)
  else
    match sock.recv stream MAX_TRANSFER_BYTES with
    | none => none
    | some got =>
      let m := m.fill got
      let stream := stream.drop got.length
      if m.status = .INIT ∧ got = [] then some (.endOfStream, m, stream)
      else
        let (ret, m) := m.appendBytes got.length
        if ret ≠ .parsed ∧ got = [] then some (.failed .peerClosed, m, stream) else some (ret, m, stream)

def receiveLoop (sock : Socket) : Nat → Message → Bytes → Option (Received × Message × Bytes)
  | 0, _, _ => none
  | fuel + 1, m, stream =>
    match receiveBytes sock m stream with
    | none => none
    | some (ret, m, stream) => if ret = .more then receiveLoop sock fuel m stream else some (ret, m, stream)

end Message

/-! ## What parsing keeps -/

variable {h h' : HeadersBase} {p : Parser}

lemma HeadersBase.parseLoop_mem {fuel : Nat} (hlo : parseLoop fuel h p = some h') : h'.mem = h.mem := by
  induction fuel generalizing h p with
  | zero => cases hlo
  | succ fuel ih =>
    rw [parseLoop] at hlo
    split at hlo
    · cases hlo
      rfl
    dsimp only at hlo
    split at hlo
    · cases hlo
    rename_i h1 ha
    rw [kvAdd] at ha
    split at ha <;> cases ha
    have hm := ih hlo
    exact hm

lemma HeadersBase.reset_mem {buf cap size : Nat} (hr : h.reset buf cap size = some h') :
    h'.mem = h.mem := by
  unfold reset at hr
  dsimp only at hr
  split at hr
  · cases hr
    rfl
  · obtain ⟨h1, hlo, rfl⟩ := map_eq_some_iff.1 hr
    have hm := parseLoop_mem hlo
    exact hm

/-- The end of the header has been found. What is before it may be wrong. -/
inductive Received.Found : Received → Prop where
  | parsed : Found .parsed
  | startLine {why : Failure} (h : why = .invalidMethod ∨ why = .invalidScheme ∨ why = .invalidStatusCode) :
    Found (.failed why)
  | headers : Found (.failed .headers)

lemma Received.Found.ne_more {ret : Received} (h : ret.Found) : ret ≠ .more := by
  rintro rfl
  cases h

namespace Message

structure Kept (m m' : Message) : Prop where
  mem : m'.mem = m.mem
  base : m'.base = m.base
  bufSize : m'.bufSize = m.bufSize
  body : m'.body = m.body

variable {m m' : Message} {e : Nat} {stream : Bytes}

lemma Kept.text (h : Kept m m') : m'.text = m.text := by
  rw [Message.text, h.mem, h.base, h.bufSize]
  rfl

lemma Kept.partialBody (h : Kept m m') : m'.partialBody = m.partialBody := by
  rw [Message.partialBody, h.body, h.text]
  rfl

lemma parseStartLine_kept (m : Message) (p : Parser) : Kept m (m.parseStartLine p).2 := by
  unfold parseStartLine
  split
  · unfold parseRequestLine
    dsimp only
    split
    · exact ⟨rfl, rfl, rfl, rfl⟩
    · split <;> exact ⟨rfl, rfl, rfl, rfl⟩
  · unfold parseStatusLine
    dsimp only
    split
    · exact ⟨rfl, rfl, rfl, rfl⟩
    · split <;> exact ⟨rfl, rfl, rfl, rfl⟩

lemma parseHeader_kept (m : Message) : Kept m m.parseHeader.2 := by
  have hst := m.parseStartLine_kept ⟨m.text, 0⟩
  unfold parseHeader
  split
  next why m1 he =>
    rw [he] at hst
    exact hst
  rename_i p m1 he
  rw [he] at hst
  split
  · exact hst
  next headers hr => exact ⟨(HeadersBase.reset_mem hr).trans hst.mem, hst.base, hst.bufSize, hst.body⟩

lemma parseStartLine_error {why : Failure} (h : m.parseStartLine p = (.error why, m')) :
    why = .invalidMethod ∨ why = .invalidScheme ∨ why = .invalidStatusCode := by
  unfold parseStartLine at h
  split at h
  · unfold parseRequestLine at h
    dsimp only at h
    split at h
    · cases h
      exact .inl rfl
    · split at h <;> cases h
      exact .inr (.inl rfl)
  · unfold parseStatusLine at h
    dsimp only at h
    split at h
    · cases h
      exact .inr (.inl rfl)
    · split at h <;> cases h
      exact .inr (.inr rfl)

/-! ## One receive -/

def filled (m : Message) (got : Bytes) : Message := { m.fill got with bufSize := m.bufSize + got.length }

/-- The partial body begins behind the end of the header, which is at `e`. -/
def withBody (m : Message) (e : Nat) : Message := { m with body := .of (e + 4) (m.bufSize - (e + 4)) }

lemma text_length (m : Message) : m.text.length = m.bufSize := readBytes_length m.mem ..

lemma filled_text (m : Message) (got : Bytes) : (m.filled got).text = m.text ++ got := by
  have ho : readBytes (m.filled got).mem m.base m.bufSize = m.text :=
    readBytes_writeBytes_of_disjoint m.mem (.inl le_rfl)
  have hn : readBytes (m.filled got).mem (m.base + m.bufSize) got.length = got := readBytes_writeBytes m.mem _ got
  calc (m.filled got).text
    _ = readBytes (m.filled got).mem m.base (m.bufSize + got.length) := rfl
    _ = m.text ++ got := by rw [readBytes_add, ho, hn]

/-- The search of the last bytes and three before them finds what a search of all bytes would find. -/
lemma appendBytes_eq (m : Message) (got : Bytes) (hst : m.status ≠ .HEADER_PARSED)
    (hr : m.bufSize + got.length < m.capacity) (hn : findSub (CRLF ++ CRLF) m.text = none) :
    (findSub (CRLF ++ CRLF) (m.text ++ got) = none ∧ (m.fill got).appendBytes got.length = (.more, m.filled got)) ∨
      ∃ e, findSub (CRLF ++ CRLF) (m.text ++ got) = some e ∧ (m.fill got).appendBytes got.length =
        parseHeader ((m.filled got).withBody e) := by
  have hlen := m.text_length
  have hw : readBytes (m.filled got).mem (m.base + (m.bufSize - 3)) (m.bufSize + got.length - (m.bufSize - 3)) =
      (m.text ++ got).drop (m.bufSize - 3) := by
    rw [← filled_text]
    exact (readBytes_drop _ _ (by omega)).symm
  have hpa : (CRLF ++ CRLF).length = 4 := rfl
  have hd : findSub (CRLF ++ CRLF) (m.text ++ got) =
      (findSub (CRLF ++ CRLF) ((m.text ++ got).drop (m.bufSize - 3))).map (m.bufSize - 3 + ·) :=
    findSub_drop hn (by omega)
  have hs' : (m.fill got).status ≠ .HEADER_PARSED := hst
  have hr' : ¬ (m.fill got).bufSize + got.length ≥ (m.fill got).capacity := not_le.2 hr
  rw [appendBytes, if_neg hs', if_neg hr', hd, ← hw]
  dsimp only
  split
  next hf => exact .inl ⟨congrArg _ hf, rfl⟩
  rename_i pos hf
  refine .inr ⟨m.bufSize - 3 + pos, congrArg _ hf, ?_⟩
  have hbe : m.bufSize + (pos + 4 - (m.bufSize - (m.bufSize - 3))) = m.bufSize - 3 + pos + 4 := by omega
  have hsi : got.length - (pos + 4 - (m.bufSize - (m.bufSize - 3))) =
      m.bufSize + got.length - (m.bufSize - 3 + pos + 4) := by omega
  exact congrArg (fun body => parseHeader { m.filled got with body }) (congrArg₂ RStringView16.of hbe hsi)

lemma found_partialBody (hsm : m.bufSize < 2 ^ 16) (he : e + 4 ≤ m.bufSize) :
    (m.withBody e).partialBody = m.text.drop (e + 4) := by
  have hlen := m.text_length
  have hin : ¬ m.text.length < e + 4 + (m.bufSize - (e + 4)) := by omega
  have hv := RStringView16.of_eq (show e + 4 < 2 ^ 16 by omega) (show m.bufSize - (e + 4) < 2 ^ 16 by omega)
  have hbo : (m.withBody e).body = ⟨e + 4, m.bufSize - (e + 4)⟩ := hv
  rw [partialBody, hbo]
  refine (if_neg hin).trans ?_
  rw [← hv]
  refine RStringView16.of_on (m.text.take (e + 4)) [] ?_ ?_ ?_ ?_
  · rw [append_nil]
    exact (take_append_drop ..).symm
  · exact lt_of_le_of_lt (le_of_eq hlen) hsm
  · rw [length_take]
    omega
  · rw [length_drop]
    omega

lemma recv_spec (sock : Socket) (hne : stream ≠ []) (cap : Nat) (hca : 0 < cap) :
    ∃ got rest, sock.recv stream cap = some got ∧ stream = got ++ rest ∧ got ≠ [] ∧ got.length ≤ cap := by
  have hpo := sock.recvSize_pos stream.length cap (length_pos_iff.2 hne) hca
  have hle := sock.recvSize_le stream.length cap
  refine ⟨_, stream.drop (sock.recvSize stream.length cap), by rw [Socket.recv, if_neg hne], ?_, ?_, ?_⟩
  · exact (take_append_drop ..).symm
  · intro hn
    have := congrArg length hn
    rw [length_take, length_nil] at this
    omega
  · rw [length_take]
    omega

/-- What the loop has when it returns: no room, or the end of the header `e` bytes into all that is received. -/
def Outcome (all : Bytes) (e : Nat) (r : Received × Message × Bytes) : Prop := r.1 = .failed .noBuffer ∨
    r.1.Found ∧ r.2.1.body.offset = e + 4 ∧ r.2.1.partialBody ++ r.2.2 = all.drop (e + 4)

lemma parseHeader_found (m : Message) : m.parseHeader.1.Found := by
  unfold parseHeader
  split
  next why m1 he => exact .startLine (parseStartLine_error he)
  · split
    · exact .headers
    · exact .parsed

lemma receiveBytes_eq {sock : Socket} {got : Bytes}
    (hro : ¬ m.capacity ≤ m.bufSize + (MAX_TRANSFER_BYTES + RESERVED_INDEX_SIZE))
    (hr : sock.recv stream MAX_TRANSFER_BYTES = some got) (hn : got ≠ []) :
    receiveBytes sock m stream =
      some (((m.fill got).appendBytes got.length).1, ((m.fill got).appendBytes got.length).2,
        stream.drop got.length) := by
  rw [receiveBytes, if_neg hro, hr]
  dsimp only
  rw [if_neg fun h => hn h.2, if_neg fun h => hn h.2]

lemma parseHeader_outcome {got rest all : Bytes} (hsm : m.bufSize + got.length < 2 ^ 16)
    (hso : findSub (CRLF ++ CRLF) (m.text ++ got) = some e) (ha : m.text ++ got ++ rest = all) :
    (parseHeader ((m.filled got).withBody e)).1.Found ∧ Outcome all e ((parseHeader ((m.filled got).withBody e)).1,
        (parseHeader ((m.filled got).withBody e)).2, rest) := by
  have hle : (m.text ++ got).length = m.bufSize + got.length := by rw [length_append, text_length]
  have hin : e + 4 ≤ m.bufSize + got.length := hle ▸ findSub_add_length_le hso (cons_ne_nil _ _)
  have hf := parseHeader_found ((m.filled got).withBody e)
  have hk := parseHeader_kept ((m.filled got).withBody e)
  have hbo := found_partialBody (m := m.filled got) hsm hin
  refine ⟨hf, .inr ⟨hf, ?_, ?_⟩⟩
  · dsimp only
    rw [hk.body]
    exact Nat.mod_eq_of_lt (by omega)
  dsimp only
  rw [hk.partialBody, ← ha, ← filled_text]
  refine (congrArg (· ++ rest) hbo).trans ?_
  refine (drop_append_of_le_length ?_).symm
  rw [filled_text, hle]
  exact hin

/-- As long as the end of the header is not in the text, the loop goes on, and it arrives there. -/
lemma receiveLoop_outcome (sock : Socket) {all : Bytes} (he : findSub (CRLF ++ CRLF) all = some e) (fuel : Nat)
    (ha : m.text ++ stream = all) (hn : findSub (CRLF ++ CRLF) m.text = none)
    (hst : m.status ≠ .HEADER_PARSED) (hca : m.capacity < 2 ^ 16) (hf : stream.length < fuel) :
    ∃ r, receiveLoop sock fuel m stream = some r ∧ Outcome all e r := by
  induction fuel generalizing m stream with
  | zero => cases hf
  | succ fuel ih =>
    rw [receiveLoop]
    by_cases hro : m.capacity ≤ m.bufSize + (MAX_TRANSFER_BYTES + RESERVED_INDEX_SIZE)
    · rw [receiveBytes, if_pos hro]
      dsimp only
      rw [if_neg (by decide)]
      exact ⟨_, rfl, .inl rfl⟩
    have hne : stream ≠ [] := by
      rintro rfl
      rw [← ha, append_nil, hn] at he
      cases he
    obtain ⟨got, rest, hr, rfl, hg, hle⟩ := recv_spec sock hne MAX_TRANSFER_BYTES (by decide)
    have hfi : m.bufSize + got.length < m.capacity := by
      unfold MAX_TRANSFER_BYTES at *
      omega
    rw [receiveBytes_eq hro hr hg, drop_left]
    dsimp only
    rw [← append_assoc] at ha
    rcases m.appendBytes_eq got hst hfi hn with ⟨hno, hap⟩ | ⟨e', hso, hap⟩
    · rw [hap]
      dsimp only
      rw [if_pos rfl]
      refine ih ?_ ?_ hst hca ?_
      · rw [filled_text, ha]
      · rw [filled_text, hno]
      · rw [length_append] at hf
        have := length_pos_iff.2 hg
        omega
    · -- the first place in what has been received is the first of all
      obtain rfl : e' = e := by
        have := findSub_append_right hso (cons_ne_nil _ _) rest
        rw [ha, he] at this
        exact (some.inj this).symm
      obtain ⟨hfo, ho⟩ := parseHeader_outcome (lt_trans hfi hca) hso ha
      rw [hap, if_neg hfo.ne_more]
      exact ⟨_, rfl, ho⟩

end Message

open Message

/-- However the bytes are cut into receives: unless there is no room for them, the header is found to end at the first
empty line, and the partial body with what has not been received is all that comes after it. -/
theorem header_end (sock : Socket) (m : Message) (stream : Bytes) (hin : CRLF ++ CRLF <:+: stream)
    (hfresh : m.bufSize = 0)
    (hstatus : m.status ≠ .HEADER_PARSED) (hcap : m.capacity < 2 ^ 16) :
    ∃ e ret m' rest, findSub (CRLF ++ CRLF) stream = some e ∧
      receiveLoop sock (stream.length + 1) m stream = some (ret, m', rest) ∧
      (ret = .failed .noBuffer ∨ ret.Found ∧ m'.body.offset = e + 4 ∧
        m'.partialBody ++ rest = stream.drop (e + 4)) := by
  obtain ⟨e, he⟩ : ∃ e, findSub (CRLF ++ CRLF) stream = some e := by
    obtain ⟨pre, post, rfl⟩ := hin
    cases hf : findSub (CRLF ++ CRLF) (pre ++ (CRLF ++ CRLF) ++ post) with
    | some e => exact ⟨e, rfl⟩
    | none =>
      refine absurd ?_ (findSub_eq_none_iff.1 hf pre.length)
      rw [append_assoc, drop_left]
      exact prefix_append ..
  have ht : m.text = [] := length_eq_zero_iff.1 (m.text_length.trans hfresh)
  have ha : m.text ++ stream = stream := by rw [ht, nil_append]
  have hn : findSub (CRLF ++ CRLF) m.text = none := by rw [ht]; rfl
  obtain ⟨⟨ret, m', rest⟩, hlo, ho⟩ :=
    receiveLoop_outcome sock he (stream.length + 1) ha hn hstatus hcap (Nat.lt_succ_self _)
  exact ⟨e, ret, m', rest, he, hlo, ho⟩

/-- At most eight bytes with each receive. -/
def Socket.byEight : Socket where
  recvSize n cap := min n (min cap 8)
  recvSize_pos n cap hn hc := by omega
  recvSize_le n cap := by omega
  closed := true

def requestBytes : Bytes := chars "GET /a HTTP/1.1\r\nA: b\r\n\r\nxyz"

def emptyRequest : Message where
  headers := { mem := fun _ => 0, base := 0, capacity := 0 }
  base := 0
  capacity := 6000
  startLine := .request {}

/-- The last byte of the empty line comes with the fourth receive. -/
theorem header_end_split : ∃ m' rest, receiveLoop .byEight 29 emptyRequest requestBytes = some (.parsed, m', rest) ∧
    m'.body.offset = 25 ∧ m'.partialBody ++ rest = chars "xyz" := by
  obtain ⟨e, ret, m', rest, he, hlo, ho⟩ := header_end .byEight emptyRequest requestBytes
    ⟨chars "GET /a HTTP/1.1\r\nA: b", chars "xyz", by decide +kernel⟩ rfl (by decide) (by decide)
  have hle : requestBytes.length + 1 = 29 := by decide +kernel
  have hr : (receiveLoop .byEight 29 emptyRequest requestBytes).map Prod.fst = some .parsed := by decide +kernel
  rw [hle] at hlo
  rw [hlo] at hr
  obtain rfl : ret = .parsed := some.inj hr
  obtain rfl : e = 21 := by
    have : findSub (CRLF ++ CRLF) requestBytes = some 21 := by decide +kernel
    exact some.inj (he.symm.trans this)
  obtain ⟨-, hbo, hre⟩ := ho.resolve_left (by decide)
  exact ⟨m', rest, hlo, hbo, hre.trans (by decide +kernel)⟩

end Photon.Http
