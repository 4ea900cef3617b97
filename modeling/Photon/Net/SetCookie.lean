import Photon.Net.CookieJar
/-!
# Cookies of a response

`get_cookies_from_headers` puts the cookies of the `Set-Cookie` headers of a message into the
table: the name, the value and the attributes behind them. The names `__Secure-` and `__Host-`
are for cookies with certain attributes; the others are taken as they are.
-/

namespace Photon.Http

open Estring HeadersBase List RStringView16 Nat

/-! ## Parsing -/

def Parser.skipSpaces (p : Parser) : Parser :=
  if p.rest.head?.any fun c => decide (c = 32 ∨ (9 ≤ c ∧ c ≤ 13)) then { p with pos := p.pos + 1 } else p

open Http.Parser

/-- The time, and what `strptime` with the format of the dates and `mktime` make of a text. -/
structure Calendar where
  time : Nat
  strptime : Bytes → Option Nat

structure Attributes where
  httpOnly : Bool := false
  partitioned : Bool := false
  secure : Bool := false
  sameSite : UInt8 := 0
  expire : Nat := 2 ^ 64 - 1
  path : Bytes := []
  domain : Bytes := []

def Attributes.add (cal : Calendar) (a : Attributes) (attr text : Bytes) : Attributes :=
  let (k2, ap) := extractUntilChar ⟨attr, 0⟩ 61
  let (v2, _) := ap.extractUntilChar 0
  let key := k2.on attr
  let value := v2.on attr
  if key = chars "Max-Age" then
    if toUint64 value ≠ 0 then { a with expire := (cal.time + toUint64 value) % 2 ^ 64 } else a
  else if key = chars "Expires" then
    -- the text is not cut off behind the value
    match cal.strptime (text.drop v2.offset) with
    | none => a
    | some t => { a with expire := t }
  else if key = chars "SameSite" ∧ value ≠ [] then { a with sameSite := value.headD 0 }
  else if key = chars "Path" then { a with path := value }
  else if key = chars "Domain" then { a with domain := value }
  else if key = chars "Secure" then { a with secure := true }
  else if key = chars "HttpOnly" then { a with httpOnly := true }
  else if key = chars "Partitioned" then { a with partitioned := true }
  else a

def attributes (cal : Calendar) : Nat → Parser → Attributes → Attributes
  | 0, _, a => a
  | fuel + 1, p, a =>
    if p.pos = p.text.length then a
    else
      let r := p.extractUntilChar 59
      attributes cal fuel r.2.skipSpaces (a.add cal (r.1.on p.text) (p.text.drop r.1.offset))

variable {p : Parser} {a : Attributes} {line : Bytes}

lemma Parser.extractUntilChar_moves (hp : p.pos < p.text.length) (c : UInt8) :
    (p.extractUntilChar c).2.text = p.text ∧ p.pos < (p.extractUntilChar c).2.pos ∧
      (p.extractUntilChar c).2.pos ≤ p.text.length ∧
        (p.extractUntilChar c).1.length ≤ (p.extractUntilChar c).2.pos - p.pos := by
  have hr : p.rest.length = p.text.length - p.pos := length_drop
  unfold extractUntilChar
  cases hf : p.rest.findIdx? (· == c) with
  | none =>
    refine ⟨rfl, hp, le_rfl, ?_⟩
    have := mod_le p.rest.length (2 ^ 16)
    dsimp only [of]
    omega
  | some i =>
    have hi := (findIdx?_eq_some_iff_getElem.1 hf).1
    have := mod_le i (2 ^ 16)
    refine ⟨rfl, ?_, ?_, ?_⟩
    · dsimp only
      omega
    · dsimp only
      omega
    · dsimp only [of]
      omega

lemma Parser.skipSpaces_moves (hp : p.pos ≤ p.text.length) :
    p.skipSpaces.text = p.text ∧ p.pos ≤ p.skipSpaces.pos ∧ p.skipSpaces.pos ≤ p.text.length := by
  unfold skipSpaces
  split
  next hsp =>
    refine ⟨rfl, le_succ _, ?_⟩
    have hne : p.rest ≠ [] := by
      intro hn
      rw [hn] at hsp
      cases hsp
    have hle : 0 < p.text.length - p.pos := by
      rw [← length_drop]
      exact length_pos_iff.2 hne
    dsimp only
    omega
  · exact ⟨rfl, le_rfl, hp⟩

lemma Parser.next_moves (hp : p.pos ≤ p.text.length) (hm : p.pos ≠ p.text.length) :
    let p' := (p.extractUntilChar 59).2.skipSpaces
    p'.text = p.text ∧ p.pos < p'.pos ∧ p'.pos ≤ p'.text.length ∧
      (p.extractUntilChar 59).1.length ≤ p.text.length - p.pos := by
  obtain ⟨ht, hlo, hh, hv⟩ := extractUntilChar_moves (c := 59) (lt_of_le_of_ne hp hm)
  obtain ⟨ht', hl', hh'⟩ := skipSpaces_moves (p := (p.extractUntilChar 59).2) (by rw [ht]; exact hh)
  exact ⟨ht'.trans ht, by omega, ht' ▸ hh', by omega⟩

lemma Attributes.add_length (cal : Calendar) {attr : Bytes} (text : Bytes) {n : Nat}
    (ha : a.domain.length ≤ n ∧ a.path.length ≤ n) (hatt : attr.length ≤ n) :
    (a.add cal attr text).domain.length ≤ n ∧ (a.add cal attr text).path.length ≤ n := by
  have ho : ∀ v : RStringView16, (v.on attr).length ≤ n := by
    intro v
    rw [RStringView16.on, length_take, length_drop]
    omega
  unfold Attributes.add
  dsimp only
  repeat' split
  all_goals first | exact ha | exact ⟨ha.1, ho _⟩ | exact ⟨ho _, ha.2⟩

lemma attributes_length (cal : Calendar) (fuel : Nat) {n : Nat} (hp : p.pos ≤ p.text.length)
    (hn : p.text.length - p.pos ≤ n) (ha : a.domain.length ≤ n ∧ a.path.length ≤ n) :
    (attributes cal fuel p a).domain.length ≤ n ∧ (attributes cal fuel p a).path.length ≤ n := by
  induction fuel generalizing p a with
  | zero => exact ha
  | succ fuel ih =>
    rw [attributes]
    by_cases hm : p.pos = p.text.length
    · rw [if_pos hm]
      exact ha
    rw [if_neg hm]
    obtain ⟨ht, hlo, hpo, hv⟩ := next_moves hp hm
    refine ih hpo (by rw [ht]; omega) (Attributes.add_length cal _ ha ?_)
    exact (RStringView16.on_length_le ..).trans (by omega)

structure SetCookie where
  name : Bytes
  value : Bytes
  attrs : Attributes

open SetCookie

/-- The value of a header; without a name or a value it is passed over. -/
def SetCookie.parse (cal : Calendar) (line : Bytes) : Option SetCookie :=
  let (k, p) := extractUntilChar ⟨line, 0⟩ 61
  if k.on line = [] then none
  else
    let (v, p) := p.extractUntilChar 59
    if v.on line = [] then none
    else some ⟨k.on line, v.on line, attributes cal line.length p.skipSpaces {}⟩

/-- A cookie without `Secure` is not stored if it has `Partitioned`, or if its name promises more. -/
def SetCookie.Refused (r : SetCookie) : Prop := r.attrs.secure = false ∧
    (r.attrs.partitioned = true ∨ chars "__Secure-" <+: r.name ∨
      (chars "__Host-" <+: r.name ∧ (r.attrs.domain ≠ [] ∨ r.attrs.path ≠ chars "/")))

instance (r : SetCookie) : Decidable r.Refused := inferInstanceAs (Decidable (_ ∧ _))

/-! ## The table -/

def SetCookie.store (r : SetCookie) (c : CookieItem) : CookieItem :=
  let c := if r.value ≠ c.getValue ∨ r.attrs.domain ≠ c.getDomain ∨ r.attrs.path ≠ c.getPath then
    c.setContents r.value r.attrs.domain r.attrs.path else c
  { c with
    expire := r.attrs.expire
    httpOnly := r.attrs.httpOnly
    partitioned := r.attrs.partitioned
    secure := r.attrs.secure
    sameSite := r.attrs.sameSite }

/-- `m_cookies[key]` is changed; a new one may get any place in the order. -/
def updateCookie (cookies : List Cookie) (key : Bytes) (f : CookieItem → CookieItem) : List Cookie :=
  if key ∈ cookies.map Prod.fst then cookies.map fun c => if c.1 = key then (c.1, f c.2) else c
  else cookies ++ [(key, f .new)]

lemma updateCookie_names (cookies : List Cookie) (k : Bytes) (f : CookieItem → CookieItem) :
    (updateCookie cookies k f).map Prod.fst =
      if k ∈ cookies.map Prod.fst then cookies.map Prod.fst else cookies.map Prod.fst ++ [k] := by
  unfold updateCookie
  split
  · rw [map_map]
    refine map_congr_left fun c _ => ?_
    dsimp only [Function.comp_apply]
    split <;> rfl
  · rw [map_append]
    rfl

lemma mem_updateCookie {cookies : List Cookie} {k : Bytes} {f : CookieItem → CookieItem} {c : Cookie}
    (h : c ∈ updateCookie cookies k f) : (c.1 = k ∧ ∃ old, c.2 = f old) ∨ (c.1 ≠ k ∧ c ∈ cookies) := by
  unfold updateCookie at h
  split at h
  · obtain ⟨d, hd, rfl⟩ := mem_map.1 h
    by_cases hk : d.1 = k
    · rw [if_pos hk]
      exact .inl ⟨hk, d.2, rfl⟩
    · rw [if_neg hk]
      exact .inr ⟨hk, hd⟩
  next hn =>
    rcases mem_append.1 h with hc | hc
    · exact .inr ⟨fun hk => hn (hk ▸ mem_map_of_mem hc), hc⟩
    · rw [mem_singleton.1 hc]
      exact .inl ⟨rfl, .new, rfl⟩

/-- What can be stored: the three texts have their place in 16 bits. -/
structure SetCookie.Fits (r : SetCookie) : Prop where
  name : r.name ≠ []
  value : r.value ≠ []
  lengths : r.value.length + r.attrs.domain.length < 2 ^ 16
  path : r.attrs.path.length < 2 ^ 16

variable {r : SetCookie} {s : SimpleCookie} {received : List SetCookie}

lemma SetCookie.parse_fits {cal : Calendar} (hli : line.length < 2 ^ 16)
    (h : parse cal line = some r) : r.Fits := by
  unfold parse at h
  dsimp only at h
  split at h
  · cases h
  rename_i hna
  split at h <;> cases h
  rename_i hv
  have hpo : 0 < line.length := by
    refine length_pos_iff.2 fun hn => hna ?_
    rw [hn, RStringView16.on, drop_nil, take_nil]
  obtain ⟨ht, -, hh, -⟩ := extractUntilChar_moves (p := ⟨line, 0⟩) hpo 61
  generalize hp : (extractUntilChar ⟨line, 0⟩ 61).2 = p at ht hh hv ⊢
  dsimp only at ht hh
  by_cases he : p.pos = line.length
  · -- there is nothing behind the name
    refine absurd ?_ hv
    have hr : p.rest = [] := by
      rw [rest, ht, he, drop_length]
    have hvi : (p.extractUntilChar 59).1.length = 0 := by
      unfold extractUntilChar
      rw [hr]
      rfl
    exact length_eq_zero_iff.1 (le_zero.1 (hvi ▸ RStringView16.on_length_le (p.extractUntilChar 59).1 line))
  obtain ⟨ht2, -, hh2, hvi⟩ := extractUntilChar_moves (by rw [ht]; omega) 59
  obtain ⟨ht3, hl3, hh3⟩ := skipSpaces_moves (by rw [ht2]; exact hh2)
  rw [ht2, ht] at ht3 hh3
  rw [ht] at hh2
  obtain ⟨hd, hpa⟩ := attributes_length cal line.length (n := line.length - (p.extractUntilChar 59).2.pos)
    (p := (p.extractUntilChar 59).2.skipSpaces) (a := {}) (by rw [ht3]; exact hh3) (by rw [ht3]; omega)
    ⟨zero_le _, zero_le _⟩
  have hlen := on_length_le (p.extractUntilChar 59).1 line
  exact ⟨hna, hv, by dsimp only; omega, by dsimp only; omega⟩

lemma CookieItem.setContents_texts (c : CookieItem) {val domain path : Bytes}
    (hvd : val.length + domain.length < 2 ^ 16)
    (hp : path.length < 2 ^ 16) :
    (c.setContents val domain path).getValue = val ∧ (c.setContents val domain path).getDomain = domain ∧
      (c.setContents val domain path).getPath = path := by
  have hv : val.length % 2 ^ 16 = val.length := mod_eq_of_lt (by omega)
  have hd : domain.length % 2 ^ 16 = domain.length := mod_eq_of_lt (by omega)
  have hpl : path.length % 2 ^ 16 = path.length := mod_eq_of_lt hp
  have ho : (val.length + domain.length) % 2 ^ 16 = val.length + domain.length := mod_eq_of_lt hvd
  unfold setContents getValue getDomain getPath RStringView16.on
  dsimp only
  rw [hv, hd, hpl, ho, take_length, take_length, take_length]
  refine ⟨?_, ?_, ?_⟩
  · rw [drop_zero, take_left]
  · rw [drop_left, take_left]
  · rw [← drop_drop, drop_left, drop_left, take_length]

open CookieItem

structure StoredAs (c : CookieItem) (r : SetCookie) : Prop where
  value : c.getValue = r.value
  domain : c.getDomain = r.attrs.domain
  path : c.getPath = r.attrs.path
  expire : c.expire = r.attrs.expire
  secure : c.secure = r.attrs.secure

lemma SetCookie.store_stored (h : r.Fits) (c : CookieItem) : StoredAs (r.store c) r := by
  obtain ⟨hv, hd, hp⟩ := c.setContents_texts h.lengths h.path
  unfold store
  split
  · exact ⟨hv, hd, hp, rfl, rfl⟩
  next hsa =>
    simp only [not_or, not_not] at hsa
    exact ⟨hsa.1.symm, hsa.2.1.symm, hsa.2.2.symm, rfl, rfl⟩

def SimpleCookie.receive (s : SimpleCookie) (r : SetCookie) (hr : r.Fits) : SimpleCookie :=
  if r.Refused then s
  else
    { cookies := updateCookie s.cookies r.name r.store
      nodup := by
        rw [updateCookie_names]
        split
        · exact s.nodup
        next hnew =>
          rw [nodup_append]
          exact ⟨s.nodup, nodup_singleton _, fun a ha b hb => by rintro rfl; exact hnew (mem_singleton.1 hb ▸ ha)⟩
      named := by
        intro c hc
        rcases mem_updateCookie hc with ⟨hkey, old, hold⟩ | ⟨-, hc⟩
        · rw [hkey, hold, (store_stored hr old).value]
          exact ⟨hr.name, hr.value⟩
        · exact s.named c hc }

/-- The values of the `Set-Cookie` headers; a view has its length in 16 bits. -/
def HeadersBase.setCookieLines (h : HeadersBase) : List Bytes :=
  let r := h.equalRange (chars "Set-Cookie")
  ((h.kvs.drop r.1).take (r.2 - r.1)).map fun kv =>
    readBytes h.mem (h.base + kv.value.offset) (kv.value.length % 2 ^ 16)

lemma HeadersBase.setCookieLines_small {h : HeadersBase} (hl : line ∈ h.setCookieLines) : line.length < 2 ^ 16 := by
  obtain ⟨kv, -, rfl⟩ := mem_map.1 hl
  rw [readBytes_length]
  exact mod_lt _ (by decide)

def SimpleCookie.getCookies (cal : Calendar) (s : SimpleCookie) :
    (lines : List Bytes) → (∀ line ∈ lines, line.length < 2 ^ 16) → SimpleCookie
  | [], _ => s
  | line :: lines, hl =>
    match hr : parse cal line with
    | none => s.getCookies cal lines fun l hm => hl l (mem_cons_of_mem line hm)
    | some r => (s.receive r (parse_fits (hl line mem_cons_self) hr)).getCookies cal lines fun l hm =>
        hl l (mem_cons_of_mem line hm)

def SimpleCookie.getCookiesFromHeaders (s : SimpleCookie) (cal : Calendar) (h : HeadersBase) : SimpleCookie :=
  s.getCookies cal h.setCookieLines fun _ => HeadersBase.setCookieLines_small

/-! ## Histories -/

/-- `received` is what came with the `Set-Cookie` headers so far, and `s` is the table, which may be in any order. -/
inductive History : List SetCookie → SimpleCookie → Prop where
  | start : History [] {}
  | receive {received : List SetCookie} {s : SimpleCookie} (cal : Calendar) (h : HeadersBase)
    (hs : History received s) :
      History (received ++ h.setCookieLines.filterMap (parse cal)) (s.getCookiesFromHeaders cal h)
  | request {received : List SetCookie} {s : SimpleCookie} (now : Nat) (m : Message) (hs : History received s) :
      History received (s.setCookiesToHeaders now m).2.1
  | reorder {received : List SetCookie} {s s' : SimpleCookie} (hs : History received s)
    (hperm : s'.cookies.Perm s.cookies) :
      History received s'

def lastReceived (received : List SetCookie) (name : Bytes) : Option SetCookie :=
  received.reverse.find? (·.name == name)

/-- The cookie was last received with `Secure`. -/
def LastSecure (received : List SetCookie) (name : Bytes) : Prop :=
  ∃ r, lastReceived received name = some r ∧ r.attrs.secure = true

lemma lastReceived_append (received : List SetCookie) (r : SetCookie) (name : Bytes) :
    lastReceived (received ++ [r]) name = if r.name = name then some r else lastReceived received name := by
  unfold lastReceived
  rw [reverse_append, reverse_singleton, singleton_append, find?_cons]
  by_cases h : r.name = name
  · rw [if_pos h, h, beq_self_eq_true]
  · rw [if_neg h, beq_false_of_ne h]

/-- The cookies of the table that were last received with `Secure` are stored as they were received. -/
def StoredLast (received : List SetCookie) (s : SimpleCookie) : Prop :=
  ∀ c ∈ s.cookies, ∀ r, lastReceived received c.1 = some r → r.attrs.secure = true → StoredAs c.2 r

lemma receive_stored (hs : StoredLast received s) (hr : r.Fits) : StoredLast (received ++ [r]) (s.receive r hr) := by
  intro c hc q hq hse
  rw [lastReceived_append] at hq
  unfold SimpleCookie.receive at hc
  split at hc
  next hre =>
    split at hq
    · cases hq
      rw [hre.1] at hse
      cases hse
    · exact hs c hc q hq hse
  · rcases mem_updateCookie hc with ⟨hk, old, ho⟩ | ⟨hk, hc⟩
    · rw [if_pos hk.symm] at hq
      cases hq
      rw [ho]
      exact store_stored hr old
    · rw [if_neg fun h => hk h.symm] at hq
      exact hs c hc q hq hse

lemma getCookies_stored (cal : Calendar) (hs : StoredLast received s)
    (lines : List Bytes) (hl : ∀ line ∈ lines, line.length < 2 ^ 16) :
    StoredLast (received ++ lines.filterMap (parse cal)) (s.getCookies cal lines hl) := by
  induction lines generalizing received s with
  | nil =>
    rw [filterMap_nil, append_nil]
    exact hs
  | cons line lines ih =>
    unfold SimpleCookie.getCookies
    split
    next hn =>
      rw [filterMap_cons_none hn]
      exact ih hs _
    next r hso =>
      rw [filterMap_cons_some hso, ← singleton_append, ← append_assoc]
      exact ih (receive_stored hs _) _

lemma History.stored (h : History received s) : StoredLast received s := by
  induction h with
  | start => exact fun c hc => absurd hc not_mem_nil
  | receive cal h hs ih => exact getCookies_stored cal ih _ _
  | @request received s now m hs ih =>
    exact fun c hc => ih c ((setCookies_sublist now [] s.cookies m).subset hc)
  | reorder hs hpe ih => exact fun c hc => ih c (hpe.mem_iff.1 hc)

/-! ## Requests that are not secure -/

/-- What the headers got is made of the texts of these cookies. -/
def Carries (before : List (Bytes × Bytes)) (e : Bytes × Bytes) (es' : List (Bytes × Bytes))
    (cookies : List Cookie) : Prop :=
  (cookies = [] ∧ es' = before ++ [e]) ∨ ∃ t, t.Sublist (cookies.flatMap nextText) ∧
      (es' = before ++ [e] ++ [(chars "Cookie", t)] ∨ es' = before ++ [(e.1, e.2 ++ t)])

section Sent

variable {now : Nat} {m m' : Message} {before : List (Bytes × Bytes)} {e : Bytes × Bytes} {cookies S : List Cookie}

lemma text_sublist_nextText (c : Cookie) : c.text.Sublist (nextText c) := sublist_append_right ..

lemma CookiesSent.carries (h : CookiesSent now m before e cookies S m') (hm : m.Ready before e) :
    ∃ es', m'.headers.Laid es' ∧ Carries before e es' S := by
  cases h with
  | nothing => exact ⟨_, hm.opened.laid, .inl ⟨rfl, rfl⟩⟩
  | @inserted c post S h u _ hli ha hi hro hcu hsu hr hm' =>
    refine ⟨_, hm'.opened.laid, .inr ⟨_, ?_, .inl rfl⟩⟩
    rw [flatMap_cons]
    exact (hsu.trans (text_sublist_nextText c)).append_right _
  | @exist c post S _ hli ha hf hr hm' =>
    refine ⟨_, hm'.opened.laid, .inr ⟨_, ?_, .inr rfl⟩⟩
    rw [flatMap_cons]
    exact (text_sublist_nextText c).append_right _
  | @behind b c mid post S _ hli hb ha hr hm' => exact ⟨_, hm'.opened.laid, .inr ⟨_, .refl _, .inr rfl⟩⟩

lemma CookiesSent.eq_applying (h : CookiesSent now m before e cookies S m')
    (hh : ∀ h, m.headers.insert (chars "Cookie") [] = .ok h → h.getValue (chars "Host") = m.host)
    (hla : icmp e.1 (chars "Host") ≠ 0) : S = applying now m cookies := by
  cases h with
  | nothing hn => exact hn.symm
  | inserted hli ha hi hro hcu hsu hr => rw [ha, hr (hh _ hi)]
  | exist hli ha hf hr hm' | behind hli hb ha hr hm' => rw [ha, hr hla]

/-- After every history, for a request that is not secure: what the headers get is made of the texts of the cookies
that are sent. None of these was last received with `Secure`, if and only if the cookies of the table that were, that
have not expired and that apply to this request, have names that begin with `__Secure-`. -/
theorem secure_cookie {received : List SetCookie} {s s' : SimpleCookie} (hs : History received s)
    (hm : m.Ready before e)
    (hinsecure : m.secure = false)
    (hhost : ∀ h, m.headers.insert (chars "Cookie") [] = .ok h → h.getValue (chars "Host") = m.host)
    (hlast : icmp e.1 (chars "Host") ≠ 0) (hok : s.setCookiesToHeaders now m = (true, s', m')) :
    (∃ es', m'.headers.Laid es' ∧ Carries before e es' (sent now true s.cookies m)) ∧
      ((∀ c ∈ sent now true s.cookies m, ¬ LastSecure received c.1) ↔
        ∀ c ∈ s.cookies, ∀ r, lastReceived received c.1 = some r → r.attrs.secure = true → now ≤ r.attrs.expire →
          r.attrs.path <+: m.absPath → (r.attrs.domain = [] ∨ r.attrs.domain = m.host) →
            chars "__Secure-" <+: c.1) := by
  have hsen := setCookies_sent hm (fun c hc => (s.named c hc).1) (s.setCookies_of_ok hok)
  refine ⟨hsen.carries hm, ?_⟩
  rw [hsen.eq_applying hhost hlast]
  constructor
  · intro hno c hc r hr hse he hpa hd
    by_contra hn
    have hst := hs.stored c hc r hr hse
    refine hno c (mem_applying.2 ⟨hc, ?_, fun hw => hn hw.2, ?_, ?_⟩) ⟨r, hr, hse⟩
    · rw [hst.expire]
      exact not_lt.2 he
    · rw [hst.path]
      exact hpa
    · rw [hst.domain]
      exact hd
  · rintro ha c hc ⟨r, hr, hse⟩
    obtain ⟨hme, he, hn, hpa, hd⟩ := mem_applying.1 hc
    have hst := hs.stored c hme r hr hse
    rw [hst.expire] at he
    rw [hst.path] at hpa
    rw [hst.domain] at hd
    exact hn ⟨hinsecure, ha c hme r hr hse (not_lt.1 he) hpa hd⟩

end Sent

def sampleCalendar : Calendar := ⟨0, fun _ => none⟩

def response (t : Bytes) : Option HeadersBase := (headersOf t).parse

def tableOf (h : HeadersBase) : SimpleCookie := ({} : SimpleCookie).getCookiesFromHeaders sampleCalendar h

def receivedOf (h : HeadersBase) : List SetCookie := h.setCookieLines.filterMap (parse sampleCalendar)

lemma history_response (h : HeadersBase) : History (receivedOf h) (tableOf h) := .receive sampleCalendar h .start

def twoSetCookies : Bytes := chars "Set-Cookie: __Secure-a=b; Secure\r\nSet-Cookie: c=d\r\n\r\n"

/-- One cookie is sent, and the one with `Secure` is not. -/
theorem secure_cookie_withheld : ∃ h m, response twoSetCookies = some h ∧ cookieRequest = some m ∧ m.secure = false ∧
    (tableOf h).cookies.length = 2 ∧ (∃ es', ((tableOf h).setCookiesToHeaders 0 m).2.2.headers.Laid es' ∧
      (chars "Cookie", chars "c=d") ∈ es') ∧
    ∀ c ∈ sent 0 true (tableOf h).cookies m, ¬ LastSecure (receivedOf h) c.1 := by
  obtain ⟨m, before, hm, hre⟩ := cookieRequest_ready
  have hso : (response twoSetCookies).isSome := by decide +kernel
  obtain ⟨h, hh⟩ := Option.isSome_iff_exists.1 hso
  have hf : (response twoSetCookies).all fun h => cookieRequest.all fun m => decide (m.secure = false ∧
      (tableOf h).cookies.length = 2 ∧ ((tableOf h).setCookiesToHeaders 0 m).1 = true ∧
      (chars "Cookie", chars "c=d") ∈ ((tableOf h).setCookiesToHeaders 0 m).2.2.headers.pairs ∧
      (m.headers.insert (chars "Cookie") []).toOption.all (fun h => h.getValue (chars "Host") == m.host) = true ∧
      ∀ c ∈ (tableOf h).cookies, (lastReceived (receivedOf h) c.1).all
        (fun r => !r.attrs.secure || decide (chars "__Secure-" <+: c.1)) = true) := by decide +kernel
  rw [hh, hm] at hf
  obtain ⟨hi, hle, ho, hco, hins, hn⟩ := of_decide_eq_true hf
  have hho : ∀ h, m.headers.insert (chars "Cookie") [] = .ok h → h.getValue (chars "Host") = m.host := by
    intro h1 hh1
    rw [hh1] at hins
    exact eq_of_beq hins
  have hru : (tableOf h).setCookiesToHeaders 0 m =
      (true, ((tableOf h).setCookiesToHeaders 0 m).2.1, ((tableOf h).setCookiesToHeaders 0 m).2.2) := Prod.ext ho rfl
  obtain ⟨⟨es', hla, -⟩, hif⟩ := secure_cookie (history_response h) hre hi hho (by decide +kernel) hru
  refine ⟨h, m, hh, hm, hi, hle, ⟨es', hla, hla.pairs_perm.mem_iff.1 hco⟩, hif.2 fun c hc r hr hse _ _ _ => ?_⟩
  have := hn c hc
  rw [hr, Option.all_some, hse] at this
  exact of_decide_eq_true this

/-- A cookie with `Secure` is sent to `http://a/`. -/
theorem secure_sent : ((response (chars "Set-Cookie: a=b; Secure\r\n\r\n")).bind fun h => cookieRequest.map fun m =>
      ((receivedOf h).map fun r => (r.name, r.attrs.secure), m.secure, ((tableOf h).setCookiesToHeaders 0 m).1,
        ((tableOf h).setCookiesToHeaders 0 m).2.2.headers.text)) =
      some ([(chars "a", true)], false, true, chars "Host: a\r\nConnection: keep-alive\r\nCookie: a=b\r\n") := by
  decide +kernel

end Photon.Http
