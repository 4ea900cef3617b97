import Photon.Net.HeaderAppend
import Photon.Net.Redirect
/-!
# Cookies of a request

A `SimpleCookie` is the table of the cookies that were received from one host.
`set_cookies_to_headers` goes through the table in the order of its iterator: cookies that have
expired are erased, and those that apply to the request are put into one header, which is
inserted for the first cookie of the table and made longer for the others.
-/

namespace Photon.Http

open Estring HeadersBase List Option Prod

variable {e : Bytes × Bytes} {now : Nat}

/-! ## The table -/

/-- `CookieItem`. The three texts are one after the other in `_contents`. -/
structure CookieItem where
  expire : Nat := 0
  contents : Bytes := []
  value : RStringView16 := {}
  domain : RStringView16 := {}
  path : RStringView16 := {}
  httpOnly : Bool := false
  partitioned : Bool := false
  secure : Bool := false
  sameSite : UInt8 := 0
  inside : value.offset + value.length ≤ contents.length ∧ domain.offset + domain.length ≤ contents.length ∧
    path.offset + path.length ≤ contents.length := by decide

namespace CookieItem

def new : CookieItem := {}

def getValue (c : CookieItem) : Bytes := c.value.on c.contents
def getDomain (c : CookieItem) : Bytes := c.domain.on c.contents
def getPath (c : CookieItem) : Bytes := c.path.on c.contents

lemma getValue_length (c : CookieItem) : c.getValue.length = c.value.length := by
  have hin := c.inside.1
  rw [getValue, RStringView16.on, length_take, length_drop]
  omega

lemma take_mod_length (t : Bytes) : (t.take (t.length % 2 ^ 16)).length = t.length % 2 ^ 16 := by
  rw [length_take, min_eq_left (Nat.mod_le ..)]

def setContents (c : CookieItem) (val domain path : Bytes) : CookieItem :=
  let vl := val.length % 2 ^ 16
  let dl := domain.length % 2 ^ 16
  let pl := path.length % 2 ^ 16
  { c with
    contents := val.take vl ++ (domain.take dl ++ path.take pl)
    value := ⟨0, vl⟩
    domain := ⟨vl, dl⟩
    path := ⟨(vl + dl) % 2 ^ 16, pl⟩
    inside := by
      have hmod := Nat.mod_le (vl + dl) (2 ^ 16)
      simp only [length_append, vl, dl, pl, take_mod_length] at hmod ⊢
      omega }

end CookieItem

abbrev Cookie := Bytes × CookieItem

/-- `m_cookies`, in the order of its iterator. -/
structure SimpleCookie where
  cookies : List Cookie := []
  nodup : (cookies.map fst).Nodup := by exact nodup_nil
  named : ∀ c ∈ cookies, c.1 ≠ [] ∧ c.2.getValue ≠ [] := by exact fun c hc => absurd hc not_mem_nil

/-! ## Putting cookies into the headers -/

namespace Message

/-- `abs_path()`; it is empty if the path is not inside of the request line. -/
def absPath (m : Message) : Bytes :=
  match m.startLine with
  | .request r => if m.text.length < r.path.offset + r.path.length then [] else r.path.on m.text
  | .response _ => []

def append (m : Message) (t : Bytes) : Message := { m with headers := (m.headers.valueAppend t).2 }

/-- `headers.insert("Cookie", "")`; what it returns is not looked at. -/
def insertCookie (m : Message) : Message :=
  { m with headers := (m.headers.insert (chars "Cookie") []).toOption.getD m.headers }

def appendCookie (m : Message) (c : Cookie) : Message := ((m.append c.1).append (chars "=")).append c.2.getValue

end Message

/-- What a turn of the loop does with a cookie. -/
inductive Turn where
  | erase
  | skip
  /-- Return -1. -/
  | full
  | send (m : Message)

/-- A turn of the loop of `set_cookies_to_headers`; `first` is `it == m_cookies.begin()`. -/
def turn (now : Nat) (first : Bool) (m : Message) (c : Cookie) : Turn :=
  if now > c.2.expire then .erase
  else if m.secure = false ∧ chars "__Secure-" <+: c.1 then .skip
  else if ¬ c.2.getPath <+: m.absPath then .skip
  else if c.2.getDomain ≠ [] ∧ c.2.getDomain ≠ m.host then .skip
  else
    let size : Nat := c.1.length + 1 + c.2.value.length
    if first then
      if m.headers.spaceRemain < size + 10 + 6 then .full else .send (m.insertCookie.appendCookie c)
    else
      if m.headers.spaceRemain < size + 2 + 6 then .full else .send ((m.append (chars "; ")).appendCookie c)

/-- The loop; `kept` is what it has passed and not erased. It returns whether it got to the end. -/
def setCookies (now : Nat) : List Cookie → List Cookie → Message → Bool × List Cookie × Message
  | kept, [], m => (true, kept, m)
  | kept, c :: rest, m =>
    match turn now kept.isEmpty m c with
    | .erase => setCookies now kept rest m
    | .skip => setCookies now (kept ++ [c]) rest m
    | .full => (false, kept ++ c :: rest, m)
    | .send m' => setCookies now (kept ++ [c]) rest m'

lemma setCookies_sublist (now : Nat) (kept rest : List Cookie) (m : Message) :
    (setCookies now kept rest m).2.1.Sublist (kept ++ rest) := by
  induction rest generalizing kept m with
  | nil =>
    rw [append_nil]
    exact Sublist.refl _
  | cons c rest ih =>
    have hco : kept ++ [c] ++ rest = kept ++ c :: rest := append_assoc ..
    unfold setCookies
    split
    · exact (ih kept m).trans ((sublist_cons_self c rest).append_left kept)
    · rw [← hco]
      exact ih _ m
    · exact Sublist.refl _
    · rw [← hco]
      exact ih ..

def SimpleCookie.setCookiesToHeaders (s : SimpleCookie) (now : Nat) (m : Message) : Bool × SimpleCookie × Message :=
  let r := setCookies now [] s.cookies m
  have hsub : r.2.1.Sublist s.cookies := setCookies_sublist now [] s.cookies m
  (r.1, ⟨r.2.1, s.nodup.sublist (hsub.map _), fun c hc => s.named c (hsub.subset hc)⟩, r.2.2)

lemma SimpleCookie.setCookies_of_ok (s : SimpleCookie) {s' : SimpleCookie} {m m' : Message}
    (ho : s.setCookiesToHeaders now m = (true, s', m')) : setCookies now [] s.cookies m = (true, s'.cookies, m') := by
  obtain ⟨h1, h2⟩ := Prod.mk.inj ho
  obtain ⟨h2, h3⟩ := Prod.mk.inj h2
  exact Prod.ext h1 (Prod.ext (congrArg SimpleCookie.cookies h2) h3)

/-! ## What a turn does -/

/-- The cookie is for this request: it is not withheld for its name, and its path and its domain match. -/
def Applies (m : Message) (c : Cookie) : Prop :=
  ¬ (m.secure = false ∧ chars "__Secure-" <+: c.1) ∧ c.2.getPath <+: m.absPath ∧
    (c.2.getDomain = [] ∨ c.2.getDomain = m.host)

instance (m : Message) (c : Cookie) : Decidable (Applies m c) := inferInstanceAs (Decidable (_ ∧ _))

def Cookie.text (c : Cookie) : Bytes := c.1 ++ (chars "=" ++ c.2.getValue)

lemma Cookie.text_length (c : Cookie) : c.text.length = c.1.length + 1 + c.2.value.length := by
  have he : (chars "=").length = 1 := by decide +kernel
  rw [text, length_append, length_append, CookieItem.getValue_length]
  omega

lemma turn_expired {c : Cookie} (h : c.2.expire < now) (first : Bool) (m : Message) :
    turn now first m c = .erase := if_pos h

section
variable {m : Message} {c : Cookie} {now : Nat} (h : ¬ c.2.expire < now)
include h

lemma turn_skip (ha : ¬ Applies m c) (first : Bool) : turn now first m c = .skip := by
  unfold turn
  rw [if_neg h]
  split
  · rfl
  rename_i hn
  split
  · rfl
  rename_i hpa
  split
  · rfl
  rename_i hdo
  refine absurd ⟨hn, not_not.1 hpa, ?_⟩ ha
  by_cases hd : c.2.getDomain = []
  · exact .inl hd
  · exact .inr (not_not.1 fun hh => hdo ⟨hd, hh⟩)

lemma turn_first (ha : Applies m c) :
    turn now true m c =
      if m.headers.spaceRemain < c.text.length + 16 then .full else .send (m.insertCookie.appendCookie c) := by
  obtain ⟨hn, hpa, hdo⟩ := ha
  unfold turn
  rw [if_neg h, if_neg hn, if_neg (not_not.2 hpa), if_neg fun hd => hdo.elim hd.1 hd.2, Cookie.text_length]
  rfl

lemma turn_next (ha : Applies m c) :
    turn now false m c =
      if m.headers.spaceRemain < c.text.length + 8 then .full else .send ((m.append (chars "; ")).appendCookie c) := by
  obtain ⟨hn, hpa, hdo⟩ := ha
  unfold turn
  rw [if_neg h, if_neg hn, if_neg (not_not.2 hpa), if_neg fun hd => hdo.elim hd.1 hd.2, Cookie.text_length]
  rfl

end

/-! ## Appending to the headers of a request -/

variable {h : HeadersBase}

namespace Message

/-- The headers are behind the request line, and the last of them is the one that was inserted last. -/
structure Ready (m : Message) (before : List (Bytes × Bytes)) (e : Bytes × Bytes) : Prop where
  base : m.base + m.bufSize ≤ m.headers.base
  opened : m.headers.Open before e

/-- The last header of `m` has got `t` behind its value in `m'`. -/
structure Grown (m m' : Message) (before : List (Bytes × Bytes)) (k v t : Bytes) : Prop where
  ready : m'.Ready before (k, v ++ t)
  space : m'.headers.spaceRemain = m.headers.spaceRemain - t.length
  text : m'.text = m.text
  startLine : m'.startLine = m.startLine
  host : icmp k (chars "Host") ≠ 0 → m'.host = m.host

variable {m m1 m2 : Message} {before : List (Bytes × Bytes)} {k v t u : Bytes}

lemma Grown.refl (hm : m.Ready before (k, v)) : Grown m m before k v [] where
  ready := by rwa [append_nil]
  space := by rw [length_nil]; omega
  text := rfl
  startLine := rfl
  host := fun _ => rfl

lemma Grown.trans (h1 : Grown m m1 before k v t) (h2 : Grown m1 m2 before k (v ++ t) u) :
    Grown m m2 before k v (t ++ u) where
  ready := by
    rw [← append_assoc]
    exact h2.ready
  space := by rw [h2.space, h1.space, length_append]; omega
  text := h2.text.trans h1.text
  startLine := h2.startLine.trans h1.startLine
  host := fun hk => (h2.host hk).trans (h1.host hk)

lemma Grown.applies (h : Grown m m1 before k v t) (hk : icmp k (chars "Host") ≠ 0) (c : Cookie) :
    Applies m1 c ↔ Applies m c := by
  have hse : m1.secure = m.secure := by rw [secure, secure, h.startLine]
  have hpa : m1.absPath = m.absPath := by rw [absPath, absPath, h.startLine, h.text]
  rw [Applies, Applies, hse, hpa, h.host hk]

lemma append_grown (hm : m.Ready before (k, v)) (hr : t.length ≤ m.headers.spaceRemain) :
    Grown m (m.append t) before k v t := by
  have hf : m.headers.bufSize + t.length + kvBytes * m.headers.kvs.length ≤ m.headers.capacity := by
    unfold spaceRemain at hr
    omega
  obtain ⟨h', a, b, ha, hsa, ho, -, hpa, hp'⟩ := valueAppend_open hm.opened hf
  have hba := hm.base
  have he : m.append t = { m with headers := h' } := by rw [append, ha]
  rw [he]
  constructor
  · exact ⟨hba.trans_eq hsa.base.symm, ho⟩
  · unfold spaceRemain
    rw [hsa.capacity, hsa.bufSize, hsa.kvs]
    omega
  · exact readBytes_congr fun x _ hx => hsa.mem x (lt_of_lt_of_le hx hba)
  · rfl
  · exact getValue_append hpa hp'

lemma append_full (h : m.headers.spaceRemain < t.length) : m.append t = m := by
  have hf : m.headers.capacity < m.headers.bufSize + t.length + kvBytes * m.headers.kvs.length := by
    unfold spaceRemain at h
    omega
  rw [append, valueAppend_full hf]

lemma append_cases (hm : m.Ready before (k, v)) (t : Bytes) :
    (t.length ≤ m.headers.spaceRemain ∧ Grown m (m.append t) before k v t) ∨
      (m.headers.spaceRemain < t.length ∧ Grown m (m.append t) before k v []) := by
  by_cases hr : t.length ≤ m.headers.spaceRemain
  · exact .inl ⟨hr, append_grown hm hr⟩
  have hf := Int.not_le.1 hr
  refine .inr ⟨hf, ?_⟩
  rw [append_full hf]
  exact .refl hm

lemma appendCookie_grown (hm : m.Ready before (k, v)) (c : Cookie) (hr : c.text.length ≤ m.headers.spaceRemain) :
    Grown m (m.appendCookie c) before k v c.text := by
  have he : (chars "=").length = 1 := by decide +kernel
  have hlen := c.text_length
  have hv := c.2.getValue_length
  have h1 := append_grown hm (t := c.1) (by omega)
  have h2 := append_grown h1.ready (t := chars "=") (by rw [h1.space]; omega)
  have h3 := append_grown h2.ready (t := c.2.getValue) (by rw [h2.space, h1.space]; omega)
  exact h1.trans (h2.trans h3)

lemma append_sublist (hm : m.Ready before (k, v)) (t : Bytes) : ∃ u, Grown m (m.append t) before k v u ∧ u.Sublist t ∧
    ((t.length ≤ m.headers.spaceRemain ∧ u.length = t.length) ∨ (u.length = 0 ∧ m.headers.spaceRemain < t.length)) := by
  rcases append_cases hm t with ⟨hr, hg⟩ | ⟨hf, hg⟩
  · exact ⟨_, hg, .refl _, .inl ⟨hr, rfl⟩⟩
  · exact ⟨_, hg, nil_sublist _, .inr ⟨rfl, hf⟩⟩

lemma appendCookie_cut (hm : m.Ready before (k, v)) (c : Cookie) (hf : m.headers.spaceRemain < c.text.length) :
    ∃ u, u.length < c.text.length ∧ u.Sublist c.text ∧ Grown m (m.appendCookie c) before k v u := by
  have he : (chars "=").length = 1 := by decide +kernel
  have hv := c.2.getValue_length
  have hsp : 0 ≤ m.headers.spaceRemain := by
    have := hm.opened.laid.room
    unfold spaceRemain
    omega
  -- what each of the three appended, and what was left before it
  obtain ⟨u1, h1, hs1, hu1⟩ := append_sublist hm c.1
  obtain ⟨u2, h2, hs2, hu2⟩ := append_sublist h1.ready (chars "=")
  obtain ⟨u3, h3, hs3, hu3⟩ := append_sublist h2.ready c.2.getValue
  refine ⟨u1 ++ (u2 ++ u3), ?_, hs1.append (hs2.append hs3), h1.trans (h2.trans h3)⟩
  rw [hv, h2.space, h1.space] at hu3
  rw [he, h1.space] at hu2
  rw [length_append, length_append]
  omega

/-! ## Inserting the header -/

lemma insertCookie_ready (hm : m.Ready before e) (hi : m.headers.insert (chars "Cookie") [] = .ok h) :
    m.insertCookie.Ready (before ++ [e]) (chars "Cookie", []) ∧
      m.insertCookie.headers.spaceRemain = m.headers.spaceRemain - 18 ∧ m.insertCookie.text = m.text ∧
      m.insertCookie.startLine = m.startLine ∧ m.insertCookie.headers = h := by
  have he : m.insertCookie = { m with headers := h } := by
    rw [insertCookie, hi]
    rfl
  have hli : (headerLine (chars "Cookie", [])).length = 10 := by decide +kernel
  have ho := insert_open hm.opened.laid hi
  obtain ⟨hba, hca⟩ := insert_keeps hi
  obtain ⟨hf, i, kvs, hpe, -, hh⟩ := insert_cases hi
  have hsm := hm.opened.laid.small
  rw [hli] at hf hh
  have hsi : h.bufSize = m.headers.bufSize + 10 := by
    rw [hh]
    exact Nat.mod_eq_of_lt (by omega)
  have hco : h.kvs.length = m.headers.kvs.length + 1 := by
    rw [hh]
    exact hpe.length_eq
  rw [he]
  refine ⟨⟨hm.base.trans_eq hba.symm, ho⟩, ?_, ?_, rfl, rfl⟩
  · unfold spaceRemain
    rw [hca, hsi, hco]
    unfold kvBytes
    omega
  · refine readBytes_congr fun x _ hx => ?_
    show h.mem x = m.headers.mem x
    rw [hh]
    have hbe : x < m.headers.base := lt_of_lt_of_le hx hm.base
    exact writeBytes_of_notMem m.headers.mem (.inl (by omega))

lemma insertCookie_exist {i : Nat} (hf : m.headers.find (chars "Cookie") = some i) : m.insertCookie = m := by
  have hi : m.headers.insert (chars "Cookie") [] = .error .exist := by
    unfold HeadersBase.insert
    rw [if_pos ⟨rfl, by rw [hf]; exact some_ne_none i⟩]
  rw [insertCookie, hi]
  rfl

lemma insertCookie_new (hfi : m.headers.find (chars "Cookie") = none) (hsp : 18 ≤ m.headers.spaceRemain) :
    ∃ h, m.headers.insert (chars "Cookie") [] = .ok h := by
  have hn : (chars "Cookie").length = 6 := by decide +kernel
  unfold HeadersBase.insert
  rw [if_neg fun hf => hf.2 hfi]
  dsimp only
  rw [hn, length_nil, if_neg (by unfold spaceRemain at hsp; unfold kvBytes at *; omega)]
  split <;> exact ⟨_, rfl⟩

end Message

/-! ## The loop -/

def live (now : Nat) (cookies : List Cookie) : List Cookie := cookies.filter fun c => decide (¬ c.2.expire < now)

def applying (now : Nat) (m : Message) (cookies : List Cookie) : List Cookie :=
  (live now cookies).filter fun c => decide (Applies m c)

def sent (now : Nat) : Bool → List Cookie → Message → List Cookie
  | _, [], _ => []
  | first, c :: rest, m =>
    match turn now first m c with
    | .erase => sent now first rest m
    | .skip => sent now false rest m
    | .full => []
    | .send m' => c :: sent now false rest m'

def nextText (c : Cookie) : Bytes := chars "; " ++ c.text

section Loop

variable {now : Nat} {m m' : Message} {kept kept' rest : List Cookie} {before : List (Bytes × Bytes)} {c : Cookie}
  {cookies pre : List Cookie}

lemma mem_applying : c ∈ applying now m cookies ↔ c ∈ cookies ∧ ¬ c.2.expire < now ∧ Applies m c := by
  unfold applying live
  simp only [mem_filter, decide_eq_true_eq, and_assoc]

lemma applying_cons_of_expired (h : c.2.expire < now) : applying now m (c :: rest) = applying now m rest := by
  unfold applying live
  rw [filter_cons_of_neg (by simpa using h)]

lemma applying_cons_of_not (ha : ¬ Applies m c) : applying now m (c :: rest) = applying now m rest := by
  unfold applying live
  by_cases h : c.2.expire < now
  · rw [filter_cons_of_neg (by simpa using h)]
  · rw [filter_cons_of_pos (by simpa using h), filter_cons_of_neg (by simpa using ha)]

lemma applying_cons_of_applies (h : ¬ c.2.expire < now) (ha : Applies m c) :
    applying now m (c :: rest) = c :: applying now m rest := by
  unfold applying live
  rw [filter_cons_of_pos (by simpa using h), filter_cons_of_pos (by simpa using ha)]

lemma live_cons_of_expired (h : c.2.expire < now) : live now (c :: rest) = live now rest :=
  filter_cons_of_neg (by simpa using h)

lemma live_cons_of_not (h : ¬ c.2.expire < now) : live now (c :: rest) = c :: live now rest :=
  filter_cons_of_pos (by simpa using h)

lemma isEmpty_append_singleton (kept : List Cookie) (c : Cookie) : (kept ++ [c]).isEmpty = false := by
  cases kept with
  | nil => rfl
  | cons => rfl

lemma setCookies_skip (hpr : ∀ c ∈ pre, c.2.expire < now ∨ ¬ Applies m c) (kept rest : List Cookie) :
    setCookies now kept (pre ++ rest) m = setCookies now (kept ++ live now pre) rest m ∧
      sent now kept.isEmpty (pre ++ rest) m = sent now (kept ++ live now pre).isEmpty rest m := by
  induction pre generalizing kept with
  | nil =>
    rw [live, filter_nil, append_nil]
    exact ⟨rfl, rfl⟩
  | cons c pre ih =>
    have hrest := fun kept => ih (fun d hd => hpr d (mem_cons_of_mem c hd)) kept
    rw [cons_append, setCookies, sent]
    by_cases he : c.2.expire < now
    · rw [turn_expired he, live_cons_of_expired he]
      exact hrest kept
    have hn := (hpr c mem_cons_self).resolve_left he
    have hk := hrest (kept ++ [c])
    rw [isEmpty_append_singleton, append_assoc] at hk
    rw [turn_skip he hn, live_cons_of_not he]
    exact hk

lemma Message.Grown.applying {k v t : Bytes} (h : Message.Grown m m' before k v t) (hk : icmp k (chars "Host") ≠ 0)
    (cookies : List Cookie) : applying now m' cookies = Http.applying now m cookies :=
  filter_congr fun c _ => decide_eq_decide.2 (h.applies hk c)

open Message

lemma append_next {k v : Bytes} (hm : m.Ready before (k, v)) (hr : c.text.length + 8 ≤ m.headers.spaceRemain) :
    Message.Grown m ((m.append (chars "; ")).appendCookie c) before k v (nextText c) := by
  have hse : (chars "; ").length = 2 := by decide +kernel
  have h1 := append_grown hm (by rw [hse]; omega)
  exact h1.trans (appendCookie_grown h1.ready c (by rw [h1.space, hse]; omega))

lemma setCookies_grown {k v : Bytes} (hm : m.Ready before (k, v)) (hke : kept.isEmpty = false)
    (ho : setCookies now kept rest m = (true, kept', m')) :
    Message.Grown m m' before k v ((sent now false rest m).flatMap nextText) ∧
      (icmp k (chars "Host") ≠ 0 → sent now false rest m = applying now m rest) := by
  induction rest generalizing kept m v with
  | nil =>
    obtain ⟨-, rfl⟩ := mk.inj (mk.inj ho).2
    exact ⟨.refl hm, fun _ => rfl⟩
  | cons c rest ih =>
    rw [setCookies, hke] at ho
    rw [sent]
    by_cases he : c.2.expire < now
    · rw [turn_expired he] at ho ⊢
      rw [applying_cons_of_expired he]
      exact ih hm hke ho
    by_cases ha : Applies m c
    · rw [turn_next he ha] at ho ⊢
      by_cases hf : m.headers.spaceRemain < c.text.length + 8
      · rw [if_pos hf] at ho
        cases ho
      rw [if_neg hf] at ho ⊢
      have hg := append_next hm (Int.not_lt.1 hf)
      obtain ⟨hr, hal⟩ := ih hg.ready (isEmpty_append_singleton kept c) ho
      refine ⟨?_, fun hk => ?_⟩
      · rw [flatMap_cons]
        exact hg.trans hr
      · rw [applying_cons_of_applies he ha]
        dsimp only
        rw [hal hk, hg.applying hk]
    · rw [turn_skip he ha] at ho ⊢
      rw [applying_cons_of_not ha]
      exact ih hm (isEmpty_append_singleton kept c) ho

/-- What a successful loop has done. -/
inductive CookiesSent (now : Nat) (m : Message) (before : List (Bytes × Bytes)) (e : Bytes × Bytes)
    (cookies : List Cookie) :
    List Cookie → Message → Prop where
  | nothing (hnone : applying now m cookies = []) : CookiesSent now m before e cookies [] m
  /-- There is a new header for the first cookie of the table. Without room for all of it, a part is missing. -/
  | inserted {c : Cookie} {post S : List Cookie} {h : HeadersBase} {u : Bytes} {m' : Message}
      (hlive : live now cookies = c :: live now post) (happlying : applying now m cookies = c :: applying now m post)
      (hinsert : m.headers.insert (chars "Cookie") [] = .ok h)
      (hroom : c.text.length + 18 ≤ m.headers.spaceRemain → u = c.text)
      (hcut : m.headers.spaceRemain < c.text.length + 18 → u.length < c.text.length) (hsub : u.Sublist c.text)
      (hrest : h.getValue (chars "Host") = m.host → S = applying now m post)
      (hm' : m'.Ready (before ++ [e]) (chars "Cookie", u ++ S.flatMap nextText)) :
        CookiesSent now m before e cookies (c :: S) m'
  /-- There is such a header already, and the last one gets longer. -/
  | exist {c : Cookie} {post S : List Cookie} {m' : Message}
      (hlive : live now cookies = c :: live now post) (happlying : applying now m cookies = c :: applying now m post)
      (hfind : m.headers.find (chars "Cookie") ≠ none)
      (hrest : icmp e.1 (chars "Host") ≠ 0 → S = applying now m post)
      (hm' : m'.Ready before (e.1, e.2 ++ (c.text ++ S.flatMap nextText))) :
        CookiesSent now m before e cookies (c :: S) m'
  /-- The first cookie of the table is not sent, and the last header gets longer. -/
  | behind {b c : Cookie} {mid post S : List Cookie} {m' : Message}
      (hlive : live now cookies = b :: mid) (hb : ¬ Applies m b)
      (happlying : applying now m cookies = c :: applying now m post)
      (hrest : icmp e.1 (chars "Host") ≠ 0 → S = applying now m post)
      (hm' : m'.Ready before (e.1, e.2 ++ (nextText c ++ S.flatMap nextText))) :
        CookiesSent now m before e cookies (c :: S) m'

lemma split_applying (hne : applying now m cookies ≠ []) :
    ∃ pre c post, cookies = pre ++ c :: post ∧ (∀ d ∈ pre, d.2.expire < now ∨ ¬ Applies m d) ∧
      ¬ c.2.expire < now ∧ Applies m c := by
  induction cookies with
  | nil => exact absurd rfl hne
  | cons d cookies ih =>
    by_cases hd : ¬ d.2.expire < now ∧ Applies m d
    · exact ⟨[], d, cookies, rfl, fun b hb => absurd hb not_mem_nil, hd.1, hd.2⟩
    have hn : d.2.expire < now ∨ ¬ Applies m d := by
      by_cases he : d.2.expire < now
      · exact .inl he
      · exact .inr fun ha => hd ⟨he, ha⟩
    have hsa : applying now m (d :: cookies) = applying now m cookies := by
      rcases hn with he | ha
      · exact applying_cons_of_expired he
      · exact applying_cons_of_not ha
    rw [hsa] at hne
    obtain ⟨pre, c, post, rfl, hpr, hc⟩ := ih hne
    refine ⟨d :: pre, c, post, rfl, fun b hb => ?_, hc⟩
    rcases mem_cons.1 hb with rfl | hb
    · exact hn
    · exact hpr b hb

lemma live_append (pre post : List Cookie) : live now (pre ++ post) = live now pre ++ live now post := filter_append ..

lemma applying_skip (hpr : ∀ c ∈ pre, c.2.expire < now ∨ ¬ Applies m c) (rest : List Cookie) :
    applying now m (pre ++ rest) = applying now m rest := by
  have hno : applying now m pre = [] := eq_nil_iff_forall_not_mem.2 fun d hd => by
      obtain ⟨hm, he, ha⟩ := mem_applying.1 hd
      exact (hpr d hm).elim he fun hn => hn ha
  rw [applying, live_append, filter_append]
  exact (congrArg (· ++ _) hno).trans (nil_append _)

lemma setCookies_sent (hm : m.Ready before e)
    (hna : ∀ c ∈ cookies, c.1 ≠ []) (ho : setCookies now [] cookies m = (true, kept', m')) :
    CookiesSent now m before e cookies (sent now true cookies m) m' := by
  by_cases hno : applying now m cookies = []
  · have hal : ∀ c ∈ cookies, c.2.expire < now ∨ ¬ Applies m c := by
      intro c hc
      by_cases he : c.2.expire < now
      · exact .inl he
      · exact .inr fun ha => not_mem_nil (hno ▸ mem_applying.2 ⟨hc, he, ha⟩)
    obtain ⟨hr, hse⟩ := setCookies_skip hal [] []
    rw [append_nil] at hr hse
    rw [hr] at ho
    obtain ⟨-, rfl⟩ := mk.inj (mk.inj ho).2
    have hn : sent now true cookies m = [] := hse
    rw [hn]
    exact .nothing hno
  obtain ⟨pre, c, post, rfl, hpr, he, ha⟩ := split_applying hno
  obtain ⟨hr, hse⟩ := setCookies_skip hpr [] (c :: post)
  rw [hr, nil_append, setCookies] at ho
  have hs' : sent now true (pre ++ c :: post) m = sent now (live now pre).isEmpty (c :: post) m := hse
  rw [hs', sent]
  have hap : applying now m (pre ++ c :: post) = c :: applying now m post := by
    rw [applying_skip hpr, applying_cons_of_applies he ha]
  cases hli : live now pre with
  | nil =>
    have hl' : live now (pre ++ c :: post) = c :: live now post := by
      rw [live_append, hli, nil_append, live_cons_of_not he]
    rw [hli, isEmpty_nil, turn_first he ha] at ho
    rw [isEmpty_nil, turn_first he ha]
    by_cases hf : m.headers.spaceRemain < c.text.length + 16
    · rw [if_pos hf] at ho
      cases ho
    rw [if_neg hf] at ho ⊢
    dsimp only at ho ⊢
    have hsi : 2 ≤ c.text.length := by
      have hnam := length_pos_iff.2 (hna c (mem_append_right pre mem_cons_self))
      have := c.text_length
      omega
    cases hfi : m.headers.find (chars "Cookie") with
    | none =>
      obtain ⟨h, hi⟩ := insertCookie_new hfi (by omega)
      obtain ⟨hre, hsp, ht, hst, hh⟩ := insertCookie_ready hm hi
      have hot : icmp (chars "Cookie") (chars "Host") ≠ 0 := by decide +kernel
      obtain ⟨u, hro, hcu, hsu, hg⟩ : ∃ u, (c.text.length + 18 ≤ m.headers.spaceRemain → u = c.text) ∧
          (m.headers.spaceRemain < c.text.length + 18 → u.length < c.text.length) ∧ u.Sublist c.text ∧
          Message.Grown m.insertCookie (m.insertCookie.appendCookie c) (before ++ [e]) (chars "Cookie") [] u := by
        by_cases hro : c.text.length + 18 ≤ m.headers.spaceRemain
        · exact ⟨c.text, fun _ => rfl, fun hcu => absurd hcu (Int.not_lt.2 hro), .refl _,
            appendCookie_grown hre c (by rw [hsp]; omega)⟩
        · obtain ⟨u, hu, hsu, hg⟩ := appendCookie_cut hre c (by rw [hsp]; omega)
          exact ⟨u, fun h => absurd h hro, fun _ => hu, hsu, hg⟩
      obtain ⟨hres, hal⟩ := setCookies_grown hg.ready rfl ho
      refine .inserted hl' hap hi hro hcu hsu (fun hho => ?_) (hg.trans hres).ready
      rw [hal hot, hg.applying hot]
      refine filter_congr fun d _ => decide_eq_decide.2 ?_
      have hsec : m.insertCookie.secure = m.secure := by rw [secure, secure, hst]
      have hpa : m.insertCookie.absPath = m.absPath := by rw [absPath, absPath, hst, ht]
      have hh' : m.insertCookie.host = m.host := by rw [host, hh, hho]
      rw [Applies, Applies, hsec, hpa, hh']
    | some i =>
      rw [insertCookie_exist hfi] at ho ⊢
      have hg := appendCookie_grown hm c (by omega)
      obtain ⟨hres, hal⟩ := setCookies_grown hg.ready rfl ho
      refine .exist hl' hap (by rw [hfi]; exact some_ne_none i) (fun hk => ?_) (hg.trans hres).ready
      rw [hal hk, hg.applying hk]
  | cons b mid =>
    rw [hli, isEmpty_cons, turn_next he ha] at ho
    rw [isEmpty_cons, turn_next he ha]
    by_cases hf : m.headers.spaceRemain < c.text.length + 8
    · rw [if_pos hf] at ho
      cases ho
    rw [if_neg hf] at ho ⊢
    have hg := append_next hm (Int.not_lt.1 hf)
    obtain ⟨hres, hal⟩ := setCookies_grown hg.ready (isEmpty_append_singleton _ c) ho
    have hb : b ∈ pre ∧ ¬ b.2.expire < now := by
      have hme : b ∈ live now pre := hli ▸ mem_cons_self
      simpa [live] using hme
    have hl' : live now (pre ++ c :: post) = b :: (mid ++ live now (c :: post)) := by
      rw [live_append, hli, cons_append]
    refine .behind hl' ((hpr b hb.1).resolve_left hb.2) hap (fun hk => ?_) (hg.trans hres).ready
    rw [hal hk, hg.applying hk]

end Loop

/-! ## The header -/

def isCookie (e : Bytes × Bytes) : Bool := decide (icmp e.1 (chars "Cookie") = 0)

def cookieText (cookies : List Cookie) : Bytes := (chars "; ").intercalate (cookies.map Cookie.text)

/-- Nothing but the header of the cookies is different, and this has the value `v`. -/
def OnlyCookie (es es' : List (Bytes × Bytes)) (v : Bytes) : Prop :=
  es'.filter (fun e => !isCookie e) = es.filter (fun e => !isCookie e) ∧ (es'.filter isCookie).map snd = [v]

/-- The headers `es` have got the cookies; without any of them they are as they were. -/
def HasCookies (h : HeadersBase) (es : List (Bytes × Bytes)) (cookies : List Cookie) : Prop :=
  ∃ es', h.Laid es' ∧ (cookies = [] → es' = es) ∧ (cookies ≠ [] → OnlyCookie es es' (cookieText cookies))

/-- No cookie is for the request, or the first one of the table that has not expired is, and either there is no header
of cookies and there is room for one with this cookie, or there is one without a value, which was inserted last. -/
def FirstSent (now : Nat) (m : Message) (before : List (Bytes × Bytes)) (e : Bytes × Bytes)
    (cookies : List Cookie) : Prop :=
  applying now m cookies = [] ∨ ∃ c rest, live now cookies = c :: rest ∧ Applies m c ∧
      (((∀ l ∈ before ++ [e], isCookie l = false) ∧ c.text.length + 18 ≤ m.headers.spaceRemain) ∨
        (m.headers.find (chars "Cookie") ≠ none ∧ isCookie e = true ∧ e.2 = [] ∧ ∀ l ∈ before, isCookie l = false))

lemma cookieText_cons (c : Cookie) (cookies : List Cookie) :
    cookieText (c :: cookies) = c.text ++ cookies.flatMap nextText := by
  unfold cookieText
  induction cookies generalizing c with
  | nil =>
    rw [map_singleton, flatMap_nil, append_nil]
    exact intercalate_singleton
  | cons d cookies ih =>
    have h := ih d
    rw [map_cons] at h
    rw [map_cons, map_cons, intercalate_cons_cons, h, flatMap_cons, nextText]
    simp only [append_assoc]

lemma icmp_host_of_isCookie (h : isCookie e = true) : icmp e.1 (chars "Host") ≠ 0 := by
  have hz : icmp e.1 (chars "Cookie") = 0 := of_decide_eq_true h
  have hco : chars "Cookie" = 67 :: [111, 111, 107, 105, 101] := by decide +kernel
  have hh : chars "Host" = 72 :: [111, 115, 116] := by decide +kernel
  unfold icmp stricmpFast at hz ⊢
  rw [hco] at hz
  rw [hh]
  dsimp only at hz ⊢
  rw [if_pos (by simp)] at hz ⊢
  cases hna : e.1 with rw [hna] at hz
  | nil =>
    exact absurd hz (by decide +kernel)
  | cons x =>
    rw [cmpShort] at hz ⊢
    by_cases hx : (tolowerFast x).toInt8.toInt = 99
    · have hn : (tolowerFast x).toInt8.toInt - (tolowerFast 72).toInt8.toInt = -5 := by
        rw [hx]
        decide
      rw [hn, if_pos (by decide), getD_some]
      decide
    · have hn : (tolowerFast x).toInt8.toInt - (tolowerFast 67).toInt8.toInt ≠ 0 := by
        have h67 : (tolowerFast 67).toInt8.toInt = 99 := by decide
        rw [h67]
        omega
      rw [if_pos hn] at hz
      exact absurd hz hn

variable {es : List (Bytes × Bytes)}

lemma exists_isCookie (hl : h.Laid es) (hf : h.find (chars "Cookie") ≠ none) : ∃ l ∈ es, isCookie l = true := by
  obtain ⟨i, hi⟩ := ne_none_iff_exists'.1 hf
  obtain ⟨n, hn, hz⟩ := find_name hi
  rw [names_eq] at hn
  obtain ⟨l, hl', rfl⟩ := mem_map.1 (mem_of_getElem? hn)
  exact ⟨l, hl.pairs_perm.mem_iff.1 hl', decide_eq_true hz⟩

lemma Cookie.text_ne_nil (c : Cookie) : c.text ≠ [] := by
  have := c.text_length
  intro h
  rw [h, length_nil] at this
  omega

section Lines

variable {v t : Bytes}

lemma onlyCookie_new (hn : ∀ l ∈ es, isCookie l = false) : OnlyCookie es (es ++ [(chars "Cookie", v)]) v := by
  have hco : isCookie (chars "Cookie", v) = true := by
    have : icmp (chars "Cookie") (chars "Cookie") = 0 := by decide +kernel
    exact decide_eq_true this
  have hno : es.filter isCookie = [] := filter_eq_nil_iff.2 fun l hl => by rw [hn l hl]; decide
  constructor
  · rw [filter_append, filter_cons_of_neg (by rw [hco]; decide), filter_nil, append_nil]
  · rw [filter_append, hno, filter_cons_of_pos hco]
    rfl

lemma not_onlyCookie_new {l : Bytes × Bytes} (hl : l ∈ es) (hco : isCookie l = true)
    (w : Bytes) : ¬ OnlyCookie es (es ++ [(chars "Cookie", v)]) w := by
  intro h
  have hn : isCookie (chars "Cookie", v) = true := by
    have : icmp (chars "Cookie") (chars "Cookie") = 0 := by decide +kernel
    exact decide_eq_true this
  have hlen := congrArg length h.2
  have hpo : 0 < (es.filter isCookie).length := length_pos_of_mem (mem_filter.2 ⟨hl, hco⟩)
  rw [length_map, filter_append, length_append, filter_cons_of_pos hn, length_cons, length_singleton] at hlen
  omega

lemma onlyCookie_append (before : List (Bytes × Bytes)) (e : Bytes × Bytes) (ht : t ≠ []) :
    OnlyCookie (before ++ [e]) (before ++ [(e.1, e.2 ++ t)]) v ↔
      isCookie e = true ∧ (∀ l ∈ before, isCookie l = false) ∧ e.2 ++ t = v := by
  have hsa : isCookie (e.1, e.2 ++ t) = isCookie e := rfl
  unfold OnlyCookie
  cases hc : isCookie e with
  | false =>
    simp only [Bool.false_eq_true, false_and, iff_false, not_and]
    intro h
    rw [filter_append, filter_append, filter_cons_of_pos (by rw [hsa, hc]; rfl),
      filter_cons_of_pos (hc ▸ rfl)] at h
    have hla := (cons.inj (append_cancel_left h)).1
    have hv := congrArg snd hla
    exact absurd (append_right_eq_self.1 hv) ht
  | true =>
    rw [filter_append, filter_append, filter_cons_of_neg (by rw [hsa, hc]; decide),
      filter_cons_of_neg (by rw [hc]; decide), filter_append, filter_cons_of_pos (by rw [hsa, hc]),
      filter_nil, map_append]
    simp only [true_and]
    constructor
    · intro h
      have hlen := congrArg length h
      rw [length_append, map_cons, length_cons, length_singleton] at hlen
      have hn : (before.filter isCookie).map snd = [] := length_eq_zero_iff.1 (by omega)
      rw [hn] at h
      have hnone := map_eq_nil_iff.1 hn
      exact ⟨fun l hl => by simpa using filter_eq_nil_iff.1 hnone l hl, (cons.inj h).1⟩
    · rintro ⟨hno, rfl⟩
      rw [filter_eq_nil_iff.2 fun l hl => by rw [hno l hl]; decide]
      rfl

end Lines

/-- If `set_cookies_to_headers` succeeds, the request has exactly the cookies that have not expired and apply to it,
and nothing else has changed, if and only if the first cookie of the table is sent. -/
theorem cookie_header (s s' : SimpleCookie) (now : Nat)
    {m m' : Message} {before : List (Bytes × Bytes)} {e : Bytes × Bytes}
    (hm : m.Ready before e)
    (hhost : ∀ h, m.headers.insert (chars "Cookie") [] = .ok h → h.getValue (chars "Host") = m.host)
    (hok : s.setCookiesToHeaders now m = (true, s', m')) :
    HasCookies m'.headers (before ++ [e]) (applying now m s.cookies) ↔ FirstSent now m before e s.cookies := by
  have hse := setCookies_sent hm (fun c hc => (s.named c hc).1) (s.setCookies_of_ok hok)
  have hla := hm.opened.laid
  generalize sent now true s.cookies m = S at hse
  cases hse with
  | nothing hnon => exact iff_of_true ⟨_, hla, fun _ => rfl, fun h => absurd hnon h⟩ (.inl hnon)
  | @inserted c post S h u _ hli hap hins hro hcu hsu hr hm' =>
    have hfi : m.headers.find (chars "Cookie") = none := by
      by_contra hfi
      obtain ⟨i, -⟩ := ne_none_iff_exists'.1 hfi
      unfold HeadersBase.insert at hins
      rw [if_pos ⟨rfl, hfi⟩] at hins
      cases hins
    have hne : applying now m s.cookies ≠ [] := by
      rw [hap]
      exact cons_ne_nil _ _
    have ha : Applies m c := (mem_applying.1 (hap ▸ mem_cons_self)).2.2
    constructor
    · rintro ⟨es', hl, -, ho⟩
      obtain rfl := hl.unique hm'.opened.laid
      have hno : ∀ l ∈ before ++ [e], isCookie l = false := by
        intro l hl
        by_contra hc
        exact not_onlyCookie_new hl (by simpa using hc) _ (ho hne)
      refine .inr ⟨c, _, hli, ha, .inl ⟨hno, ?_⟩⟩
      -- a part that is missing would make the value too short
      by_contra hf
      have hv := (onlyCookie_new (v := u ++ S.flatMap nextText) hno).2
      rw [(ho hne).2, hap, cookieText_cons, ← hr (hhost h hins)] at hv
      have hlen := congrArg length (append_cancel_right (cons.inj hv).1)
      have := hcu (Int.not_le.1 hf)
      omega
    · rintro (hnon | ⟨d, rest, hd, -, ⟨hno, hsp⟩ | ⟨hso, -⟩⟩)
      · exact absurd hnon hne
      · obtain ⟨rfl, -⟩ := cons.inj (hli.symm.trans hd)
        refine ⟨_, hm'.opened.laid, fun h => absurd h hne, fun _ => ?_⟩
        rw [hap, cookieText_cons, ← hr (hhost h hins), hro hsp]
        exact onlyCookie_new hno
      · exact absurd hfi hso
  | @exist c post S _ hli hap hfi hr hm' =>
    have hne : applying now m s.cookies ≠ [] := by
      rw [hap]
      exact cons_ne_nil _ _
    have ha : Applies m c := (mem_applying.1 (hap ▸ mem_cons_self)).2.2
    have ht : c.text ++ S.flatMap nextText ≠ [] := fun h => c.text_ne_nil (append_eq_nil_iff.1 h).1
    have hi := onlyCookie_append before e (v := cookieText (applying now m s.cookies)) ht
    constructor
    · rintro ⟨es', hl, -, ho⟩
      obtain rfl := hl.unique hm'.opened.laid
      obtain ⟨hco, hno, hv⟩ := hi.1 (ho hne)
      rw [hap, cookieText_cons, ← hr (icmp_host_of_isCookie hco)] at hv
      exact .inr ⟨c, _, hli, ha, .inr ⟨hfi, hco, append_left_eq_self.1 hv, hno⟩⟩
    · rintro (hnon | ⟨d, rest, -, -, ⟨hno, -⟩ | ⟨-, hco, hn, hno⟩⟩)
      · exact absurd hnon hne
      · obtain ⟨l, hl, hc⟩ := exists_isCookie hla hfi
        rw [hno l hl] at hc
        cases hc
      · refine ⟨_, hm'.opened.laid, fun h => absurd h hne, fun _ => hi.2 ⟨hco, hno, ?_⟩⟩
        rw [hap, cookieText_cons, ← hr (icmp_host_of_isCookie hco), hn, nil_append]
  | @behind b c mid post S _ hli hb hap hr hm' =>
    have hne : applying now m s.cookies ≠ [] := by
      rw [hap]
      exact cons_ne_nil _ _
    have ht : nextText c ++ S.flatMap nextText ≠ [] := fun h =>
      c.text_ne_nil (append_eq_nil_iff.1 (append_eq_nil_iff.1 h).1).2
    have hi := onlyCookie_append before e (v := cookieText (applying now m s.cookies)) ht
    refine iff_of_false ?_ ?_
    · rintro ⟨es', hl, -, ho⟩
      obtain rfl := hl.unique hm'.opened.laid
      obtain ⟨hco, -, hv⟩ := hi.1 (ho hne)
      rw [hap, cookieText_cons, ← hr (icmp_host_of_isCookie hco)] at hv
      -- there is a separator in front of the first cookie
      have hlen := congrArg length hv
      have hsep : (chars "; ").length = 2 := by decide +kernel
      rw [length_append, length_append, length_append, nextText, length_append] at hlen
      omega
    · rintro (hnon | ⟨d, rest, hd, ha, -⟩)
      · exact hne hnon
      · obtain ⟨rfl, -⟩ := cons.inj (hli.symm.trans hd)
        exact hb ha

lemma insert_ready {m : Message} {host k v : Bytes} {others : List (Bytes × Bytes)} {dup : Bool}
    (hm : m.Laid host others) (hi : m.headers.insert k v dup = .ok h) :
    Message.Ready { m with headers := h } (hostHeader host :: others) (k, v) where
  base := by
    rw [(insert_keeps hi).1, hm.base]
  opened := insert_open hm.headers hi

def cookieRequest : Option Message :=
  sampleRequest.bind fun m => (m.headers.insert (chars "Connection") (chars "keep-alive")).toOption.map fun h =>
    { m with headers := h }

lemma cookieRequest_ready : ∃ m before, cookieRequest = some m ∧
    m.Ready before (chars "Connection", chars "keep-alive") := by
  have hso : sampleRequest.isSome := by decide +kernel
  obtain ⟨m, hm⟩ := isSome_iff_exists.1 hso
  have hf : sampleRequest.all (fun m => decide (m.bufSize ≤ m.capacity ∧ m.headers.kvs ≠ [])) := by decide +kernel
  have hi : cookieRequest.isSome := by decide +kernel
  rw [hm] at hf
  obtain ⟨hli, hk⟩ := of_decide_eq_true hf
  obtain ⟨host, hla⟩ := resetRequest_laid (by decide) (join_eq_some_iff.1 hm) hli hk
  rw [cookieRequest, hm, bind_some] at hi ⊢
  cases hins : m.headers.insert (chars "Connection") (chars "keep-alive") with
  | error =>
    rw [hins] at hi
    cases hi
  | ok => exact ⟨_, _, rfl, insert_ready hla hins⟩

def cookieOf (name value path : Bytes) : Cookie := (name, { CookieItem.new with expire := 5 }.setContents value [] path)

def twoCookies : SimpleCookie where
  cookies := [cookieOf (chars "p") (chars "0") (chars "/"), cookieOf (chars "q") (chars "1") []]
  nodup := by decide +kernel
  named := by decide +kernel

theorem cookie_header_two : ∃ (m m' : Message) (es : List (Bytes × Bytes)), cookieRequest = some m ∧
    HasCookies m'.headers es [cookieOf (chars "p") (chars "0") (chars "/"), cookieOf (chars "q") (chars "1") []] ∧
    cookieText [cookieOf (chars "p") (chars "0") (chars "/"), cookieOf (chars "q") (chars "1") []] =
      chars "p=0; q=1" := by
  obtain ⟨m, before, hm, hre⟩ := cookieRequest_ready
  have hap : cookieRequest.all fun m => decide (∀ c ∈ twoCookies.cookies, ¬ c.2.expire < 5 ∧ Applies m c) := by
    decide +kernel
  have ho : cookieRequest.all fun m => (twoCookies.setCookiesToHeaders 5 m).1 := by decide +kernel
  have hins : cookieRequest.all fun m => (m.headers.insert (chars "Cookie") []).toOption.all fun h =>
      h.getValue (chars "Host") == m.host := by decide +kernel
  have hsp : cookieRequest.all fun m => decide ((m.headers.find (chars "Cookie")) = none ∧ 30 ≤ m.headers.spaceRemain ∧
      ∀ l ∈ m.headers.pairs, isCookie l = false) := by decide +kernel
  rw [hm] at hap ho hins hsp
  obtain ⟨hf, hro, hn⟩ := of_decide_eq_true hsp
  have ha' := of_decide_eq_true hap
  have hli : live 5 twoCookies.cookies = twoCookies.cookies :=
    filter_eq_self.2 fun c hc => decide_eq_true (ha' c hc).1
  have ha : applying 5 m twoCookies.cookies = twoCookies.cookies := by
    rw [applying, hli]
    exact filter_eq_self.2 fun c hc => decide_eq_true (ha' c hc).2
  have hho : ∀ h, m.headers.insert (chars "Cookie") [] = .ok h → h.getValue (chars "Host") = m.host := by
    intro h hh
    rw [all_some, hh] at hins
    exact eq_of_beq hins
  have hr : twoCookies.setCookiesToHeaders 5 m =
      (true, (twoCookies.setCookiesToHeaders 5 m).2.1, (twoCookies.setCookiesToHeaders 5 m).2.2) := Prod.ext ho rfl
  have hi := cookie_header twoCookies _ 5 hre hho hr
  rw [ha] at hi
  refine ⟨m, _, _, hm, hi.2 (.inr ⟨_, _, hli, (ha' _ mem_cons_self).2, .inl ⟨fun l hl => ?_, ?_⟩⟩), by decide +kernel⟩
  · exact hn l (hre.opened.laid.pairs_perm.mem_iff.2 hl)
  · have ht : (cookieOf (chars "p") (chars "0") (chars "/")).text.length = 3 := by decide +kernel
    rw [ht]
    omega

/-- The first cookie is for another path. -/
def skippedFirst : SimpleCookie where
  cookies := [cookieOf (chars "p") (chars "0") (chars "/b"), cookieOf (chars "q") (chars "1") []]
  nodup := by decide +kernel
  named := by decide +kernel

/-- The only cookie for the request gets behind the value of `Connection`. -/
theorem first_skipped :
    (cookieRequest.map fun m => ((applying 5 m skippedFirst.cookies).map Cookie.text, m.headers.text)) =
      some ([chars "q=1"], chars "Host: a\r\nConnection: keep-alive\r\n") ∧
    (cookieRequest.map fun m => ((skippedFirst.setCookiesToHeaders 5 m).1,
      (skippedFirst.setCookiesToHeaders 5 m).2.2.headers.text)) =
      some (true, chars "Host: a\r\nConnection: keep-alive; q=1\r\n") := by
  decide +kernel

end Photon.Http
