import Photon.Common.Estring
import Photon.Net.ChunkedBody
/-!
# URL

`URL::from_string` cuts a text by a chain of searches, each on what the one before it has
left. The parts are views on the text, or on a copy of the target with a slash before it.
-/

namespace Photon.Http

open Estring List Option RStringView16

structure URL where
  /-- `m_url`, the text. -/
  url : Bytes := []
  host : RStringView16 := {}
  hostPort : RStringView16 := {}
  path : RStringView16 := {}
  query : RStringView16 := {}
  target : RStringView16 := {}
  port : Nat := 0
  secure : Bool := false
  tmpTarget : Option Bytes := none
  deriving DecidableEq

namespace URL

def pathText (u : URL) : Bytes := u.path.on (u.tmpTarget.getD u.url)
def targetText (u : URL) : Bytes := u.target.on (u.tmpTarget.getD u.url)
def queryText (u : URL) : Bytes := u.query.on u.url
def hostText (u : URL) : Bytes := u.host.on u.url
def hostPortText (u : URL) : Bytes := u.hostPort.on u.url

def needOptionalPort (u : URL) : Bool := if u.secure then u.port != 443 else u.port != 80

/-- What `from_string` does when it is left: the path and the target get a slash. -/
def fixTarget (u : URL) : URL :=
  let t := u.target.on u.url
  if t.length = 0 ∨ t.head? ≠ some 47 then
    { u with
      tmpTarget := some (47 :: t)
      target := .of 0 (t.length + 1)
      path := .of 0 (u.path.length + 1) }
  else u

/-- The path and the query, when `url` at `offset` is left of the text. -/
def parsePath (u : URL) (offset : Nat) (url : Bytes) : URL :=
  if url = [] then u
  else
    match url.findIdx? (· == 63) with
    | none => { u with target := .of offset url.length, path := .of offset url.length }
    | some p =>
      { u with
        target := .of offset url.length
        path := .of offset p
        query := .of (offset + p + 1) (url.length - (p + 1)) }

def parsePort (u : URL) (offset : Nat) (url : Bytes) : Bool × URL :=
  let (portLen, portVal) := toUint64Check url
  if portLen = 0 ∨ portVal ≥ 65536 then (false, u)
  else
    let u := { u with port := portVal }
    let u := if u.needOptionalPort then
        { u with hostPort := ⟨u.hostPort.offset, (u.hostPort.length + (1 + portLen)) % 2 ^ 16⟩ } else u
    (true, parsePath u (offset + portLen) (url.drop portLen))

def parseRest (u : URL) (offset : Nat) : Bool × URL :=
  let url := u.url.drop offset
  let url := url.take ((url.findIdx? (· == 35)).getD url.length)
  let u := { u with path := {}, query := {}, target := {} }
  match url.findIdx? (fun c => c == 58 || c == 47 || c == 63) with
  | none => (true, { u with host := .of offset url.length, hostPort := .of offset url.length })
  | some p =>
    let u := { u with host := .of offset p, hostPort := .of offset p }
    match url.drop p with
    | [] => (true, u)
    | c :: rest => if c = 58 then parsePort u (offset + p + 1) rest else (true, parsePath u (offset + p) (c :: rest))

/-- `from_string`. Without a scheme, `p + 3` wraps around to 2; `none` when the text does not have so many characters,
which is undefined. -/
def fromString (u : URL) (text : Bytes) : Option (Bool × URL) :=
  let u := { u with url := text, tmpTarget := none, port := 80, secure := false }
  match findSub (chars "://") text with
  | some p =>
    let protocol := text.take p
    if icmp protocol (chars "http") = 0 then some ((u.parseRest (p + 3)).map id fixTarget)
    else if icmp protocol (chars "https") = 0 then
      some (({ u with port := 443, secure := true }.parseRest (p + 3)).map id fixTarget)
    else some (false, u.fixTarget)
  | none => if text.length < 2 then none else some ((u.parseRest 2).map id fixTarget)

end URL

/-! ## The grammar -/

/-- `[http[s]://]host[:port][/[path][?query]][#fragment]`. -/
structure Parts where
  scheme : Option Bytes
  host : Bytes
  port : Option Bytes
  /-- What is behind the slash, and behind the question mark. -/
  path : Option (Bytes × Option Bytes)
  fragment : Option Bytes
  scheme_ok : ∀ s ∈ scheme, s.map tolowerFast = chars "http" ∨ s.map tolowerFast = chars "https"
  host_ok : ∀ c ∈ host, c ≠ 58 ∧ c ≠ 47 ∧ c ≠ 63 ∧ c ≠ 35
  port_ok : ∀ ds ∈ port, ds ≠ [] ∧ (∀ c ∈ ds, IsDigit c) ∧ decimal ds < 65536
  path_ok : ∀ pq ∈ path, (∀ c ∈ pq.1, c ≠ 63 ∧ c ≠ 35) ∧ ∀ q ∈ pq.2, ∀ c ∈ q, c ≠ 35

open Parts

namespace Parts

def after (c : UInt8) (t : Option Bytes) : Bytes := t.elim [] (c :: ·)

def rawTarget (p : Parts) : Bytes := p.path.elim [] fun pq => 47 :: (pq.1 ++ after 63 pq.2)

def text (p : Parts) : Bytes :=
  p.scheme.elim [] (· ++ chars "://") ++ (p.host ++ after 58 p.port ++ p.rawTarget ++ after 35 p.fragment)

def secure (p : Parts) : Bool := p.scheme.any fun s => s.map tolowerFast == chars "https"

def defaultPort (p : Parts) : Nat := if p.secure then 443 else 80

def portNumber (p : Parts) : Nat := p.port.elim p.defaultPort decimal

/-- The path starts with a slash also when there is none in the text. -/
def pathText (p : Parts) : Bytes := 47 :: p.path.elim [] Prod.fst

def query (p : Parts) : Bytes := (p.path.bind Prod.snd).getD []

def target (p : Parts) : Bytes := 47 :: p.path.elim [] fun pq => pq.1 ++ after 63 pq.2

/-- The port is left out when it is the default. -/
def hostPort (p : Parts) : Bytes := if p.portNumber = p.defaultPort then p.host else p.host ++ after 58 p.port

/-- Where the target begins in the text. -/
def offset (p : Parts) : Nat := (p.scheme.elim [] (· ++ chars "://") ++ (p.host ++ after 58 p.port)).length

/-- The length of the target fits 16 bits, and it is also where the 16 bits of its offset say. -/
def TargetFound (p : Parts) : Prop :=
  p.path ≠ none → p.rawTarget.length < 2 ^ 16 ∧ p.rawTarget <+: p.text.drop (p.offset % 2 ^ 16)

def QueryFound (p : Parts) : Prop :=
  ∀ pq ∈ p.path, ∀ q ∈ pq.2, q <+: p.text.drop ((p.offset + pq.1.length + 2) % 2 ^ 16)

end Parts

/-! ## The searches -/

lemma cut_fragment {t : Bytes} (ht : ∀ c ∈ t, c ≠ 35) (f : Option Bytes) :
    (t ++ Parts.after 35 f).take
      (((t ++ Parts.after 35 f).findIdx? (· == 35)).getD (t ++ Parts.after 35 f).length) = t := by
  have hn : ∀ c ∈ t, (c == (35 : UInt8)) = false := fun c hc => beq_false_of_ne (ht c hc)
  cases f with
  | none =>
    rw [Parts.after, elim_none, append_nil, findIdx?_eq_none_iff.2 hn, getD_none, take_length]
  | some =>
    rw [Parts.after, elim_some, findIdx?_append_cons hn rfl, getD_some, take_left]

lemma Parts.rawTarget_cases (p : Parts) : p.rawTarget = [] ∨ ∃ t, p.rawTarget = 47 :: t := by
  rw [rawTarget]
  cases p.path with
  | none => exact .inl rfl
  | some => exact .inr ⟨_, rfl⟩

lemma Parts.rawTarget_ne (p : Parts) : ∀ c ∈ p.rawTarget, c ≠ 35 := by
  intro c hc
  rw [rawTarget] at hc
  rcases hp : p.path with _ | ⟨pa, q⟩
  · rw [hp] at hc
    cases hc
  rw [hp, elim_some, mem_cons, mem_append] at hc
  obtain ⟨hpa, hq⟩ := p.path_ok _ hp
  rcases hc with rfl | hc | hc
  · decide
  · exact (hpa c hc).2
  · cases q with
    | none => cases hc
    | some q =>
      rcases mem_cons.1 hc with rfl | hc
      · decide
      · exact hq q rfl c hc

lemma Parts.authority_ne (p : Parts) : ∀ c ∈ p.host ++ Parts.after 58 p.port ++ p.rawTarget, c ≠ 35 := by
  intro c hc
  rw [mem_append, mem_append] at hc
  rcases hc with (hc | hc) | hc
  · exact (p.host_ok c hc).2.2.2
  · cases hp : p.port with rw [hp] at hc
    | none =>
      cases hc
    | some ds =>
      rcases mem_cons.1 hc with rfl | hc
      · decide
      · rintro rfl
        exact absurd ((p.port_ok ds hp).2.1 35 hc) (by decide)
  · exact p.rawTarget_ne c hc

namespace URL

structure Cut (p : Parts) (u : URL) : Prop where
  host : u.hostText = p.host
  hostPort : u.hostPortText = p.hostPort
  port : u.port = p.portNumber
  secure : u.secure = p.secure
  path : u.pathText = p.pathText
  target : u.targetText = p.target
  query : u.queryText = p.query

/-- The text is cut up to the target; the host begins behind `pre`. -/
structure UpTo (p : Parts) (pre : Bytes) (u : URL) : Prop where
  host : u.host = .of pre.length p.host.length
  hostPort : u.hostPort = if p.portNumber = p.defaultPort then u.host
    else ⟨u.host.offset, (u.host.length + (Parts.after 58 p.port).length) % 2 ^ 16⟩
  port : u.port = p.portNumber
  secure : u.secure = p.secure
  path : u.path = {}
  query : u.query = {}
  target : u.target = {}
  tmpTarget : u.tmpTarget = none

variable {u : URL} {p : Parts}

/-! ### The target -/

lemma fixTarget_of_slash {t : Bytes} (ht : u.target.on u.url = 47 :: t) : u.fixTarget = u := by
  rw [fixTarget, ht, if_neg]
  rintro (h | h)
  · cases h
  · exact h rfl

/-- A target gets a slash only if it was not found, and then its length is wrong. -/
lemma fixTarget_targetText {t : Bytes} {offset : Nat} (ht : u.target = .of offset (t.length + 1))
    (htm : u.tmpTarget = none) (hle : offset + (t.length + 1) ≤ u.url.length) :
    u.fixTarget.targetText = 47 :: t ↔ u.target.on u.url = 47 :: t := by
  constructor
  · intro h
    by_cases hs : (u.target.on u.url).length = 0 ∨ (u.target.on u.url).head? ≠ some 47
    · exfalso
      have hlen : (u.target.on u.url).length = (t.length + 1) % 2 ^ 16 := by
        rw [ht, on, length_take, length_drop, of]
        dsimp only
        omega
      have hl := congrArg List.length h
      rw [fixTarget, if_pos hs, targetText, getD_some, on, length_take, length_drop, length_cons,
        length_cons, hlen] at hl
      simp only [of] at hl
      omega
    · rw [fixTarget, if_neg hs, targetText, htm] at h
      exact h
  · intro h
    rw [fixTarget_of_slash h, targetText, htm]
    exact h

/-- Nothing but the path, the target and the query is changed. -/
structure Same (u u' : URL) : Prop where
  url : u'.url = u.url
  host : u'.host = u.host
  hostPort : u'.hostPort = u.hostPort
  port : u'.port = u.port
  secure : u'.secure = u.secure

lemma fixTarget_same (u : URL) : Same u u.fixTarget := by
  unfold fixTarget
  dsimp only
  split <;> exact ⟨rfl, rfl, rfl, rfl, rfl⟩

lemma parsePath_same (u : URL) (offset : Nat) (url : Bytes) : Same u (u.parsePath offset url) := by
  unfold parsePath
  split
  · exact ⟨rfl, rfl, rfl, rfl, rfl⟩
  · split <;> exact ⟨rfl, rfl, rfl, rfl, rfl⟩

lemma parsePath_iff {pre : Bytes} (hu : UpTo p pre u) (hur : u.url = p.text) :
    let u' := (u.parsePath p.offset p.rawTarget).fixTarget
    (u'.targetText = p.target ↔ p.TargetFound) ∧
      (p.TargetFound → u'.pathText = p.pathText ∧ (u'.queryText = p.query ↔ p.QueryFound)) := by
  intro u'
  rcases hp : p.path with _ | ⟨pa, q⟩
  · -- there is no target, and it becomes a slash
    have hr : p.rawTarget = [] := by rw [rawTarget, hp]; rfl
    have hf : u' = { u with tmpTarget := some [47], target := .of 0 1, path := .of 0 1 } := by
      have ht : u.target.on u.url = [] := by rw [hu.target]; rfl
      dsimp only [u']
      rw [hr, parsePath, if_pos rfl, fixTarget, ht, if_pos (.inl rfl), hu.path]
      rfl
    have hq : u'.queryText = [] := by
      rw [hf, queryText, hu.query]
      rfl
    rw [hq, Parts.TargetFound, Parts.QueryFound, Parts.query, Parts.target, Parts.pathText, hp, hf]
    exact ⟨iff_of_true rfl nofun, fun _ => ⟨rfl, iff_of_true rfl nofun⟩⟩
  have hr : p.rawTarget = 47 :: (pa ++ Parts.after 63 q) := by rw [rawTarget, hp]; rfl
  have hle : p.offset + p.rawTarget.length ≤ u.url.length := by
    rw [hur, Parts.text, Parts.offset]
    simp only [length_append]
    omega
  have hn : ∀ c ∈ 47 :: pa, (c == (63 : UInt8)) = false := by
    intro c hc
    rcases mem_cons.1 hc with rfl | hc
    · rfl
    · exact beq_false_of_ne ((p.path_ok _ hp).1 c hc).1
  -- the views before the target is looked at again
  obtain ⟨u1, hu1, hv⟩ : ∃ u1 : URL, u.parsePath p.offset p.rawTarget = u1 ∧
      u1.target = .of p.offset p.rawTarget.length ∧ u1.path = .of p.offset (pa.length + 1) ∧
      u1.query = q.elim {} fun q => .of (p.offset + (pa.length + 1) + 1) q.length := by
    refine ⟨_, rfl, ?_⟩
    cases q with
    | none =>
      rw [Parts.after, elim_none, append_nil] at hr
      rw [parsePath, if_neg (by rw [hr]; exact cons_ne_nil _ _), findIdx?_eq_none_iff.2 (by rw [hr]; exact hn)]
      exact ⟨rfl, by rw [hr]; rfl, hu.query⟩
    | some q =>
      have hi : p.rawTarget.findIdx? (· == 63) = some (pa.length + 1) := by
        rw [hr]
        exact findIdx?_append_cons hn rfl
      rw [parsePath, if_neg (by rw [hr]; exact cons_ne_nil _ _), hi]
      have hl : p.rawTarget.length - (pa.length + 1 + 1) = q.length := by
        rw [hr, Parts.after, elim_some, length_cons, length_append, length_cons]
        omega
      dsimp only
      rw [hl]
      exact ⟨rfl, rfl, rfl⟩
  obtain ⟨hvt, hvp, hvq⟩ := hv
  have hsa := parsePath_same u p.offset p.rawTarget
  have htm : u1.tmpTarget = none := by
    rw [← hu1, parsePath]
    split
    · exact hu.tmpTarget
    · split <;> exact hu.tmpTarget
  rw [hu1] at hsa
  have hut : u1.url = p.text := hsa.url.trans hur
  have hta : p.target = p.rawTarget := by rw [Parts.target, hp, hr]; rfl
  have hto : u1.target.on u1.url = p.rawTarget ↔ p.TargetFound := by
    rw [hvt, of_on_iff rfl, hut, Parts.TargetFound, hp]
    exact ⟨fun h _ => h, fun h => h nofun⟩
  have hu' : u' = u1.fixTarget := congrArg fixTarget hu1
  have hfi : u1.fixTarget.targetText = p.rawTarget ↔ u1.target.on u1.url = p.rawTarget := by
    rw [hr]
    exact fixTarget_targetText (by rw [hvt, hr]; rfl) htm (by rw [hsa.url]; rw [hr] at hle; exact hle)
  rw [hu', hta]
  refine ⟨hfi.trans hto, fun hf => ?_⟩
  obtain ⟨hsm, hpr⟩ := hf (by rw [hp]; nofun)
  rw [fixTarget_of_slash ((hto.2 hf).trans hr)]
  rw [hr, length_cons, length_append] at hsm
  constructor
  · rw [pathText, htm, getD_none, hvp, hut, Parts.pathText, hp]
    refine (of_on_iff (t := 47 :: pa) rfl).2 ⟨by rw [length_cons]; omega, IsPrefix.trans ?_ hpr⟩
    rw [hr]
    exact ⟨Parts.after 63 q, rfl⟩
  · rw [queryText, hvq, hut, Parts.query, Parts.QueryFound, hp]
    cases q with
    | none => exact iff_of_true rfl (by rintro _ ⟨⟩ _ ⟨⟩)
    | some q =>
      have hlq : q.length < 2 ^ 16 := by
        rw [Parts.after, elim_some, length_cons] at hsm
        omega
      rw [elim_some, of_on_iff (by rfl)]
      constructor
      · rintro ⟨-, h⟩ _ ⟨⟩ _ ⟨⟩
        exact h
      · exact fun h => ⟨hlq, h _ rfl _ rfl⟩

/-! ### The host and the port -/

lemma needOptionalPort_iff (p : Parts) (hse : u.secure = p.secure) :
    u.needOptionalPort = true ↔ u.port ≠ p.defaultPort := by
  rw [needOptionalPort, defaultPort, hse]
  split <;> exact bne_iff_ne

lemma parsePort_eq {ds pre : Bytes} (hp : p.port = some ds) (hho : u.host = .of pre.length p.host.length)
    (hh : u.hostPort = u.host) (hse : u.secure = p.secure)
    (hn : u.path = {} ∧ u.query = {} ∧ u.target = {} ∧ u.tmpTarget = none) (offset : Nat) :
    ∃ u1, u.parsePort offset (ds ++ p.rawTarget) = (true, u1.parsePath (offset + ds.length) p.rawTarget) ∧
      UpTo p pre u1 ∧ u1.url = u.url := by
  obtain ⟨hne, hd, hsm⟩ := p.port_ok ds hp
  have hhe : ∀ c ∈ p.rawTarget.head?, ¬ IsDigit c := by
    intro c hc
    rcases p.rawTarget_cases with hr | ⟨t, hr⟩
    · rw [hr] at hc
      cases hc
    · rw [hr] at hc
      cases hc
      decide
  have hch : toUint64Check (ds ++ p.rawTarget) = (ds.length, decimal ds) := by
    rw [toUint64Check_digits hd hhe, Nat.mod_eq_of_lt (by omega)]
  have hpn : p.portNumber = decimal ds := by rw [Parts.portNumber, hp]; rfl
  have hneed := needOptionalPort_iff (u := { u with port := decimal ds }) p hse
  obtain ⟨h1, h2, h3, h4⟩ := hn
  rw [parsePort, hch]
  dsimp only
  rw [if_neg (by have := length_pos_iff.2 hne; omega), drop_left]
  refine ⟨_, rfl, ?_, ?_⟩
  · split
    next ho =>
      refine ⟨hho, ?_, hpn.symm, hse, h1, h2, h3, h4⟩
      rw [if_neg (by rw [hpn]; exact hneed.1 ho), hp, Parts.after, elim_some, length_cons, add_comm ds.length]
      exact congrArg (fun v : RStringView16 => RStringView16.mk v.offset ((v.length + (1 + ds.length)) % 2 ^ 16)) hh
    next ho =>
      refine ⟨hho, ?_, hpn.symm, hse, h1, h2, h3, h4⟩
      rw [if_pos (by rw [hpn]; by_contra h; exact ho (hneed.2 h))]
      exact hh
  · split <;> rfl

lemma parseRest_eq (pre : Bytes)
    (hu : u.url = pre ++ (p.host ++ Parts.after 58 p.port ++ p.rawTarget ++ Parts.after 35 p.fragment))
    (ht : u.tmpTarget = none) (hpo : u.port = p.defaultPort) (hse : u.secure = p.secure) :
    ∃ u1, u.parseRest pre.length = (true, u1.parsePath (pre ++ (p.host ++ Parts.after 58 p.port)).length p.rawTarget) ∧
      UpTo p pre u1 ∧ u1.url = u.url := by
  have hd : u.url.drop pre.length = p.host ++ Parts.after 58 p.port ++ p.rawTarget ++ Parts.after 35 p.fragment := by
    rw [hu, drop_left]
  have hh : ∀ c ∈ p.host, (c == 58 || c == 47 || c == 63) = false := by
    intro c hc
    obtain ⟨h1, h2, h3, -⟩ := p.host_ok c hc
    simp [h1, h2, h3]
  let u1 : URL := { u with
      path := {}, query := {}, target := {}, host := .of pre.length p.host.length,
      hostPort := .of pre.length p.host.length }
  rw [parseRest]
  dsimp only
  rw [hd, cut_fragment p.authority_ne]
  cases hp : p.port with
  | some ds =>
    have ha : p.host ++ Parts.after 58 (some ds) ++ p.rawTarget = p.host ++ 58 :: (ds ++ p.rawTarget) := by
      simp [Parts.after]
    have hl : (pre ++ (p.host ++ Parts.after 58 (some ds))).length = pre.length + p.host.length + 1 + ds.length := by
      rw [length_append, length_append, Parts.after, elim_some, length_cons]
      omega
    rw [ha, findIdx?_append_cons hh rfl]
    dsimp only
    rw [drop_left]
    dsimp only
    rw [if_pos rfl, hl]
    exact parsePort_eq (u := u1) hp rfl rfl hse ⟨rfl, rfl, rfl, ht⟩ _
  | none =>
    have ha : p.host ++ Parts.after 58 none ++ p.rawTarget = p.host ++ p.rawTarget := by simp [Parts.after]
    have hn : p.portNumber = p.defaultPort := by rw [Parts.portNumber, hp]; rfl
    have hup : UpTo p pre u1 := ⟨rfl, (if_pos hn).symm, hpo.trans hn.symm, hse, rfl, rfl, rfl, ht⟩
    have hl : (pre ++ (p.host ++ Parts.after 58 none)).length = pre.length + p.host.length := by
      rw [Parts.after, elim_none, append_nil, length_append]
    rw [ha, hl]
    refine ⟨u1, ?_, hup, rfl⟩
    rcases p.rawTarget_cases with hr | ⟨t, hr⟩
    · rw [hr, append_nil, findIdx?_eq_none_iff.2 hh, parsePath, if_pos rfl]
    · rw [hr, findIdx?_append_cons hh rfl]
      dsimp only
      rw [drop_left]
      dsimp only
      rw [if_neg (by decide)]

/-- The host is behind a scheme, so that only its length may be too large. -/
lemma UpTo.host_iff {pre post : Bytes} (hu : UpTo p pre u) (hpre : pre.length < 2 ^ 16)
    (hur : u.url = pre ++ (p.host ++ (Parts.after 58 p.port ++ post))) :
    (u.hostText = p.host ↔ p.host.length < 2 ^ 16) ∧ (u.hostPortText = p.hostPort ↔ p.hostPort.length < 2 ^ 16) := by
  have hd : u.url.drop (pre.length % 2 ^ 16) = p.host ++ (Parts.after 58 p.port ++ post) := by
    rw [Nat.mod_eq_of_lt hpre, hur, drop_left]
  have hho : u.hostText = p.host ↔ p.host.length < 2 ^ 16 := by
    rw [hostText, hu.host, of_on_iff rfl, hd]
    exact and_iff_left (prefix_append ..)
  refine ⟨hho, ?_⟩
  rw [hostPortText, hu.hostPort, Parts.hostPort]
  split
  · exact hho
  · have hof : ∀ n, (⟨u.host.offset, (u.host.length + n) % 2 ^ 16⟩ : RStringView16) =
      .of pre.length (p.host.length + n) := by
      intro n
      rw [hu.host, of, of]
      dsimp only
      rw [Nat.mod_add_mod]
    rw [hof, ← length_append, of_on_iff rfl, hd]
    refine and_iff_left ⟨post, ?_⟩
    rw [append_assoc]

end URL

open URL

variable {s : Bytes}

lemma colon_notMem (hs : s.map tolowerFast = chars "http" ∨ s.map tolowerFast = chars "https") : 58 ∉ s := by
  intro hm
  have hme' : (58 : UInt8) ∈ s.map tolowerFast := mem_map.2 ⟨58, hm, by decide⟩
  rcases hs with hs | hs
  all_goals
    rw [hs] at hme'
    exact absurd hme' (by decide +kernel)

lemma URL.fromString_eq (u : URL) {p : Parts} (hs : p.scheme = some s) :
    ∃ u1, u.fromString p.text = some (true, (u1.parsePath p.offset p.rawTarget).fixTarget) ∧
      UpTo p (s ++ chars "://") u1 ∧ u1.url = p.text := by
  have ho := p.scheme_ok s hs
  have hte : p.text = s ++ (chars "://" ++
    (p.host ++ Parts.after 58 p.port ++ p.rawTarget ++ Parts.after 35 p.fragment)) := by
    rw [text, hs, elim_some, append_assoc]
  have hf : findSub (chars "://") p.text = some s.length := by
    rw [hte]
    exact findSub_append (colon_notMem ho) (prefix_append ..)
  have hta : p.text.take s.length = s := by rw [hte, take_left]
  have hcm : ∀ t : Bytes, t.length < 8 → icmp s t = icmp (s.map tolowerFast) (t.map tolowerFast) :=
    fun t ht => icmp_map (lt_of_le_of_lt (min_le_right ..) ht)
  have hse : p.secure = (s.map tolowerFast == chars "https") := by rw [Parts.secure, hs, any_some]
  have hr : ∀ u0 : URL, u0.url = p.text → u0.tmpTarget = none → u0.port = p.defaultPort → u0.secure = p.secure →
      ∃ u1, (u0.parseRest (s.length + 3)).map id fixTarget = (true, (u1.parsePath p.offset p.rawTarget).fixTarget) ∧
        UpTo p (s ++ chars "://") u1 ∧ u1.url = p.text := by
    intro u0 hu htm hpo hsec
    have hpr : (s ++ chars "://").length = s.length + 3 := by
      rw [length_append]
      rfl
    have hof : p.offset = (s ++ chars "://" ++ (p.host ++ Parts.after 58 p.port)).length := by
      rw [Parts.offset, hs, elim_some]
    obtain ⟨u1, hpa, hup, hur⟩ := parseRest_eq (s ++ chars "://") (by rw [hu, hte, append_assoc s]) htm hpo hsec
    rw [hpr, ← hof] at hpa
    exact ⟨u1, by rw [hpa]; rfl, hup, hur.trans hu⟩
  rw [fromString, hf]
  dsimp only
  rw [hta]
  rcases ho with hlo | hlo
  · have hh : icmp s (chars "http") = 0 := by
      rw [hcm _ (by decide), hlo]
      decide +kernel
    have hpl : p.secure = false := by
      rw [hse, hlo]
      decide +kernel
    rw [if_pos hh]
    obtain ⟨u1, hpa, hup⟩ := hr { u with url := p.text, tmpTarget := none, port := 80, secure := false } rfl rfl
      (by rw [defaultPort, hpl]; rfl) hpl.symm
    exact ⟨u1, congrArg some hpa, hup⟩
  · have hn : icmp s (chars "http") ≠ 0 := by
      rw [hcm _ (by decide), hlo]
      decide +kernel
    have hht : icmp s (chars "https") = 0 := by
      rw [hcm _ (by decide), hlo]
      decide +kernel
    have htl : p.secure = true := by
      rw [hse, hlo]
      decide +kernel
    rw [if_neg hn, if_pos hht]
    obtain ⟨u1, hpa, hup⟩ := hr { u with url := p.text, tmpTarget := none, port := 443, secure := true } rfl rfl
      (by rw [defaultPort, htl]; rfl) htl.symm
    exact ⟨u1, congrArg some hpa, hup⟩

/-- What `from_string` makes of a text with a scheme, and when it is right. -/
lemma URL.fromString_iff (u : URL) {p : Parts} (hs : p.scheme = some s) :
    ∃ u', u.fromString p.text = some (true, u') ∧ u'.port = p.portNumber ∧ u'.secure = p.secure ∧
      (u'.hostText = p.host ↔ p.host.length < 2 ^ 16) ∧ (u'.hostPortText = p.hostPort ↔ p.hostPort.length < 2 ^ 16) ∧
      (u'.targetText = p.target ↔ p.TargetFound) ∧
      (p.TargetFound → u'.pathText = p.pathText ∧ (u'.queryText = p.query ↔ p.QueryFound)) := by
  obtain ⟨u1, hfr, hup, hur⟩ := u.fromString_eq hs
  have hsl : s.length ≤ 5 := by
    have h4 : (chars "http").length = 4 := rfl
    have h5 : (chars "https").length = 5 := rfl
    rcases p.scheme_ok s hs with h | h
    all_goals
      have := congrArg List.length h
      rw [length_map] at this
      omega
  have hte : u1.url = s ++ chars "://" ++
    (p.host ++ (Parts.after 58 p.port ++ (p.rawTarget ++ Parts.after 35 p.fragment))) := by
    rw [hur, text, hs, elim_some]
    simp only [append_assoc]
  have hho := hup.host_iff (by rw [length_append]; have : (chars "://").length = 3 := rfl; omega) hte
  have hta := parsePath_iff hup hur
  have h1 := parsePath_same u1 p.offset p.rawTarget
  have h2 := fixTarget_same (u1.parsePath p.offset p.rawTarget)
  refine ⟨_, hfr, (h2.port.trans h1.port).trans hup.port, (h2.secure.trans h1.secure).trans hup.secure, ?_, ?_, hta⟩
  · rw [hostText, h2.host, h1.host, h2.url, h1.url]
    exact hho.1
  · rw [hostPortText, h2.hostPort, h1.hostPort, h2.url, h1.url]
    exact hho.2

/-! ## Without a scheme -/

/-- The host ends at the first delimiter. -/
lemma URL.parseRest_host {u u' : URL} {offset k : Nat} {r : Bytes}
    (hc : (u.url.drop offset).take (((u.url.drop offset).findIdx? (· == 35)).getD (u.url.drop offset).length) = r)
    (hk : (r.findIdx? (fun c => c == 58 || c == 47 || c == 63)).getD r.length = k)
    (hr : u.parseRest offset = (true, u')) : u'.host = .of offset k := by
  unfold parseRest at hr
  dsimp only at hr
  rw [hc] at hr
  split at hr
  next hn =>
    rw [hn] at hk
    cases hr
    rw [← hk]
    rfl
  next i hi =>
    rw [hi, getD_some] at hk
    subst hk
    split at hr
    · cases hr
      rfl
    split at hr
    · unfold parsePort at hr
      dsimp only at hr
      split at hr
      · cases hr
      · cases hr
        rw [(parsePath_same ..).host]
        split <;> rfl
    · cases hr
      exact (parsePath_same ..).host

/-- The first two characters are dropped, and the host is two characters shorter. -/
lemma URL.fromString_bare (u : URL) {p : Parts} (hs : p.scheme = none) (hno : findSub (chars "://") p.text = none)
    (htwo : 2 ≤ p.host.length) : ¬∃ u', u.fromString p.text = some (true, u') ∧ Cut p u' := by
  rintro ⟨u2, hfr, hc⟩
  have hte : p.text = p.host ++ Parts.after 58 p.port ++ p.rawTarget ++ Parts.after 35 p.fragment := by
    rw [Parts.text, hs]
    rfl
  have hle : p.host.length ≤ p.text.length := by
    rw [hte, append_assoc, append_assoc, length_append]
    exact Nat.le_add_right ..
  rw [fromString, hno] at hfr
  dsimp only at hfr
  rw [if_neg (by omega), some.injEq] at hfr
  rcases hr : ({ u with url := p.text, tmpTarget := none, port := 80, secure := false } : URL).parseRest 2 with ⟨ok, u'⟩
  rw [hr] at hfr
  obtain ⟨rfl, rfl⟩ : ok = true ∧ u'.fixTarget = u2 := Prod.mk.inj hfr
  have hdr : (p.host ++ Parts.after 58 p.port ++ p.rawTarget).drop 2 =
      p.host.drop 2 ++ (Parts.after 58 p.port ++ p.rawTarget) := by
    rw [append_assoc, drop_append_of_le_length htwo]
  have hcu : ((p.text.drop 2).take (((p.text.drop 2).findIdx? (· == 35)).getD (p.text.drop 2).length)) =
      p.host.drop 2 ++ (Parts.after 58 p.port ++ p.rawTarget) := by
    rw [hte, drop_append_of_le_length (by rw [append_assoc, length_append]; omega), ← hdr]
    exact cut_fragment (fun c hc => p.authority_ne c (mem_of_mem_drop hc)) _
  have hnd : ∀ c ∈ p.host.drop 2, (c == 58 || c == 47 || c == 63) = false := by
    intro c hc
    obtain ⟨h1, h2, h3, -⟩ := p.host_ok c (mem_of_mem_drop hc)
    simp [h1, h2, h3]
  have hk : ((p.host.drop 2 ++ (Parts.after 58 p.port ++ p.rawTarget)).findIdx?
      (fun c => c == 58 || c == 47 || c == 63)).getD
        (p.host.drop 2 ++ (Parts.after 58 p.port ++ p.rawTarget)).length = (p.host.drop 2).length := by
    cases p.port with
    | some ds => rw [Parts.after, elim_some, cons_append, findIdx?_append_cons hnd rfl, getD_some]
    | none =>
      rcases p.rawTarget_cases with hr | ⟨t, hr⟩
      · rw [hr, Parts.after, elim_none, append_nil, append_nil, findIdx?_eq_none_iff.2 hnd, getD_none]
      · rw [hr, Parts.after, elim_none, nil_append, findIdx?_append_cons hnd rfl, getD_some]
  have hlh := congrArg List.length hc.host
  rw [hostText, (fixTarget_same u').host, parseRest_host hcu hk hr] at hlh
  have hon := on_length_le (.of 2 (p.host.drop 2).length) u'.fixTarget.url
  have hmo := Nat.mod_le (p.host.drop 2).length (2 ^ 16)
  rw [length_drop] at hon hmo hlh
  change _ ≤ (p.host.length - 2) % 2 ^ 16 at hon
  omega

/-- `http://ab.c:81/d?e#f`. -/
def sampleParts : Parts where
  scheme := some (chars "http")
  host := chars "ab.c"
  port := some (chars "81")
  path := some (chars "d", some (chars "e"))
  fragment := some (chars "f")
  scheme_ok := by decide +kernel
  host_ok := by decide +kernel
  port_ok := by decide +kernel
  path_ok := by decide +kernel

/-- `xyz.de/f`, without a scheme. -/
def bareParts : Parts where
  scheme := none
  host := chars "xyz.de"
  port := none
  path := some (chars "f", none)
  fragment := none
  scheme_ok := by decide +kernel
  host_ok := by decide +kernel
  port_ok := by decide +kernel
  path_ok := by decide +kernel

def isunreserved (c : UInt8) : Bool :=
  (48 ≤ c && c ≤ 57) || (65 ≤ c && c ≤ 90) || (97 ≤ c && c ≤ 122) || c == 45 || c == 46 || c == 95 || c == 126

def upperHex (n : UInt8) : UInt8 := if n < 10 then 48 + n else 55 + n

def escapeChar (escapeSlash : Bool) (c : UInt8) : Bytes :=
  if isunreserved c then [c]
  else if escapeSlash = false ∧ c = 47 then [c]
  else [37, upperHex (c >>> 4), upperHex (c &&& 0xf)]

def urlEscape (url : Bytes) (escapeSlash : Bool) : Bytes := url.flatMap (escapeChar escapeSlash)

def unescapeLoop (url : Bytes) : Nat → Nat → Bytes → Option Bytes
  | 0, _, _ => none
  | fuel + 1, i, ret =>
    match url[i]? with
    | none => some ret
    | some c =>
      if c = 37 ∧ (i + 2) % 2 ^ 32 < url.length then
        unescapeLoop url fuel ((i + 3) % 2 ^ 32) (ret ++ [(hexToUint64 ((url.drop (i + 1)).take 2)).toUInt8])
      else if c = 43 then unescapeLoop url fuel ((i + 1) % 2 ^ 32) (ret ++ [32])
      else unescapeLoop url fuel ((i + 1) % 2 ^ 32) (ret ++ [c])

def urlUnescape (url : Bytes) : Option Bytes := unescapeLoop url (url.length + 1) 0 []

/-- Unreserved characters, `%` and two hexadecimal digits, and slashes when they are not escaped. -/
inductive Escaped (escapeSlash : Bool) : Bytes → Prop where
  | nil : Escaped escapeSlash []
  | plain {c : UInt8} {t : Bytes} (h : isunreserved c = true) (next : Escaped escapeSlash t) :
    Escaped escapeSlash (c :: t)
  | slash {t : Bytes} (h : escapeSlash = false) (next : Escaped escapeSlash t) : Escaped escapeSlash (47 :: t)
  | percent {a b : UInt8} {t : Bytes} (ha : hexCharToDigit a < 16) (hb : hexCharToDigit b < 16)
      (next : Escaped escapeSlash t) : Escaped escapeSlash (37 :: a :: b :: t)

lemma upperHex_digits (c : UInt8) :
    hexCharToDigit (upperHex (c >>> 4)) < 16 ∧ hexCharToDigit (upperHex (c &&& 0xf)) < 16 ∧
      (hexToUint64 [upperHex (c >>> 4), upperHex (c &&& 0xf)]).toUInt8 = c := by
  have ha : ∀ n < 256, hexCharToDigit (upperHex (UInt8.ofNat n >>> 4)) < 16 ∧
      hexCharToDigit (upperHex (UInt8.ofNat n &&& 0xf)) < 16 ∧
      (hexToUint64 [upperHex (UInt8.ofNat n >>> 4), upperHex (UInt8.ofNat n &&& 0xf)]).toUInt8 = UInt8.ofNat n := by
    decide +kernel
  have hc : UInt8.ofNat c.toNat = c := UInt8.ofNat_toNat
  rw [← hc]
  exact ha c.toNat c.toNat_lt

lemma unreserved_ne {c : UInt8} (h : isunreserved c = true) : c ≠ 37 ∧ c ≠ 43 := by
  constructor
  all_goals
    rintro rfl
    cases h

lemma escapeChar_cases (escapeSlash : Bool) (c : UInt8) :
    escapeChar escapeSlash c = [c] ∧ c ≠ 37 ∧ c ≠ 43 ∧ (isunreserved c = true ∨ escapeSlash = false ∧ c = 47) ∨
      escapeChar escapeSlash c = [37, upperHex (c >>> 4), upperHex (c &&& 0xf)] := by
  unfold escapeChar
  split
  next h => exact .inl ⟨rfl, (unreserved_ne h).1, (unreserved_ne h).2, .inl h⟩
  split
  next h => refine .inl ⟨rfl, ?_, ?_, .inr h⟩ <;> rw [h.2] <;> decide
  · exact .inr rfl

lemma urlEscape_escaped (s : Bytes) (escapeSlash : Bool) : Escaped escapeSlash (urlEscape s escapeSlash) := by
  induction s with
  | nil => exact .nil
  | cons c s ih =>
    rw [urlEscape, flatMap_cons]
    rcases escapeChar_cases escapeSlash c with ⟨h, -, -, hc | ⟨hsl, rfl⟩⟩ | h
    · rw [h]
      exact .plain hc ih
    · rw [h]
      exact .slash hsl ih
    · rw [h]
      exact .percent (upperHex_digits c).1 (upperHex_digits c).2.1 ih

lemma urlEscape_length (s : Bytes) (escapeSlash : Bool) :
    s.length ≤ (urlEscape s escapeSlash).length ∧ (urlEscape s escapeSlash).length ≤ 3 * s.length := by
  induction s with
  | nil => exact ⟨le_rfl, le_rfl⟩
  | cons c s ih =>
    rw [urlEscape, flatMap_cons, length_append, length_cons]
    rw [urlEscape] at ih
    rcases escapeChar_cases escapeSlash c with ⟨h, -⟩ | h
    · rw [h, length_singleton]
      omega
    · rw [h]
      simp only [length_cons, length_nil]
      omega

lemma unescapeLoop_eq (pre : Bytes) {url : Bytes} {escapeSlash : Bool} (hu : url = pre ++ urlEscape s escapeSlash)
    (hle : url.length + 3 < 2 ^ 32) {fuel : Nat} (hf : s.length < fuel) (ret : Bytes) :
    unescapeLoop url fuel pre.length ret = some (ret ++ s) := by
  induction s generalizing pre fuel ret with
  | nil =>
    cases fuel with
    | zero => omega
    | succ =>
      rw [unescapeLoop, hu, urlEscape, flatMap_nil, append_nil, getElem?_eq_none le_rfl, append_nil]
  | cons c s ih =>
    cases fuel with
    | zero => omega
    | succ =>
      rw [length_cons] at hf
      rw [urlEscape, flatMap_cons, ← urlEscape] at hu
      rcases escapeChar_cases escapeSlash c with ⟨h, hpe, hpl, -⟩ | h
      · rw [h, singleton_append] at hu
        have hg : url[pre.length]? = some c := by rw [hu]; simp
        have hbo : pre.length < url.length := (List.getElem?_eq_some_iff.1 hg).1
        have hn : (pre.length + 1) % 2 ^ 32 = (pre ++ [c]).length := by
          rw [Nat.mod_eq_of_lt (by omega)]
          simp
        rw [unescapeLoop, hg]
        dsimp only
        rw [if_neg (fun hc => hpe hc.1), if_neg hpl, hn, ih _ (by rw [hu]; simp) (by omega)]
        simp
      · rw [h] at hu
        have hg : url[pre.length]? = some 37 := by rw [hu]; simp
        have ht : (url.drop (pre.length + 1)).take 2 = [upperHex (c >>> 4), upperHex (c &&& 0xf)] := by
          rw [hu]
          simp
        have hbo : pre.length + 2 < url.length := by
          rw [hu]
          simp
        have hn : (pre.length + 3) % 2 ^ 32 = (pre ++ [37, upperHex (c >>> 4), upperHex (c &&& 0xf)]).length := by
          rw [Nat.mod_eq_of_lt (by omega)]
          simp
        rw [unescapeLoop, hg]
        dsimp only
        rw [if_pos ⟨rfl, by rwa [Nat.mod_eq_of_lt (by omega)]⟩, hn, ih _ (by rw [hu]; simp) (by omega), ht,
          (upperHex_digits c).2.2]
        simp

/-- Unescaping gives back what was escaped, and the escaped form has no other characters. -/
theorem unescape_escape (s : Bytes) (escapeSlash : Bool) (hs : s.length < 2 ^ 30) :
    urlUnescape (urlEscape s escapeSlash) = some s ∧ Escaped escapeSlash (urlEscape s escapeSlash) := by
  have hlen := urlEscape_length s escapeSlash
  have hlo := unescapeLoop_eq [] (nil_append (urlEscape s escapeSlash)).symm (by omega)
    (show s.length < (urlEscape s escapeSlash).length + 1 by omega) []
  exact ⟨hlo, urlEscape_escaped s escapeSlash⟩

theorem unescape_escape_slash : urlUnescape (urlEscape (chars "a/b c") true) = some (chars "a/b c") ∧
    urlEscape (chars "a/b c") true = chars "a%2Fb%20c" ∧ Escaped true (chars "a%2Fb%20c") :=
  have he : urlEscape (chars "a/b c") true = chars "a%2Fb%20c" := by decide +kernel
  have h := unescape_escape (chars "a/b c") true (by decide +kernel)
  ⟨h.1, he, he ▸ h.2⟩

end Photon.Http
