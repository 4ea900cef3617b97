import Mathlib.Data.List.TakeWhile
import Photon.Common.Estring
import Photon.Lib.LittleEndian
import Photon.Lib.Search
import Photon.Net.ChunkedBody
/-!
# HeadersBase

The headers of a message: their text, and at the end of the same buffer an index, sorted by
name, of views on names and values. `parse` makes the index of a text that was received;
`insert` adds a line and its entry, `value_append` makes the value that was added last longer,
and `reset_host` moves the text and changes its first line.
-/

namespace Photon.Http

open Estring List

/-! ## The parser -/

structure Parser where
  text : Bytes
  pos : Nat := 0
  deriving DecidableEq

open Http.Parser

namespace Parser

def rest (p : Parser) : Bytes := p.text.drop p.pos

def skipString (p : Parser) (sv : Bytes) : Parser := if sv <+: p.rest then { p with pos := p.pos + sv.length } else p

def skipChars (p : Parser) (c : UInt8) (repeatedly : Bool := false) : Parser :=
  let n := (p.rest.takeWhile (· == c)).length
  { p with pos := p.pos + if repeatedly then n else min n 1 }

def extractInteger (p : Parser) : Nat × Parser :=
  (toUint64 p.rest, { p with pos := p.pos + (p.rest.takeWhile fun c => decide (IsDigit c)).length })

def extractUntilChar (p : Parser) (c : UInt8) : RStringView16 × Parser :=
  match p.rest.findIdx? (· == c) with
  | none => (.of p.pos p.rest.length, { p with pos := p.text.length })
  | some i => (.of p.pos i, { p with pos := p.pos + i + 1 })

end Parser

/-! ## The headers -/

structure KV where
  key : RStringView16
  value : RStringView16
  deriving DecidableEq

structure HeadersBase where
  mem : Nat → UInt8
  /-- `m_buf`. -/
  base : Nat
  bufSize : Nat := 0
  capacity : Nat
  /-- From `kv_begin()` to `kv_end()`. -/
  kvs : List KV := []
  lastKv : Nat := 0

namespace HeadersBase

def kvBytes : Nat := 8

def text (h : HeadersBase) : Bytes := readBytes h.mem h.base h.bufSize

def on (h : HeadersBase) (v : RStringView16) : Bytes := readBytes h.mem (h.base + v.offset) v.length

def less (h : HeadersBase) (a b : KV) : Bool := decide (icmp (h.on a.key) (h.on b.key) < 0)

def kvAdd (h : HeadersBase) (kv : KV) : Option HeadersBase :=
  if h.capacity ≤ h.bufSize + kvBytes * (h.kvs.length + 1) then none else some { h with kvs := kv :: h.kvs }

def extractHeader (p : Parser) : KV × Parser :=
  let (k, p) := p.extractUntilChar 58
  let p := p.skipChars 32 true
  let (v, p) := p.extractUntilChar CR
  (⟨k, v⟩, p.skipChars LF)

/-- The loop of `parse`. It stops at a carriage return, which it looks for also behind the text. -/
def parseLoop : Nat → HeadersBase → Parser → Option HeadersBase
  | 0, _, _ => none
  | fuel + 1, h, p =>
    if h.mem (h.base + p.pos) = CR then some h
    else
      let (kv, p) := extractHeader p
      match h.kvAdd kv with
      | none => none
      | some h => parseLoop fuel h p

def parse (h : HeadersBase) : Option HeadersBase := (parseLoop (h.capacity + 1) h ⟨h.text, 0⟩).map fun h =>
    { h with kvs := h.kvs.insertionSort fun a b => h.less b a = false }

/-- The entries that the loop has added when it ends, also when it then fails. -/
def recorded : Nat → HeadersBase → Parser → List KV
  | 0, h, _ => h.kvs
  | fuel + 1, h, p =>
    if h.mem (h.base + p.pos) = CR then h.kvs
    else
      let (kv, p) := extractHeader p
      match h.kvAdd kv with
      | none => h.kvs
      | some h => recorded fuel h p

def reset (h : HeadersBase) (buf capacity size : Nat) : Option HeadersBase :=
  let h := { h with base := buf, capacity, bufSize := size, kvs := [], lastKv := 0 }
  if size = 0 then some h else h.parse

def find (h : HeadersBase) (key : Bytes) : Option Nat :=
  let i := lowerBound (fun kv => decide (icmp (h.on kv.key) key < 0)) h.kvs
  match h.kvs[i]? with
  | none => none
  | some kv => if icmp (h.on kv.key) key = 0 then some i else none

def getValue (h : HeadersBase) (key : Bytes) : Bytes :=
  match (h.find key).bind (h.kvs[·]?) with
  | none => []
  | some kv => h.on kv.value

/-- `equal_range`: where the entries with the name begin, and where they end. -/
def equalRange (h : HeadersBase) (key : Bytes) : Nat × Nat :=
  (lowerBound (fun kv => decide (icmp (h.on kv.key) key < 0)) h.kvs,
    lowerBound (fun kv => decide (¬ icmp key (h.on kv.key) < 0)) h.kvs)

/-- `kv_add_sort`: where the entry is put. -/
def kvAddSort (h : HeadersBase) (kv : KV) : Option (Nat × HeadersBase) :=
  if h.capacity ≤ h.bufSize + kvBytes * (h.kvs.length + 1) then none
  else
    let i := lowerBound (fun e => h.less e kv) h.kvs
    some (i, { h with kvs := h.kvs.take i ++ kv :: h.kvs.drop i })

inductive InsertError where
  | exist
  | noBuffer
  deriving DecidableEq

/-- `insert`. The entry is added before `m_buf_size` is set; there is room for it. -/
def insert (h : HeadersBase) (key value : Bytes) (allowDup : Bool := false) : Except InsertError HeadersBase :=
  if allowDup = false ∧ h.find key ≠ none then .error .exist
  else
    let vbegin := h.bufSize + key.length + 2
    let newSize := vbegin + value.length + 2
    if newSize + (h.kvs.length + 1) * kvBytes > h.capacity then .error .noBuffer
    else
      let h := { h with mem := writeBytes h.mem (h.base + h.bufSize) (key ++ (chars ": " ++ (value ++ CRLF))) }
      match h.kvAddSort ⟨.of h.bufSize key.length, .of vbegin value.length⟩ with
      | none => .ok { h with bufSize := newSize % 2 ^ 16 }
      | some (i, h) => .ok { h with bufSize := newSize % 2 ^ 16, lastKv := i }

/-- `value_append`: the value of the entry that was added last gets longer. That it is the last one in the text is taken
for granted. -/
def valueAppend (h : HeadersBase) (value : Bytes) : Bool × HeadersBase :=
  if h.kvs.length ≤ h.lastKv then (false, h)
  else
    let newSize := h.bufSize + value.length
    if newSize + h.kvs.length * kvBytes > h.capacity then (false, h)
    else
      (true, { h with
        mem := writeBytes h.mem (h.base + h.bufSize - 2) (value ++ CRLF)
        bufSize := newSize % 2 ^ 16
        kvs := h.kvs.modify h.lastKv fun kv =>
          { kv with value := { kv.value with length := (kv.value.length + value.length) % 2 ^ 16 } } })

def spaceRemain (h : HeadersBase) : Int := h.capacity - h.bufSize - kvBytes * h.kvs.length

def shiftKv (x : Int) (kv : KV) : KV := ⟨kv.key.shift x, kv.value.shift x⟩

/-- `reset_host`: the headers move by `delta`, and the first of them gets the value `host`; `none` when it has no entry,
`some none` is -1. -/
def resetHost (h : HeadersBase) (delta : Int) (host : Bytes) : Option (Option HeadersBase) :=
  match h.kvs.findIdx? (·.key.offset == 0) with
  | none => none
  | some i =>
    let old := h.kvs[i]?.elim 0 fun kv => kv.value.length
    let innerDelta : Int := host.length - old
    if h.spaceRemain < delta + innerDelta then some none
    else
      let base := (h.base + delta).toNat
      -- memmove
      let mem := writeBytes h.mem (base + host.length + 8) (readBytes h.mem (h.base + old + 8) (h.bufSize - old - 8))
      some (some { h with
        mem := writeBytes mem base (chars "Host: " ++ (host ++ CRLF))
        base
        capacity := u16 (h.capacity - delta)
        bufSize := u16 (h.bufSize + innerDelta)
        kvs := (h.kvs.map (shiftKv innerDelta)).set i ⟨.of 0 4, .of 6 host.length⟩ })

end HeadersBase

/-! ## Lines -/

def block (lines : List Bytes) : Bytes := lines.flatMap (· ++ CRLF)

lemma block_cons (l : Bytes) (lines : List Bytes) : block (l :: lines) = l ++ (CRLF ++ block lines) := by
  rw [block, flatMap_cons, append_assoc]
  rfl

lemma block_append (pre post : List Bytes) : block (pre ++ post) = block pre ++ block post := flatMap_append

inductive Mode where
  /-- A name begins here. -/
  | start
  | name
  | value

/-- How the parser leaves a line: for the next one, not at all since it stops, or with a name that goes on behind it. -/
inductive LineEnd where
  | next
  | stops
  | beyond
  deriving DecidableEq

/-- The number of entries that a line gives, and how it is left. -/
def scan : Mode → Bytes → Nat × LineEnd
  | .start, [] => (0, .stops)
  | .start, c :: l => if c = CR then (0, .stops) else if c = 58 then scan .value l else scan .name l
  | .name, [] => (0, .beyond)
  | .name, c :: l => if c = 58 then scan .value l else scan .name l
  | .value, [] => (1, .next)
  | .value, c :: l => if c = CR then ((scan .start l).1 + 1, (scan .start l).2) else scan .value l

/-- While there is room for an entry, each name ends in the line in which it begins. -/
def CleanLines (room : Nat) : List Bytes → Prop
  | [] => True
  | l :: lines =>
    match scan .start l with
    | (n, .next) => CleanLines (room - n) lines
    | (_, .stops) => True
    | (n, .beyond) => room ≤ n

instance (room : Nat) (lines : List Bytes) : Decidable (CleanLines room lines) := by
  induction lines generalizing room with
  | nil => exact isTrue trivial
  | cons l lines ih =>
    unfold CleanLines
    split
    · exact ih _
    · exact isTrue trivial
    · infer_instance

section Scan

variable {l w : Bytes} {c : UInt8}

lemma scan_start (hc : c ≠ CR) : scan .start (c :: l) = scan .name (c :: l) := by
  rw [scan, if_neg hc, scan]

lemma scan_name (h : 58 ∉ l) (w : Bytes) : scan .name (l ++ 58 :: w) = scan .value w ∧ scan .name l = (0, .beyond) := by
  induction l with
  | nil => exact ⟨if_pos rfl, rfl⟩
  | cons c l ih =>
    obtain ⟨hc, hl⟩ := not_or.1 (mt mem_cons.2 h)
    rw [cons_append, scan, scan, if_neg (Ne.symm hc), if_neg (Ne.symm hc)]
    exact ih hl

lemma scan_value (h : CR ∉ w) (l : Bytes) :
    scan .value (w ++ CR :: l) = ((scan .start l).1 + 1, (scan .start l).2) ∧ scan .value w = (1, .next) := by
  induction w with
  | nil => exact ⟨if_pos rfl, rfl⟩
  | cons c w ih =>
    obtain ⟨hc, hw⟩ := not_or.1 (mt mem_cons.2 h)
    rw [cons_append, scan, scan, if_neg (Ne.symm hc), if_neg (Ne.symm hc)]
    exact ih hw

lemma cleanLines_zero (lines : List Bytes) : CleanLines 0 lines := by
  induction lines with
  | nil => trivial
  | cons l lines ih =>
    rw [CleanLines]
    split
    · rwa [Nat.zero_sub]
    · trivial
    · exact Nat.zero_le _

lemma cleanLines_value {room : Nat} {u : Bytes} {lines : List Bytes}
    (h : scan .start l = ((scan .start u).1 + 1, (scan .start u).2)) :
    CleanLines room (l :: lines) ↔ CleanLines (room - 1) (u :: lines) := by
  rw [CleanLines, CleanLines, h]
  rcases scan .start u with ⟨n, _ | _ | _⟩
  · dsimp only
    rw [Nat.sub_sub, add_comm]
  · rfl
  · dsimp only
    omega

end Scan

/-! ## One line -/

namespace Parser

variable {p : Parser} {c : UInt8} {a b : Bytes}

lemma extractUntilChar_eq (hr : p.rest = a ++ c :: b) (ha : ∀ x ∈ a, (x == c) = false) :
    p.extractUntilChar c = (.of p.pos a.length, { p with pos := p.pos + a.length + 1 }) := by
  rw [extractUntilChar, hr, findIdx?_append_cons ha (beq_self_eq_true c)]

lemma extractUntilChar_beyond (hr : p.rest = a ++ b) (ha : c ∉ a) :
    ∃ k, a.length ≤ k ∧ k ≤ p.rest.length ∧ (p.extractUntilChar c).1 = .of p.pos k := by
  have hn : a.findIdx? (· == c) = none := findIdx?_eq_none_iff.2 fun x hx => beq_false_of_ne fun h => ha (h ▸ hx)
  unfold extractUntilChar
  split
  · exact ⟨_, by rw [hr, length_append]; omega, le_rfl, rfl⟩
  next i hi =>
    refine ⟨i, ?_, ?_, rfl⟩
    · rw [hr, findIdx?_append, hn, Option.none_or] at hi
      obtain ⟨k, -, rfl⟩ := Option.map_eq_some_iff.1 hi
      omega
    · exact (findIdx?_eq_some_iff_getElem.1 hi).1.le

lemma rest_add (hr : p.rest = a ++ b) : ({ p with pos := p.pos + a.length } : Parser).rest = b := by
  unfold rest at hr ⊢
  rw [← drop_drop, hr, drop_left]

lemma rest_add_one (hr : p.rest = a ++ c :: b) : ({ p with pos := p.pos + a.length + 1 } : Parser).rest = b := by
  have := rest_add (p := p) (a := a ++ [c]) (b := b) (by rw [hr, append_assoc]; rfl)
  rwa [length_append, length_singleton, ← add_assoc] at this

lemma skipChars_eq (hr : p.rest = a ++ b) (ha : ∀ x ∈ a, x = c) (hb : ∀ x ∈ b.head?, x ≠ c) :
    p.skipChars c true = { p with pos := p.pos + a.length } := by
  have hst : b.takeWhile (· == c) = [] := by
    cases b with
    | nil => rfl
    | cons d => exact takeWhile_cons_of_neg (by simpa using hb d rfl)
  rw [skipChars, hr, takeWhile_append_of_pos (by simpa using ha), hst, append_nil]
  rfl

lemma skipChars_one (hr : p.rest = c :: b) : p.skipChars c = { p with pos := p.pos + 1 } := by
  have ht : (c :: b).takeWhile (· == c) = c :: b.takeWhile (· == c) := takeWhile_cons_of_pos (beq_self_eq_true c)
  rw [skipChars, hr, ht, length_cons]
  simp

end Parser

/-- One entry: its name ends at the first colon, and its value at the first carriage return behind it. -/
lemma extractHeader_eq {p : Parser} {name w t : Bytes} (hr : p.rest = name ++ 58 :: (w ++ CR :: t)) (hn : 58 ∉ name)
    (hw : CR ∉ w) (hsm : p.pos + (name.length + 1 + w.length) < 2 ^ 16) :
    ∃ kv, HeadersBase.extractHeader p =
        (kv, skipChars { p with pos := p.pos + (name.length + 1 + w.length) + 1 } LF) ∧
      kv.key = ⟨p.pos, name.length⟩ ∧ p.pos ≤ kv.value.offset ∧
      kv.value.offset + kv.value.length = p.pos + (name.length + 1 + w.length) := by
  obtain ⟨sp, hsp⟩ : ∃ sp, sp = w.takeWhile (· == 32) := ⟨_, rfl⟩
  obtain ⟨v, hv⟩ : ∃ v, v = w.dropWhile (· == 32) := ⟨_, rfl⟩
  have hsv : w = sp ++ v := by rw [hsp, hv, takeWhile_append_dropWhile]
  have hlen : w.length = sp.length + v.length := by rw [hsv, length_append]
  let p1 : Parser := { p with pos := p.pos + name.length + 1 }
  have hr1 : p1.rest = sp ++ (v ++ CR :: t) := by
    rw [← append_assoc, ← hsv]
    exact rest_add_one hr
  let p2 : Parser := { p1 with pos := p1.pos + sp.length }
  have hr2 : p2.rest = v ++ CR :: t := rest_add hr1
  have hsk : p1.skipChars 32 true = p2 := by
    refine skipChars_eq hr1 (fun x hx => ?_) fun x hx => ?_
    · rw [hsp] at hx
      simpa using mem_takeWhile_imp hx
    · have hdr := head?_dropWhile_not (· == (32 : UInt8)) w
      rw [← hv] at hdr
      cases v with
      | nil =>
        cases hx
        decide
      | cons d v =>
        cases hx
        simpa using hdr
  have hno : ∀ x ∈ v, (x == CR) = false := fun x hx => beq_false_of_ne fun hc => hw (hsv ▸ mem_append_right _ (hc ▸ hx))
  refine ⟨⟨⟨p.pos, name.length⟩, ⟨p2.pos, v.length⟩⟩, ?_, rfl, ?_, ?_⟩
  · rw [HeadersBase.extractHeader, extractUntilChar_eq hr fun x hx => beq_false_of_ne fun h => hn (h ▸ hx)]
    dsimp only
    rw [hsk, extractUntilChar_eq hr2 hno, RStringView16.of_eq (by omega) (by omega),
      RStringView16.of_eq (by dsimp only [p2, p1]; omega) (by omega)]
    dsimp only [p2, p1]
    rw [show p.pos + name.length + 1 + sp.length + v.length + 1 = p.pos + (name.length + 1 + w.length) + 1 by omega]
  · dsimp only [p2, p1]
    omega
  · dsimp only [p2, p1]
    omega

lemma skipChars_none {p : Parser} {c : UInt8} (h : ∀ x ∈ p.rest.head?, x ≠ c) : p.skipChars c = p := by
  have hst : p.rest.takeWhile (· == c) = [] := by
    cases hr : p.rest with
    | nil => rfl
    | cons d =>
      rw [hr] at h
      exact takeWhile_cons_of_neg (by simpa using h d rfl)
  rw [skipChars, hst]
  rfl

/-! ## All lines -/

namespace HeadersBase

lemma text_length (h : HeadersBase) : h.text.length = h.bufSize := by
  rw [text, readBytes, length_map, addresses_length]

variable {h : HeadersBase} {p : Parser}

lemma mem_of_rest {c : UInt8} {t : Bytes} (ht : p.text = h.text) (hr : p.rest = c :: t) :
    h.mem (h.base + p.pos) = c := by
  rw [rest, ht] at hr
  have hlt : p.pos < h.text.length := by
    by_contra hge
    rw [drop_of_length_le (Nat.le_of_not_lt hge)] at hr
    cases hr
  rw [drop_eq_getElem_cons hlt] at hr
  have hg : h.text[p.pos] = c := (cons.inj hr).1
  rw [← hg]
  exact (getElem_readBytes h.mem hlt).symm

/-- The number of entries for which there is room. -/
def room (h : HeadersBase) : Nat := (h.capacity - 1 - h.bufSize) / kvBytes - h.kvs.length

lemma kvAdd_eq (h : HeadersBase) (kv : KV) :
    h.kvAdd kv = if h.room = 0 then none else some { h with kvs := kv :: h.kvs } := by
  have hiff : h.capacity ≤ h.bufSize + kvBytes * (h.kvs.length + 1) ↔ h.room = 0 := by
    unfold room kvBytes
    omega
  unfold kvAdd
  simp only [hiff]

lemma room_cons (h : HeadersBase) (kv : KV) : room { h with kvs := kv :: h.kvs } = h.room - 1 := by
  unfold room
  exact (Nat.sub_sub ..).symm

lemma recorded_subset (fuel : Nat) (h : HeadersBase) (p : Parser) : h.kvs ⊆ recorded fuel h p := by
  induction fuel generalizing h p with
  | zero => exact Subset.refl _
  | succ fuel ih =>
    rw [recorded]
    split
    · exact Subset.refl _
    · dsimp only
      rw [kvAdd_eq]
      split
      · exact Subset.refl _
      next h' hk =>
        split at hk
        · cases hk
        · cases hk
          exact fun x hx => ih _ _ (mem_cons_of_mem _ hx)

/-- The loop ends with what it recorded, or fails with an index that is full. -/
lemma parseLoop_recorded (fuel : Nat) (h : HeadersBase) (p : Parser) (hf : h.room < fuel) :
    (∀ h', parseLoop fuel h p = some h' → h' = { h with kvs := recorded fuel h p }) ∧
      (parseLoop fuel h p = none → (h.capacity - 1 - h.bufSize) / kvBytes ≤ (recorded fuel h p).length) := by
  induction fuel generalizing h p with
  | zero => omega
  | succ fuel ih =>
    rw [parseLoop, recorded]
    split
    · exact ⟨fun h' hh => (Option.some.inj hh).symm, nofun⟩
    dsimp only
    rw [kvAdd_eq]
    by_cases hr : h.room = 0
    · rw [if_pos hr]
      refine ⟨nofun, fun _ => ?_⟩
      dsimp only
      unfold room at hr
      omega
    · rw [if_neg hr]
      refine ih { h with kvs := (extractHeader p).1 :: h.kvs } _ ?_
      rw [room_cons]
      omega

/-- Inside of `len` bytes from `start` on. -/
def Within (v : RStringView16) (start len : Nat) : Prop := start ≤ v.offset ∧ v.offset + v.length ≤ start + len

/-- The name and the value are inside of one line. -/
def InLine (lines : List Bytes) (kv : KV) : Prop := ∃ pre l post, lines = pre ++ l :: post ∧
  Within kv.key (block pre).length l.length ∧ Within kv.value (block pre).length l.length

lemma on_eq {a b c : Bytes} (ht : h.text = a ++ (b ++ c)) : h.on ⟨a.length, b.length⟩ = b :=
  readBytes_middle h.mem ht

lemma on_within {pre l post : Bytes} {v : RStringView16} (ht : h.text = pre ++ (l ++ post))
    (hv : Within v pre.length l.length) : h.on v <:+: l := by
  obtain ⟨off, len⟩ := v
  obtain ⟨h1, h2⟩ : pre.length ≤ off ∧ off + len ≤ pre.length + l.length := hv
  have hl : l = l.take (off - pre.length) ++ ((l.drop (off - pre.length)).take len ++
      (l.drop (off - pre.length)).drop len) := by
    rw [take_append_drop, take_append_drop]
  have ha : (pre ++ l.take (off - pre.length)).length = off := by
    rw [length_append, length_take]
    omega
  have hb : ((l.drop (off - pre.length)).take len).length = len := by
    rw [length_take, length_drop]
    omega
  have ho := on_eq (h := h) (a := pre ++ l.take (off - pre.length)) (b := (l.drop (off - pre.length)).take len)
    (c := (l.drop (off - pre.length)).drop len ++ post) ?_
  swap
  · rw [ht, append_assoc, ← append_assoc ((l.drop (off - pre.length)).take len),
      ← append_assoc (l.take (off - pre.length)), ← hl]
  rw [ha, hb] at ho
  rw [ho]
  exact ( List.take_prefix len _).isInfix.trans (drop_suffix _ l).isInfix

/-- An entry inside of a line has no line break. -/
lemma on_inLine {lines : List Bytes} {body : Bytes} (ht : h.text = block lines ++ (CRLF ++ body))
    (hl : ∀ l ∈ lines, ¬CRLF <:+: l) {kv : KV} (hk : InLine lines kv) :
    ¬CRLF <:+: h.on kv.key ∧ ¬CRLF <:+: h.on kv.value := by
  obtain ⟨pre, l, post, rfl, hke, hva⟩ := hk
  have hno := hl l (mem_append_right _ mem_cons_self)
  have ht' : h.text = block pre ++ (l ++ (CRLF ++ (block post ++ (CRLF ++ body)))) := by
    rw [ht, block_append, block_cons]
    simp only [append_assoc]
  exact ⟨fun hc => hno (hc.trans (on_within ht' hke)), fun hc => hno (hc.trans (on_within ht' hva))⟩

/-- A name that begins at `u` in a line and ends in it: the entry is inside of the line, and the parser goes on with the
next line, or behind a carriage return in this one. -/
lemma extractHeader_line {u t : Bytes} (hr : p.rest = u ++ (CRLF ++ t)) (hno : ¬CRLF <:+: u) (hco : 58 ∈ u)
    (hsm : p.pos + u.length < 2 ^ 16) :
    ∃ kv, Within kv.key p.pos u.length ∧ Within kv.value p.pos u.length ∧
      ((scan .name u = (1, .next) ∧ extractHeader p = (kv, { p with pos := p.pos + u.length + 2 })) ∨
        ∃ x v, u = x ++ v ∧ scan .name u = ((scan .start v).1 + 1, (scan .start v).2) ∧
          extractHeader p = (kv, { p with pos := p.pos + x.length })) := by
  obtain ⟨name, w, rfl, hn⟩ := eq_append_cons_of_mem hco
  rw [(scan_name hn w).1]
  by_cases hcr : CR ∈ w
  · obtain ⟨w, v, rfl, hw⟩ := eq_append_cons_of_mem hcr
    have hx : name ++ 58 :: (w ++ CR :: v) = name ++ 58 :: (w ++ [CR]) ++ v := by simp
    have hxl : (name ++ 58 :: (w ++ [CR])).length = name.length + 1 + w.length + 1 := by
      simp only [length_append, length_cons, length_nil]
      omega
    have hle : name.length + 1 + w.length < (name ++ 58 :: (w ++ CR :: v)).length := by
      rw [hx, length_append, hxl]
      omega
    obtain ⟨kv, hex, hke, hva, hve⟩ := extractHeader_eq (t := v ++ (CRLF ++ t)) (by rw [hr]; simp) hn hw (by omega)
    refine ⟨kv, ⟨by rw [hke], by rw [hke]; dsimp only; omega⟩, ⟨hva, by omega⟩,
      .inr ⟨_, v, hx, (scan_value hw v).1, ?_⟩⟩
    have hr2 := rest_add (p := p) (a := name ++ 58 :: (w ++ [CR])) (b := v ++ (CRLF ++ t)) (by rw [hr]; simp)
    rw [hxl, ← add_assoc] at hr2
    rw [hex, hxl, skipChars_none]
    · rfl
    intro y hy
    rw [hr2] at hy
    cases v with
    | nil =>
      cases hy
      decide
    | cons d v =>
      cases hy
      rintro rfl
      exact hno ⟨name ++ 58 :: w, v, by simp [CRLF]⟩
  · have hle : (name ++ 58 :: w).length = name.length + 1 + w.length := by
      rw [length_append, length_cons]
      omega
    obtain ⟨kv, hex, hke, hva, hve⟩ := extractHeader_eq (t := LF :: t) (by rw [hr]; simp [CRLF]) hn hcr (by omega)
    refine ⟨kv, ⟨by rw [hke], by rw [hke]; dsimp only; omega⟩, ⟨hva, by omega⟩, .inl ⟨(scan_value hcr []).2, ?_⟩⟩
    have hr2 := rest_add_one (p := p) (a := name ++ 58 :: w) (c := CR) (b := LF :: t) (by rw [hr]; simp [CRLF])
    rw [hle] at hr2
    rw [hex, skipChars_one hr2, hle]

/-- A name that does not end in the line in which it begins has a line break. -/
lemma extractHeader_beyond {u t : Bytes} (ht : p.text = h.text) (hr : p.rest = u ++ (CRLF ++ t)) (hco : 58 ∉ u)
    (hsm : p.pos + p.rest.length < 2 ^ 16) : CRLF <:+: h.on (extractHeader p).1.key := by
  obtain ⟨k, hle, hk, hke⟩ := extractUntilChar_beyond (p := p) (c := 58) (a := u ++ CRLF) (b := t)
    (by rw [hr, append_assoc]) fun hm => (mem_append.1 hm).elim hco (by decide)
  have hps : (h.text.take p.pos).length = p.pos := by
    rw [length_take, ← ht]
    rw [rest, length_drop] at hk
    rw [length_append] at hle
    have : CRLF.length = 2 := rfl
    omega
  have ho := on_eq (h := h) (a := h.text.take p.pos) (b := p.rest.take k) (c := p.rest.drop k)
    (by rw [take_append_drop, rest, ht, take_append_drop])
  rw [hps, length_take_of_le hk] at ho
  have hek : (extractHeader p).1.key = ⟨p.pos, k⟩ := hke.trans (RStringView16.of_eq (by omega) (by omega))
  rw [hek, ho, hr, ← append_assoc, take_append, take_of_length_le hle, append_assoc]
  exact ⟨u, _, by rw [append_assoc]⟩

/-- The parser is at `u`, the end of a line. -/
lemma recorded_iff {lines pre post : List Bytes} {x u body : Bytes} (fuel : Nat) (hl : lines = pre ++ (x ++ u) :: post)
    (hno : ∀ l ∈ lines, ¬CRLF <:+: l) (ht : h.text = block lines ++ (CRLF ++ body)) (hsm : h.bufSize < 2 ^ 16)
    (hp : p = ⟨h.text, (block pre).length + x.length⟩) (hf : h.room < fuel) :
    (∀ kv ∈ recorded fuel h p, InLine lines kv) ↔ (∀ kv ∈ h.kvs, InLine lines kv) ∧ CleanLines h.room (u :: post) := by
  induction fuel generalizing h p pre post x u with
  | zero => omega
  | succ fuel ih =>
    have hre : p.rest = u ++ (CRLF ++ (block post ++ (CRLF ++ body))) := by
      rw [hp, rest, ht, hl, block_append, block_cons, ← length_append]
      simp only [append_assoc]
      rw [← append_assoc (block pre), drop_left]
    have hlen : p.pos + p.rest.length = h.bufSize ∧ u.length + 2 ≤ p.rest.length := by
      have hle := congrArg length hre
      have hre' : p.rest.length = h.bufSize - p.pos := by rw [rest, length_drop, hp, text_length]
      have : CRLF.length = 2 := rfl
      rw [length_append, length_append] at hle
      omega
    have hpt : p.text = h.text := by rw [hp]
    rw [recorded]
    -- the parser stops at a carriage return, that of the end of the line included
    cases u with
    | nil =>
      rw [if_pos (mem_of_rest hpt hre)]
      exact ⟨fun h => ⟨h, trivial⟩, And.left⟩
    | cons c u =>
      by_cases hc : c = CR
      · rw [if_pos (by rw [mem_of_rest hpt hre, hc])]
        have hs : scan .start (c :: u) = (0, .stops) := by rw [scan, if_pos hc]
        rw [CleanLines, hs]
        exact ⟨fun h => ⟨h, trivial⟩, And.left⟩
      rw [if_neg (by rwa [mem_of_rest hpt hre])]
      dsimp only
      rw [kvAdd_eq]
      by_cases hr : h.room = 0
      · rw [if_pos hr, hr]
        exact ⟨fun h => ⟨h, cleanLines_zero _⟩, And.left⟩
      rw [if_neg hr]
      dsimp only
      by_cases hco : 58 ∈ c :: u
      · have hin : ∀ kv, Within kv.key p.pos (c :: u).length → Within kv.value p.pos (c :: u).length →
          InLine lines kv := by
          have hps : p.pos = (block pre).length + x.length := by rw [hp]
          intro kv hke hva
          refine ⟨pre, x ++ c :: u, post, hl, ?_, ?_⟩ <;> unfold Within at * <;> rw [length_append] <;> omega
        obtain ⟨kv, hke, hva, ⟨hsc, hex⟩ | ⟨x', v, hu, hsc, hex⟩⟩ := extractHeader_line hre
          (fun hc => hno _ (hl ▸ mem_append_right _ mem_cons_self) (hc.trans (suffix_append ..).isInfix)) hco (by omega)
        · rw [hex, CleanLines, scan_start hc, hsc]
          dsimp only
          have hh : (∀ kv' ∈ kv :: h.kvs, InLine lines kv') ↔ ∀ kv' ∈ h.kvs, InLine lines kv' := by
            rw [forall_mem_cons]
            exact and_iff_right (hin kv hke hva)
          have hps : p.pos + (c :: u).length + 2 = (block (pre ++ [x ++ c :: u])).length := by
            rw [hp, block_append, block_cons]
            simp [block, CRLF]
            omega
          cases post with
          | nil =>
            obtain ⟨fuel, rfl⟩ : ∃ k, fuel = k + 1 := ⟨fuel - 1, by omega⟩
            have hend : rest { p with pos := p.pos + (c :: u).length + 2 } = CRLF ++ body := by
              have := rest_add (p := p) (a := c :: u ++ CRLF) (b := CRLF ++ body) (by rw [hre]; simp [block])
              rwa [length_append, ← add_assoc] at this
            rw [recorded, if_pos (mem_of_rest (p := { p with pos := p.pos + (c :: u).length + 2 }) hpt hend)]
            exact hh.trans (and_iff_left trivial).symm
          | cons m post =>
            have hi := ih (h := { h with kvs := kv :: h.kvs }) (p := { p with pos := p.pos + (c :: u).length + 2 })
              (show lines = (pre ++ [x ++ c :: u]) ++ ([] ++ m) :: post by rw [hl]; simp) ht hsm
              (by rw [hps, hpt]; rfl) (by rw [room_cons]; omega)
            rw [hi, room_cons, hh]
        · rw [hex, cleanLines_value ((scan_start hc).trans hsc)]
          dsimp only
          have hi := ih (h := { h with kvs := kv :: h.kvs }) (p := { p with pos := p.pos + x'.length })
            (show lines = pre ++ (x ++ x' ++ v) :: post by rw [hl, hu, append_assoc]) ht hsm
            (by rw [hp, length_append, ← add_assoc]; rfl) (by rw [room_cons]; omega)
          rw [hi, room_cons, forall_mem_cons]
          exact and_congr_left fun _ => and_iff_right (hin kv hke hva)
      · -- the name goes on behind the line
        have hbad : ¬InLine lines (extractHeader p).1 := fun hi =>
          (on_inLine ht hno hi).1 (extractHeader_beyond hpt hre hco (by omega))
        have hsc : scan .start (c :: u) = (0, .beyond) := (scan_start hc).trans (scan_name hco []).2
        rw [CleanLines, hsc]
        exact ⟨fun ha => absurd (ha _ (recorded_subset _ _ _ mem_cons_self)) hbad,
          fun ha => absurd (Nat.le_zero.1 ha.2) hr⟩

end HeadersBase

open HeadersBase

/-- Lines are separated by CRLF, and the header block ends with an empty one. Every entry that is recorded is inside of
one line, and so without a line break, exactly when each name for which there is room ends in its line. The index of a
parser that succeeds has these entries, and it fails only when the index is full. -/
theorem parse_lines (h : HeadersBase) (lines : List Bytes) (body : Bytes) (hkvs : h.kvs = [])
    (htext : h.text = block lines ++ (CRLF ++ body)) (hsmall : h.bufSize < 2 ^ 16)
    (hlines : ∀ l ∈ lines, ¬CRLF <:+: l) :
    let entries := recorded (h.capacity + 1) h ⟨h.text, 0⟩
    ((∀ kv ∈ entries, InLine lines kv ∧ ¬CRLF <:+: h.on kv.key ∧ ¬CRLF <:+: h.on kv.value) ↔ CleanLines h.room lines) ∧
      (∀ h', h.parse = some h' → h'.kvs.Perm entries) ∧
      (h.parse = none → (h.capacity - 1 - h.bufSize) / kvBytes ≤ entries.length) := by
  intro entries
  have hf : h.room < h.capacity + 1 := by
    unfold room kvBytes
    omega
  have hin : (∀ kv ∈ entries, InLine lines kv) ↔ CleanLines h.room lines := by
    cases lines with
    | nil =>
      have hend : rest ⟨h.text, 0⟩ = CRLF ++ body := htext
      have hen : entries = [] := by
        dsimp only [entries]
        rw [recorded, if_pos (mem_of_rest (p := ⟨h.text, 0⟩) rfl hend), hkvs]
      rw [hen]
      exact ⟨fun _ => trivial, fun _ => nofun⟩
    | cons l lines =>
      have hi := recorded_iff (h.capacity + 1) (show l :: lines = [] ++ ([] ++ l) :: lines from rfl)
        hlines htext hsmall rfl hf
      rw [hkvs] at hi
      exact hi.trans (and_iff_right nofun)
  refine ⟨⟨fun ha => hin.1 fun kv hk => (ha kv hk).1, fun hc kv hk => ?_⟩, fun h' hpa => ?_, fun hpa => ?_⟩
  · have hi := hin.2 hc kv hk
    exact ⟨hi, on_inLine htext hlines hi⟩
  · obtain ⟨h1, hr, rfl⟩ := Option.map_eq_some_iff.1 hpa
    rw [(parseLoop_recorded _ h _ hf).1 h1 hr]
    exact perm_insertionSort ..
  · exact (parseLoop_recorded _ h _ hf).2 (Option.map_eq_none_iff.1 hpa)

def headersOf (t : Bytes) : HeadersBase :=
  { mem := fun a => t.getD a 0, base := 0, bufSize := t.length, capacity := 100 }

/-- The second line has a carriage return inside of it, and gives two entries. -/
def twoLines : HeadersBase := headersOf (chars "B: x\r\nA:  y\rC:z\r\n\r\nc: d\r\n")

theorem parse_lines_two : ∃ h', twoLines.parse = some h' ∧ h'.kvs.length = 3 ∧
    ∀ kv ∈ h'.kvs, InLine [chars "B: x", chars "A:  y\rC:z"] kv := by
  obtain ⟨ha, hpe, -⟩ := parse_lines twoLines [chars "B: x", chars "A:  y\rC:z"]
    (chars "c: d\r\n") rfl (by decide +kernel) (by decide +kernel) (by decide +kernel)
  have hso : (twoLines.parse.map fun h => h.kvs.length) = some 3 := by decide +kernel
  obtain ⟨h', hpa, hle⟩ := Option.map_eq_some_iff.1 hso
  have hcl : CleanLines twoLines.room [chars "B: x", chars "A:  y\rC:z"] := by decide +kernel
  exact ⟨h', hpa, hle, fun kv hk => (ha.2 hcl kv ((hpe h' hpa).mem_iff.1 hk)).1⟩

/-- A line without a colon: its name goes on to the colon of the next line, and to one in the body when there is no next
line. -/
theorem parse_past_line :
    ((headersOf (chars "X\r\nA: b\r\n\r\n")).parse.map fun h => h.kvs.map fun kv => (h.on kv.key, h.on kv.value)) =
      some [(chars "X\r\nA", chars "b")] ∧
    ((headersOf (chars "X\r\n\r\nbo: dy\r\n\r\n")).parse.map fun h => h.kvs.map fun kv =>
      (h.on kv.key, h.on kv.value)) =
      some [(chars "X\r\n\r\nbo", chars "dy")] := by
  decide +kernel

end Photon.Http
