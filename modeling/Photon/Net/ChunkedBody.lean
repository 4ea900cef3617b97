import Photon.Lib.Digits
/-!
# ChunkedBodyReadStream

The decoder of a chunked body. It looks for chunk sizes in a line buffer, which the partial
body that came with the header fills first and `recv` after it; the data of a chunk that is
not in the buffer is read from the stream past it. The buffer is the list of its
`m_line_size` bytes. The socket has the bytes the peer has still to deliver; `recv` gives
any positive number of them that fits, `read` as many as it is asked for.
-/

namespace Photon.Http

open List

abbrev Bytes := List UInt8

def chars (text : String) : Bytes := text.toList.map fun c => c.toNat.toUInt8

def CR : UInt8 := 13
def LF : UInt8 := 10

def LINE_BUFFER_SIZE : Nat := 4 * 1024

def findCRLF : Bytes → Option Nat
  | [] => none
  | a :: l => if a = CR ∧ l.head? = some LF then some 0 else (findCRLF l).map (· + 1)

/-- `hex_char_to_digit`; 255 when the character is no digit. -/
def hexCharToDigit (c : UInt8) : UInt8 :=
  let cc := c - 48
  if cc < 10 then cc
  else
    let cc := (c ||| 32) - 97
    if cc < 6 then cc + 10 else 255

def hexLoop (val : Nat) : Bytes → Nat
  | [] => val
  | c :: s => if hexCharToDigit c ≥ 16 then val else hexLoop ((val * 16 + (hexCharToDigit c).toNat) % 2 ^ 64) s

def hexToUint64 (s : Bytes) : Nat := hexLoop 0 s

/-- The socket: how many bytes a `recv` gives when `n` are to come and `cap` fit, and whether
the peer has closed its end after the last byte. -/
structure Socket where
  recvSize : Nat → Nat → Nat
  recvSize_pos : ∀ n cap, 0 < n → 0 < cap → 0 < recvSize n cap
  recvSize_le : ∀ n cap, recvSize n cap ≤ min n cap
  closed : Bool

def Socket.read (sock : Socket) (stream : Bytes) (n : Nat) : Option Bytes :=
  if n ≤ stream.length then some (stream.take n) else if sock.closed then some stream else none

def Socket.recv (sock : Socket) (stream : Bytes) (cap : Nat) : Option Bytes :=
  if stream = [] then (if sock.closed then some [] else none)
  else some (stream.take (sock.recvSize stream.length cap))

structure St where
  /-- `m_get_line_buf`, `m_line_size` bytes of it. -/
  line : Bytes
  cursor : Nat := 0
  chunkedRemain : Nat := 0
  finish : Bool := false
  stream : Bytes
  deriving DecidableEq

open St

/-- `body_remain`: what is missing of the last line. It is a `size_t`, so it is large
when the buffer has more than that. -/
def bodyRemain (pos p size : Nat) : Nat := (pos + p + 4 + (2 ^ 64 - size)) % 2 ^ 64

def posNextChunk (sock : Socket) (s : St) (pos : Nat) : Option (Bool × St) :=
  let line := s.line.drop pos
  match findCRLF line with
  | none => some (false, s)
  | some p =>
    let remain := hexToUint64 (line.take p)
    if remain ≠ 0 ∨ p = 0 then some (true, { s with chunkedRemain := remain, cursor := s.cursor + p + 2 })
    else
      let s := { s with chunkedRemain := remain, finish := true }
      let n := bodyRemain pos p s.line.length
      if n > 2 then some (true, s)
      else (sock.read s.stream n).map fun got => (true, { s with stream := s.stream.drop got.length })

def St.compact (s : St) : St := { s with line := s.line.drop s.cursor, cursor := 0 }

def St.rewind (s : St) : St := if s.cursor = s.line.length then { s with line := [], cursor := 0 } else s

/-- `read_from_line`: how many bytes of the chunk are copied from the buffer. -/
def St.copied (s : St) (count : Nat) : Nat := min count (min s.chunkedRemain (s.line.length - s.cursor))

def St.copy (s : St) (n : Nat) : St := { s with cursor := s.cursor + n, chunkedRemain := s.chunkedRemain - n }

/-- The loop of `read_from_line_buf`: the state, what is left of `count`, and what was
written to the buffer of the caller; `none` when it does not return, or the fuel is out. -/
def lineLoop (sock : Socket) : Nat → St → Nat → Bytes → Option (St × Nat × Bytes)
  | 0, _, _, _ => none
  | fuel + 1, s, count, out =>
    if count > 0 ∧ s.cursor < s.line.length ∧ s.finish = false then
      let n := s.copied count
      let out := out ++ (s.line.drop s.cursor).take n
      let s := s.copy n
      if s.chunkedRemain = 0 then
        match posNextChunk sock s s.cursor with
        | none => none
        | some (false, s) => some (s.compact, count - n, out)
        | some (true, s) => lineLoop sock fuel s.rewind (count - n) out
      else lineLoop sock fuel s.rewind (count - n) out
    else some (s, count, out)

def readFromLineBuf (sock : Socket) (s : St) (count : Nat) : Option (St × Nat × Bytes) :=
  lineLoop sock (s.line.length + 1) s count []

/-- The loop of `get_new_chunk`; `some none` when it fails because the peer has closed. -/
def recvLoop (sock : Socket) : Nat → St → Option (Option St)
  | 0, _ => none
  | fuel + 1, s =>
    if s.finish then some (some s) else
    match sock.recv s.stream ((LINE_BUFFER_SIZE + (2 ^ 64 - s.line.length)) % 2 ^ 64) with
    | none => none
    | some got =>
      if got = [] then some none
      else
        let s := { s with line := s.line ++ got, stream := s.stream.drop got.length }
        if s.line.length ≤ 2 then recvLoop sock fuel s
        else
          match posNextChunk sock s 0 with
          | none => none
          | some (true, s) => some (some s)
          | some (false, s) => recvLoop sock fuel s

def getNewChunk (sock : Socket) (s : St) : Option (Option St) :=
  if s.cursor < s.line.length then
    match posNextChunk sock s s.cursor with
    | none => none
    | some (true, s) => some (some s)
    | some (false, s) => recvLoop sock (s.stream.length + 1) s.compact
  else recvLoop sock (s.stream.length + 1) s

/-- `read_from_stream`, when there is something left of the chunk and of `count`. -/
def readFromStream (sock : Socket) (s : St) (count : Nat) : Option (St × Bytes) :=
  if s.chunkedRemain > 0 ∧ count > 0 then
    (sock.read s.stream (min count s.chunkedRemain)).map fun got =>
      ({ s with chunkedRemain := s.chunkedRemain - got.length, stream := s.stream.drop got.length }, got)
  else some (s, [])

/-- The loop of `read`: the state, the bytes written and the value returned. -/
def readLoop (sock : Socket) : Nat → St → Nat → Bytes → Option (St × Bytes × Int)
  | 0, _, _, _ => none
  | fuel + 1, s, count, out =>
    if count > 0 ∧ s.finish = false then
      match readFromLineBuf sock s count with
      | none => none
      | some (s, count, got) =>
        let out := out ++ got
        match readFromStream sock s count with
        | none => none
        | some (s, got) =>
          let out := out ++ got
          let count' := count - got.length
          -- the stream has ended
          if s.chunkedRemain > 0 ∧ count > 0 ∧ got = [] then some (s, out, out.length)
          else if s.chunkedRemain = 0 then
            match getNewChunk sock s with
            | none => none
            | some none => some (s, out, -1)
            | some (some s) => readLoop sock fuel s count' out
          else readLoop sock fuel s count' out
    else some (s, out, out.length)

def read (sock : Socket) (s : St) (count : Nat) : Option (St × Bytes × Int) :=
  readLoop sock (s.line.length + s.stream.length + 3) s count []

/-- Reads one after another: the state, and what each of them wrote and returned. -/
def reads (sock : Socket) : St → List Nat → Option (St × List (Bytes × Int))
  | s, [] => some (s, [])
  | s, count :: counts =>
    match read sock s count with
    | none => none
    | some (s, out) => (reads sock s counts).map fun r => (r.1, out :: r.2)

/-! ## The encoding -/

def CRLF : Bytes := [CR, LF]

def hexChar (d : Nat) : UInt8 := if d < 10 then 48 + d.toUInt8 else 87 + d.toUInt8

/-- `%x`: the digits before `acc`. -/
def hexDigitsTo : Nat → Nat → Bytes → Bytes
  | 0, _, acc => acc
  | k + 1, n, acc => if n < 16 then hexChar n :: acc else hexDigitsTo k (n / 16) (hexChar (n % 16) :: acc)

/-- The size of a chunk, in hexadecimal; a `size_t` has at most 16 digits. -/
def hexDigits (n : Nat) : Bytes := hexDigitsTo 16 n []

def encode : List Bytes → Bytes
  | [] => hexDigits 0 ++ CRLF ++ CRLF
  | c :: cs => hexDigits c.length ++ CRLF ++ c ++ CRLF ++ encode cs

/-! ## The calls of get_new_chunk -/

/-- The buffer is empty or has bytes behind the cursor, and all of the last chunk once its size line was seen. -/
def St.Ready (s : St) : Prop :=
  (s.cursor = s.line.length → s.line = []) ∧ (s.finish = true → encode [] <+: s.line.drop s.cursor)

instance (s : St) : Decidable s.Ready := inferInstanceAs (Decidable (_ ∧ _))

/-- The states in which the loop of `read` calls `get_new_chunk`. -/
def readCalls (sock : Socket) : Nat → St → Nat → List St
  | 0, _, _ => []
  | fuel + 1, s, count =>
    if count > 0 ∧ s.finish = false then
      match readFromLineBuf sock s count with
      | none => []
      | some (s, count, _) =>
        match readFromStream sock s count with
        | none => []
        | some (s, got) =>
          if s.chunkedRemain > 0 ∧ count > 0 ∧ got = [] then []
          else if s.chunkedRemain = 0 then
            match getNewChunk sock s with
            | some (some s') => s :: readCalls sock fuel s' (count - got.length)
            | _ => [s]
          else readCalls sock fuel s (count - got.length)
    else []

def readsCalls (sock : Socket) : St → List Nat → List St
  | _, [] => []
  | s, count :: counts => readCalls sock (s.line.length + s.stream.length + 3) s count ++
    match read sock s count with
    | none => []
    | some (s, _) => readsCalls sock s counts

/-- What the reads are to write and return: each the next bytes of the body. -/
def delivered (body : Bytes) : List Nat → List (Bytes × Int)
  | [] => []
  | count :: counts => (body.take count, ((body.take count).length : Int)) :: delivered (body.drop count) counts

/-! ## Hexadecimal -/

lemma hexDigits_eq (n : Nat) : hexDigits n = digitsTo 16 hexChar 16 n [] := by
  have ht : ∀ k n acc, hexDigitsTo k n acc = digitsTo 16 hexChar k n acc := by
    intro k
    induction k with
    | zero => exact fun _ _ => rfl
    | succ k ih =>
      intro n acc
      rw [hexDigitsTo, digitsTo, ih]
  exact ht 16 n []

variable {chunks : List Bytes} {c h z : Bytes} {n : Nat}

lemma hexLoop_digits (hdi : ∀ c ∈ h, hexCharToDigit c < 16) (val : Nat) :
    hexLoop (val % 2 ^ 64) h = h.foldl (fun v c => v * 16 + (hexCharToDigit c).toNat) val % 2 ^ 64 := by
  induction h generalizing val with
  | nil => rfl
  | cons c h ih =>
    have hc : ¬ hexCharToDigit c ≥ 16 := by
      have := hdi c mem_cons_self
      rw [ge_iff_le, UInt8.not_le]
      exact this
    have hv : (val % 2 ^ 64 * 16 + (hexCharToDigit c).toNat) % 2 ^ 64 =
      (val * 16 + (hexCharToDigit c).toNat) % 2 ^ 64 := by
      omega
    rw [hexLoop, if_neg hc, hv, ih fun d hd => hdi d (mem_cons_of_mem _ hd), foldl_cons]

lemma hexDigits_digits (n : Nat) : ∀ c ∈ hexDigits n, hexCharToDigit c < 16 := by
  rw [hexDigits_eq]
  apply forall_mem_digitsTo (fun c => hexCharToDigit c < 16) (by decide) (by decide)
  exact forall_mem_nil _

lemma foldl_hexDigits (hn : n < 2 ^ 64) : (hexDigits n).foldl (fun v c => v * 16 + (hexCharToDigit c).toNat) 0 = n := by
  rw [hexDigits_eq]
  exact foldl_digitsTo (by decide) (by decide) (show n < 16 ^ 16 by omega)

lemma hexToUint64_hexDigits (hn : n < 2 ^ 64) : hexToUint64 (hexDigits n) = n := by
  have hlo := hexLoop_digits (hexDigits_digits n) 0
  rw [foldl_hexDigits hn, Nat.mod_eq_of_lt hn, Nat.zero_mod] at hlo
  exact hlo

lemma hexDigits_spec (n : Nat) : CR ∉ hexDigits n ∧ (hexDigits n).length ≤ 16 := by
  rw [hexDigits_eq]
  constructor
  · intro hm
    have hn : ∀ d < 16, hexChar d ≠ CR := by decide
    exact forall_mem_digitsTo (· ≠ CR) (by decide) hn 16 n (forall_mem_nil _) CR hm rfl
  · exact digitsTo_length_le 16 n []

lemma hexDigits_ne_nil (n : Nat) : hexDigits n ≠ [] := by
  rw [hexDigits_eq]
  exact digitsTo_ne_nil 15 n []

/-! ## Lines -/

lemma findCRLF_of_append {x y : Bytes} (hcr : CR ∉ h) (he : x ++ y = h ++ CRLF ++ z) :
    findCRLF x = if h.length + 2 ≤ x.length then some h.length else none := by
  induction h generalizing x with
  | nil =>
    cases x with
    | nil => rfl
    | cons a x =>
      cases x with
      | nil => simp [findCRLF]
      | cons =>
        simp only [CRLF, cons_append, nil_append, cons.injEq] at he
        simp [findCRLF, he.1, he.2.1]
  | cons a h ih =>
    cases x with
    | nil => rfl
    | cons b =>
      simp only [cons_append, cons.injEq] at he
      obtain ⟨rfl, he⟩ := he
      have hb : b ≠ CR := fun hb => hcr (hb ▸ mem_cons_self ..)
      rw [findCRLF, if_neg (by simp [hb]), ih (fun hm => hcr (mem_cons_of_mem _ hm)) (by simpa using he)]
      simp only [length_cons, add_right_comm _ 1 2, Nat.add_le_add_iff_right]
      split <;> rfl

/-! ## Where the decoder is -/

def St.pending (s : St) : Bytes := s.line.drop s.cursor ++ s.stream

def InChunk (chunks : List Bytes) (pending : Bytes) (remain : Nat) (body : Bytes) : Prop :=
  ∃ pre cs d, chunks = pre ++ cs ∧ pending = d ++ CRLF ++ encode cs ∧ remain = d.length ∧ body = d ++ cs.flatten

def AtSizeLine (chunks : List Bytes) (pending body : Bytes) : Prop :=
  ∃ pre cs, chunks = pre ++ cs ∧ pending = encode cs ∧ body = cs.flatten

/-- `pending` decodes to `body`. -/
def Decodes (chunks : List Bytes) (pending : Bytes) (remain : Nat) (body : Bytes) : Prop :=
  InChunk chunks pending remain body ∨ remain = 0 ∧ AtSizeLine chunks pending body

/-- The decoder is at work, with `body` to deliver. -/
structure Live (chunks : List Bytes) (s : St) (body : Bytes) : Prop where
  finish : s.finish = false
  decodes : Decodes chunks s.pending s.chunkedRemain body
  cursor : s.cursor ≤ s.line.length
  small : s.line.length < 2 ^ 64

/-- The decoder has read the last chunk. Its size line is still at the cursor, and what came with it. -/
structure Done (s : St) (body : Bytes) : Prop where
  finish : s.finish = true
  remain : s.chunkedRemain = 0
  line : s.line.drop s.cursor <+: encode []
  cursor : s.cursor < s.line.length
  stream : s.stream = []
  small : s.line.length < 2 ^ 64
  body : body = []

def Inv (chunks : List Bytes) (s : St) (body : Bytes) : Prop := Live chunks s body ∨ Done s body

lemma length_encode (cs : List Bytes) : 5 ≤ (encode cs).length := by
  induction cs with
  | nil => decide
  | cons =>
    rw [encode, length_append]
    omega

lemma Decodes.length {pending body : Bytes} {remain : Nat}
    (hd : Decodes chunks pending remain body) : 5 ≤ pending.length := by
  rcases hd with ⟨pre, cs, d, -, rfl, -, -⟩ | ⟨-, pre, cs, -, rfl, -⟩
  · have := length_encode cs
    rw [length_append]
    omega
  · exact length_encode cs

section

variable {sock : Socket} {s s' : St} {body : Bytes}

lemma find_line (hcr : CR ∉ h) (hp : s.pending = h ++ CRLF ++ z) :
    s.line.length < s.cursor + h.length + 2 ∧ findCRLF (s.line.drop s.cursor) = none ∨
      s.cursor + h.length + 2 ≤ s.line.length ∧ findCRLF (s.line.drop s.cursor) = some h.length ∧
        (s.line.drop s.cursor).take h.length = h ∧ s.line.drop (s.cursor + h.length + 2) ++ s.stream = z := by
  have hfind := findCRLF_of_append hcr hp
  rw [length_drop] at hfind
  by_cases hle : h.length + 2 ≤ s.line.length - s.cursor
  · rw [if_pos hle] at hfind
    refine .inr ⟨by omega, hfind, ?_, ?_⟩
    · have ht := congrArg (take h.length) hp
      rw [pending, take_append_of_le_length (by simp; omega), append_assoc, take_left] at ht
      exact ht
    have hdr := congrArg (drop (h.length + 2)) hp
    rw [pending, drop_append_of_le_length (by simp; omega), drop_drop, drop_left' (by simp [CRLF])] at hdr
    rw [add_assoc]
    exact hdr
  · rw [if_neg hle] at hfind
    exact .inl ⟨by omega, hfind⟩

inductive Outcome (chunks : List Bytes) (s : St) (body : Bytes) : Option (Bool × St) → Prop
  /-- No line in the buffer yet. -/
  | more (hfind : findCRLF (s.line.drop s.cursor) = none) (hlen : s.line.length < s.cursor + 18)
      (hs : s.stream ≠ []) : Outcome chunks s body (some (false, s))
  /-- The size line of the last chunk. -/
  | last (hd : Done { s with chunkedRemain := 0, finish := true, stream := [] } body) :
      Outcome chunks s body (some (true, { s with chunkedRemain := 0, finish := true, stream := [] }))
  /-- The line end of a chunk. -/
  | lineEnd (hlen : s.cursor + 2 ≤ s.line.length)
      (hat : AtSizeLine chunks (s.line.drop (s.cursor + 2) ++ s.stream) body)
      (hnot : ¬ AtSizeLine chunks s.pending body) :
      Outcome chunks s body (some (true, { s with chunkedRemain := 0, cursor := s.cursor + 2 }))
  /-- A size line. -/
  | size (n remain : Nat) (hn : s.cursor < n) (hlen : n ≤ s.line.length) (hpos : 0 < remain)
      (hin : InChunk chunks (s.line.drop n ++ s.stream) remain body) :
      Outcome chunks s body (some (true, { s with chunkedRemain := remain, cursor := n }))

lemma posNextChunk_none (hfi : findCRLF (s.line.drop s.cursor) = none) :
    posNextChunk sock s s.cursor = some (false, s) := by
  simp only [posNextChunk, hfi]

lemma length_pending (s : St) : s.pending.length = s.line.length - s.cursor + s.stream.length := by
  rw [pending, length_append, length_drop]

lemma stream_ne_nil (hp : s.pending = h ++ CRLF ++ z) (hle : s.line.length < s.cursor + h.length + 2) :
    s.stream ≠ [] := by
  intro hs
  have hl := congrArg length hp
  rw [length_pending, hs] at hl
  simp only [length_append, length_nil, CRLF, length_cons] at hl
  omega

lemma encode_shape (cs : List Bytes) : ∃ h z, encode cs = h ++ CRLF ++ z ∧ CR ∉ h ∧ h ≠ [] ∧ h.length ≤ 16 := by
  cases cs with
  | nil => exact ⟨hexDigits 0, CRLF, rfl, (hexDigits_spec 0).1, hexDigits_ne_nil 0, (hexDigits_spec 0).2⟩
  | cons c cs =>
    refine ⟨hexDigits c.length, c ++ CRLF ++ encode cs, ?_, (hexDigits_spec _).1, hexDigits_ne_nil _,
      (hexDigits_spec _).2⟩
    simp [encode]

lemma not_atSizeLine : ¬ AtSizeLine chunks (CRLF ++ z) body := by
  rintro ⟨pre, cs, -, hp, -⟩
  obtain ⟨h, z', he, hcr, hn, -⟩ := encode_shape cs
  cases h with
  | nil => exact hn rfl
  | cons =>
    rw [he] at hp
    simp only [CRLF, cons_append, cons.injEq] at hp
    exact hcr (hp.1 ▸ mem_cons_self ..)

variable {pre cs : List Bytes} {count fuel : Nat} {out : Bytes}

lemma outcome_lineEnd (hc : chunks = pre ++ cs) (hp : s.pending = CRLF ++ encode cs) :
    Outcome chunks s cs.flatten (posNextChunk sock s s.cursor) := by
  rcases find_line (h := []) (by simp) hp with ⟨hle, hfi⟩ | ⟨hle, hfi, -, hdr⟩
  · rw [posNextChunk_none hfi]
    exact .more hfi (by simp at hle; omega) (stream_ne_nil hp hle)
  have he : posNextChunk sock s s.cursor = some (true, { s with chunkedRemain := 0, cursor := s.cursor + 2 }) := by
    simp only [posNextChunk, hfi]
    simp [hexToUint64, hexLoop]
  rw [he]
  refine .lineEnd hle ⟨pre, cs, hc, hdr, rfl⟩ ?_
  rw [hp]
  exact not_atSizeLine

/-- What is missing of the last line is read from the stream. -/
lemma posNextChunk_last (hp : s.pending = encode []) (hc : s.cursor + 3 ≤ s.line.length)
    (hsmall : s.line.length < 2 ^ 64) :
    posNextChunk sock s s.cursor = some (true, { s with chunkedRemain := 0, finish := true, stream := [] }) := by
  have hl0 : (hexDigits 0).length = 1 := by decide
  have hl := congrArg length hp
  rw [length_pending, show (encode []).length = 5 by decide] at hl
  rcases find_line (hexDigits_spec 0).1 (show s.pending = hexDigits 0 ++ CRLF ++ CRLF from hp) with
    ⟨hle, -⟩ | ⟨-, hfi, ht, -⟩
  · omega
  rw [hl0] at hfi ht
  have hr : bodyRemain s.cursor 1 s.line.length = s.stream.length := by
    unfold bodyRemain
    omega
  simp only [posNextChunk, hfi, ht, hexToUint64_hexDigits (show 0 < 2 ^ 64 by decide), hr]
  rw [if_neg (by simp), if_neg (by omega), Socket.read, if_pos le_rfl, take_length, Option.map_some, drop_length]

lemma done_of_last (hp : s.pending = encode []) (hc : s.cursor + 3 ≤ s.line.length) (hsmall : s.line.length < 2 ^ 64) :
    Done { s with chunkedRemain := 0, finish := true, stream := [] } [] :=
  ⟨rfl, rfl, hp ▸ prefix_append .., by dsimp only; omega, rfl, hsmall, rfl⟩

lemma outcome_size (hc : chunks = pre ++ c :: cs) (hne : c ≠ []) (hsi : c.length < 2 ^ 64)
    (hp : s.pending = encode (c :: cs)) : Outcome chunks s (c :: cs).flatten (posNextChunk sock s s.cursor) := by
  have hp' : s.pending = hexDigits c.length ++ CRLF ++ (c ++ CRLF ++ encode cs) := by
    rw [hp, encode]
    simp only [append_assoc]
  have h16 := (hexDigits_spec c.length).2
  have hpo := length_pos_iff.2 hne
  rcases find_line (hexDigits_spec _).1 hp' with ⟨hle, hfi⟩ | ⟨hle, hfi, ht, hdr⟩
  · rw [posNextChunk_none hfi]
    exact .more hfi (by omega) (stream_ne_nil hp' hle)
  have heq : posNextChunk sock s s.cursor =
      some (true, { s with chunkedRemain := c.length, cursor := s.cursor + (hexDigits c.length).length + 2 }) := by
    simp only [posNextChunk, hfi, ht, hexToUint64_hexDigits hsi]
    rw [if_pos (.inl (by omega))]
  rw [heq]
  exact .size _ _ (by omega) hle hpo ⟨pre ++ [c], cs, c, by simp [hc], hdr, rfl, rfl⟩

section Small
variable (hsmall : s.line.length < 2 ^ 64)
include hsmall

lemma outcome_last (hp : s.pending = encode []) : Outcome chunks s [] (posNextChunk sock s s.cursor) := by
  have hl0 : (hexDigits 0).length = 1 := by decide
  have hp' : s.pending = hexDigits 0 ++ CRLF ++ CRLF := hp
  rcases find_line (hexDigits_spec 0).1 hp' with ⟨hle, hfi⟩ | ⟨hle, -⟩
  · rw [posNextChunk_none hfi]
    exact .more hfi (by omega) (stream_ne_nil hp' hle)
  · rw [hl0] at hle
    rw [posNextChunk_last hp hle hsmall]
    exact .last (done_of_last hp hle hsmall)

lemma posNextChunk_outcome (sock : Socket) (hg : ∀ c ∈ chunks, c ≠ [] ∧ c.length < 2 ^ 64)
    (hd : Decodes chunks s.pending 0 body) : Outcome chunks s body (posNextChunk sock s s.cursor) := by
  rcases hd with ⟨pre, cs, d, hc, hp, hd, rfl⟩ | ⟨-, pre, cs, hc, hp, rfl⟩
  · obtain rfl := length_eq_zero_iff.1 hd.symm
    exact outcome_lineEnd hc hp
  cases cs with
  | nil => exact outcome_last hsmall hp
  | cons c =>
    obtain ⟨hn, hsi⟩ := hg c (by simp [hc])
    exact outcome_size hc hn hsi hp

end Small

/-! ## The line buffer -/

lemma copy_spec (hd : Decodes chunks s.pending s.chunkedRemain body)
    (hn : n ≤ s.chunkedRemain) (hl : n ≤ s.line.length - s.cursor) : (s.line.drop s.cursor).take n = body.take n ∧
    n ≤ body.length ∧ Decodes chunks (s.copy n).pending (s.copy n).chunkedRemain (body.drop n) := by
  have hpe : (s.copy n).pending = s.pending.drop n := by
    simp only [pending, copy]
    rw [drop_append_of_le_length (by simpa using hl), drop_drop]
  rcases hd with ⟨pre, cs, d, hc, hp, hd, rfl⟩ | ⟨h0, hat⟩
  · rw [hd] at hn
    refine ⟨?_, by simp; omega, .inl ⟨pre, cs, d.drop n, hc, ?_, by simp [copy, hd], ?_⟩⟩
    · have ht := congrArg (take n) hp
      rw [pending, take_append_of_le_length (by simpa using hl), append_assoc, take_append_of_le_length hn] at ht
      rw [ht, take_append_of_le_length hn]
    · rw [hpe, hp, append_assoc, drop_append_of_le_length hn, append_assoc]
    · rw [drop_append_of_le_length hn]
  · obtain rfl : n = 0 := by omega
    refine ⟨by simp, by simp, .inr ⟨by simp [copy, h0], ?_⟩⟩
    rw [hpe]
    simpa using hat

lemma Done.rewind (hd : Done s body) : s.rewind = s := by
  have hlt := hd.cursor
  rw [St.rewind, if_neg (by omega)]

section Rewind
variable (hf : s.finish = false) (hd : Decodes chunks s.pending s.chunkedRemain body) (hsmall : s.line.length < 2 ^ 64)
include hf hd hsmall

lemma rewind_spec (hc : s.cursor ≤ s.line.length) : Live chunks s.rewind body ∧ s.rewind.pending = s.pending ∧
    s.rewind.chunkedRemain = s.chunkedRemain ∧ s.rewind.line.length - s.rewind.cursor ≤ s.line.length - s.cursor := by
  unfold St.rewind
  split
  next he =>
    have hpe : ({ s with line := [], cursor := 0 } : St).pending = s.pending := by
      simp [pending, he]
    refine ⟨⟨hf, ?_, le_rfl, by simp⟩, hpe, rfl, by simp⟩
    rw [hpe]
    exact hd
  · exact ⟨⟨hf, hd, hc, hsmall⟩, rfl, rfl, le_rfl⟩

lemma compact_spec : Live chunks s.compact body := by
  refine ⟨hf, hd, Nat.zero_le _, ?_⟩
  simp only [compact, length_drop]
  omega

lemma posNextChunk_rewind (sock : Socket) (hg : ∀ c ∈ chunks, c ≠ [] ∧ c.length < 2 ^ 64)
    (hr : s.chunkedRemain = 0) :
    (posNextChunk sock s s.cursor = some (false, s) ∧ findCRLF (s.line.drop s.cursor) = none) ∨
      ∃ s', posNextChunk sock s s.cursor = some (true, s') ∧ s'.rewind.pending.length ≤ s.pending.length ∧
        (Done s'.rewind body ∨
          Live chunks s'.rewind body ∧ s'.rewind.line.length - s'.rewind.cursor < s.line.length - s.cursor ∧
            (s'.rewind.chunkedRemain = 0 → AtSizeLine chunks s'.rewind.pending body)) := by
  rw [hr] at hd
  have ho := posNextChunk_outcome hsmall sock hg hd
  generalize posNextChunk sock s s.cursor = res at ho
  cases ho with
  | more hfi => exact .inl ⟨rfl, hfi⟩
  | last hdo =>
    refine .inr ⟨_, rfl, ?_, .inl ?_⟩
    · rw [hdo.rewind, length_pending, length_pending]
      exact Nat.le_add_right ..
    · rw [hdo.rewind]
      exact hdo
  | lineEnd hlen hat =>
    obtain ⟨hl, hp, -, hle⟩ := rewind_spec (s := { s with chunkedRemain := 0, cursor := s.cursor + 2 }) hf
      (.inr ⟨rfl, hat⟩) hsmall hlen
    refine .inr ⟨_, rfl, ?_, .inr ⟨hl, ?_, fun _ => ?_⟩⟩
    · rw [hp, length_pending, length_pending]
      dsimp only
      omega
    · dsimp only at hle
      omega
    · rw [hp]
      exact hat
  | size n remain hn hlen hpo hin =>
    obtain ⟨hl, hp, hre, hle⟩ := rewind_spec (s := { s with chunkedRemain := remain, cursor := n }) hf (.inl hin)
      hsmall hlen
    refine .inr ⟨_, rfl, ?_, .inr ⟨hl, ?_, fun h0 => ?_⟩⟩
    · rw [hp, length_pending, length_pending]
      dsimp only
      omega
    · dsimp only at hle
      omega
    · rw [hre] at h0
      exact absurd h0 (ne_of_gt hpo)

end Rewind

structure LinePost (chunks : List Bytes) (s : St) (count : Nat) (body : Bytes) : Prop where
  inv : Inv chunks s body
  line : 0 < s.chunkedRemain → 0 < count → s.cursor = s.line.length
  between : s.finish = false → s.chunkedRemain = 0 → s.cursor < s.line.length →
    AtSizeLine chunks s.pending body ∨ findCRLF (s.line.drop s.cursor) = none

lemma Done.linePost (hd : Done s body) : LinePost chunks s count body :=
  ⟨.inr hd, fun h => absurd hd.remain (ne_of_gt h), fun h => absurd (h.symm.trans hd.finish) (by simp)⟩

/-- `read_from_line_buf` returns with the next `k` bytes of the body delivered. -/
def LineResult (chunks : List Bytes) (s : St) (count : Nat) (out body : Bytes)
    (res : Option (St × Nat × Bytes)) : Prop :=
  ∃ s' k, res = some (s', count - k, out ++ body.take k) ∧ k ≤ count ∧ k ≤ body.length ∧
    LinePost chunks s' (count - k) (body.drop k) ∧ s'.pending.length ≤ s.pending.length

lemma LineResult.copied {res : Option (St × Nat × Bytes)} (hn : n ≤ count)
    (hnb : n ≤ body.length) (hp : s'.pending.length ≤ s.pending.length)
    (h : LineResult chunks s' (count - n) (out ++ body.take n) (body.drop n) res) :
    LineResult chunks s count out body res := by
  obtain ⟨s1, k, rfl, hk, hkb, hpo, hle⟩ := h
  rw [length_drop] at hkb
  refine ⟨s1, n + k, ?_, by omega, by omega, ?_, by omega⟩
  · rw [append_assoc, ← take_add, Nat.sub_sub]
  · rwa [drop_drop, Nat.sub_sub] at hpo

lemma LineResult.stop (h : LinePost chunks s count body) : LineResult chunks s count out body (some (s, count, out)) :=
  ⟨s, 0, by simp, Nat.zero_le _, Nat.zero_le _, by simpa using h, le_rfl⟩

lemma lineLoop_finish (hf : s.finish = true) (hfu : 0 < fuel) :
    lineLoop sock fuel s count out = some (s, count, out) := by
  obtain ⟨fuel, rfl⟩ := Nat.exists_eq_succ_of_ne_zero (ne_of_gt hfu)
  rw [lineLoop, if_neg (by simp [hf])]

lemma lineLoop_spec (hg : ∀ c ∈ chunks, c ≠ [] ∧ c.length < 2 ^ 64) (hi : Live chunks s body)
    (hfu : s.line.length - s.cursor < fuel) (hat : count = 0 → s.chunkedRemain = 0 → AtSizeLine chunks s.pending body) :
    LineResult chunks s count out body (lineLoop sock fuel s count out) := by
  induction fuel generalizing s count out body with
  | zero => omega
  | succ fuel ih =>
    rw [lineLoop]
    by_cases hco : count > 0 ∧ s.cursor < s.line.length ∧ s.finish = false
    · rw [if_pos hco]
      dsimp only
      have hn : s.copied count ≤ count ∧ s.copied count ≤ s.chunkedRemain ∧
          s.copied count ≤ s.line.length - s.cursor := by
        unfold copied
        omega
      generalize hcop : s.copied count = n at hn ⊢
      obtain ⟨ht, hnb, hd⟩ := copy_spec hi.decodes hn.2.1 hn.2.2
      have hpe : (s.copy n).pending.length ≤ s.pending.length := by
        simp only [length_pending, copy]
        omega
      have hcu : (s.copy n).cursor = s.cursor + n := rfl
      have hli : (s.copy n).line = s.line := rfl
      have hre : (s.copy n).chunkedRemain = s.chunkedRemain - n := rfl
      rw [ht]
      by_cases hr : (s.copy n).chunkedRemain = 0
      · rw [if_pos hr]
        rcases posNextChunk_rewind (s := s.copy n) hi.finish hd hi.small sock hg hr with
          ⟨he, hfi⟩ | ⟨s', he, hp, hdo | ⟨hl, hlt, hat'⟩⟩
        · rw [he]
          have hpo : LinePost chunks (s.copy n).compact (count - n) (body.drop n) :=
            ⟨.inl (compact_spec hi.finish hd hi.small), fun h => absurd hr (ne_of_gt h), fun _ _ _ => .inr hfi⟩
          exact .copied hn.1 hnb hpe (.stop hpo)
        · rw [he]
          dsimp only
          rw [lineLoop_finish hdo.finish (by omega)]
          exact .copied hn.1 hnb (le_trans hp hpe) (.stop hdo.linePost)
        · rw [he]
          refine .copied hn.1 hnb (le_trans hp hpe) (ih hl ?_ fun _ => hat')
          rw [hcu, hli] at hlt
          omega
      · rw [if_neg hr]
        -- the chunk goes on, so all of the buffer was copied or the count is used up
        have hn0 : 0 < n := by
          unfold copied at hcop
          omega
        obtain ⟨hl, hp, hr', hle⟩ := rewind_spec (s := s.copy n) hi.finish hd hi.small
          (show s.cursor + n ≤ s.line.length by omega)
        refine .copied hn.1 hnb (hp ▸ hpe) (ih hl ?_ fun _ h0 => ?_)
        · rw [hcu, hli] at hle
          omega
        · rw [hr'] at h0
          exact absurd h0 hr
    · rw [if_neg hco]
      refine .stop ⟨.inl hi, fun _ h => ?_, fun hf hr hc => ?_⟩
      · have hle := hi.cursor
        by_contra hne
        exact hco ⟨h, by omega, hi.finish⟩
      have h0 : count = 0 := by
        by_contra h
        exact hco ⟨pos_of_ne_zero h, hc, hf⟩
      exact .inl (hat h0 hr)

/-! ## The stream -/

def Passed (chunks : List Bytes) (s : St) (body : Bytes) (res : Option (Option St)) : Prop :=
  ∃ s', res = some (some s') ∧ Inv chunks s' body ∧ (s'.finish = true ∨ s'.pending.length < s.pending.length)

def St.receive (s : St) (n : Nat) : St := { s with line := s.line ++ s.stream.take n, stream := s.stream.drop n }

lemma receive_pending (hc : s.cursor ≤ s.line.length) (n : Nat) : (s.receive n).pending = s.pending := by
  rw [pending, receive, drop_append_of_le_length hc, append_assoc, take_append_drop]
  rfl

def recvCount (sock : Socket) (s : St) : Nat := sock.recvSize s.stream.length (LINE_BUFFER_SIZE - s.line.length)

lemma recvCount_spec (sock : Socket) (hlen : s.line.length < 18) (hs : s.stream ≠ []) :
    0 < recvCount sock s ∧ recvCount sock s ≤ s.stream.length ∧
      s.line.length + recvCount sock s ≤ LINE_BUFFER_SIZE := by
  have hca : 0 < LINE_BUFFER_SIZE - s.line.length := by
    unfold LINE_BUFFER_SIZE
    omega
  have hpo := sock.recvSize_pos s.stream.length _ (length_pos_iff.2 hs) hca
  have hle := sock.recvSize_le s.stream.length (LINE_BUFFER_SIZE - s.line.length)
  unfold recvCount
  omega

lemma recvLoop_succ (hf : s.finish = false) (hle : s.line.length < 18) (hs : s.stream ≠ []) :
    recvLoop sock (fuel + 1) s =
      if (s.receive (recvCount sock s)).line.length ≤ 2 then recvLoop sock fuel (s.receive (recvCount sock s))
      else match posNextChunk sock (s.receive (recvCount sock s)) 0 with
        | none => none
        | some (true, s') => some (some s')
        | some (false, s') => recvLoop sock fuel s' := by
  have hca : (LINE_BUFFER_SIZE + (2 ^ 64 - s.line.length)) % 2 ^ 64 = LINE_BUFFER_SIZE - s.line.length := by
    unfold LINE_BUFFER_SIZE
    omega
  have hn := recvCount_spec sock hle hs
  have hgo : (s.stream.take (recvCount sock s)).length = recvCount sock s := by
    rw [length_take]
    omega
  have hne : s.stream.take (recvCount sock s) ≠ [] := by
    intro h
    rw [h, length_nil] at hgo
    omega
  rw [recvLoop, if_neg (by simp [hf]), hca, Socket.recv, if_neg hs]
  change (if s.stream.take (recvCount sock s) = [] then _ else _) = _
  rw [if_neg hne]
  rw [recvCount] at hgo
  rw [hgo]
  rfl

section
variable (hg : ∀ c ∈ chunks, c ≠ [] ∧ c.length < 2 ^ 64)
include hg

lemma recvLoop_spec (hf : s.finish = false) (hd : Decodes chunks s.pending 0 body) (hr : s.chunkedRemain = 0)
    (hc : s.cursor = 0) (hle : s.line.length < 18) (hs : s.stream ≠ []) (hfu : s.stream.length < fuel) :
    Passed chunks s body (recvLoop sock fuel s) := by
  induction fuel generalizing s with
  | zero => omega
  | succ fuel ih =>
    have hn := recvCount_spec sock hle hs
    have hp := receive_pending (s := s) (by omega) (recvCount sock s)
    have hst : (s.receive (recvCount sock s)).stream.length = s.stream.length - recvCount sock s := length_drop ..
    have hli : (s.receive (recvCount sock s)).line.length = s.line.length + recvCount sock s := by
      rw [receive, length_append, length_take]
      omega
    rw [recvLoop_succ hf hle hs]
    generalize hs1 : s.receive (recvCount sock s) = s1 at *
    have hf1 : s1.finish = false := hs1 ▸ hf
    have hr1 : s1.chunkedRemain = 0 := hs1 ▸ hr
    have hc1 : s1.cursor = 0 := hs1 ▸ hc
    rw [← hp] at hd
    unfold Passed
    rw [← hp]
    have hsmall : s1.line.length < 2 ^ 64 := by
      unfold LINE_BUFFER_SIZE at hn
      omega
    have hm : s1.line.length < 18 → s1.stream ≠ [] → Passed chunks s1 body (recvLoop sock fuel s1) :=
      fun hle hs => ih hf1 hd hr1 hc1 hle hs (by omega)
    have ho := posNextChunk_outcome hsmall sock hg hd
    rw [hc1] at ho
    by_cases h2 : s1.line.length ≤ 2
    · rw [if_pos h2]
      refine hm (by omega) fun hni => ?_
      have := hd.length
      rw [length_pending, hni] at this
      simp only [length_nil] at this
      omega
    · rw [if_neg h2]
      generalize posNextChunk sock s1 0 = res at ho
      cases ho with
      | more hfi hle hs => exact hm (by omega) hs
      | last hdo => exact ⟨_, rfl, .inr hdo, .inl rfl⟩
      | lineEnd hle hat =>
        refine ⟨_, rfl, .inl ⟨hf1, .inr ⟨rfl, hat⟩, ?_, hsmall⟩, .inr ?_⟩
        · dsimp only
          omega
        · rw [length_pending, length_pending]
          dsimp only
          omega
      | size n remain hn' hle hpo hin =>
        refine ⟨_, rfl, .inl ⟨hf1, .inl hin, hle, hsmall⟩, .inr ?_⟩
        rw [length_pending, length_pending]
        dsimp only
        omega

lemma getNewChunk_spec (hi : Inv chunks s body) (hready : s.Ready) (hr : s.chunkedRemain = 0)
    (hb : s.finish = false → s.cursor < s.line.length →
      AtSizeLine chunks s.pending body ∨ findCRLF (s.line.drop s.cursor) = none) :
    Passed chunks s body (getNewChunk sock s) := by
  rw [getNewChunk]
  rcases hi with hl | hd
  · have hde := hl.decodes
    rw [hr] at hde
    by_cases hc : s.cursor < s.line.length
    · rw [if_pos hc]
      have ho := posNextChunk_outcome hl.small sock hg hde
      have hnon : findCRLF (s.line.drop s.cursor) = none → posNextChunk sock s s.cursor = some (false, s) :=
        posNextChunk_none
      generalize posNextChunk sock s s.cursor = res at ho hnon
      cases ho with
      | more hfi hlen hs =>
        refine recvLoop_spec hg hl.finish hde hr rfl ?_ hs (Nat.lt_succ_self _)
        simp only [compact, length_drop]
        omega
      | last hdo => exact ⟨_, rfl, .inr hdo, .inl rfl⟩
      | lineEnd hlen hat hno =>
        -- the line end of a chunk was passed when the chunk ended
        rcases hb hl.finish hc with hat' | hfi
        · exact absurd hat' hno
        · cases hnon hfi
      | size n remain hn hlen hpo hin =>
        refine ⟨_, rfl, .inl ⟨hl.finish, .inl hin, hlen, hl.small⟩, .inr ?_⟩
        rw [length_pending, length_pending]
        dsimp only
        omega
    · rw [if_neg hc]
      have hle := hl.cursor
      have hni := hready.1 (by omega)
      have hc0 : s.cursor = 0 := by simpa [hni] using hle
      refine recvLoop_spec hg hl.finish hde hr hc0 (by simp [hni]) ?_ (Nat.lt_succ_self _)
      intro hs
      have := hde.length
      rw [length_pending, hni, hs] at this
      simp at this
  · -- the last chunk was found in the buffer, and is looked for once more
    have hp : s.pending = encode [] := by
      rw [pending, hd.stream, append_nil]
      exact hd.line.eq_of_length_le (hready.2 hd.finish).length_le
    have hlen := congrArg length hp
    rw [length_pending, hd.stream, show (encode []).length = 5 by decide, length_nil] at hlen
    rw [if_pos hd.cursor, posNextChunk_last hp (by omega) hd.small]
    exact ⟨_, rfl, .inr (hd.body ▸ done_of_last hp (by omega) hd.small), .inl rfl⟩

end

lemma readFromStream_spec (sock : Socket) (hi : Inv chunks s body)
    (hli : 0 < s.chunkedRemain → 0 < count → s.cursor = s.line.length) :
    ∃ s' k, readFromStream sock s count = some (s', body.take k) ∧ k = min count s.chunkedRemain ∧ k ≤ body.length ∧
      Inv chunks s' (body.drop k) ∧ s'.chunkedRemain = s.chunkedRemain - k ∧ s'.pending.length ≤ s.pending.length ∧
      (k = 0 → s' = s) ∧ (0 < k → s'.cursor = s'.line.length) := by
  unfold readFromStream
  split
  next hpo =>
    rcases hi with hl | hd
    · have hn := hli hpo.1 hpo.2
      have hpe : s.pending = s.stream := by simp [pending, hn]
      rcases hl.decodes with ⟨pre, cs, d, hc, hp, hd, rfl⟩ | ⟨h0, -⟩
      · have hk : min count s.chunkedRemain ≤ d.length := by omega
        rw [hpe] at hp
        have hsl : d.length ≤ s.stream.length := by
          rw [hp]
          simp only [length_append]
          omega
        generalize hke : min count s.chunkedRemain = k at *
        have ht : s.stream.take k = (d ++ cs.flatten).take k := by
          rw [hp, append_assoc, take_append_of_le_length hk, take_append_of_le_length hk]
        have hle : (s.stream.take k).length = k := by
          rw [length_take]
          omega
        rw [Socket.read, if_pos (by omega), Option.map_some, hle]
        refine ⟨{ s with chunkedRemain := s.chunkedRemain - k, stream := s.stream.drop k }, k, by rw [ht], rfl,
          by simp; omega, .inl ⟨hl.finish, .inl ?_, hl.cursor, hl.small⟩, rfl, ?_, by omega, fun _ => hn⟩
        · refine ⟨pre, cs, d.drop k, hc, ?_, by simp [hd], by rw [drop_append_of_le_length hk]⟩
          rw [pending, hp, append_assoc, drop_append_of_le_length hk]
          simp [hn]
        · rw [length_pending, length_pending]
          simp
      · omega
    · exact absurd hd.remain (ne_of_gt hpo.1)
  · exact ⟨s, 0, by simp, by omega, Nat.zero_le _, by simpa using hi, rfl, le_rfl, fun _ => rfl, by omega⟩

/-- `read` has delivered the next `count` bytes of the body, or all that is left of it. -/
def ReadResult (chunks : List Bytes) (count : Nat) (out body : Bytes) (res : Option (St × Bytes × Int)) : Prop :=
  ∃ s', res = some (s', out ++ body.take count, ((out ++ body.take count).length : Int)) ∧
    Inv chunks s' (body.drop count)

lemma ReadResult.append {k : Nat} {res : Option (St × Bytes × Int)} (hk : k ≤ count)
    (h : ReadResult chunks (count - k) (out ++ body.take k) (body.drop k) res) :
    ReadResult chunks count out body res := by
  obtain ⟨s', rfl, hi⟩ := h
  have ht : body.take k ++ (body.drop k).take (count - k) = body.take count := by
    rw [← take_add, Nat.add_sub_cancel' hk]
  rw [drop_drop, Nat.add_sub_cancel' hk] at hi
  refine ⟨s', ?_, hi⟩
  rw [append_assoc, ht]

section
variable (hg : ∀ c ∈ chunks, c ≠ [] ∧ c.length < 2 ^ 64)
include hg

section
variable (hi : Inv chunks s body)
include hi

lemma readLoop_spec (hca : ∀ t ∈ readCalls sock fuel s count, t.Ready) (hfu : 0 < fuel)
    (hm : 0 < count → s.finish = false → s.pending.length + 1 < fuel) :
    ReadResult chunks count out body (readLoop sock fuel s count out) := by
  induction fuel generalizing s count out body with
  | zero => omega
  | succ fuel ih =>
    rw [readLoop]
    rw [readCalls] at hca
    by_cases hco : count > 0 ∧ s.finish = false
    · rw [if_pos hco] at hca ⊢
      have hf' := hm hco.1 hco.2
      have hl : Live chunks s body := hi.resolve_right fun hd => by simp [hd.finish] at hco
      obtain ⟨s1, k1, he1, hk1, hkb1, hpo, hp1⟩ :
          LineResult chunks s count [] body (readFromLineBuf sock s count) :=
        lineLoop_spec hg hl (by omega) fun h => by omega
      obtain ⟨s2, k2, he2, hk2, hkb2, hi2, hr2, hp2, hsa, hn⟩ := readFromStream_spec sock hpo.inv hpo.line
      rw [he1] at hca ⊢
      dsimp only at hca ⊢
      rw [he2] at hca ⊢
      dsimp only at hca ⊢
      have hgo : ((body.drop k1).take k2).length = k2 := by
        rw [length_take]
        omega
      have he : ¬ (s2.chunkedRemain > 0 ∧ count - k1 > 0 ∧ (body.drop k1).take k2 = []) := by
        rintro ⟨hpos, hc, hn⟩
        rw [hn, length_nil] at hgo
        omega
      rw [drop_drop] at hi2
      rw [if_neg he, hgo, nil_append, append_assoc, ← take_add, Nat.sub_sub]
      rw [if_neg he, hgo, Nat.sub_sub] at hca
      by_cases hr : s2.chunkedRemain = 0
      · rw [if_pos hr] at hca ⊢
        have hb : s2.finish = false → s2.cursor < s2.line.length →
            AtSizeLine chunks s2.pending (body.drop (k1 + k2)) ∨ findCRLF (s2.line.drop s2.cursor) = none := by
          intro hf hc
          by_cases h0 : k2 = 0
          · obtain rfl := hsa h0
            rw [h0]
            exact hpo.between hf hr hc
          · have := hn (pos_of_ne_zero h0)
            omega
        have hready : s2.Ready := by
          apply hca
          split <;> exact mem_cons_self
        obtain ⟨s3, he3, hi3, hle⟩ := getNewChunk_spec hg hi2 hready hr hb
        rw [he3] at hca ⊢
        refine .append (by omega) (ih hi3 (fun t ht => hca t (mem_cons_of_mem _ ht)) (by omega) fun _ hf => ?_)
        have := hle.resolve_left (by simp [hf])
        omega
      · rw [if_neg hr] at hca ⊢
        -- the chunk goes on, so the count is used up
        exact .append (by omega) (ih hi2 hca (by omega) fun h => by omega)
    · rw [if_neg hco]
      have he : count = 0 ∨ body = [] := by
        rcases hi with hl | hd
        · exact .inl (Nat.eq_zero_of_not_pos fun h => hco ⟨h, hl.finish⟩)
        · exact .inr hd.body
      have ht : body.take count = [] := take_eq_nil_iff.2 he
      have hdr : body.drop count = body := by
        rcases he with rfl | rfl
        · rfl
        · simp
      exact ⟨s, by rw [ht, append_nil], by rwa [hdr]⟩

lemma reads_spec {counts : List Nat} (hca : ∀ t ∈ readsCalls sock s counts, t.Ready) :
    ∃ s', reads sock s counts = some (s', delivered body counts) := by
  induction counts generalizing s body with
  | nil => exact ⟨s, rfl⟩
  | cons count counts ih =>
    rw [readsCalls] at hca
    obtain ⟨s1, heq, hi1⟩ : ReadResult chunks count [] body (read sock s count) := by
      refine readLoop_spec hg hi (fun t ht => hca t (mem_append_left _ ht)) (by omega) fun _ _ => ?_
      rw [length_pending]
      omega
    rw [heq] at hca
    obtain ⟨s', he⟩ := ih hi1 fun t ht => hca t (mem_append_right _ ht)
    refine ⟨s', ?_⟩
    rw [reads, heq]
    dsimp only
    rw [he]
    rfl

end

end

end

lemma delivered_flatten (body : Bytes) (counts : List Nat) :
    ((delivered body counts).map Prod.fst).flatten = body.take counts.sum := by
  induction counts generalizing body with
  | nil => rfl
  | cons count counts ih => rw [delivered, map_cons, flatten_cons, ih, sum_cons, take_add]

lemma length_le_length_encode (hc : c ∈ chunks) : c.length ≤ (encode chunks).length := by
  induction chunks with
  | nil => simp at hc
  | cons a cs ih =>
    rw [encode]
    simp only [length_append]
    rcases mem_cons.1 hc with rfl | hc
    · omega
    · have := ih hc
      omega

def hello : Bytes := [104, 101, 108, 108, 111]

def Socket.whole : Socket where
  recvSize n cap := if n ≤ cap then n else min 1 cap
  recvSize_pos n cap hn hc := by split <;> omega
  recvSize_le n cap := by split <;> omega
  closed := false

/-- The size line comes alone. -/
def Socket.afterSize : Socket where
  recvSize n cap := if n = 15 then min 3 cap else min n cap
  recvSize_pos n cap hn hc := by split <;> omega
  recvSize_le n cap := by split <;> omega
  closed := false

end Photon.Http
