import Photon.Net.ChunkedBody
/-!
# ChunkedBodyWriteStream

Every write becomes a chunk of its own, its size printed into ten bytes; `close` writes an
empty one. The stream under it takes bytes as long as its peer has room, and a write that
does not go out as a whole fails.

From 2^28 bytes on, the ten bytes have no room for the line end: a carriage return and a zero
byte stand for it (`lineEnd`). What is sent is a chunked body exactly when no write is empty or
that long.
-/

namespace Photon.Http

open List

structure Out where
  sent : Bytes := []
  room : Nat
  deriving DecidableEq

open Out

def Out.write (o : Out) (buf : Bytes) : Out × Nat :=
  let n := min buf.length o.room
  ({ sent := o.sent ++ buf.take n, room := o.room - n }, n)

def Out.writev (o : Out) (iov : List Bytes) : Out × Nat := o.write iov.flatten

/-- `snprintf(buf, cap, ..)`: what `buf` holds then, and the length of the whole text. -/
def snprintf (cap : Nat) (text : Bytes) : Bytes × Nat := (text.take (cap - 1) ++ [0], text.length)

structure ChunkedBodyWriteStream where
  stream : Out
  finish : Bool := false
  deriving DecidableEq

namespace ChunkedBodyWriteStream

/-- `chunk_size`, which has ten bytes, after `"%x\r\n"` of `(unsigned)count` was printed to it. -/
def chunkSize (count : Nat) : Bytes × Nat := snprintf 10 (hexDigits (count % 2 ^ 32) ++ CRLF)

/-- `{chunk_size, size}`. -/
def sizeLine (count : Nat) : Bytes := (chunkSize count).1.take (chunkSize count).2

/-- `{&chunk_size[size - 2], 2}`. -/
def sizeEnd (count : Nat) : Bytes := ((chunkSize count).1.drop ((chunkSize count).2 - 2)).take 2

def write (w : ChunkedBodyWriteStream) (buf : Bytes) : ChunkedBodyWriteStream × Int :=
  let count := buf.length
  let size := (chunkSize count).2
  if size = 0 then (w, -1)
  else
    let total := size + count + 2
    let (stream, n) := w.stream.writev [sizeLine count, buf, sizeEnd count]
    if n ≠ total then ({ w with stream }, -1) else ({ w with stream }, count)

def writev (w : ChunkedBodyWriteStream) (iov : List Bytes) : ChunkedBodyWriteStream × Int :=
  let count := iov.flatten.length
  let size := (chunkSize count).2
  let (stream, n) := w.stream.write (sizeLine count)
  if n ≠ size then ({ w with stream }, -1)
  else
    let (stream, n) := stream.writev iov
    if n ≠ count then ({ w with stream }, -1)
    else
      let (stream, n) := stream.write (sizeEnd count)
      if n ≠ 2 then ({ w with stream }, -1) else ({ w with stream }, count)

def close (w : ChunkedBodyWriteStream) : ChunkedBodyWriteStream × Int :=
  if w.finish then (w, 0)
  else
    let (w, n) := w.write []
    if n = 0 then ({ w with finish := true }, 0) else (w, -1)

inductive Call where
  | write (buf : Bytes)
  | writev (iov : List Bytes)
  deriving DecidableEq

def Call.data : Call → Bytes
  | write buf => buf
  | writev iov => iov.flatten

def call (w : ChunkedBodyWriteStream) : Call → ChunkedBodyWriteStream × Int
  | .write buf => w.write buf
  | .writev iov => w.writev iov

def calls (w : ChunkedBodyWriteStream) : List Call → ChunkedBodyWriteStream × List Int
  | [] => (w, [])
  | c :: cs =>
    let (w, ret) := w.call c
    let (w, rets) := w.calls cs
    (w, ret :: rets)

end ChunkedBodyWriteStream

/-! ## The grammar -/

def digitsValue (h : Bytes) : Nat := h.foldl (fun v c => v * 16 + (hexCharToDigit c).toNat) 0

/-- `chunked-body` without extensions and trailers, and the data it stands for: chunks whose size is a hexadecimal
number and not zero, and one last chunk. -/
inductive Chunked : Bytes → Bytes → Prop where
  | last {h : Bytes} (nonempty : h ≠ []) (zeros : ∀ c ∈ h, c = 48) : Chunked (h ++ CRLF ++ CRLF) []
  | chunk {h d rest data : Bytes} (nonempty : h ≠ []) (digits : ∀ c ∈ h, hexCharToDigit c < 16)
      (size : digitsValue h = d.length) (some : d ≠ []) (next : Chunked rest data) :
      Chunked (h ++ CRLF ++ d ++ CRLF ++ rest) (d ++ data)

lemma digitsValue_hexDigits {n : Nat} (hn : n < 2 ^ 64) : digitsValue (hexDigits n) = n := foldl_hexDigits hn

lemma chunked_encode {chunks : List Bytes} (h : ∀ c ∈ chunks, 0 < c.length ∧ c.length < 2 ^ 64) :
    Chunked (encode chunks) chunks.flatten := by
  induction chunks with
  | nil => exact .last (hexDigits_ne_nil 0) (by decide +kernel)
  | cons c cs ih =>
    obtain ⟨hpo, hlt⟩ := h c mem_cons_self
    rw [encode, flatten_cons]
    exact .chunk (hexDigits_ne_nil _) (hexDigits_digits _) (digitsValue_hexDigits hlt)
      (length_pos_iff.1 hpo) (ih fun d hd => h d (mem_cons_of_mem _ hd))

/-! ## What is sent -/

def chunk (d : Bytes) : Bytes := hexDigits d.length ++ CRLF ++ d ++ CRLF

lemma encode_eq (chunks : List Bytes) : encode chunks = chunks.flatMap chunk ++ chunk [] := by
  induction chunks with
  | nil => rfl
  | cons c cs ih =>
    rw [encode, ih, flatMap_cons, append_assoc (chunk c)]
    rfl

def Out.Sends (o o' : Out) (bytes : Bytes) : Prop :=
  bytes.length ≤ o.room ∧ o'.sent = o.sent ++ bytes ∧ o'.room = o.room - bytes.length

lemma Out.write_eq (o : Out) (buf : Bytes) : (o.write buf).2 = buf.length ↔ buf.length ≤ o.room := by
  unfold Out.write
  dsimp only
  omega

lemma Out.write_sends {o : Out} {buf : Bytes} (h : buf.length ≤ o.room) : o.Sends (o.write buf).1 buf := by
  unfold Out.write
  dsimp only
  rw [min_eq_left h, take_length]
  exact ⟨h, rfl, rfl⟩

lemma Out.Sends.append {o o1 o2 : Out} {a b : Bytes} (h1 : o.Sends o1 a) (h2 : o1.Sends o2 b) :
    o.Sends o2 (a ++ b) := by
  obtain ⟨hr1, hs1, hl1⟩ := h1
  obtain ⟨hr2, hs2, hl2⟩ := h2
  refine ⟨?_, ?_, ?_⟩
  · rw [length_append]
    omega
  · rw [hs2, hs1, append_assoc]
  · rw [length_append]
    omega

namespace ChunkedBodyWriteStream

/-- What `write` and `writev` send for the line end; `snprintf` cuts it off behind eight digits. -/
def lineEnd (cnt : Nat) : Bytes := if cnt < 2 ^ 28 then CRLF else [CR, 0]

lemma lineEnd_length (cnt : Nat) : (lineEnd cnt).length = 2 := by
  rw [lineEnd]
  split <;> rfl

lemma chunkSize_eq {cnt : Nat} (h : cnt < 2 ^ 32) : (chunkSize cnt).2 = (hexDigits cnt).length + 2 ∧
    ((chunkSize cnt).1 = hexDigits cnt ++ lineEnd cnt ∨ (chunkSize cnt).1 = hexDigits cnt ++ lineEnd cnt ++ [0]) := by
  have hk : cnt < 16 ^ 16 := by omega
  rw [chunkSize, Nat.mod_eq_of_lt h, snprintf, lineEnd]
  refine ⟨length_append, ?_⟩
  split
  next hn =>
    have hle : (hexDigits cnt).length ≤ 7 := by
      rw [hexDigits_eq]
      exact digitsTo_length_le_of_lt (by decide) hk (show cnt < 16 ^ 7 by omega)
    refine .inr ?_
    rw [take_of_length_le]
    rw [length_append]
    exact Nat.add_le_add_right hle 2
  next hn =>
    have hle : (hexDigits cnt).length = 8 := by
      rw [hexDigits_eq]
      apply le_antisymm
      · exact digitsTo_length_le_of_lt (by decide) hk (show cnt < 16 ^ 8 by omega)
      · exact lt_digitsTo_length (by decide) hk (show 16 ^ 7 ≤ cnt by omega)
    refine .inl ?_
    rw [take_append, hle, take_of_length_le (by omega), append_assoc]
    rfl

lemma sizeLine_eq {cnt : Nat} (h : cnt < 2 ^ 32) : sizeLine cnt = hexDigits cnt ++ lineEnd cnt ∧
    sizeEnd cnt = lineEnd cnt ∧ (chunkSize cnt).2 = (hexDigits cnt ++ lineEnd cnt).length ∧ (chunkSize cnt).2 ≠ 0 := by
  obtain ⟨hsi, hbu⟩ := chunkSize_eq h
  have hle := lineEnd_length cnt
  have hlen : (chunkSize cnt).2 = (hexDigits cnt ++ lineEnd cnt).length := by rw [hsi, length_append, hle]
  refine ⟨?_, ?_, hlen, by omega⟩
  · rw [sizeLine, hlen]
    rcases hbu with hbu | hbu <;> rw [hbu]
    · exact take_length
    · exact take_left
  · rw [sizeEnd, hsi, Nat.add_sub_cancel]
    rcases hbu with hbu | hbu <;> rw [hbu]
    · rw [drop_left, ← hle, take_length]
    · rw [append_assoc, drop_left, ← hle, take_left]

/-- What `write` and `writev` send. -/
def written (d : Bytes) : Bytes := hexDigits d.length ++ lineEnd d.length ++ d ++ lineEnd d.length

lemma written_eq {d : Bytes} (h : d.length < 2 ^ 28) : written d = chunk d := by
  rw [written, chunk, lineEnd, if_pos h]

lemma written_length (d : Bytes) : (written d).length = (chunk d).length := by
  simp only [written, chunk, length_append, lineEnd_length]
  rfl

lemma flatMap_written_length (ds : List Bytes) : (ds.flatMap written).length = (ds.flatMap chunk).length := by
  rw [length_flatMap, length_flatMap]
  exact congrArg (fun f => (ds.map f).sum) (funext written_length)

/-- What `write` and `writev` do: the chunk has gone out, or they fail. -/
def Wrote (w : ChunkedBodyWriteStream) (d : Bytes) (r : ChunkedBodyWriteStream × Int) : Prop :=
  r.1.finish = w.finish ∧
    (r.2 = d.length ∧ w.stream.Sends r.1.stream (written d) ∨ r.2 = -1 ∧ w.stream.room < (written d).length)

section
variable (w : ChunkedBodyWriteStream)

lemma write_wrote {d : Bytes} (hd : d.length < 2 ^ 32) : Wrote w d (w.write d) := by
  obtain ⟨hli, he, hsi, hn⟩ := sizeLine_eq hd
  have hch : [sizeLine d.length, d, sizeEnd d.length].flatten = written d := by
    rw [hli, he]
    simp [written]
  have ht : (chunkSize d.length).2 + d.length + 2 = (written d).length := by
    simp only [hsi, written, length_append, lineEnd_length]
  rw [write, if_neg hn, Out.writev, hch]
  dsimp only
  rw [ht]
  split
  next hsh =>
    refine ⟨rfl, .inr ⟨rfl, ?_⟩⟩
    rw [ne_eq, write_eq, not_le] at hsh
    exact hsh
  next ha =>
    rw [ne_eq, not_not, write_eq] at ha
    exact ⟨rfl, .inl ⟨rfl, write_sends ha⟩⟩

lemma writev_wrote {iov : List Bytes} (hd : iov.flatten.length < 2 ^ 32) : Wrote w iov.flatten (w.writev iov) := by
  obtain ⟨hli, he, hsi, -⟩ := sizeLine_eq hd
  have hch : written iov.flatten = hexDigits iov.flatten.length ++ lineEnd iov.flatten.length ++ iov.flatten ++
      lineEnd iov.flatten.length := rfl
  have hlen := congrArg length hch
  rw [length_append, length_append] at hlen
  have hcr := lineEnd_length iov.flatten.length
  rw [writev]
  dsimp only
  rw [hli, hsi, he]
  split
  next hsh =>
    rw [ne_eq, write_eq, not_le] at hsh
    exact ⟨rfl, .inr ⟨rfl, by omega⟩⟩
  rename_i ha
  rw [ne_eq, not_not, write_eq] at ha
  have h1 := write_sends ha
  generalize (w.stream.write (hexDigits iov.flatten.length ++ lineEnd iov.flatten.length)).1 = o1 at h1 ⊢
  rw [Out.writev]
  have hroom1 := h1.2.2
  split
  next hsh =>
    rw [ne_eq, write_eq, not_le] at hsh
    exact ⟨rfl, .inr ⟨rfl, by omega⟩⟩
  rename_i ha
  rw [ne_eq, not_not, write_eq] at ha
  have h2 := write_sends ha
  generalize (o1.write iov.flatten).1 = o2 at h2 ⊢
  have hroom2 := h2.2.2
  split
  next hsh =>
    rw [← hcr, ne_eq, write_eq, not_le] at hsh
    exact ⟨rfl, .inr ⟨rfl, by omega⟩⟩
  next ha =>
    rw [← hcr, ne_eq, not_not, write_eq] at ha
    exact ⟨rfl, .inl ⟨rfl, (h1.append h2).append (write_sends ha)⟩⟩

lemma call_wrote {c : Call} (hc : c.data.length < 2 ^ 32) : Wrote w c.data (w.call c) := by
  cases c with
  | write => exact write_wrote w hc
  | writev => exact writev_wrote w hc

lemma calls_wrote {cs : List Call} (hsi : ∀ c ∈ cs, c.data.length < 2 ^ 32) : (w.calls cs).1.finish = w.finish ∧
      ((∀ r ∈ (w.calls cs).2, r ≠ -1) → w.stream.Sends (w.calls cs).1.stream ((cs.map Call.data).flatMap written)) ∧
      (((cs.map Call.data).flatMap written).length ≤ w.stream.room →
        (w.calls cs).2 = cs.map fun c => (c.data.length : Int)) := by
  induction cs generalizing w with
  | nil => exact ⟨rfl, fun _ => ⟨Nat.zero_le _, (append_nil _).symm, rfl⟩, fun _ => rfl⟩
  | cons c cs ih =>
    obtain ⟨hf, hca⟩ := call_wrote w (hsi c mem_cons_self)
    obtain ⟨ihf, ihsent, ihroom⟩ := ih (w.call c).1 fun d hd => hsi d (mem_cons_of_mem _ hd)
    rw [calls]
    dsimp only
    rw [map_cons, flatMap_cons, length_append]
    refine ⟨ihf.trans hf, fun ho => ?_, fun hro => ?_⟩
    · rcases hca with ⟨-, hse⟩ | ⟨hfa, -⟩
      · exact hse.append (ihsent fun r hr => ho r (mem_cons_of_mem _ hr))
      · exact absurd hfa (ho _ mem_cons_self)
    rcases hca with ⟨hre, hse⟩ | ⟨-, hle⟩
    · have hlef := hse.2.2
      rw [hre, ihroom (by omega), map_cons]
    · omega

end

lemma close_wrote {w : ChunkedBodyWriteStream} (hw : w.finish = false) :
    w.close.2 = 0 ∧ w.stream.Sends w.close.1.stream (chunk []) ∧ w.close.1.close = (w.close.1, 0) ∨
      w.close.2 = -1 ∧ w.stream.room < (chunk []).length := by
  have hwr := write_wrote w (d := []) (by decide)
  rw [Wrote, written_eq (by decide)] at hwr
  rw [close, if_neg (by simp [hw])]
  generalize w.write [] = r at hwr ⊢
  obtain ⟨w', n⟩ := r
  obtain ⟨-, ⟨hr, hse⟩ | ⟨hr, hle⟩⟩ := hwr
  · cases hr
    exact .inl ⟨rfl, hse, rfl⟩
  · cases hr
    exact .inr ⟨rfl, hle⟩

end ChunkedBodyWriteStream

open ChunkedBodyWriteStream

/-! ## What is a chunked body -/

lemma append_cr_inj {a b x y : Bytes} (ha : CR ∉ a) (hb : CR ∉ b) (h : a ++ CR :: x = b ++ CR :: y) :
    a = b ∧ x = y := by
  have hid : ∀ {c z : Bytes}, CR ∉ c → (c ++ CR :: z).idxOf CR = c.length := by
    intro c z hc
    rw [idxOf_append_of_notMem hc, idxOf_cons_self, add_zero]
  obtain ⟨rfl, ht⟩ := append_inj h (by rw [← hid ha, h, hid hb])
  exact ⟨rfl, (cons.inj ht).2⟩

/-- The size of a chunk ends at the first carriage return. -/
lemma Chunked.inv {h t data : Bytes} (hh : CR ∉ h) (hc : Chunked (h ++ CR :: t) data) :
    (t = LF :: CRLF ∧ data = []) ∨ ∃ d rest data', t = LF :: (d ++ CRLF ++ rest) ∧ digitsValue h = d.length ∧ d ≠ [] ∧
      data = d ++ data' ∧ Chunked rest data' := by
  generalize hby : h ++ CR :: t = bytes at hc
  have hcr : ∀ {h' t' : Bytes}, CR ∉ h' → h ++ CR :: t = h' ++ CRLF ++ t' → h = h' ∧ t = LF :: t' := by
    intro h' t' hh' he
    rw [append_assoc] at he
    exact append_cr_inj hh hh' he
  cases hc with
  | @last h' hn hz =>
    obtain ⟨-, ht⟩ := hcr (fun hm => absurd (hz _ hm) (by decide)) hby
    exact .inl ⟨ht, rfl⟩
  | @chunk h' d rest data' hn hdi hsi hso hne =>
    rw [append_assoc, append_assoc] at hby
    obtain ⟨rfl, ht⟩ := hcr (fun hm => absurd (hdi _ hm) (by decide)) hby
    exact .inr ⟨d, rest, data', by rw [ht, append_assoc], hsi, hso, rfl, hne⟩

/-- One write at a time: a chunk of 1 to 2^28 - 1 bytes is the first chunk of the body, and what is written for any
other count is none. -/
lemma chunked_written {d rest data : Bytes} (hd : d.length < 2 ^ 32) (hre : rest ≠ [])
    (hc : Chunked (written d ++ rest) (d ++ data)) : (0 < d.length ∧ d.length < 2 ^ 28) ∧ Chunked rest data := by
  have hnar : d.length < 2 ^ 28 := by
    by_contra hno
    have he : written d ++ rest = hexDigits d.length ++ CR :: 0 :: (d ++ [CR, 0] ++ rest) := by
      rw [written, lineEnd, if_neg hno]
      simp
    rw [he] at hc
    rcases hc.inv (hexDigits_spec _).1 with ⟨ht, -⟩ | ⟨d', rest', data', ht, -⟩ <;>
      exact absurd (cons.inj ht).1 (by decide)
  have he : written d ++ rest = hexDigits d.length ++ CR :: LF :: (d ++ (CRLF ++ rest)) := by
    rw [written_eq hnar, chunk]
    simp [CRLF]
  rw [he] at hc
  rcases hc.inv (hexDigits_spec _).1 with ⟨ht, hda⟩ | ⟨d', rest', data', ht, hsi, hso, hda, hne⟩
  · -- nothing can stand behind the last chunk
    obtain ⟨rfl, -⟩ := append_eq_nil_iff.1 hda
    exact absurd (append_right_eq_self.1 (cons.inj ht).2) hre
  · rw [digitsValue_hexDigits (by omega)] at hsi
    rw [append_assoc] at ht
    obtain ⟨rfl, hrest⟩ := append_inj (cons.inj ht).2 hsi
    obtain rfl := append_cancel_left hda
    obtain rfl := append_cancel_left hrest
    exact ⟨⟨length_pos_iff.2 hso, hnar⟩, hne⟩

lemma chunked_flatMap_written {ds : List Bytes} (hd : ∀ d ∈ ds, d.length < 2 ^ 32)
    (hc : Chunked (ds.flatMap written ++ chunk []) ds.flatten) : ∀ d ∈ ds, 0 < d.length ∧ d.length < 2 ^ 28 := by
  induction ds with
  | nil => exact forall_mem_nil _
  | cons d ds ih =>
    rw [flatMap_cons, flatten_cons, append_assoc] at hc
    have hne : ds.flatMap written ++ chunk [] ≠ [] := by simp [chunk, CRLF]
    obtain ⟨h1, h2⟩ := chunked_written (hd d mem_cons_self) hne hc
    exact forall_mem_cons.2 ⟨h1, ih (fun d' h => hd d' (mem_cons_of_mem _ h)) h2⟩

/-- Writes of less than 2^32 bytes and a close that all succeed have sent a chunked body of the data exactly when each
write has 1 to 2^28 - 1 bytes; it has the writes for its chunks, and a second close sends nothing more. They succeed
when the peer has room. -/
theorem chunked_write (room : Nat) (cs : List Call) (hsize : ∀ c ∈ cs, c.data.length < 2 ^ 32)
    (w : ChunkedBodyWriteStream) (rets : List Int) (hcalls : calls ⟨{ room := room }, false⟩ cs = (w, rets)) :
    ((∀ r ∈ rets, r ≠ -1) → w.close.2 = 0 →
      (Chunked w.close.1.stream.sent (cs.flatMap Call.data) ↔ ∀ c ∈ cs, 0 < c.data.length ∧ c.data.length < 2 ^ 28) ∧
        ((∀ c ∈ cs, c.data.length < 2 ^ 28) → w.close.1.stream.sent = encode (cs.map Call.data)) ∧
        w.close.1.close = (w.close.1, 0)) ∧
      ((encode (cs.map Call.data)).length ≤ room → rets = cs.map (fun c => (c.data.length : Int)) ∧ w.close.2 = 0) := by
  obtain ⟨hfi, hse, hro⟩ := calls_wrote ⟨{ room := room }, false⟩ hsize
  rw [hcalls] at hfi hse hro
  dsimp only at hfi hse hro
  have hcl := close_wrote hfi
  constructor
  · intro ho hret
    rcases hcl with ⟨-, hsen, hag⟩ | ⟨hfa, -⟩
    · have hse : w.close.1.stream.sent = (cs.map Call.data).flatMap written ++ chunk [] := ((hse ho).append hsen).2.1
      have ha : (∀ c ∈ cs, c.data.length < 2 ^ 28) → w.close.1.stream.sent = encode (cs.map Call.data) := by
        intro hnar
        rw [hse, encode_eq, flatMap_def, flatMap_def, map_map, map_map]
        congr 2
        exact map_congr_left fun c hc => written_eq (hnar c hc)
      refine ⟨⟨fun hc => ?_, fun hnar => ?_⟩, ha, hag⟩
      · rw [hse, flatMap_def] at hc
        exact forall_mem_map.1 (chunked_flatMap_written (forall_mem_map.2 hsize) hc)
      · rw [ha fun c hc => (hnar c hc).2, flatMap_def]
        refine chunked_encode (forall_mem_map.2 fun c hc => ?_)
        have := hnar c hc
        omega
    · rw [hret] at hfa
      cases hfa
  · intro hf
    rw [encode_eq, length_append, ← flatMap_written_length] at hf
    have hre := hro (by omega)
    refine ⟨hre, ?_⟩
    have ho : ∀ r ∈ rets, r ≠ -1 := by
      intro r hr
      rw [hre] at hr
      obtain ⟨c, -, rfl⟩ := mem_map.1 hr
      omega
    have hle := (hse ho).2.2
    rcases hcl with ⟨hret, -⟩ | ⟨-, hles⟩
    · exact hret
    · dsimp only at hle
      omega

theorem chunked_write_two : Chunked (chars "2\r\nhi\r\n3\r\nyou\r\n0\r\n\r\n") (chars "hiyou") := by
  have hca : calls ⟨{ room := 100 }, false⟩ [.write (chars "hi"), .writev [chars "yo", [], chars "u"]] =
      (⟨{ sent := chars "2\r\nhi\r\n3\r\nyou\r\n", room := 85 }, false⟩, [2, 3]) := by decide +kernel
  have hcl : (⟨{ sent := chars "2\r\nhi\r\n3\r\nyou\r\n", room := 85 }, false⟩ : ChunkedBodyWriteStream).close =
      (⟨{ sent := chars "2\r\nhi\r\n3\r\nyou\r\n0\r\n\r\n", room := 80 }, true⟩, 0) := by decide +kernel
  have h := ((chunked_write 100 _ (by decide +kernel) _ _ hca).1 (by decide) (by rw [hcl])).1.2 (by decide +kernel)
  rw [hcl] at h
  exact h

/-- A write of nothing and the close: two last chunks, so what is sent is no chunked body of nothing. -/
theorem empty_write_ends :
    ∃ w, calls ⟨{ room := 100 }, false⟩ [.write []] = (w, [0]) ∧ w.close.2 = 0 ∧
      w.close.1.stream.sent = chars "0\r\n\r\n0\r\n\r\n" ∧ ¬ Chunked w.close.1.stream.sent [] := by
  refine ⟨⟨{ sent := chars "0\r\n\r\n", room := 95 }, false⟩, by decide +kernel, by decide +kernel,
    by decide +kernel, ?_⟩
  have hse : (⟨{ sent := chars "0\r\n\r\n", room := 95 }, false⟩ : ChunkedBodyWriteStream).close.1.stream.sent =
      [48, 13, 10, 13, 10, 48, 13, 10, 13, 10] := by decide +kernel
  rw [hse]
  intro h
  generalize hby : ([48, 13, 10, 13, 10, 48, 13, 10, 13, 10] : Bytes) = bytes at h
  generalize hd : ([] : Bytes) = data at h
  cases h with
  | @last h hn hz =>
    -- the size would have to hold the line end of the first last chunk
    have hlen := congrArg length hby
    simp [CRLF] at hlen
    have ht := congrArg (take 6) hby
    rw [append_assoc, take_left' (by omega)] at ht
    have hm : (13 : UInt8) ∈ h := ht ▸ by decide
    exact absurd (hz 13 hm) (by decide)
  | chunk hn hdi hsi hso => exact hso (append_eq_nil_iff.1 hd.symm).1

end Photon.Http
