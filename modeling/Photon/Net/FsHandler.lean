import Photon.Common.Estring
import Photon.Net.ChunkedBody
/-!
# Byte ranges of files

`Headers::range` cuts the value of the `Range` header at its `=` and `-`, and `FsHandler`
answers with the bytes between the two numbers. What HTTP asks for is `select`: the first and
the last byte of the part, if there is such a part.
-/

namespace Photon.Http

open Estring List

/-! ## The header -/

def npos : Nat := 2 ^ 64 - 1

def findChar (c : UInt8) (s : Bytes) : Nat := (s.findIdx? (· == c)).getD npos

def toSsize (n : Nat) : Int := if n < 2 ^ 63 then n else n - 2 ^ 64

def Headers.range (value : Option Bytes) : Int × Int :=
  match value with
  | none => (0, -1)
  | some range =>
    let eqPos := findChar 61 range
    let dashPos := findChar 45 range
    let startSv := (range.drop ((eqPos + 1) % 2 ^ 64)).take ((dashPos + (2 ^ 64 - eqPos) + 1) % 2 ^ 64)
    let endSv := range.drop ((dashPos + 1) % 2 ^ 64)
    let start := toUint64 startSv
    let stop := toUint64 endSv
    if startSv = [] then (-1, toSsize stop)
    else if endSv = [] then (toSsize start, -1)
    else (toSsize start, toSsize stop)

def decDigitsTo : Nat → Nat → Bytes → Bytes
  | 0, _, acc => acc
  | k + 1, n, acc =>
    if n < 10 then (48 + n.toUInt8) :: acc else decDigitsTo k (n / 10) ((48 + (n % 10).toUInt8) :: acc)

def decDigits (n : Nat) : Bytes := decDigitsTo 20 n []

/-- `insert_format`, whose buffer has 64 bytes: the value of the header, if it is inserted. -/
def insertFormat (text : Bytes) : Option Bytes := if text.length ≥ 64 then none else some text

/-- `"bytes %lu-%lu/%s"`. -/
def rangeText (start stop : Nat) (size : Int) : Bytes :=
  chars "bytes " ++ decDigits start ++ [45] ++ decDigits stop ++ [47] ++
    if size = -1 then [42] else decDigits size.toNat

/-! ## The body -/

structure BodyWriteStream where
  sent : Bytes := []
  size : Nat
  cnt : Nat := 0
  deriving DecidableEq

/-- `BodyWriteStream::write`, on a stream that takes everything. -/
def BodyWriteStream.write (w : BodyWriteStream) (buf : Bytes) : BodyWriteStream × Nat :=
  let wc := min buf.length (w.size - w.cnt)
  ({ w with sent := w.sent ++ buf.take wc, cnt := w.cnt + wc }, wc)

/-- The loop of `Message::write_stream`; the file gives as many bytes as it is asked for, until its end. -/
def writeStream : Nat → BodyWriteStream → Bytes → Nat → Nat → BodyWriteStream × Int
  | 0, w, _, _, ret => (w, ret)
  | fuel + 1, w, input, sizeLimit, ret =>
    if ret < sizeLimit then
      let data := input.take (if sizeLimit - ret < 65536 then sizeLimit - ret else 65536)
      if data = [] then (w, ret)
      else
        let (w, wc) := w.write data
        if wc ≠ data.length then (w, -1)
        else writeStream fuel w (input.drop data.length) sizeLimit (ret + wc)
    else (w, ret)

/-! ## The handler -/

structure Answer where
  status : Nat
  contentLength : Nat
  contentRange : Option Bytes := none
  body : Bytes := []
  deriving DecidableEq

def failedResp (result : Nat) : Answer := { status := result, contentLength := 0 }

def serveFile (file : Bytes) (range : Option Bytes) (head : Bool) : Answer :=
  let size : Int := file.length
  let fileEndPos := size - 1
  let (first, second) := Headers.range range
  let (first, second) := if first < 0 then (fileEndPos - second, fileEndPos) else (first, second)
  let second := if second < 0 ∨ second > fileEndPos then fileEndPos else second
  if size > 0 ∧ (second < first ∨ first > fileEndPos) then failedResp 416
  else
    let reqSize := second - first + 1
    let length := (reqSize % 2 ^ 64).toNat
    let answer : Answer :=
      if reqSize = size then { status := 200, contentLength := length }
      else
        { status := 206, contentLength := length
          contentRange := insertFormat (rangeText (first % 2 ^ 64).toNat (second % 2 ^ 64).toNat size) }
    if head then answer
    else
      let input := file.drop first.toNat
      { answer with body := (writeStream (input.length + 1) { size := length } input length 0).1.sent }

/-- The name of the file: the target without its query, and without the prefix of the handler up to its last slash. -/
def fileName (target pfx : Bytes) : Bytes :=
  let target := target.take ((target.findIdx? (· == 63)).getD target.length)
  if pfx = [] then target else target.drop (pfx.length - 1)

/-- `FsHandler::handle_request`, with `fs` for the files that can be opened. -/
def handleRequest (fs : Bytes → Option Bytes) (target pfx : Bytes) (range : Option Bytes) (head : Bool) : Answer :=
  match fs (fileName target pfx) with
  | none => failedResp 404
  | some file => serveFile file range head

/-! ## What HTTP asks for -/

inductive ByteRange where
  | fromTo (a b : Bytes)
  | since (a : Bytes)
  | last (n : Bytes)
  deriving DecidableEq

namespace ByteRange

def text : ByteRange → Bytes
  | fromTo a b => chars "bytes=" ++ (a ++ 45 :: b)
  | since a => chars "bytes=" ++ (a ++ [45])
  | last n => chars "bytes=" ++ 45 :: n

def select (size : Nat) : ByteRange → Option (Nat × Nat)
  | fromTo a b => if decimal a ≤ decimal b ∧ decimal a < size then some (decimal a, min (decimal b) (size - 1)) else none
  | since a => if decimal a < size then some (decimal a, size - 1) else none
  | last n => if 0 < decimal n ∧ 0 < size then some (size - min (decimal n) size, size - 1) else none

/-- What stands where a number is expected. -/
def Digits (n : Bytes) : Prop := n ≠ [] ∧ ∀ c ∈ n, IsDigit c

instance (n : Bytes) : Decidable (Digits n) := inferInstanceAs (Decidable (_ ∧ _))

def Formed : ByteRange → Prop
  | fromTo a b => Digits a ∧ Digits b
  | since a => Digits a
  | last n => Digits n

/-- A part that is not the whole file, and whose `Content-Range` is not too long for the buffer of `insert_format`. -/
def Proper (size i j : Nat) : Prop := ¬(i = 0 ∧ j + 1 = size) ∧ (rangeText i j size).length < 64

instance (size i j : Nat) : Decidable (Proper size i j) := inferInstanceAs (Decidable (_ ∧ _))

/-- The ranges that are answered right. Beyond 64 bits a number is cut; one with its highest bit set is negative. -/
def Answered (size : Nat) : ByteRange → Prop
  | fromTo a b =>
    if decimal a ≤ decimal b ∧ decimal a < size then
      (decimal b < 2 ^ 64 ∨ size ≤ decimal b % 2 ^ 64 + 1) ∧ Proper size (decimal a) (min (decimal b) (size - 1))
    else if decimal a % 2 ^ 64 < 2 ^ 63 then size ≤ decimal a % 2 ^ 64 ∨ decimal b % 2 ^ 64 < decimal a % 2 ^ 64
    else 2 ^ 63 ≤ decimal b % 2 ^ 64
  | since a => if decimal a < size then Proper size (decimal a) (size - 1) else size ≤ decimal a % 2 ^ 64
  | last _ => False

instance (size : Nat) (r : ByteRange) : Decidable (r.Answered size) := by
  cases r <;> unfold Answered <;> infer_instance

end ByteRange

/-- The part from byte `i` to byte `j`. -/
def Answer.Part (answer : Answer) (file : Bytes) (head : Bool) (i j : Nat) : Prop :=
  answer.status = 206 ∧ answer.contentLength = j - i + 1 ∧ answer.contentRange = some (rangeText i j file.length) ∧
    answer.body = if head then [] else (file.drop i).take (j - i + 1)

/-! ## The numbers of the header -/

lemma toUint64_digits {ds t : Bytes} (hd : ∀ c ∈ ds, IsDigit c) (ht : ∀ c ∈ t.head?, ¬ IsDigit c) :
    toUint64 (ds ++ t) = decimal ds % 2 ^ 64 := by
  rw [toUint64, toUint64Check_digits hd ht]
  dsimp only
  split
  next h =>
    rw [length_eq_zero_iff.1 h]
    rfl
  · rfl

lemma toSsize_eq (n : Nat) : toSsize (n % 2 ^ 64) = if n % 2 ^ 64 < 2 ^ 63 then (n % 2 ^ 64 : Int) else n % 2 ^ 64 - 2 ^ 64 := by
  unfold toSsize
  split <;> omega

lemma find_cuts {a : Bytes} (ha : ∀ c ∈ a, IsDigit c) (b : Bytes) :
    findChar 61 (chars "bytes=" ++ (a ++ 45 :: b)) = 5 ∧ findChar 45 (chars "bytes=" ++ (a ++ 45 :: b)) = a.length + 6 := by
  constructor
  · have hw : chars "bytes=" ++ (a ++ 45 :: b) = chars "bytes" ++ 61 :: (a ++ 45 :: b) := rfl
    rw [findChar, hw, findIdx?_append_cons (by decide +kernel) rfl]
    rfl
  have hn : ∀ c ∈ chars "bytes=" ++ a, (c == (45 : UInt8)) = false := by
    intro c hc
    have hw : ∀ c ∈ chars "bytes=", (c == (45 : UInt8)) = false := by decide +kernel
    rcases mem_append.1 hc with hc | hc
    · exact hw c hc
    · refine beq_false_of_ne ?_
      rintro rfl
      exact absurd (ha 45 hc) (by decide)
  rw [findChar, ← append_assoc, findIdx?_append_cons hn rfl, Option.getD_some, length_append, add_comm]
  rfl

lemma range_eq {a b : Bytes} (ha : ∀ c ∈ a, IsDigit c) (hb : ∀ c ∈ b, IsDigit c)
    (hle : (chars "bytes=" ++ (a ++ 45 :: b)).length < 2 ^ 63) :
    Headers.range (some (chars "bytes=" ++ (a ++ 45 :: b))) =
      (toSsize (decimal a % 2 ^ 64), if b = [] then -1 else toSsize (decimal b % 2 ^ 64)) := by
  obtain ⟨heq, hda⟩ := find_cuts ha b
  have hch : (chars "bytes=").length = 6 := rfl
  have hsi : a.length + 7 < 2 ^ 63 := by
    rw [length_append, length_append, length_cons] at hle
    omega
  have hst : ((chars "bytes=" ++ (a ++ 45 :: b)).drop 6).take (a.length + 2) = a ++ 45 :: b.take 1 := by
    rw [drop_left' hch, take_append, take_of_length_le (by omega), show a.length + 2 - a.length = 2 by omega]
    rfl
  have he : (chars "bytes=" ++ (a ++ 45 :: b)).drop (a.length + 7) = b := by
    have hcu : chars "bytes=" ++ (a ++ 45 :: b) = (chars "bytes=" ++ (a ++ [45])) ++ b := by simp
    rw [hcu, drop_left']
    rw [length_append, length_append, hch, length_singleton]
    omega
  have hn : toUint64 (a ++ 45 :: b.take 1) = decimal a % 2 ^ 64 := toUint64_digits ha (fun c hc => by cases hc; decide)
  have hn' : toUint64 b = decimal b % 2 ^ 64 := by
    have := toUint64_digits (t := []) hb (fun c hc => by cases hc)
    rwa [append_nil] at this
  rw [Headers.range, heq, hda, show (5 + 1) % 2 ^ 64 = 6 from rfl,
    show (a.length + 6 + (2 ^ 64 - 5) + 1) % 2 ^ 64 = a.length + 2 by omega,
    show (a.length + 6 + 1) % 2 ^ 64 = a.length + 7 by omega, hst, he, hn, hn', if_neg (by simp)]
  split <;> rfl

/-! ## The answer -/

lemma writeStream_sent {fuel : Nat} {w : BodyWriteStream} {input : Bytes} {sizeLimit ret : Nat}
    (hf : input.length < fuel) (hr : w.size - w.cnt = sizeLimit - ret) :
    (writeStream fuel w input sizeLimit ret).1.sent = w.sent ++ input.take (sizeLimit - ret) := by
  induction fuel generalizing w input ret with
  | zero => omega
  | succ fuel ih =>
    rw [writeStream]
    split
    next hm =>
      obtain ⟨c, hc⟩ : ∃ c, c = if sizeLimit - ret < 65536 then sizeLimit - ret else 65536 := ⟨_, rfl⟩
      have hle : c ≤ sizeLimit - ret ∧ 0 < c := by
        rw [hc]
        split <;> omega
      rw [← hc]
      dsimp only
      split
      · rename_i hn
        have hi : input = [] := by
          cases input with
          | nil => rfl
          | cons =>
            obtain ⟨c', rfl⟩ : ∃ c', c = c' + 1 := ⟨c - 1, by omega⟩
            cases hn
        rw [hi, take_nil, append_nil]
      · rename_i hne
        have hlen : (input.take c).length = min c input.length := length_take
        have hpo := length_pos_iff.2 hne
        have ha : min (input.take c).length (w.size - w.cnt) = (input.take c).length := by omega
        have ht : input.take (input.take c).length = input.take c := by
          rw [hlen, ← take_take, take_length]
        have hsp : input.take (sizeLimit - ret) =
            input.take c ++ (input.drop (input.take c).length).take (sizeLimit - (ret + (input.take c).length)) := by
          rw [show sizeLimit - ret = (input.take c).length + (sizeLimit - (ret + (input.take c).length)) by omega,
            take_add, ht]
        rw [BodyWriteStream.write, ha, take_length]
        dsimp only
        rw [if_neg (fun h => h rfl), ih (by rw [length_drop]; omega) (by dsimp only; omega), hsp]
        exact append_assoc ..
    next hd => rw [show sizeLimit - ret = 0 by omega, take_zero, append_nil]

variable {file : Bytes}

open ByteRange

/-- The last byte of the answer. -/
def clamp (size : Nat) (second : Int) : Int := if second < 0 ∨ second > (size : Int) - 1 then size - 1 else second

/-- The answer with the bytes from `first` to `second`. -/
def served (file : Bytes) (first second : Int) (head : Bool) : Answer :=
  let reqSize := second - first + 1
  let length := (reqSize % 2 ^ 64).toNat
  let answer : Answer :=
    if reqSize = file.length then { status := 200, contentLength := length }
    else
      { status := 206, contentLength := length
        contentRange := insertFormat (rangeText (first % 2 ^ 64).toNat (second % 2 ^ 64).toNat file.length) }
  if head then answer
  else
    let input := file.drop first.toNat
    { answer with body := (writeStream (input.length + 1) { size := length } input length 0).1.sent }

lemma served_status (file : Bytes) (first second : Int) (head : Bool) : (served file first second head).status ≠ 416 := by
  unfold served
  by_cases h : second - first + 1 = file.length <;> cases head <;> simp [h]

lemma served_contentLength (file : Bytes) (first second : Int) (head : Bool) :
    (served file first second head).contentLength = ((second - first + 1) % 2 ^ 64).toNat := by
  unfold served
  by_cases h : second - first + 1 = file.length <;> cases head <;> simp [h]

lemma served_part {a last : Nat} (hsi : file.length < 2 ^ 63) (hle : a ≤ last) (hlt : last < file.length) (head : Bool)
    {j : Nat} (haj : a ≤ j) : (served file a last head).Part file head a j ↔ last = j ∧ Proper file.length a j := by
  have hr : (last : Int) - a + 1 = ((last - a + 1 : Nat) : Int) := by omega
  have hm : ∀ n : Nat, n < 2 ^ 63 → ((n : Int) % 2 ^ 64).toNat = n := by
    intro n hn
    rw [Int.emod_eq_of_lt (by omega) (by omega), Int.toNat_natCast]
  have hbo : (writeStream ((file.drop a).length + 1) { size := last - a + 1 } (file.drop a) (last - a + 1) 0).1.sent =
      (file.drop a).take (last - a + 1) :=
    writeStream_sent (Nat.lt_succ_self _) rfl
  unfold served
  dsimp only
  rw [hr, hm _ (by omega), hm a (by omega), hm last (by omega), Int.toNat_natCast, hbo]
  unfold Answer.Part Proper
  by_cases hw : ((last - a + 1 : Nat) : Int) = file.length
  · rw [if_pos hw]
    have hwh : last = j → a = 0 ∧ j + 1 = file.length := fun h => by omega
    cases head with
    | true | false => exact ⟨fun h => absurd (show 200 = 206 from h.1) (by decide), fun h => absurd (hwh h.1) h.2.1⟩
  · rw [if_neg hw]
    have hin : insertFormat (rangeText a last file.length) = some (rangeText a last file.length) ↔
        (rangeText a last file.length).length < 64 := by
      rw [insertFormat]
      split <;> simp <;> omega
    constructor
    · intro h
      have hlj : last - a + 1 = j - a + 1 := by
        cases head <;> exact h.2.1
      obtain rfl : last = j := by omega
      refine ⟨rfl, by omega, hin.1 ?_⟩
      cases head <;> exact h.2.2.1
    · rintro ⟨rfl, -, h⟩
      have := hin.2 h
      cases head with
      | true | false => exact ⟨rfl, rfl, this, rfl⟩

section
variable {range : Option Bytes} (head : Bool) {x second : Int} (hra : Headers.range range = (x, second))
include hra

lemma serveFile_eq : serveFile file range head =
    let first := if x < 0 then (file.length : Int) - 1 - second else x
    let second := if x < 0 then (file.length : Int) - 1 else clamp file.length second
    if (file.length : Int) > 0 ∧ (second < first ∨ first > (file.length : Int) - 1) then failedResp 416
    else served file first second head := by
  unfold serveFile
  rw [hra]
  dsimp only
  by_cases hx : x < 0
  · simp only [if_pos hx, ite_self]
    rfl
  · simp only [if_neg hx]
    rfl

lemma serveFile_refuses : serveFile file range head = failedResp 416 ↔ 0 < file.length ∧
    if x < 0 then second < 0 else clamp file.length second < x ∨ x > (file.length : Int) - 1 := by
  rw [serveFile_eq head hra]
  dsimp only
  have hre : ∀ {c : Prop} [Decidable c] (f l : Int), (if c then failedResp 416 else served file f l head) = failedResp 416 ↔ c := by
    intro c _ f l
    split
    next h => exact ⟨fun _ => h, fun _ => rfl⟩
    next h => exact ⟨fun hs => absurd (congrArg Answer.status hs) (served_status file f l head), fun hc => absurd hc h⟩
  rw [hre]
  by_cases hx : x < 0
  · rw [if_pos hx, if_pos hx, if_pos hx]
    omega
  · rw [if_neg hx, if_neg hx, if_neg hx]
    omega

lemma serveFile_part {a last : Nat} (hx : x = a) (hsi : file.length < 2 ^ 63) (hla : clamp file.length second = last)
    (hlt : last < file.length) {j : Nat} (haj : a ≤ j) :
    (serveFile file range head).Part file head a j ↔ (a ≤ last ∧ last = j) ∧ Proper file.length a j := by
  have hx0 : ¬ x < 0 := by omega
  rw [serveFile_eq head hra]
  dsimp only
  rw [if_neg hx0, if_neg hx0, hla, hx]
  split
  next h => exact ⟨fun hp => absurd hp.1 (show 416 ≠ 206 by decide), fun hp => by omega⟩
  next h =>
    rw [served_part hsi (by omega) hlt head haj]
    exact and_congr_left fun _ => ⟨fun hl => ⟨by omega, hl⟩, And.right⟩

end

lemma right_ite {c : Prop} [Decidable c] {P : Nat → Nat → Prop} {Q : Prop} {a last : Nat} :
    ((∀ i j, (if c then some (a, last) else none) = some (i, j) → P i j) ∧
      ((if c then some (a, last) else none) = none → Q)) ↔ if c then P a last else Q := by
  split <;> simp

lemma toSsize_small {n : Nat} (h : n < 2 ^ 63) : toSsize (n % 2 ^ 64) = n := by
  rw [toSsize_eq, if_pos (by omega)]
  omega

lemma clamp_toSsize (n : Nat) {size : Nat} (hpo : 0 < size) (hsi : size < 2 ^ 63) : clamp size (toSsize (n % 2 ^ 64)) =
    ((if n % 2 ^ 64 < size then n % 2 ^ 64 else size - 1 : Nat) : Int) := by
  rw [clamp, toSsize_eq]
  by_cases hn : n % 2 ^ 64 < 2 ^ 63
  · rw [if_pos hn]
    repeat' split
    all_goals omega
  · rw [if_neg hn, if_pos (by omega), if_neg (by omega)]
    omega

/-- The answer for a file of fewer than 2^63 bytes is the part that is asked for, or 416 when there is none, exactly for
these ranges and a file that is not empty. -/
theorem fs_range (fs : Bytes → Option Bytes) (target pfx file : Bytes) (hfile : fs (fileName target pfx) = some file)
    (hsize : file.length < 2 ^ 63) (r : ByteRange) (hr : r.Formed) (hlen : r.text.length < 2 ^ 63) (head : Bool) :
    ((∀ i j, r.select file.length = some (i, j) → (handleRequest fs target pfx (some r.text) head).Part file head i j) ∧
      (r.select file.length = none → handleRequest fs target pfx (some r.text) head = failedResp 416)) ↔
    0 < file.length ∧ r.Answered file.length := by
  rw [handleRequest, hfile]
  cases r with
  | fromTo a b =>
    have hra := range_eq hr.1.2 hr.2.2 hlen
    rw [if_neg hr.2.1] at hra
    rw [select, right_ite, Answered, text]
    split
    next hs =>
      rw [serveFile_part head hra (toSsize_small (by omega)) hsize
        (clamp_toSsize _ (by omega) hsize) (by split <;> omega) (by omega), ← and_assoc]
      refine and_congr_left fun _ => ?_
      split <;> omega
    next hs =>
      rw [serveFile_refuses head hra, toSsize_eq, toSsize_eq, clamp]
      refine and_congr_right fun _ => ?_
      repeat' split
      all_goals omega
  | since a =>
    have hra := range_eq hr.2 (b := []) (fun c hc => by cases hc) hlen
    rw [if_pos rfl] at hra
    rw [select, right_ite, Answered, text]
    split
    next hs =>
      have hla : clamp file.length (-1) = ((file.length - 1 : Nat) : Int) := by
        rw [clamp]
        split <;> omega
      rw [serveFile_part head hra (toSsize_small (by omega)) hsize hla (by omega) (by omega)]
      refine and_congr_left fun _ => ?_
      omega
    next hs =>
      rw [serveFile_refuses head hra, toSsize_eq, clamp]
      refine and_congr_right fun _ => ?_
      repeat' split
      all_goals omega
  | last n =>
    have hra : Headers.range (some (chars "bytes=" ++ 45 :: n)) = (((0 : Nat) : Int), toSsize (decimal n % 2 ^ 64)) := by
      have := range_eq (a := []) (fun c hc => by cases hc) hr.2 hlen
      rwa [if_neg hr.1] at this
    rw [select, right_ite, Answered, text]
    simp only [and_false, iff_false]
    split
    next hs =>
      intro hp
      -- the bytes from the first one on are sent, and one more than is asked for
      by_cases hwh : file.length ≤ decimal n
      · rw [min_eq_right hwh, Nat.sub_self, serveFile_part head hra rfl hsize
          (clamp_toSsize _ hs.2 hsize) (by split <;> omega) (by omega)] at hp
        exact hp.2.1 ⟨rfl, by omega⟩
      · have hcl : clamp file.length (toSsize (decimal n % 2 ^ 64)) = decimal n := by
          rw [toSsize_small (by omega), clamp, if_neg (by omega)]
        have hle := hp.2.1
        rw [serveFile_eq head hra] at hle
        dsimp only at hle
        rw [if_neg (by omega), if_neg (by omega), hcl, if_neg (by omega), served_contentLength] at hle
        omega
    next hs =>
      rw [serveFile_refuses head hra, toSsize_eq, clamp]
      rintro ⟨hpo, h⟩
      revert h
      repeat' split
      all_goals omega

/-- Bytes 1 to 9 of a file of five. -/
theorem fs_range_tail :
    (handleRequest (fun name => if name = chars "/f" then some (chars "hello") else none) (chars "/f?q") []
      (some (chars "bytes=1-9")) false).Part (chars "hello") false 1 4 :=
  ((fs_range _ (chars "/f?q") [] (chars "hello") (by decide +kernel) (by decide +kernel) (.fromTo (chars "1") (chars "9"))
    ⟨by decide +kernel, by decide +kernel⟩ (by decide +kernel) false).2 (by decide +kernel)).1 1 4 (by decide +kernel)

/-- The last two bytes are asked for, and bytes 0 to 2 are the answer. An empty file is asked for what is behind byte 3,
and the answer is a part of 2^64 - 3 bytes. -/
theorem suffix_range :
    select 5 (.last (chars "2")) = some (3, 4) ∧
      serveFile (chars "hello") (some (last (chars "2")).text) false =
        { status := 206, contentLength := 3, contentRange := some (chars "bytes 0-2/5"), body := chars "hel" } ∧
      select 0 (.since (chars "3")) = none ∧
      serveFile [] (some (since (chars "3")).text) false =
        { status := 206, contentLength := 2 ^ 64 - 3
          contentRange := some (chars "bytes 3-18446744073709551615/0") } := by
  decide +kernel

end Photon.Http
