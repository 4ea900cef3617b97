import Photon.Common.Crc32c
import Photon.Common.Handout
/-!
# `CheckedMessage`

The checksum of a message is its first field, and it is kept there while it is computed:
`extend_hash` reads the message with the remainder of everything before it in its first four
bytes. So these bytes take the remainder away, and the result depends on the rest of the
message only.
-/

namespace Photon.Rpc

open Photon.Iovector Photon.Checksum List Crc Nat

def checksum (mem : Mem) (x : Nat) : BitVec 32 := BitVec.ofNat 32 (leNat (readBytes mem x 4))

def setChecksum (mem : Mem) (x : Nat) (c : BitVec 32) : Mem := writeBytes mem x (leBytes 4 c.toNat)

/-- `Crc32Hasher::extend_hash` of a buffer, into the checksum of the message at `x`. -/
def extendHashBuf (mem : Mem) (x buf length : Nat) : Mem :=
  setChecksum mem x (crc32cSw mem buf length (checksum mem x))

def extendHash (mem : Mem) (x : Nat) (iov : List Iovec) : Mem :=
  iov.foldl (fun mem v => extendHashBuf mem x v.iovBase v.iovLen) mem

def addChecksum (mem : Mem) (x : Nat) (iov : List Iovec) : Mem := extendHash mem x iov

def validateChecksum (mem : Mem) (x : Nat) (iov : List Iovec) (body bodyLength : Nat) : Bool × Mem :=
  let dst := checksum mem x
  let mem := setChecksum mem x 0#32
  let mem := extendHash mem x iov
  let mem := if body ≠ 0 ∧ bodyLength ≠ 0 then extendHashBuf mem x body bodyLength else mem
  (dst == checksum mem x, mem)

/-- The vector of `serialize`: the segments of the fields, and the message of `n` bytes. -/
def message (segs : List Iovec) (x n : Nat) : List Iovec := segs ++ [⟨x, n⟩]

def sent (mem : Mem) (segs : List Iovec) (x n : Nat) : List Byte :=
  (bytes (message segs x n)).map (addChecksum mem x (message segs x n))

/-- `extract_back<T>`, then `validate_checksum`; false when nothing could be extracted. -/
def accepts (v : Vec) (n : Nat) : Bool :=
  match v.extractBackContinuous n with
  | (none, _) => false
  | (some t, v) => (validateChecksum v.mem t v.view t n).1

def flipBit (bs : List Byte) (i bit : Nat) : List Byte := bs.modify i (· ^^^ BitVec.twoPow 8 bit)

/-! ## The checksum in memory -/

abbrev POLY : BitVec 32 := 0x82f63b78#32

def Avoids (x : Nat) (iov : List Iovec) : Prop := ∀ a ∈ bytes iov, a < x ∨ x + 4 ≤ a

instance (x : Nat) (iov : List Iovec) : Decidable (Avoids x iov) :=
  inferInstanceAs (Decidable (∀ a ∈ bytes iov, a < x ∨ x + 4 ≤ a))

@[simp] lemma checksum_setChecksum (mem : Mem) (x : Nat) (c : BitVec 32) : checksum (setChecksum mem x c) x = c := by
  have hr := readBytes_writeBytes mem x (leBytes 4 c.toNat)
  rw [leBytes_length] at hr
  rw [checksum, setChecksum, hr, leNat_leBytes c.isLt, BitVec.ofNat_toNat, BitVec.setWidth_eq]

lemma setChecksum_setChecksum (mem : Mem) (x : Nat) (c d : BitVec 32) :
    setChecksum (setChecksum mem x c) x d = setChecksum mem x d :=
  writeBytes_writeBytes mem (by simp)

lemma setChecksum_checksum (mem : Mem) (x : Nat) : setChecksum mem x (checksum mem x) = mem := by
  have h4 := leBytes_leNat (readBytes mem x 4)
  have hlt := leNat_lt (readBytes mem x 4)
  rw [readBytes_length] at h4 hlt
  rw [setChecksum, checksum, BitVec.toNat_ofNat, mod_eq_of_lt (by omega), h4, writeBytes_readBytes]

variable {mem : Mem} {iov : List Iovec} {bs : List Byte} {x n bit i : Nat}

lemma setChecksum_of_avoids {a : Nat} {c : BitVec 32} (h : a < x ∨ x + 4 ≤ a) : setChecksum mem x c a = mem a :=
  writeBytes_of_notMem mem (by simpa using h)

lemma extendHash_eq (h : Avoids x iov) :
    extendHash mem x iov = setChecksum mem x (crc POLY (checksum mem x) ((bytes iov).map mem)) := by
  induction iov generalizing mem with
  | nil => exact (setChecksum_checksum mem x).symm
  | cons v iov ih =>
    have hi : Avoids x iov := fun a ha => h a (by simp [ha])
    have hm : (bytes iov).map (extendHashBuf mem x v.iovBase v.iovLen) = (bytes iov).map mem :=
      map_congr_left fun a ha => setChecksum_of_avoids (hi a ha)
    calc extendHash mem x (v :: iov)
        = extendHash (extendHashBuf mem x v.iovBase v.iovLen) x iov := rfl
      _ = setChecksum mem x (crc POLY (crc POLY (checksum mem x) (readBytes mem v.iovBase v.iovLen))
            ((bytes iov).map mem)) := by
        rw [ih hi, hm, extendHashBuf, setChecksum_setChecksum, checksum_setChecksum, crc32cSw_eq]
      _ = _ := by
        rw [← crc_append, bytes_cons, map_append]
        rfl

lemma extendHash_setChecksum (mem : Mem) (x : Nat) (iov : List Iovec) : ∃ c, extendHash mem x iov = setChecksum mem x c := by
  induction iov generalizing mem with
  | nil => exact ⟨_, (setChecksum_checksum mem x).symm⟩
  | cons v iov ih =>
    obtain ⟨c, hc⟩ := ih (extendHashBuf mem x v.iovBase v.iovLen)
    refine ⟨c, ?_⟩
    change extendHash (extendHashBuf mem x v.iovBase v.iovLen) x iov = _
    rw [hc, extendHashBuf, setChecksum_setChecksum]

/-- The remainder is in the first four bytes of the message, and these take it away. -/
lemma extendHashBuf_self (hn : 4 ≤ n) (p : BitVec 32) :
    extendHashBuf (setChecksum mem x p) x x n = setChecksum mem x (crc POLY 0#32 (readBytes mem (x + 4) (n - 4))) := by
  have hh : readBytes (setChecksum mem x p) x 4 = leBytes 4 p.toNat := by
    have hr := readBytes_writeBytes mem x (leBytes 4 p.toNat)
    rwa [leBytes_length] at hr
  have ht : readBytes (setChecksum mem x p) (x + 4) (n - 4) = readBytes mem (x + 4) (n - 4) :=
    readBytes_congr fun a ha _ => setChecksum_of_avoids (.inr ha)
  have hr : readBytes (setChecksum mem x p) x n = leBytes 4 p.toNat ++ readBytes mem (x + 4) (n - 4) := by
    rw [← hh, ← ht, ← readBytes_add, Nat.add_sub_cancel' hn]
  rw [extendHashBuf, setChecksum_setChecksum, checksum_setChecksum, crc32cSw_eq, hr, crc_append,
    crc_self POLY (by decide)]

section
variable (hx : x ≠ 0) (hn : 4 ≤ n) (h : Avoids x iov)
include hx hn h

lemma validateChecksum_eq :
    validateChecksum mem x iov x n = (checksum mem x == crc POLY 0#32 (readBytes mem (x + 4) (n - 4)),
        setChecksum mem x (crc POLY 0#32 (readBytes mem (x + 4) (n - 4)))) := by
  unfold validateChecksum
  dsimp only
  rw [extendHash_eq h, setChecksum_setChecksum, if_pos ⟨hx, by omega⟩, extendHashBuf_self hn, checksum_setChecksum]

lemma validate_iff :
    (validateChecksum mem x iov x n).1 = (checksum mem x == crc POLY 0#32 (readBytes mem (x + 4) (n - 4))) := by
  rw [validateChecksum_eq hx hn h]

lemma validateChecksum_accepted (hv : (validateChecksum mem x iov x n).1 = true) :
    (validateChecksum mem x iov x n).2 = mem := by
  rw [validateChecksum_eq hx hn h] at hv ⊢
  rw [← eq_of_beq hv, setChecksum_checksum]

end

lemma validateChecksum_message (segs : List Iovec) (hn : 4 ≤ n) :
    validateChecksum mem x (segs ++ [⟨x, n⟩]) 0 0 = (checksum mem x == crc POLY 0#32 (readBytes mem (x + 4) (n - 4)),
        setChecksum mem x (crc POLY 0#32 (readBytes mem (x + 4) (n - 4)))) := by
  obtain ⟨c, hc⟩ := extendHash_setChecksum (setChecksum mem x 0#32) x segs
  have he : extendHash (setChecksum mem x 0#32) x (segs ++ [⟨x, n⟩]) = extendHashBuf (setChecksum mem x c) x x n := by
    rw [← setChecksum_setChecksum mem x 0#32 c, ← hc]
    exact foldl_append ..
  unfold validateChecksum
  dsimp only
  rw [if_neg (fun h => h.1 rfl), he, extendHashBuf_self hn, checksum_setChecksum]

/-! ## Sent and received -/

/-- A vector with received bytes: its segments do not overlap, and a buffer can be allocated. -/
structure Ready (v : Vec) : Prop where
  fresh : v.Fresh
  nodup : (bytes v.view).Nodup
  nonnull : 0 ∉ bytes v.view ∧ 0 < v.brk
  room : v.nbases < v.capacity

lemma addChecksum_eq (mem : Mem) (segs : List Iovec) (x : Nat) (hn : 4 ≤ n) :
    addChecksum mem x (message segs x n) = setChecksum mem x (crc POLY 0#32 (readBytes mem (x + 4) (n - 4))) := by
  obtain ⟨c, hc⟩ := extendHash_setChecksum mem x segs
  rw [addChecksum, message, extendHash, foldl_append]
  change extendHashBuf (extendHash mem x segs) x x n = _
  rw [hc, extendHashBuf_self hn]

lemma sent_eq {segs : List Iovec} (hn : 4 ≤ n) (h : Avoids x segs) :
    sent mem segs x n = (bytes segs).map mem ++
      (leBytes 4 (crc POLY 0#32 (readBytes mem (x + 4) (n - 4))).toNat ++ readBytes mem (x + 4) (n - 4)) := by
  rw [sent, addChecksum_eq mem segs x hn]
  generalize crc POLY 0#32 (readBytes mem (x + 4) (n - 4)) = c
  have hr := readBytes_writeBytes mem x (leBytes 4 c.toNat)
  rw [leBytes_length] at hr
  have hbo : (bytes [⟨x, n⟩]).map (setChecksum mem x c) = readBytes (setChecksum mem x c) x (4 + (n - 4)) := by
    rw [Nat.add_sub_cancel' hn, bytes_cons, bytes_nil, append_nil]
    rfl
  rw [message, bytes_append, map_append, hbo, readBytes_add]
  congr 1
  · exact map_congr_left fun a ha => setChecksum_of_avoids (h a ha)
  · congr 1
    exact readBytes_congr fun a ha _ => setChecksum_of_avoids (.inr ha)

lemma accepts_eq {v : Vec} (hv : Ready v) (hn : 4 ≤ n) (hint : n ≤ INT_MAX) {front stored rest : List Byte}
    (hst : stored.length = 4) (hre : rest.length = n - 4) (hc : v.content = front ++ (stored ++ rest)) :
    accepts v n = (BitVec.ofNat 32 (leNat stored) == crc POLY 0#32 rest) := by
  have hlen : sum v.view = front.length + n := by
    rw [← content_length, hc]
    simp only [length_append]
    omega
  rcases extractBackContinuous_cases hv.fresh n with ⟨-, h⟩ | ⟨t, v', he, hh, hvi, -⟩
  · exact absurd ⟨by omega, hv.room, hint⟩ h
  have hbo : readBytes v'.mem t (4 + (n - 4)) = stored ++ rest := by
    rw [Nat.add_sub_cancel' hn, hh.content, map_drop]
    change v.content.drop _ = _
    rw [hc, hlen, Nat.add_sub_cancel, drop_left]
  rw [readBytes_add] at hbo
  obtain ⟨hs, hr⟩ := append_inj hbo (by simp [hst])
  -- what is left of the vector is elsewhere
  have hle : Avoids t v'.view ∧ t ≠ 0 := by
    rw [Avoids, hvi]
    rcases hh.place with ⟨hpl, -⟩ | ⟨rfl, -⟩
    · constructor
      · intro a ha
        have hno : a ∉ addresses t n := by
          rw [hpl]
          exact disjoint_take_drop hv.nodup le_rfl ha
        rw [mem_addresses] at hno
        omega
      · rintro rfl
        have h0 : 0 ∈ addresses 0 n := mem_addresses.2 (by omega)
        rw [hpl] at h0
        exact hv.nonnull.1 (mem_of_mem_drop h0)
    · exact ⟨fun a ha => .inl (hv.fresh a (mem_of_mem_take ha)), ne_of_gt hv.nonnull.2⟩
  rw [accepts, he]
  dsimp only
  rw [validate_iff hle.2 hn hle.1, checksum, hs, hr]

lemma leNat_injective {as : List Byte} (hle : as.length = bs.length) (h : leNat as = leNat bs) : as = bs := by
  rw [← leBytes_leNat as, ← leBytes_leNat bs, hle, h]

lemma flip_ne (b : Byte) (hbi : bit < 8) : b ^^^ BitVec.twoPow 8 bit ≠ b := by
  intro h
  have := congrArg (BitVec.getLsbD · bit) h
  simp [hbi] at this

lemma flipBit_split (hi : i < bs.length) (hbi : bit < 8) :
    ∃ pre b b' post, bs = pre ++ b :: post ∧ flipBit bs i bit = pre ++ b' :: post ∧ b' ≠ b ∧ pre.length = i := by
  refine ⟨bs.take i, bs[i], _, bs.drop (i + 1), ?_, modify_eq_take_cons_drop hi, flip_ne _ hbi, ?_⟩
  · rw [← drop_eq_getElem_cons hi, take_append_drop]
  · rw [length_take, min_eq_left (le_of_lt hi)]

lemma flipBit_ne (hi : i < bs.length) (hbi : bit < 8) : flipBit bs i bit ≠ bs := by
  obtain ⟨pre, b, b', post, rfl, hf, hne, -⟩ := flipBit_split hi hbi
  rw [hf]
  intro h
  exact hne (cons.inj (append_cancel_left h)).1

lemma flipBit_append (as bs : List Byte) (i bit : Nat) :
    flipBit (as ++ bs) i bit =
      if i < as.length then flipBit as i bit ++ bs else as ++ flipBit bs (i - as.length) bit := by
  induction as generalizing i with
  | nil => simp
  | cons a as ih =>
    cases i with
    | zero => simp [flipBit]
    | succ =>
      simp only [flipBit, cons_append, modify_succ_cons, length_cons, Nat.add_lt_add_iff_right,
        Nat.add_sub_add_right] at ih ⊢
      rw [ih]
      split <;> rfl

@[simp] lemma flipBit_length (bs : List Byte) (i bit : Nat) : (flipBit bs i bit).length = bs.length := by simp [flipBit]

section Detects

variable {segs : List Iovec} {v : Vec}

section
variable (hn : 4 ≤ n) (hint : n ≤ INT_MAX) (hsegs : Avoids x segs) (hv : Ready v)
include hn hint hsegs hv

lemma accepts_sent (hc : v.content = sent mem segs x n) : accepts v n = true := by
  rw [sent_eq hn hsegs] at hc
  rw [accepts_eq hv hn hint (by simp) (by simp) hc, leNat_leBytes (BitVec.isLt _)]
  simp

lemma rejects_flip (hi : (sent mem segs x n).length - n ≤ i) (hlt : i < (sent mem segs x n).length) (hbi : bit < 8)
    (hc : v.content = flipBit (sent mem segs x n) i bit) : accepts v n = false := by
  rw [sent_eq hn hsegs] at hi hlt hc
  generalize hr : readBytes mem (x + 4) (n - 4) = rest at hi hlt hc
  have hle : rest.length = n - 4 := by rw [← hr, readBytes_length]
  simp only [length_append, leBytes_length, hle] at hi hlt
  rw [flipBit_append, if_neg (by omega)] at hc
  have hj : i - ((bytes segs).map mem).length < n := by omega
  generalize i - ((bytes segs).map mem).length = j at hc hj
  generalize hcr : crc POLY 0#32 rest = c at hc
  rw [flipBit_append, leBytes_length] at hc
  split at hc
  · -- in the stored checksum
    rename_i hj4
    rw [accepts_eq hv hn hint (by simp) hle hc, hcr, beq_eq_false_iff_ne]
    intro he
    have hl4 := leNat_lt (flipBit (leBytes 4 c.toNat) j bit)
    rw [flipBit_length, leBytes_length] at hl4
    have hna := congrArg BitVec.toNat he
    rw [BitVec.toNat_ofNat, mod_eq_of_lt (by omega)] at hna
    exact flipBit_ne (by simpa using hj4) hbi
      (leNat_injective (by simp) (hna.trans (leNat_leBytes c.isLt).symm))
  · -- in the rest of the message
    rename_i hj4
    rw [accepts_eq hv hn hint (by simp) (by simpa using hle) hc, leNat_leBytes c.isLt, BitVec.ofNat_toNat,
      BitVec.setWidth_eq, beq_eq_false_iff_ne, ← hcr]
    obtain ⟨pre, b, b', post, hpr, hf, hne, -⟩ := flipBit_split (show j - 4 < rest.length by omega) hbi
    rw [hf, hpr]
    exact crc_ne POLY (by decide) (by decide) _ _ _ hne.symm

lemma accepts_flip (hi : i < (sent mem segs x n).length - n) (hc : v.content = flipBit (sent mem segs x n) i bit) :
    accepts v n = true := by
  rw [sent_eq hn hsegs] at hi hc
  simp only [length_append, leBytes_length, readBytes_length] at hi
  rw [flipBit_append, if_pos (by omega)] at hc
  rw [accepts_eq hv hn hint (by simp) (by simp) hc, leNat_leBytes (BitVec.isLt _)]
  simp

end

end Detects

/-- What `add_checksum` produced is accepted, whatever segments it arrives in; with one bit flipped it is rejected
exactly if the bit is one of the message itself. -/
theorem checksum_detects (mem : Mem) (segs : List Iovec) (x n : Nat) (hn : 4 ≤ n) (hint : n ≤ INT_MAX)
    (hsegs : Avoids x segs) (v : Vec) (hv : Ready v) :
    (v.content = sent mem segs x n → accepts v n = true) ∧
      ∀ i bit, i < (sent mem segs x n).length → bit < 8 → v.content = flipBit (sent mem segs x n) i bit →
        (accepts v n = false ↔ (sent mem segs x n).length - n ≤ i) := by
  refine ⟨accepts_sent hn hint hsegs hv, fun i bit hi hbit hc => ⟨fun hr => ?_, fun hle => ?_⟩⟩
  · by_contra hlt
    rw [accepts_flip hn hint hsegs hv (not_le.1 hlt) hc] at hr
    cases hr
  · exact rejects_flip hn hint hsegs hv hle hi hbit hc

def sender (field : Byte) : Mem := fun a => if a = 1 then field else 0

/-- The nine bytes are received in two segments. -/
def received (field last : Byte) : Vec where
  mem a := if a = 10 then field else if a = 25 then last else 0
  view := [⟨10, 3⟩, ⟨20, 6⟩]
  brk := 30

lemma sent_sender (field : Byte) : sent (sender field) [⟨1, 1⟩] 8 8 = (received field 0).content := by
  have hr : readBytes (sender field) (8 + 4) (8 - 4) = leBytes 4 0 := rfl
  rw [sent_eq (by decide) (by decide), hr, crc_zero]
  rfl

lemma received_ready (field last : Byte) : Ready (received field last) where
  fresh := show ∀ a ∈ bytes [⟨10, 3⟩, ⟨20, 6⟩], a < 30 by decide
  nodup := show (bytes [⟨10, 3⟩, ⟨20, 6⟩]).Nodup by decide
  nonnull := show 0 ∉ bytes [⟨10, 3⟩, ⟨20, 6⟩] ∧ 0 < 30 by decide
  room := show 0 < 32 by decide

theorem checksum_detects_last : accepts (received 7 0) 8 = true ∧ accepts (received 7 16) 8 = false := by
  have h := fun v hv => checksum_detects (sender 7) [⟨1, 1⟩] 8 8 (by decide) (by decide) (by decide) v hv
  rw [sent_sender] at h
  exact ⟨(h _ (received_ready 7 0)).1 rfl,
    ((h _ (received_ready 7 16)).2 8 4 (by decide) (by decide) (by decide)).2 (by decide)⟩

/-- The lowest bit of the field is flipped on the way. -/
theorem flip_undetected :
    (received 6 0).content = flipBit (sent (sender 7) [⟨1, 1⟩] 8 8) 0 0 ∧ accepts (received 6 0) 8 = true := by
  have hc : (received 6 0).content = flipBit (sent (sender 7) [⟨1, 1⟩] 8 8) 0 0 := by
    rw [sent_sender]
    decide
  refine ⟨hc, accepts_flip (by decide) (by decide) (by decide) (received_ready 6 0) ?_ hc⟩
  rw [sent_sender]
  decide

end Photon.Rpc
