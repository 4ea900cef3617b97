import Photon.Common.Iovector
import Photon.Lib.Memory
/-!
# `extract_front` and `extract_back`

Both go through a template that takes segments off one end of the view and gives
each of them, or the part of the last one that is still wanted, to a callback. The
callback drops it, copies it to a buffer, or stores it in a slot of another view.
-/

namespace Photon.Iovector

open List Option Nat

/-- What `do_extract_front` and `do_extract_back` leave behind: the return value (`none` is -1), the view, and the
state of the callback. -/
structure Extracted (σ : Type) where
  ret : Option Nat
  view : List Iovec
  out : σ
  deriving DecidableEq

section Templates

variable {σ : Type} (cb : σ → Nat → Nat → Option σ)

def extractFrontLoop (bytes0 : Nat) : List Iovec → Nat → σ → Extracted σ
  | [], bytes, out => ⟨some (bytes0 - bytes), [], out⟩
  | v :: vs, bytes, out =>
    if bytes ≤ v.iovLen then
      match cb out v.iovBase bytes with
      | none => ⟨none, v :: vs, out⟩
      | some out' =>
        let left : Iovec := { v with iovLen := v.iovLen - bytes }
        if left.iovLen = 0 then ⟨some bytes0, vs, out'⟩
        else ⟨some bytes0, { left with iovBase := v.iovBase + bytes } :: vs, out'⟩
    else
      match cb out v.iovBase v.iovLen with
      | none => ⟨none, v :: vs, out⟩
      | some out' => extractFrontLoop bytes0 vs (bytes - v.iovLen) out'

def doExtractFront (bytes : Nat) (view : List Iovec) (out : σ) : Extracted σ :=
  if bytes = 0 then ⟨some 0, view, out⟩ else extractFrontLoop cb bytes view bytes out

/-- The loop of `do_extract_back`; the view is listed from its last segment on. -/
def extractBackLoop (bytes0 : Nat) : List Iovec → Nat → σ → Extracted σ
  | [], bytes, out => ⟨some (bytes0 - bytes), [], out⟩
  | v :: vs, bytes, out =>
    if bytes ≤ v.iovLen then
      match cb out (v.iovBase + v.iovLen - bytes) bytes with
      | none => ⟨none, v :: vs, out⟩
      | some out' =>
        let left : Iovec := { v with iovLen := v.iovLen - bytes }
        if left.iovLen = 0 then ⟨some bytes0, vs, out'⟩ else ⟨some bytes0, left :: vs, out'⟩
    else
      match cb out v.iovBase v.iovLen with
      | none => ⟨none, v :: vs, out⟩
      | some out' => extractBackLoop bytes0 vs (bytes - v.iovLen) out'

def doExtractBack (bytes : Nat) (view : List Iovec) (out : σ) : Extracted σ :=
  if bytes = 0 then ⟨some 0, view, out⟩
  else
    let r := extractBackLoop cb bytes view.reverse bytes out
    { r with view := r.view.reverse }

end Templates

/-! ## The forms -/

section Forms

variable {β : Type}

def discard : Unit → Nat → Nat → Option Unit := fun _ _ _ => some ()

/-- Copies to the buffer, and moves its start behind what was copied. -/
def copyForward : (Nat → β) × Nat → Nat → Nat → Option ((Nat → β) × Nat) :=
  fun (mem, buf) ptr size => some (memcpy mem buf ptr size, buf + size)

def copyBackward : (Nat → β) × Nat → Nat → Nat → Option ((Nat → β) × Nat) :=
  fun (mem, buf) ptr size => some (memcpy mem (buf - size) ptr size, buf - size)

def storeNext (slots : Nat) : List Iovec → Nat → Nat → Option (List Iovec) :=
  fun out ptr size => if out.length = slots then none else some (out ++ [⟨ptr, size⟩])

/-- Stores the segment in the slot before; the slots are filled from the last one on. -/
def storePrevious (slots : Nat) : List Iovec → Nat → Nat → Option (List Iovec) :=
  fun out ptr size => if out.length = slots then none else some (⟨ptr, size⟩ :: out)

def extractFront (view : List Iovec) (bytes : Nat) : Extracted Unit := doExtractFront discard bytes view ()

def extractFrontBuf (mem : Nat → β) (view : List Iovec) (bytes buf : Nat) : Extracted ((Nat → β) × Nat) :=
  doExtractFront copyForward bytes view (mem, buf)

def extractFrontView (view : List Iovec) (bytes slots : Nat) : Extracted (List Iovec) :=
  doExtractFront (storeNext slots) bytes view []

def extractBack (view : List Iovec) (bytes : Nat) : Extracted Unit := doExtractBack discard bytes view ()

def extractBackBuf (mem : Nat → β) (view : List Iovec) (bytes buf : Nat) : Extracted ((Nat → β) × Nat) :=
  doExtractBack copyBackward bytes view (mem, buf + bytes)

def extractBackView (view : List Iovec) (bytes slots : Nat) : Extracted (List Iovec) :=
  doExtractBack (storePrevious slots) bytes view []

end Forms

/-! ## What the callback is given -/

section Spec

variable {σ : Type} (cb : σ → Nat → Nat → Option σ)

def feed (out : σ) (cs : List Iovec) : Option σ := cs.foldlM (fun out c => cb out c.iovBase c.iovLen) out

lemma feed_cons (out : σ) (c : Iovec) (cs : List Iovec) {out' : σ} :
    feed cb out (c :: cs) = some out' ↔ ∃ o, cb out c.iovBase c.iovLen = some o ∧ feed cb o cs = some out' := by
  simp [feed, foldlM_cons, bind_eq_bind, bind_eq_some_iff]

lemma sum_reverse (view : List Iovec) : sum view.reverse = sum view := by simp [sum]

/-- The view is cut `m` bytes from its start. -/
structure Cut (view : List Iovec) (m : Nat) (before after : List Iovec) : Prop where
  before_le : before.length ≤ view.length
  after_le : after.length ≤ view.length
  take : bytes before = (bytes view).take m
  drop : bytes after = (bytes view).drop m

section Cut

variable {view before after : List Iovec} {m : Nat}

lemma Cut.segment (v : Iovec) (h : m ≤ v.iovLen) : Cut [v] m [⟨v.iovBase, m⟩] [⟨v.iovBase + m, v.iovLen - m⟩] := by
  refine ⟨le_rfl, le_rfl, ?_, ?_⟩
  · rw [bytes_cons, bytes_cons, bytes_nil, append_nil, append_nil, v.bytes_take h]
  · rw [bytes_cons, bytes_cons, bytes_nil, append_nil, append_nil, v.bytes_drop]

lemma Cut.zero (view : List Iovec) : Cut view 0 [] view := ⟨zero_le _, le_rfl, rfl, rfl⟩

lemma Cut.all (h : sum view ≤ m) : Cut view m view [] := by
  rw [← bytes_length] at h
  exact ⟨le_rfl, zero_le _, (take_of_length_le h).symm, (drop_of_length_le h).symm⟩

variable (h : Cut view m before after)
include h

lemma Cut.append_left (vs : List Iovec) : Cut (vs ++ view) (sum vs + m) (vs ++ before) after where
  before_le := by simpa using h.before_le
  after_le := by simpa using h.after_le.trans (le_add_left _ _)
  take := by rw [bytes_append, bytes_append, ← bytes_length, take_length_add_append, h.take]
  drop := by rw [bytes_append, ← bytes_length, drop_length_add_append, h.drop]

lemma Cut.append_right (hm : m ≤ sum view) (vs : List Iovec) : Cut (view ++ vs) m before (after ++ vs) := by
  rw [← bytes_length] at hm
  refine ⟨?_, by simpa using h.after_le, ?_, ?_⟩
  · simpa using h.before_le.trans (le_add_right _ _)
  · rw [bytes_append, take_append_of_le_length hm, h.take]
  · rw [bytes_append, bytes_append, drop_append_of_le_length hm, h.drop]

lemma Cut.trim {before' after' : List Iovec} (hb : before'.length ≤ before.length ∧ bytes before' = bytes before)
    (ha : after'.length ≤ after.length ∧ bytes after' = bytes after) : Cut view m before' after' :=
  ⟨hb.1.trans h.before_le, ha.1.trans h.after_le, hb.2.trans h.take, ha.2.trans h.drop⟩

lemma Cut.clip : Cut view (min m (sum view)) before after := by
  rcases le_total m (sum view) with hm | hm
  · rwa [min_eq_left hm]
  · rw [min_eq_right hm, ← bytes_length]
    rw [← bytes_length] at hm
    refine ⟨h.before_le, h.after_le, ?_, ?_⟩
    · rw [h.take, take_of_length_le hm, take_length]
    · rw [h.drop, drop_of_length_le hm, drop_length]

end Cut

lemma bytes_of_iovLen_zero {v : Iovec} (h : v.iovLen = 0) : v.bytes = [] :=
  eq_nil_of_length_eq_zero (by simpa using h)

lemma cut_front {n : Nat} (v : Iovec) (vs : List Iovec) (h : n ≤ v.iovLen) :
    Cut (v :: vs) n [⟨v.iovBase, n⟩] (if v.iovLen - n = 0 then vs else ⟨v.iovBase + n, v.iovLen - n⟩ :: vs) := by
  refine ((Cut.segment v h).append_right (by simpa using h) vs).trim ⟨le_rfl, rfl⟩ ?_
  split
  next h0 => simp [h0, bytes_of_iovLen_zero]
  · exact ⟨le_rfl, rfl⟩

lemma cut_back {n : Nat} (v : Iovec) (vs : List Iovec) (h : n ≤ v.iovLen) :
    Cut (v :: vs).reverse (sum (v :: vs) - n)
      (if v.iovLen - n = 0 then vs else ⟨v.iovBase, v.iovLen - n⟩ :: vs).reverse [⟨v.iovBase + (v.iovLen - n), n⟩] := by
  have hcut := (Cut.segment v (sub_le v.iovLen n)).append_left vs.reverse
  have hm : sum vs.reverse + (v.iovLen - n) = sum (v :: vs) - n := by
    rw [sum_reverse, sum_cons]
    omega
  rw [hm, ← reverse_cons, ← reverse_cons, Nat.sub_sub_self h] at hcut
  refine hcut.trim ?_ ⟨le_rfl, rfl⟩
  split
  next h0 => simp [h0, bytes_of_iovLen_zero]
  · exact ⟨le_rfl, rfl⟩

lemma taken_here {n bytes0 : Nat} {v : Iovec} {vs : List Iovec} (h : n ≤ v.iovLen) :
    bytes0 - (n - min n (sum (v :: vs))) = bytes0 := by
  rw [sum_cons]
  omega

lemma taken_next {n bytes0 : Nat} {v : Iovec} {vs : List Iovec} (h : ¬ n ≤ v.iovLen) :
    bytes0 - (n - min n (sum (v :: vs))) = bytes0 - (n - v.iovLen - min (n - v.iovLen) (sum vs)) := by
  rw [sum_cons]
  omega

lemma extractFrontLoop_spec (bytes0 : Nat) (view : List Iovec) (n : Nat) (hn : n ≤ bytes0) :
    ∃ cs rest, Cut view n cs rest ∧ ∀ out out', feed cb out cs = some out' →
      extractFrontLoop cb bytes0 view n out = ⟨some (bytes0 - (n - min n (sum view))), rest, out'⟩ := by
  induction view generalizing n with
  | nil =>
    refine ⟨[], [], .all (zero_le n), ?_⟩
    intro out out' h
    cases h
    simp [extractFrontLoop]
  | cons v vs ih =>
    by_cases hle : n ≤ v.iovLen
    · -- the last segment that is touched
      refine ⟨_, _, cut_front v vs hle, fun out out' h => ?_⟩
      obtain ⟨o, ho, h⟩ := (feed_cons cb ..).1 h
      cases h
      rw [taken_here hle]
      simp only [extractFrontLoop, if_pos hle, ho]
      split <;> rfl
    · obtain ⟨cs, rest, hcut, hlo⟩ := ih (n - v.iovLen) (by omega)
      refine ⟨v :: cs, rest, ?_, fun out out' h => ?_⟩
      · have hcut := hcut.append_left [v]
        rwa [sum_cons, sum_nil, add_zero, Nat.add_sub_cancel' (by omega)] at hcut
      obtain ⟨o, ho, h⟩ := (feed_cons cb ..).1 h
      rw [taken_next hle]
      simp only [extractFrontLoop, if_neg hle, ho]
      exact hlo o out' h

lemma extractBackLoop_spec (bytes0 : Nat) (view : List Iovec) (n : Nat) (hn : n ≤ bytes0) :
    ∃ cs rest, Cut view.reverse (sum view - n) rest.reverse cs.reverse ∧ ∀ out out', feed cb out cs = some out' →
      extractBackLoop cb bytes0 view n out = ⟨some (bytes0 - (n - min n (sum view))), rest, out'⟩ := by
  induction view generalizing n with
  | nil =>
    refine ⟨[], [], .all (Nat.zero_le _), ?_⟩
    intro out out' h
    cases h
    simp [extractBackLoop]
  | cons v vs ih =>
    by_cases hle : n ≤ v.iovLen
    · refine ⟨[⟨v.iovBase + (v.iovLen - n), n⟩], _, cut_back v vs hle, fun out out' h => ?_⟩
      obtain ⟨o, ho, h⟩ := (feed_cons cb ..).1 h
      cases h
      rw [taken_here hle]
      simp only [extractBackLoop, if_pos hle, Nat.add_sub_assoc hle, ho]
      split <;> rfl
    · obtain ⟨cs, rest, hcu, hlo⟩ := ih (n - v.iovLen) (by omega)
      refine ⟨v :: cs, rest, ?_, fun out out' h => ?_⟩
      · rw [reverse_cons, reverse_cons, sum_cons, show v.iovLen + sum vs - n = sum vs - (n - v.iovLen) by omega]
        exact hcu.append_right (by rw [sum_reverse]; exact sub_le ..) [v]
      obtain ⟨o, ho, h⟩ := (feed_cons cb ..).1 h
      rw [taken_next hle]
      simp only [extractBackLoop, if_neg hle, ho]
      exact hlo o out' h

/-- `do_extract_front` gives the callback the first `n` bytes of the view, and leaves the rest. -/
lemma doExtractFront_spec (view : List Iovec) (n : Nat) : ∃ cs rest, Cut view n cs rest ∧
    ∀ out out', feed cb out cs = some out' → doExtractFront cb n view out = ⟨some (min n (sum view)), rest, out'⟩ := by
  unfold doExtractFront
  rcases eq_or_ne n 0 with rfl | h0
  · refine ⟨[], view, .zero view, fun out out' h => ?_⟩
    cases h
    simp
  · obtain ⟨cs, rest, hcu, hlo⟩ := extractFrontLoop_spec cb n view n le_rfl
    refine ⟨cs, rest, hcu, fun out out' h => ?_⟩
    have hr : n - (n - min n (sum view)) = min n (sum view) := by omega
    rw [if_neg h0, hlo out out' h, hr]

/-- `do_extract_back` gives the callback the last `n` bytes of the view, from the last segment on, and leaves the
rest. -/
lemma doExtractBack_spec (view : List Iovec) (n : Nat) : ∃ cs rest, Cut view (sum view - n) rest cs.reverse ∧
    ∀ out out', feed cb out cs = some out' → doExtractBack cb n view out = ⟨some (min n (sum view)), rest, out'⟩ := by
  unfold doExtractBack
  rcases eq_or_ne n 0 with rfl | h0
  · refine ⟨[], view, .all le_rfl, fun out out' h => ?_⟩
    cases h
    simp
  · obtain ⟨cs, rest, hcu, hlo⟩ := extractBackLoop_spec cb n view.reverse n le_rfl
    rw [reverse_reverse, sum_reverse] at hcu
    refine ⟨cs, rest.reverse, hcu, fun out out' h => ?_⟩
    have hr : n - (n - min n (sum view)) = min n (sum view) := by omega
    rw [if_neg h0, hlo out out' h, sum_reverse, hr]

end Spec

/-! ## What the callbacks do with it -/

section Callbacks

variable {β : Type}

lemma feed_discard (cs : List Iovec) : feed discard () cs = some () := by
  induction cs with
  | nil => rfl
  | cons c cs ih => exact (feed_cons ..).2 ⟨(), rfl, ih⟩

lemma feed_copyForward (mem : Nat → β) (buf : Nat) (cs : List Iovec) :
    feed copyForward (mem, buf) cs = some (copyBytes mem ((addresses buf (sum cs)).zip (bytes cs)), buf + sum cs) := by
  induction cs generalizing mem buf with
  | nil => rfl
  | cons c cs ih =>
    refine (feed_cons ..).2 ⟨(memcpy mem buf c.iovBase c.iovLen, buf + c.iovLen), rfl, ?_⟩
    rw [ih, sum_cons, bytes_cons, ← addresses_append, zip_append (by simp), copyBytes_append, add_assoc]
    rfl

lemma feed_copyBackward (mem : Nat → β) (buf : Nat) (cs : List Iovec) (hbu : sum cs ≤ buf) :
    ∃ ps, feed copyBackward (mem, buf) cs = some (copyBytes mem ps, buf - sum cs) ∧
      ps.Perm ((addresses (buf - sum cs) (sum cs)).zip (bytes cs.reverse)) := by
  induction cs generalizing mem buf with
  | nil => exact ⟨[], rfl, .refl _⟩
  | cons c cs ih =>
    rw [sum_cons] at hbu
    obtain ⟨ps, hf, hpe⟩ := ih (memcpy mem (buf - c.iovLen) c.iovBase c.iovLen) (buf - c.iovLen) (by omega)
    have hsu : buf - (c.iovLen + sum cs) = buf - c.iovLen - sum cs := by omega
    have hst : buf - c.iovLen - sum cs + sum cs = buf - c.iovLen := by omega
    refine ⟨(addresses (buf - c.iovLen) c.iovLen).zip c.bytes ++ ps, ?_, ?_⟩
    · refine (feed_cons ..).2 ⟨_, rfl, ?_⟩
      rw [hf, sum_cons, hsu, copyBytes_append]
      rfl
    -- the segment taken first is the last one of the buffer
    rw [sum_cons, hsu, add_comm c.iovLen, ← addresses_append, hst, reverse_cons, bytes_append,
      zip_append (by simp [sum_reverse])]
    refine perm_append_comm.trans (hpe.append ?_)
    simp

section
variable (slots : Nat) (out cs : List Iovec) (h : out.length + cs.length ≤ slots)
include slots out cs h

lemma feed_storeNext : feed (storeNext slots) out cs = some (out ++ cs) := by
  induction cs generalizing out with
  | nil => simp [feed]
  | cons c cs ih =>
    rw [length_cons] at h
    refine (feed_cons ..).2 ⟨out ++ [c], if_neg (by omega), ?_⟩
    rw [ih (out ++ [c]) (by simp; omega), append_assoc]
    rfl

lemma feed_storePrevious : feed (storePrevious slots) out cs = some (cs.reverse ++ out) := by
  induction cs generalizing out with
  | nil => simp [feed]
  | cons c cs ih =>
    rw [length_cons] at h
    refine (feed_cons ..).2 ⟨c :: out, if_neg (by omega), ?_⟩
    rw [ih (c :: out) (by simp; omega), reverse_cons, append_assoc]
    rfl

end

lemma bytes_extractFront (view : List Iovec) (n : Nat) : bytes (extractFront view n).view = (bytes view).drop n := by
  obtain ⟨cs, rest, hcu, h⟩ := doExtractFront_spec discard view n
  rw [extractFront, h () () (feed_discard cs), hcu.drop]

lemma bytes_extractBack (view : List Iovec) (n : Nat) :
    bytes (extractBack view n).view = (bytes view).take (sum view - n) := by
  obtain ⟨cs, rest, hcu, h⟩ := doExtractBack_spec discard view n
  rw [extractBack, h () () (feed_discard cs), hcu.take]

end Callbacks

/-! ## The forms deliver what they take -/

/-- `k` bytes were taken off the front of the view. -/
def Extracted.Front {σ : Type} (r : Extracted σ) (view : List Iovec) (k : Nat) : Prop :=
  r.ret = some k ∧ bytes r.view = (bytes view).drop k

def Extracted.Back {σ : Type} (r : Extracted σ) (view : List Iovec) (k : Nat) : Prop :=
  r.ret = some k ∧ bytes r.view = (bytes view).take (sum view - k)

section Deliver

variable {σ β : Type} (view : List Iovec) (n : Nat)

lemma front_of_feed (cb : σ → Nat → Nat → Option σ) (out : σ)
    (hcb : ∀ cs : List Iovec, cs.length ≤ view.length → ∃ out', feed cb out cs = some out') :
    ∃ cs, Cut view (min n (sum view)) cs (doExtractFront cb n view out).view ∧
      (doExtractFront cb n view out).Front view (min n (sum view)) ∧
      feed cb out cs = some (doExtractFront cb n view out).out := by
  obtain ⟨cs, rest, hcu, h⟩ := doExtractFront_spec cb view n
  obtain ⟨out', hf⟩ := hcb cs hcu.before_le
  rw [h out out' hf]
  exact ⟨cs, hcu.clip, ⟨rfl, hcu.clip.drop⟩, hf⟩

lemma back_of_feed (cb : σ → Nat → Nat → Option σ) (out : σ)
    (hcb : ∀ cs : List Iovec, cs.length ≤ view.length → sum cs = min n (sum view) → ∃ out', feed cb out cs = some out') :
    ∃ cs, Cut view (sum view - min n (sum view)) (doExtractBack cb n view out).view cs.reverse ∧
      sum cs = min n (sum view) ∧ (doExtractBack cb n view out).Back view (min n (sum view)) ∧
      feed cb out cs = some (doExtractBack cb n view out).out := by
  obtain ⟨cs, rest, hcu, h⟩ := doExtractBack_spec cb view n
  rw [show sum view - n = sum view - min n (sum view) by omega] at hcu
  have hsu : sum cs = min n (sum view) := by
    rw [← sum_reverse, ← bytes_length, hcu.drop, length_drop, bytes_length]
    omega
  obtain ⟨out', hf⟩ := hcb cs (by simpa using hcu.after_le) hsu
  rw [h out out' hf]
  exact ⟨cs, hcu, hsu, ⟨rfl, hcu.take⟩, hf⟩

lemma extractFrontBuf_copied (mem : Nat → β) (buf : Nat) :
    ((extractFrontBuf mem view n buf).Front view (min n (sum view)) ∧
      Copied mem (extractFrontBuf mem view n buf).out.1 (addresses buf (min n (sum view)))
        ((bytes view).take (min n (sum view)))) ∧
      (extractFrontBuf mem view n buf).view.length ≤ view.length := by
  obtain ⟨cs, hcu, hfr, hf⟩ := front_of_feed view n copyForward (mem, buf) fun cs _ =>
    ⟨_, feed_copyForward mem buf cs⟩
  have hle : sum cs = min n (sum view) := by
    rw [← bytes_length, hcu.take]
    simp
  rw [feed_copyForward, some.injEq] at hf
  refine ⟨⟨hfr, ?_⟩, hcu.after_le⟩
  unfold extractFrontBuf
  rw [← hf, ← hcu.take, ← hle]
  exact .of_copies (by simp) (.refl _)

lemma extractBackBuf_copied (mem : Nat → β) (buf : Nat) :
    ((extractBackBuf mem view n buf).Back view (min n (sum view)) ∧
      Copied mem (extractBackBuf mem view n buf).out.1 (addresses (buf + n - min n (sum view)) (min n (sum view)))
        ((bytes view).drop (sum view - min n (sum view)))) ∧
      (extractBackBuf mem view n buf).view.length ≤ view.length := by
  obtain ⟨cs, hcu, hsu, hba, hf⟩ := back_of_feed view n copyBackward (mem, buf + n) fun cs _ hsu => by
    obtain ⟨ps, h, -⟩ := feed_copyBackward mem (buf + n) cs (by omega)
    exact ⟨_, h⟩
  obtain ⟨ps, hps, hpe⟩ := feed_copyBackward mem (buf + n) cs (by omega)
  rw [hps, some.injEq] at hf
  refine ⟨⟨hba, ?_⟩, hcu.before_le⟩
  unfold extractBackBuf
  rw [← hf]
  rw [hsu, hcu.drop] at hpe
  refine .of_copies ?_ hpe
  simp only [addresses_length, length_drop, bytes_length]
  omega

end Deliver

/-- Of a view with any segments, the three forms of `extract_front` and of `extract_back` take as many bytes as are
asked for and there, and return how many. They leave the others, and deliver what they take in its order;
`extract_back` with a buffer puts it at the end of the buffer. -/
theorem extract_delivers {β : Type} (view : List Iovec) (n : Nat) (mem : Nat → β) (buf slots : Nat)
    (hslots : view.length ≤ slots) :
    let k := min n (sum view)
    let first := (bytes view).take k
    let last := (bytes view).drop (sum view - k)
    (extractFront view n).Front view k ∧
    ((extractFrontBuf mem view n buf).Front view k ∧
      Copied mem (extractFrontBuf mem view n buf).out.1 (addresses buf k) first) ∧
    ((extractFrontView view n slots).Front view k ∧ bytes (extractFrontView view n slots).out = first) ∧
    (extractBack view n).Back view k ∧
    ((extractBackBuf mem view n buf).Back view k ∧
      Copied mem (extractBackBuf mem view n buf).out.1 (addresses (buf + n - k) k) last) ∧
    ((extractBackView view n slots).Back view k ∧ bytes (extractBackView view n slots).out = last) := by
  intro k first last
  refine ⟨?_, (extractFrontBuf_copied view n mem buf).1, ?_, ?_, (extractBackBuf_copied view n mem buf).1, ?_⟩
  · obtain ⟨-, -, h, -⟩ := front_of_feed view n discard () fun cs _ => ⟨(), feed_discard cs⟩
    exact h
  · obtain ⟨cs, hcu, h, hf⟩ := front_of_feed view n (storeNext slots) [] fun cs hle =>
      ⟨_, feed_storeNext slots [] cs (by simpa using hle.trans hslots)⟩
    rw [feed_storeNext slots [] cs (by simpa using hcu.before_le.trans hslots), some.injEq] at hf
    refine ⟨h, ?_⟩
    unfold extractFrontView
    rw [← hf]
    exact hcu.take
  · obtain ⟨-, -, -, h, -⟩ := back_of_feed view n discard () fun cs _ _ => ⟨(), feed_discard cs⟩
    exact h
  · obtain ⟨cs, hcu, -, h, hf⟩ := back_of_feed view n (storePrevious slots) [] fun cs hle _ =>
      ⟨_, feed_storePrevious slots [] cs (by simpa using hle.trans hslots)⟩
    have hle : cs.length ≤ view.length := by simpa using hcu.after_le
    rw [feed_storePrevious slots [] cs (by simpa using hle.trans hslots), some.injEq, append_nil] at hf
    refine ⟨h, ?_⟩
    unfold extractBackView
    rw [← hf]
    exact hcu.drop

/-- Three segments, one of them without bytes: the last three bytes are one of the first and both of the third, and
are handed out as three segments. -/
theorem extract_delivers_three : (extractBackView [⟨0, 4⟩, ⟨9, 0⟩, ⟨20, 2⟩] 3 3).out = [⟨3, 1⟩, ⟨9, 0⟩, ⟨20, 2⟩] ∧
    bytes (extractBackView [⟨0, 4⟩, ⟨9, 0⟩, ⟨20, 2⟩] 3 3).out = [3, 20, 21] ∧
    bytes (extractBack [⟨0, 4⟩, ⟨9, 0⟩, ⟨20, 2⟩] 3).view = [0, 1, 2] ∧
    (extractBackBuf (fun a => a) [⟨0, 4⟩, ⟨9, 0⟩, ⟨20, 2⟩] 3 100).out.1 101 = 20 := by
  obtain ⟨-, -, -, hba, ⟨-, hbu⟩, -, hv⟩ :=
    extract_delivers [⟨0, 4⟩, ⟨9, 0⟩, ⟨20, 2⟩] 3 (fun a => a) 100 3 (by decide)
  have hva := hbu.values (addresses_nodup ..) (by decide)
  have h101 := congrArg (·[1]?) hva
  refine ⟨rfl, hv.trans (by decide), hba.2.trans (by decide), ?_⟩
  exact some.inj h101

end Photon.Iovector
