import Photon.Rpc.Deserialize
/-!
# What `SerializerIOV` sends of a value

The segments of a value are what its fields point at, in the order in which the fields are
processed. While it goes over the fields, the serializer writes one thing: the sum of the
lengths into every `iovec_array`. When no such word is part of anything else that is read,
the value stays what it was.
-/

namespace Photon.Rpc

open Photon.Iovector Arena List Nat Serializer

variable {size : Nat} {α : Type}

/-! ## Values -/

section Value

variable (mem : Mem)

def collect {α : Type} (f : Nat → List α) (size : Nat) : Nat → Nat → List α
  | 0, _ => []
  | n + 1, x => f x ++ collect f size n (x + size)

def bufferSegments (x : Nat) : List Iovec :=
  if 0 < readWord mem (x + 8) then [⟨readWord mem x, readWord mem (x + 8)⟩] else []

def bufferReads (x : Nat) : List Nat := addresses x 16 ++ addresses (readWord mem x) (readWord mem (x + 8))

def iovecReads (x : Nat) : List Nat :=
  addresses x 16 ++ addresses (readWord mem x) (readWord mem (x + 8) / 16 * 16) ++ bytes (entries mem x)

mutual

def segments : Ty → Nat → List Iovec
  | .fixed _, _ => []
  | .alignedBuffer, _ => []
  | .alignedIovecArray, _ => []
  | .buffer, x => bufferSegments mem x
  | .fixedBuffer, x => bufferSegments mem x
  | .string, x => bufferSegments mem x
  | .iovecArray, x => (entries mem x).filter (0 < ·.iovLen)
  | .array elem, x =>
    bufferSegments mem x ++ collect (segments elem) elem.sizeof (readWord mem (x + 8) / elem.sizeof) (readWord mem x)
  | .sortedMap, x => bufferSegments mem x ++ bufferSegments mem (x + 16)
  | .message _ fields, x => segmentsOf fields x

def segmentsOf : Fields → Nat → List Iovec
  | .nil, _ => []
  | .cons offset field rest, x => segments field (x + offset) ++ segmentsOf rest x

end

mutual

def reads : Ty → Nat → List Nat
  | .fixed size, x => addresses x size
  | .buffer, x => bufferReads mem x
  | .alignedBuffer, x => bufferReads mem x
  | .fixedBuffer, x => bufferReads mem x
  | .string, x => bufferReads mem x
  | .iovecArray, x => iovecReads mem x
  | .alignedIovecArray, x => iovecReads mem x
  | .array elem, x =>
    addresses x 16 ++ collect (reads elem) elem.sizeof (readWord mem (x + 8) / elem.sizeof) (readWord mem x)
  | .sortedMap, x => bufferReads mem x ++ bufferReads mem (x + 16)
  | .message _ fields, x => readsOf fields x

def readsOf : Fields → Nat → List Nat
  | .nil, _ => []
  | .cons offset field rest, x => reads field (x + offset) ++ readsOf rest x

end

mutual

/-- The `iovec_array`s that are processed, each of which has a `summed_size` after 16 bytes. -/
def sums : Ty → Nat → List Nat
  | .iovecArray, x => [x]
  | .array elem, x => collect (sums elem) elem.sizeof (readWord mem (x + 8) / elem.sizeof) (readWord mem x)
  | .message _ fields, x => sumsOf fields x
  | _, _ => []

def sumsOf : Fields → Nat → List Nat
  | .nil, _ => []
  | .cons offset field rest, x => sums field (x + offset) ++ sumsOf rest x

end

mutual

/-- What is pointed at is sent: the aligned fields in a nested message or an array, which are not processed, are empty.
-/
def allSent : Ty → Nat → Prop
  | .alignedBuffer, x => readWord mem (x + 8) = 0
  | .alignedIovecArray, x => readWord mem (x + 8) / 16 = 0
  | .array elem, x => ∀ i < readWord mem (x + 8) / elem.sizeof, allSent elem (readWord mem x + i * elem.sizeof)
  | .message _ fields, x => allSentOf fields x
  | _, _ => True

def allSentOf : Fields → Nat → Prop
  | .nil, _ => True
  | .cons offset field rest, x => allSent field (x + offset) ∧ allSentOf rest x

end

end Value

section Same

variable (mem mem' : Mem)

def SameBuffer (x y : Nat) : Prop := readWord mem' (y + 8) = readWord mem (x + 8) ∧
    readBytes mem' (readWord mem' y) (readWord mem (x + 8)) = readBytes mem (readWord mem x) (readWord mem (x + 8))

/-- The bytes of an `iovec_array`, whatever entries they are in. -/
def SameIovecs (x y : Nat) : Prop := (bytes (entries mem' y)).map mem' = (bytes (entries mem x)).map mem

mutual

/-- The field at `x` in `mem` and the one at `y` in `mem'` are equal. -/
def Same : Ty → Nat → Nat → Prop
  | .fixed size, x, y => readBytes mem' y size = readBytes mem x size
  | .buffer, x, y => SameBuffer mem mem' x y
  | .alignedBuffer, x, y => SameBuffer mem mem' x y
  | .fixedBuffer, x, y => SameBuffer mem mem' x y
  | .string, x, y => SameBuffer mem mem' x y
  | .iovecArray, x, y => SameIovecs mem mem' x y
  | .alignedIovecArray, x, y => SameIovecs mem mem' x y
  | .array elem, x, y =>
    readWord mem' (y + 8) = readWord mem (x + 8) ∧ ∀ i < readWord mem (x + 8) / elem.sizeof,
        Same elem (readWord mem x + i * elem.sizeof) (readWord mem' y + i * elem.sizeof)
  | .sortedMap, x, y => SameBuffer mem mem' x y ∧ SameBuffer mem mem' (x + 16) (y + 16)
  | .message _ fields, x, y => SameFields fields x y

def SameFields : Fields → Nat → Nat → Prop
  | .nil, _, _ => True
  | .cons offset field rest, x, y => Same field (x + offset) (y + offset) ∧ SameFields rest x y

end

end Same

/-! ## A value depends on what is read of it -/

def Agree (mem mem' : Mem) (as : List Nat) : Prop := ∀ a ∈ as, mem' a = mem a

section Agree

variable {mem mem' : Mem} {as bs : List Nat}

lemma agree_append : Agree mem mem' (as ++ bs) ↔ Agree mem mem' as ∧ Agree mem mem' bs := forall_mem_append

variable {x n : Nat}

lemma Agree.readWord {y : Nat} (h : Agree mem mem' (addresses x n)) (hy : x ≤ y ∧ y + 8 ≤ x + n) :
    readWord mem' y = readWord mem y :=
  readWord_congr fun a h1 h2 => h a (mem_addresses.2 (by omega))

lemma Agree.readBytes (h : Agree mem mem' (addresses x n)) : readBytes mem' x n = readBytes mem x n :=
  readBytes_congr fun a h1 h2 => h a (mem_addresses.2 ⟨h1, h2⟩)

lemma mem_collect {f : Nat → List α} {i : Nat} {a : α} (hi : i < n) (ha : a ∈ f (x + i * size)) :
    a ∈ collect f size n x := by
  induction n generalizing x i with
  | zero => exact absurd hi (not_lt_zero i)
  | succ n ih =>
    rw [collect, mem_append]
    cases i with
    | zero => exact .inl (by simpa using ha)
    | succ i =>
      right
      apply ih (i := i) (by omega)
      rwa [add_assoc, add_comm size, ← succ_mul]

lemma collect_congr {f g : Nat → List α} (h : ∀ i < n, f (x + i * size) = g (x + i * size)) :
    collect f size n x = collect g size n x := by
  induction n generalizing x with
  | zero => rfl
  | succ n ih =>
    have h0 := h 0 (by omega)
    rw [zero_mul, add_zero] at h0
    rw [collect, collect, h0, ih]
    intro i hi
    have := h (i + 1) (by omega)
    rwa [succ_mul, add_comm _ size, ← add_assoc] at this

lemma agree_buffer (h : Agree mem mem' (bufferReads mem x)) :
    bufferSegments mem' x = bufferSegments mem x ∧ ∀ m y, SameBuffer mem' m x y → SameBuffer mem m x y := by
  obtain ⟨hw, hb⟩ := agree_append.1 h
  have h₀ := hw.readWord (y := x) (by omega)
  have h8 := hw.readWord (y := x + 8) (by omega)
  constructor
  · rw [bufferSegments, bufferSegments, h₀, h8]
  · intro m y hsa
    rw [SameBuffer, h₀, h8, hb.readBytes] at hsa
    exact hsa

lemma agree_iovecs (h : Agree mem mem' (iovecReads mem x)) :
    entries mem' x = entries mem x ∧ ∀ m y, SameIovecs mem' m x y → SameIovecs mem m x y := by
  obtain ⟨hws, hb⟩ := agree_append.1 h
  obtain ⟨hw, hs⟩ := agree_append.1 hws
  have he : entries mem' x = entries mem x := by
    rw [entries, entries, hw.readWord (by omega), hw.readWord (by omega)]
    exact iovecs_congr fun a h1 h2 => hs a (mem_addresses.2 ⟨h1, h2⟩)
  refine ⟨he, fun m y hsa => ?_⟩
  rw [SameIovecs, he] at hsa
  rw [SameIovecs, hsa]
  exact map_congr_left hb

lemma agree_spec : (∀ (field : Ty) (x : Nat), Agree mem mem' (reads mem field x) →
      segments mem' field x = segments mem field x ∧ sums mem' field x = sums mem field x ∧
        (allSent mem field x → allSent mem' field x) ∧ ∀ m y, Same mem' m field x y → Same mem m field x y) ∧
    ∀ (fields : Fields) (x : Nat), Agree mem mem' (readsOf mem fields x) →
      segmentsOf mem' fields x = segmentsOf mem fields x ∧ sumsOf mem' fields x = sumsOf mem fields x ∧
        (allSentOf mem fields x → allSentOf mem' fields x) ∧ ∀ m y, SameFields mem' m fields x y → SameFields mem m fields x y := by
  refine Ty.induct ?fixed ?aligned ?alignedIovecs ?buffer ?buffer ?buffer ?iovecArray ?sortedMap ?array ?message ?nil ?cons
  case fixed =>
    intro size x h
    refine ⟨rfl, rfl, id, fun m y hsa => ?_⟩
    rw [Same] at hsa ⊢
    rw [hsa, Agree.readBytes h]
  case aligned =>
    intro x h
    refine ⟨rfl, rfl, fun hse => ?_, (agree_buffer h).2⟩
    rw [allSent, (agree_append.1 h).1.readWord (by omega)]
    exact hse
  case alignedIovecs =>
    intro x h
    refine ⟨rfl, rfl, fun hse => ?_, (agree_iovecs h).2⟩
    rw [allSent, (agree_append.1 (agree_append.1 h).1).1.readWord (by omega)]
    exact hse
  case buffer => exact fun x h => ⟨(agree_buffer h).1, rfl, id, (agree_buffer h).2⟩
  case iovecArray =>
    intro x h
    obtain ⟨hen, hsa⟩ := agree_iovecs h
    exact ⟨by rw [segments, segments, hen], rfl, id, hsa⟩
  case sortedMap =>
    intro x h
    obtain ⟨h1, h2⟩ := agree_append.1 h
    refine ⟨by rw [segments, segments, (agree_buffer h1).1, (agree_buffer h2).1], rfl, id, fun m y hsa => ?_⟩
    exact ⟨(agree_buffer h1).2 m y hsa.1, (agree_buffer h2).2 m _ hsa.2⟩
  case array =>
    intro elem ih x h
    obtain ⟨hw, hb⟩ := agree_append.1 h
    have h₀ := hw.readWord (y := x) (by omega)
    have h8 := hw.readWord (y := x + 8) (by omega)
    have he : ∀ i < readWord mem (x + 8) / elem.sizeof, _ := fun i hi =>
      ih (readWord mem x + i * elem.sizeof) fun a ha => hb a (mem_collect hi ha)
    refine ⟨?_, ?_, fun hse => ?_, fun m y hsa => ?_⟩
    · rw [segments, segments, bufferSegments, bufferSegments, h₀, h8, collect_congr fun i hi => (he i hi).1]
    · rw [sums, sums, h₀, h8, collect_congr fun i hi => (he i hi).2.1]
    · rw [allSent, h₀, h8]
      exact fun i hi => (he i hi).2.2.1 (hse i hi)
    · rw [Same, h₀, h8] at hsa
      exact ⟨hsa.1, fun i hi => (he i hi).2.2.2 m _ (hsa.2 i hi)⟩
  case message => exact fun _ _ ih => ih
  case nil => exact fun x _ => ⟨rfl, rfl, id, fun _ _ h => h⟩
  case cons =>
    intro offset field rest ihField ih x h
    obtain ⟨h1, h2⟩ := agree_append.1 h
    obtain ⟨hseg, hsum, hal, hsa⟩ := ihField (x + offset) h1
    obtain ⟨hse, hsu, hall, hsam⟩ := ih x h2
    refine ⟨by rw [segmentsOf, segmentsOf, hseg, hse], by rw [sumsOf, sumsOf, hsum, hsu], And.imp hal hall, fun m y h => ?_⟩
    exact ⟨hsa m _ h.1, hsam m y h.2⟩

end Agree

/-! ## What is pushed -/

def Untouched (arrays : List Nat) (mem0 mem : Mem) : Prop := ∀ a, (∀ p ∈ arrays, a ∉ span (p + 16) 8) → mem a = mem0 a

def Summed (mem0 mem : Mem) (p : Nat) : Prop := readWord mem (p + 16) = sum (entries mem0 p) % 2 ^ 64

structure SumsApart (read arrays : List Nat) : Prop where
  words : ∀ p ∈ arrays, ∀ a ∈ span p 16, a ∈ read
  apart : ∀ p ∈ arrays, ∀ a ∈ span (p + 16) 8, a ∉ read

/-- From `s` on, `segs` were pushed and the sums of `ps` were written. -/
structure Pushed (mem0 : Mem) (arrays : List Nat) (s s' : Serializer) (segs : List Iovec) (ps : List Nat) : Prop where
  untouched : Untouched arrays mem0 s'.mem
  keeps : ∀ p ∈ arrays, Summed mem0 s.mem p → Summed mem0 s'.mem p
  summed : ∀ p ∈ ps, Summed mem0 s'.mem p
  iov : s'.iovfull = false → s.iovfull = false ∧ s'.iov = s.iov ++ segs

section Pushed

variable {mem0 : Mem} {read arrays : List Nat} {s s' s1 : Serializer}

lemma Untouched.agree (h : Untouched arrays mem0 s.mem) (hsep : SumsApart read arrays) {as : List Nat} (has : as ⊆ read) :
    Agree mem0 s.mem as :=
  fun a ha => h a fun p hp hm => hsep.apart p hp a hm (has ha)

lemma Pushed.refl (h : Untouched arrays mem0 s.mem) : Pushed mem0 arrays s s [] [] where
  untouched := h
  keeps _ _ hp := hp
  summed _ hp := by cases hp
  iov hf := ⟨hf, (append_nil _).symm⟩

lemma Pushed.trans {segs segs' : List Iovec} {ps ps' : List Nat} (h : Pushed mem0 arrays s s1 segs ps)
    (h' : Pushed mem0 arrays s1 s' segs' ps') (hps : ps ⊆ arrays) :
    Pushed mem0 arrays s s' (segs ++ segs') (ps ++ ps') where
  untouched := h'.untouched
  keeps p hp hs := h'.keeps p hp (h.keeps p hp hs)
  summed p hp := by
    rcases mem_append.1 hp with hp | hp
    · exact h'.keeps p (hps hp) (h.summed p hp)
    · exact h'.summed p hp
  iov hf := by
    obtain ⟨hf1, hi'⟩ := h'.iov hf
    obtain ⟨hf0, hi⟩ := h.iov hf1
    exact ⟨hf0, by rw [hi', hi, append_assoc]⟩

lemma pushBuffer_mem (s : Serializer) (addr size : Nat) : (s.pushBuffer addr size).mem = s.mem := by
  unfold pushBuffer
  split
  · split <;> rfl
  · rfl

lemma pushBuffer_iov {addr : Nat} (h : (s.pushBuffer addr size).iovfull = false) :
    s.iovfull = false ∧ (s.pushBuffer addr size).iov = s.iov ++ if 0 < size then [⟨addr, size⟩] else [] := by
  unfold pushBuffer at h ⊢
  split at h
  next hr =>
    rw [if_pos hr]
    split at h
    · rename_i hpo
      rw [if_pos hpo, if_pos hpo]
      exact ⟨h, rfl⟩
    · rename_i hpo
      rw [if_neg hpo, if_neg hpo]
      exact ⟨h, (append_nil _).symm⟩
  · cases h

section
variable {x : Nat} (hsep : SumsApart read arrays)
include hsep

lemma buffer_pushed (hx : addresses x 16 ⊆ read) (h : Untouched arrays mem0 s.mem) :
    Pushed mem0 arrays s (serializer.buffer x s) (bufferSegments mem0 x) [] := by
  have hw := h.agree hsep hx
  have hm : (serializer.buffer x s).mem = s.mem := pushBuffer_mem ..
  refine ⟨hm.symm ▸ h, fun p _ hp => hm.symm ▸ hp, fun p hp => (by cases hp), fun hf => ?_⟩
  rw [bufferSegments, ← hw.readWord (by omega), ← hw.readWord (by omega)]
  exact pushBuffer_iov hf

lemma addIovecs_spec (hx : x ∈ arrays) {n p : Nat}
    (hsl : addresses p (n * 16) ⊆ read) (h : Untouched arrays mem0 s.mem) :
    (∀ a, a ∉ span (x + 16) 8 → (s.addIovecs x n p).mem a = s.mem a) ∧
      readWord (s.addIovecs x n p).mem (x + 16) = (readWord s.mem (x + 16) + sum (iovecs mem0 p n)) % 2 ^ 64 ∧
      ((s.addIovecs x n p).iovfull = false → s.iovfull = false ∧
        (s.addIovecs x n p).iov = s.iov ++ (iovecs mem0 p n).filter (0 < ·.iovLen)) := by
  induction n generalizing p s with
  | zero =>
    refine ⟨fun _ _ => rfl, ?_, fun hf => ⟨hf, (append_nil _).symm⟩⟩
    exact (mod_eq_of_lt (readWord_lt ..)).symm
  | succ n ih =>
    have hsp : addresses p 16 ++ addresses (p + 16) (n * 16) = addresses p ((n + 1) * 16) := by
      rw [addresses_append, succ_mul, add_comm]
    rw [← hsp, append_subset] at hsl
    obtain ⟨hh, ht⟩ := hsl
    -- the entry is not where the sum is written
    have hslo : ∀ mem, (∀ a, a ∉ span (x + 16) 8 → mem a = s.mem a) →
        readWord mem p = readWord mem0 p ∧ readWord mem (p + 8) = readWord mem0 (p + 8) := by
      intro mem hm
      have hag : Agree mem0 mem (addresses p 16) := by
        intro a ha
        rw [hm a fun hw => hsep.apart x hx a hw (hh ha)]
        exact h.agree hsep hh a ha
      exact ⟨hag.readWord (by omega), hag.readWord (by omega)⟩
    have hwr : ∀ w a, a ∉ span (x + 16) 8 → writeWord s.mem (x + 16) w a = s.mem a := by
      intro w a ha
      apply writeWord_of_notMem
      by_contra hno
      exact ha ⟨by omega, by omega⟩
    obtain ⟨-, hle⟩ := hslo s.mem fun _ _ => rfl
    obtain ⟨hb', hl'⟩ := hslo _ (hwr (readWord s.mem (x + 16) + readWord s.mem (p + 8)))
    have hst : s.addIovec x p = pushBuffer
        { s with mem := writeWord s.mem (x + 16) (readWord s.mem (x + 16) + readWord mem0 (p + 8)) }
        (readWord mem0 p) (readWord mem0 (p + 8)) := by
      unfold addIovec
      dsimp only
      rw [hb', hl', hle]
    have hm1 : (s.addIovec x p).mem = writeWord s.mem (x + 16) (readWord s.mem (x + 16) + readWord mem0 (p + 8)) := by
      rw [hst, pushBuffer_mem]
    have hu : Untouched arrays mem0 (s.addIovec x p).mem := by
      intro a ha
      rw [hm1, hwr _ a (ha x hx)]
      exact h a ha
    obtain ⟨hfr, hsu, hi⟩ := ih ht hu
    rw [addIovecs]
    refine ⟨fun a ha => ?_, ?_, fun hf => ?_⟩
    · rw [hfr a ha, hm1, hwr _ a ha]
    · rw [hsu, hm1, readWord_writeWord_mod, iovecs, sum_cons, mod_add_mod, add_assoc]
    · obtain ⟨hf1, hi1⟩ := hi hf
      rw [hst] at hf1
      obtain ⟨hf0, hpu⟩ := pushBuffer_iov hf1
      rw [← hst] at hpu
      refine ⟨hf0, ?_⟩
      rw [hi1, hpu, append_assoc, iovecs, filter_cons]
      by_cases hpo : 0 < readWord mem0 (p + 8)
      · simp only [hpo, if_true, decide_true, cons_append, nil_append]
      · simp only [hpo, if_false, decide_false, nil_append, Bool.false_eq_true]

lemma SumsApart.disjoint {p q : Nat} (hp : p ∈ arrays) (hq : q ∈ arrays) (hn : p ≠ q) : p + 24 ≤ q ∨ q + 24 ≤ p := by
  by_contra hno
  rcases lt_or_gt_of_ne hn with hlt | hlt
  · by_cases hin : q < p + 16
    · exact hsep.apart p hp (p + 16) ⟨by omega, by omega⟩ (hsep.words q hq _ ⟨by omega, by omega⟩)
    · exact hsep.apart p hp q ⟨by omega, by omega⟩ (hsep.words q hq _ ⟨by omega, by omega⟩)
  · by_cases hin : p < q + 16
    · exact hsep.apart q hq (q + 16) ⟨by omega, by omega⟩ (hsep.words p hp _ ⟨by omega, by omega⟩)
    · exact hsep.apart q hq p ⟨by omega, by omega⟩ (hsep.words p hp _ ⟨by omega, by omega⟩)

lemma iovecArray_pushed (hx : x ∈ arrays) (hre : iovecReads mem0 x ⊆ read) (h : Untouched arrays mem0 s.mem) :
    Pushed mem0 arrays s (serializer.iovecArray x s) ((entries mem0 x).filter (0 < ·.iovLen)) [x] := by
  rw [iovecReads, append_assoc, append_subset, append_subset] at hre
  obtain ⟨hwo, hsl, -⟩ := hre
  let s0 : Serializer := { s with mem := writeWord s.mem (x + 16) 0 }
  have hu : Untouched arrays mem0 s0.mem := by
    intro a ha
    have hn := ha x hx
    refine (writeWord_of_notMem ?_).trans (h a ha)
    by_contra hw
    exact hn ⟨by omega, by omega⟩
  have hw := hu.agree hsep hwo
  have hr : serializer.iovecArray x s = s0.addIovecs x (readWord mem0 (x + 8) / 16) (readWord mem0 x) := by
    rw [← hw.readWord (by omega), ← hw.readWord (by omega)]
    rfl
  obtain ⟨hfr, hsu, hi⟩ := addIovecs_spec hsep hx hsl hu
  have hse : Summed mem0 (serializer.iovecArray x s).mem x := by
    rw [Summed, hr, hsu, readWord_writeWord _ _ (by omega), zero_add]
    rfl
  refine ⟨fun a ha => ?_, fun p hp hps => ?_, fun p hp => ?_, fun hf => ?_⟩
  · rw [hr, hfr a (ha x hx)]
    exact hu a ha
  · by_cases hpx : p = x
    · rw [hpx]
      exact hse
    rw [Summed, ← hps]
    refine readWord_congr fun a h1 h2 => ?_
    have hd := hsep.disjoint hp hx hpx
    rw [hr, hfr a fun hm => by have h3 := hm.1; have h4 := hm.2; omega]
    exact writeWord_of_notMem (by omega)
  · rw [mem_singleton.1 hp]
    exact hse
  · rw [hr] at hf ⊢
    exact hi hf

end

lemma each_pushed {f : Nat → Serializer → Option Serializer} {segs : Nat → List Iovec} {ps : Nat → List Nat}
    {n x : Nat}
    (hf : ∀ i < n, ∀ s s', Untouched arrays mem0 s.mem → f (x + i * size) s = some s' →
      Pushed mem0 arrays s s' (segs (x + i * size)) (ps (x + i * size)))
    (hps : collect ps size n x ⊆ arrays) (h : Untouched arrays mem0 s.mem) (hr : each f size n x s = some s') :
    Pushed mem0 arrays s s' (collect segs size n x) (collect ps size n x) := by
  induction n generalizing x s with
  | zero =>
    cases hr
    exact .refl h
  | succ n ih =>
    obtain ⟨s1, h1, h2⟩ := Option.bind_eq_some_iff.1 hr
    rw [collect, append_subset] at hps
    have hx : x + 0 * size = x := by omega
    have hh := hf 0 (by omega) s s1 h (hx.symm ▸ h1)
    rw [hx] at hh
    refine hh.trans (ih (fun i hi t t' ht hr => ?_) hps.2 hh.untouched h2) hps.1
    have hi' : x + size + i * size = x + (i + 1) * size := by rw [succ_mul]; omega
    rw [hi'] at hr ⊢
    exact hf (i + 1) (by omega) t t' ht hr

/-- The serializer pushes the segments of the fields, and writes the sums of their arrays. -/
lemma serializer_spec (hsep : SumsApart read arrays) :
    (∀ (field : Ty) (x : Nat) (s s' : Serializer), reads mem0 field x ⊆ read → sums mem0 field x ⊆ arrays →
      Untouched arrays mem0 s.mem → serializer.processField field x s = some s' →
      Pushed mem0 arrays s s' (segments mem0 field x) (sums mem0 field x)) ∧
    ∀ (fs : Fields) (x : Nat) (s s' : Serializer), readsOf mem0 fs x ⊆ read → sumsOf mem0 fs x ⊆ arrays →
      Untouched arrays mem0 s.mem → serializer.processFields fs x s = some s' →
      Pushed mem0 arrays s s' (segmentsOf mem0 fs x) (sumsOf mem0 fs x) := by
  have hbuf : ∀ (x : Nat) (s s' : Serializer), bufferReads mem0 x ⊆ read → Untouched arrays mem0 s.mem →
      some (serializer.buffer x s) = some s' → Pushed mem0 arrays s s' (bufferSegments mem0 x) [] := by
    rintro x s _ hre h ⟨⟩
    exact buffer_pushed hsep (append_subset.1 hre).1 h
  have hsk : ∀ s s', Untouched arrays mem0 s.mem → some s = some s' → Pushed mem0 arrays s s' [] [] := by
    rintro s _ h ⟨⟩
    exact .refl h
  refine Ty.induct ?fixed ?aligned ?alignedIovecs ?buffer ?buffer ?buffer ?iovecArray ?sortedMap ?array ?message ?nil ?cons
  case fixed => exact fun _ x s s' _ _ => hsk s s'
  case aligned => exact fun x s s' _ _ => hsk s s'
  case alignedIovecs => exact fun x s s' _ _ => hsk s s'
  case buffer => exact fun x s s' hre _ => hbuf x s s' hre
  case iovecArray =>
    rintro x s _ hre hsu h ⟨⟩
    exact iovecArray_pushed hsep (hsu mem_cons_self) hre h
  case sortedMap =>
    rintro x s _ hre - h ⟨⟩
    obtain ⟨h1, h2⟩ := append_subset.1 hre
    have hf := hbuf x s _ h1 h rfl
    exact hf.trans (hbuf (x + 16) _ _ h2 hf.untouched rfl) (nil_subset _)
  case array =>
    intro elem ih x s s' hre hsu h hr
    obtain ⟨hwo, he⟩ := append_subset.1 hre
    rw [Archive.processField] at hr
    split at hr
    · cases hr
    have hbu := buffer_pushed hsep hwo h
    have hw := hbu.untouched.agree hsep hwo
    have h₀ : readWord (serializer.mem (serializer.buffer x s)) x = readWord mem0 x := hw.readWord (by omega)
    have h8 : readWord (serializer.mem (serializer.buffer x s)) (x + 8) = readWord mem0 (x + 8) := hw.readWord (by omega)
    rw [h₀, h8] at hr
    refine hbu.trans (each_pushed (fun i hi t t' ht ht' => ?_) hsu hbu.untouched hr) (nil_subset _)
    exact ih _ t t' (fun a ha => he (mem_collect hi ha)) (fun p hp => hsu (mem_collect hi hp)) ht ht'
  case message => exact fun _ _ ih => ih
  case nil => exact fun x s s' _ _ => hsk s s'
  case cons =>
    intro offset field rest ihField ih x s s' hre hsu h hr
    obtain ⟨s1, h1, h2⟩ := Option.bind_eq_some_iff.1 hr
    obtain ⟨hr1, hr2⟩ := append_subset.1 hre
    obtain ⟨hs1, hs2⟩ := append_subset.1 hsu
    have hh := ihField _ s s1 hr1 hs1 h h1
    exact hh.trans (ih x s1 s' hr2 hs2 hh.untouched h2) hs1

end Pushed

end Photon.Rpc
