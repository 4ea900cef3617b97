import Photon.Common.IovectorPush
import Photon.Rpc.RoundTrip
/-!
# `Stub::call` and the response of the caller

The response is serialized before the call, so that the reply is read into the caller's
buffer and then into the response itself. A reply that is shorter than these is deserialized
from there, and the result is copied over the response. Any other reply is taken for one that
is in its place already, with the pointers of the server and, when it is longer, with the
bytes of the variable-length field in the response.
-/

namespace Photon.Rpc

open Photon.Iovector Arena List Option

variable {reply : List Byte} {s : Serializer}

/-! ## Receiving a reply -/

def pushBack (v : Vec) (bytes : Nat) : Vec :=
  match v.malloc bytes with
  | none => v
  | some (ptr, v) => if v.view.length < BACK_ENTRIES then { v with view := v.view ++ [⟨ptr, bytes⟩] } else v

def truncate (v : Vec) (size : Nat) : Vec :=
  if size = sum v.view then v
  else
    let (ret, view) := shrinkTo v.view size
    if ret = size then { v with view := view } else pushBack v (size - ret)

def readv (mem : Mem) : List Iovec → List Byte → Mem
  | [], _ => mem
  | v :: vs, bs => readv (writeBytes mem v.iovBase (bs.take v.iovLen)) vs (bs.drop v.iovLen)

/-- `do_recv_body` of a reply that arrives; `none` when the vector does not have its size. -/
def doRecvBody (v : Vec) (reply : List Byte) : Option Vec :=
  let v := truncate v reply.length
  let v := if v.view.length = 0 then ((v.malloc reply.length).map Prod.snd).getD v else v
  if sum v.view = reply.length then some { v with mem := readv v.mem v.view reply } else none

/-- `Stub::call` with the response at `x`: the result, where -1 is `none`, and the memory. It is `none` when something
is read through a null pointer. -/
def call (ty : MessageType) (mem : Mem) (x brk : Nat) (reply : List Byte) : Option (Option (Nat × Mem)) :=
  (serialize ty mem x).bind fun s =>
    if s.iovfull then some none
    -- `do_call` returns an `int`, which is negative
    else if 2 ^ 31 ≤ reply.length then some none
    else
      match doRecvBody { mem := s.mem, view := s.iov, brk := brk } reply with
      | none => some none
      | some v =>
        if reply.length < sum s.iov then
          (deserialize ty v).map fun (re, v) => re.map fun re => (reply.length, memcpy v.mem x re ty.size)
        else
          let (valid, mem) := ty.validateChecksum v.mem x v.view 0 0
          some (if valid then some (reply.length, mem) else none)

/-! ## The slots of the vector -/

/-- The slots of a vector, of which four are kept free at the front, and the allocator of its next buffer. -/
def slots (v : Vec) : Slots := ⟨v.capacity, 4, v.view, v.nbases⟩

def ioAlloc (v : Vec) : IOAlloc where
  allocate _ size := if 0 < size then some ⟨v.brk, size⟩ else none
  within _ size p h := by
    obtain ⟨hpos, rfl⟩ := ite_some_none_eq_some.1 h
    exact ⟨hpos, le_rfl⟩

lemma pushBack_view {v : Vec} (hc : v.capacity = 32) {size : Nat} (h0 : 0 < size) (hle : size ≤ INT_MAX) :
    (pushBack v size).view = ((slots v).pushBytes (ioAlloc v) .back size).2.view := by
  unfold pushBack Slots.pushBytes Slots.newIovec Vec.malloc
  by_cases hn : v.capacity ≤ v.nbases
  · rw [if_pos (.inl hn), if_pos (show (slots v).capacity ≤ (slots v).nbases from hn)]
    rfl
  · rw [if_neg (by omega), if_neg (show ¬ (slots v).capacity ≤ (slots v).nbases from hn)]
    simp only [ioAlloc, min_eq_left hle, if_pos h0, if_neg (show ¬ size = 0 by omega), Slots.push, Slots.room, slots,
      BACK_ENTRIES, hc]
    by_cases hr : v.view.length < 28
    · simp only [if_pos hr, if_neg (show ¬ 32 - (4 + v.view.length) = 0 by omega), if_true]
    · simp only [if_neg hr, if_pos (show 32 - (4 + v.view.length) = 0 by omega), if_neg (show ¬ 0 = size by omega),
        Nat.sub_self, Slots.pushMore]

/-- `truncate` on a vector and its memory does to its slots what `truncate` does on them. -/
lemma truncate_view {v : Vec} (hc : v.capacity = 32) {size : Nat} (hle : size ≤ sum v.view + INT_MAX) :
    (truncate v size).view = ((slots v).truncate (ioAlloc v) size).2.view := by
  have hsh := Slots.shrinkLoop_sum v.view (le_refl size)
  unfold truncate Slots.truncate
  change (if size = sum v.view then v else _).view = (if size = sum v.view then _ else _ : Nat × Slots).2.view
  split
  · rfl
  next hne =>
    change (if (shrinkTo v.view size).1 = size then _ else _ : Vec).view =
      (if (shrinkTo v.view size).1 = size then _ else _ : Nat × Slots).2.view
    split
    · rfl
    next hr =>
      have h0 : size ≠ 0 := fun h0 => hr (by rw [shrinkTo, if_pos h0, h0])
      have he : shrinkTo v.view size = shrinkLoop size v.view size := if_neg h0
      rw [← he] at hsh
      have hlt : ¬ size ≤ sum v.view := fun h => hr (by rw [if_pos h] at hsh; exact hsh.1)
      rw [if_neg hlt] at hsh
      exact pushBack_view hc (show 0 < size - (shrinkTo v.view size).1 by omega)
        (show size - (shrinkTo v.view size).1 ≤ INT_MAX by omega)

/-! ## Variable-length fields -/

mutual

/-- The variable-length fields of a field at `x`, with their addresses. -/
def Ty.places : Ty → Nat → List (Nat × Ty)
  | .fixed _, _ => []
  | .message _ fields, x => fields.places x
  | field, x => [(x, field)]

def Fields.places : Fields → Nat → List (Nat × Ty)
  | .nil, _ => []
  | .cons offset field rest, x => field.places (x + offset) ++ rest.places x

end

/-- The field has its bytes where it points at, and nothing else. -/
def Ty.inPlace : Ty → Bool
  | .buffer | .fixedBuffer | .string => true
  | .array elem => (elem.places 0).isEmpty
  | _ => false

variable {m mem : Mem} {off : Nat} {field : Ty}

lemma places_add (k : Nat) :
    (∀ (field : Ty) (x : Nat), field.places (k + x) = (field.places x).map fun q => (k + q.1, q.2)) ∧
      ∀ (fs : Fields) (x : Nat), fs.places (k + x) = (fs.places x).map fun q => (k + q.1, q.2) := by
  refine Ty.induct (fun _ _ => rfl) (fun _ => rfl) (fun _ => rfl) (fun _ => rfl) (fun _ => rfl) (fun _ => rfl)
    (fun _ => rfl) (fun _ => rfl) (fun _ _ _ => rfl) (fun _ _ ih => ih) (fun _ => rfl) ?cons
  intro offset field rest ihField ih x
  rw [Fields.places, Fields.places, map_append, ← ih, ← ihField, add_assoc]

lemma places_at (fs : Fields) (x : Nat) :
    fs.places x = (fs.places 0).map fun q => (x + q.1, q.2) := (places_add x).2 fs 0

lemma places_nil (h : (field.places 0).isEmpty = true) (x : Nat) : field.places x = [] := by
  rw [← add_zero x, (places_add x).1, isEmpty_iff.1 h, map_nil]

lemma not_visited_of_places : (∀ (field : Ty) (x : Nat), field.places x = [] → field.visited = false) ∧
    ∀ (fs : Fields) (x : Nat), fs.places x = [] → fs.visited = false := by
  refine Ty.induct (fun _ _ _ => rfl) (fun _ _ => rfl) (fun _ _ => rfl) nofun nofun nofun nofun nofun nofun
    (fun _ _ ih => ih) (fun _ _ => rfl) ?cons
  intro offset field rest ihField ih x h
  obtain ⟨hf, hr⟩ := append_eq_nil_iff.1 h
  rw [Fields.visited, ihField _ hf, ih x hr]
  rfl

lemma collect_nil {α : Type} {f : Nat → List α} (hf : ∀ x, f x = []) (size n x : Nat) : collect f size n x = [] := by
  induction n generalizing x with
  | zero => rfl
  | succ n ih => rw [collect, hf, ih, append_nil]

lemma inPlace_spec {σ : Type} (ar : Archive σ) (mem : Mem) :
    (∀ (field : Ty) (x : Nat), (∀ q ∈ field.places x, q.2.inPlace = true) →
      allSent mem field x ∧ segments mem field x = (field.places x).flatMap (fun q => bufferSegments mem q.1) ∧
        sums mem field x = [] ∧
        ∀ s, ar.processField field x s = some ((field.places x).foldl (fun s q => ar.buffer q.1 s) s)) ∧
    ∀ (fs : Fields) (x : Nat), (∀ q ∈ fs.places x, q.2.inPlace = true) →
      allSentOf mem fs x ∧ segmentsOf mem fs x = (fs.places x).flatMap (fun q => bufferSegments mem q.1) ∧
        sumsOf mem fs x = [] ∧
        ∀ s, ar.processFields fs x s = some ((fs.places x).foldl (fun s q => ar.buffer q.1 s) s) := by
  refine Ty.induct ?fixed ?aligned ?alignedIovecs ?buffer ?fixedBuffer ?string ?iovecArray ?sortedMap ?array
    ?message ?nil ?cons
  case fixed => exact fun _ _ _ => ⟨trivial, rfl, rfl, fun _ => rfl⟩
  case aligned | alignedIovecs | iovecArray | sortedMap => exact fun x h => by cases h _ mem_cons_self
  case buffer | fixedBuffer | string => exact fun x _ => ⟨trivial, (append_nil _).symm, rfl, fun _ => rfl⟩
  case array =>
    intro elem ih x h
    -- there is nothing in an element but its bytes
    have hn := places_nil (h (x, .array elem) mem_cons_self)
    have he := fun y => ih y (by rw [hn]; exact fun q hq => by cases hq)
    have hvi := not_visited_of_places.1 elem 0 (hn 0)
    refine ⟨fun i _ => (he _).1, ?_, ?_, fun s => ?_⟩
    · rw [segments, collect_nil fun y => by rw [(he y).2.1, hn, flatMap_nil]]
      rfl
    · rw [sums, collect_nil fun y => (he y).2.2.1]
    · rw [Archive.processField, if_neg (by simp [hvi])]
      exact each_eq_self (fun y t => processField_of_not_visited ar elem y t hvi) _ _ _ _
  case message => exact fun _ _ ih => ih
  case nil => exact fun _ _ => ⟨trivial, rfl, rfl, fun _ => rfl⟩
  case cons =>
    intro offset field rest ihField ih x h
    rw [Fields.places, forall_mem_append] at h
    obtain ⟨hpl, hse, hsu, hpr⟩ := ihField _ h.1
    obtain ⟨hp', hs', hsu', hpr'⟩ := ih x h.2
    refine ⟨⟨hpl, hp'⟩, ?_, ?_, fun s => ?_⟩
    · rw [segmentsOf, Fields.places, flatMap_append, hse, hs']
    · rw [sumsOf, hsu, hsu']
      rfl
    · rw [Archive.processFields, hpr, bind_some, hpr', Fields.places, foldl_append]

lemma same_refl (mem : Mem) : (∀ (field : Ty) (x : Nat), Same mem mem field x x) ∧
    ∀ (fields : Fields) (x : Nat), SameFields mem mem fields x x := by
  refine Ty.induct (fun _ _ => rfl) (fun _ => ⟨rfl, rfl⟩) (fun _ => rfl) (fun _ => ⟨rfl, rfl⟩) (fun _ => ⟨rfl, rfl⟩)
    (fun _ => ⟨rfl, rfl⟩) (fun _ => rfl) (fun _ => ⟨⟨rfl, rfl⟩, rfl, rfl⟩) (fun _ ih _ => ⟨rfl, fun _ _ => ih _⟩)
    (fun _ _ ih => ih) (fun _ => trivial) fun _ _ _ ihField ih x => ⟨ihField _, ih x⟩

lemma moved_spec {mem' : Mem} : (∀ (field : Ty) (z a b : Nat), field.layout = true →
      (∀ q ∈ field.places a, q.2.inPlace = true) → readBytes mem' b field.sizeof = readBytes mem a field.sizeof →
      (∀ q ∈ field.places a, ∀ c ∈ span (readWord mem q.1) (readWord mem (q.1 + 8)), mem' c = mem c) →
      Same m mem field z a → Same m mem' field z b) ∧
    ∀ (fields : Fields) (z a b : Nat), fields.layout = true → (∀ q ∈ fields.places a, q.2.inPlace = true) →
      (∀ r ∈ fields.ranges, readBytes mem' (b + r.1) r.2 = readBytes mem (a + r.1) r.2) →
      (∀ q ∈ fields.places a, ∀ c ∈ span (readWord mem q.1) (readWord mem (q.1 + 8)), mem' c = mem c) →
      SameFields m mem fields z a → SameFields m mem' fields z b := by
  have hbu : ∀ (z a b : Nat), readBytes mem' b 16 = readBytes mem a 16 →
      (∀ c ∈ span (readWord mem a) (readWord mem (a + 8)), mem' c = mem c) → SameBuffer m mem z a →
      SameBuffer m mem' z b := by
    intro z a b hby hk hsa
    have hpt := readWord_sub (i := 0) hby
    have hlen := readWord_sub (i := 8) hby
    rw [add_zero, add_zero] at hpt
    rw [SameBuffer, hpt, hlen]
    refine ⟨hsa.1, Eq.trans (readBytes_congr fun c h1 h2 => hk c ⟨h1, ?_⟩) hsa.2⟩
    rw [hsa.1]
    exact h2
  refine Ty.induct ?fixed ?aligned ?alignedIovecs ?buffer ?fixedBuffer ?string ?iovecArray ?sortedMap ?array
    ?message ?nil ?cons
  case fixed => exact fun size z a b _ _ hby _ => Eq.trans hby
  case aligned | alignedIovecs | iovecArray | sortedMap => exact fun z a b _ h => by cases h _ mem_cons_self
  case buffer | fixedBuffer | string => exact fun z a b _ _ hby hk => hbu z a b hby (hk _ mem_cons_self)
  case array =>
    intro elem ih z a b hl h hby hk hsa
    have hby : readBytes mem' b 16 = readBytes mem a 16 := hby
    have hpt := readWord_sub (i := 0) hby
    have hlen := readWord_sub (i := 8) hby
    rw [add_zero, add_zero] at hpt
    have hni := places_nil (h (a, .array elem) mem_cons_self)
    have hk : ∀ c ∈ span (readWord mem a) (readWord mem (a + 8)), mem' c = mem c := hk _ mem_cons_self
    rw [Ty.layout, Bool.and_eq_true] at hl
    rw [Same, hpt, hlen]
    refine ⟨hsa.1, fun i hi => ?_⟩
    refine ih _ _ _ hl.2 ?_ (readBytes_congr fun c h1 h2 => ?_) ?_ (hsa.2 i hi)
    · rw [hni]
      exact fun q hq => by cases hq
    · refine hk c ⟨by omega, ?_⟩
      have hn := Nat.mul_le_mul_right elem.sizeof (show i + 1 ≤ _ from hi)
      have hle := Nat.div_mul_le_self (readWord m (z + 8)) elem.sizeof
      rw [Nat.succ_mul] at hn
      have := hsa.1
      omega
    · rw [hni]
      exact fun q hq => by cases hq
  case message =>
    intro size fields ih z a b hl h hby hk hsa
    rw [Ty.layout, Bool.and_eq_true, decide_eq_true_eq] at hl
    exact ih z a b hl.2 h (fun r hr => readBytes_sub hby (hl.1.2 r hr).2) hk hsa
  case nil => exact fun _ _ _ _ _ _ _ _ => trivial
  case cons =>
    intro offset field rest ihField ih z a b hl h hby hk hsa
    rw [Fields.layout, Bool.and_eq_true] at hl
    rw [Fields.places, forall_mem_append] at h hk
    exact ⟨ihField _ _ _ hl.1 h.1 (hby _ mem_cons_self) hk.1 hsa.1,
      ih z a b hl.2 h.2 (fun r hr => hby r (mem_cons_of_mem _ hr)) hk.2 hsa.2⟩

lemma places_range : (∀ (field : Ty) (x : Nat), field.layout = true → ∀ q ∈ field.places x, q.2.inPlace = true →
      x ≤ q.1 ∧ q.1 + 16 ≤ x + field.sizeof) ∧
    ∀ (fs : Fields) (x : Nat), fs.layout = true → ∀ q ∈ fs.places x, q.2.inPlace = true →
      ∃ r ∈ fs.ranges, x + r.1 ≤ q.1 ∧ q.1 + 16 ≤ x + r.1 + r.2 := by
  have hse : ∀ (field : Ty) (x : Nat), (field.inPlace = true → field.sizeof = 16) → ∀ q ∈ [(x, field)],
      q.2.inPlace = true → x ≤ q.1 ∧ q.1 + 16 ≤ x + field.sizeof := by
    intro field x hsi q hq hin
    obtain rfl := mem_singleton.1 hq
    rw [hsi hin]
    exact ⟨le_rfl, le_rfl⟩
  refine Ty.induct nofun (fun x _ => hse _ x fun _ => rfl) (fun x _ => hse _ x nofun) (fun x _ => hse _ x fun _ => rfl)
    (fun x _ => hse _ x fun _ => rfl) (fun x _ => hse _ x fun _ => rfl) (fun x _ => hse _ x nofun)
    (fun x _ => hse _ x nofun) (fun _ _ x _ => hse _ x fun _ => rfl) ?message nofun ?cons
  case message =>
    intro size fs ih x hl q hq hin
    rw [Ty.layout, Bool.and_eq_true, decide_eq_true_eq] at hl
    obtain ⟨r, hr, hlo, hh⟩ := ih x hl.2 q hq hin
    have := (hl.1.2 r hr).2
    exact ⟨by omega, by rw [Ty.sizeof]; omega⟩
  case cons =>
    intro offset field rest ihField ih x hl q hq hin
    rw [Fields.layout, Bool.and_eq_true] at hl
    rcases mem_append.1 hq with hq | hq
    · exact ⟨_, mem_cons_self, ihField _ hl.1 q hq hin⟩
    · obtain ⟨r, hr, h⟩ := ih x hl.2 q hq hin
      exact ⟨r, mem_cons_of_mem _ hr, h⟩

lemma MessageType.places_range (ty : MessageType) (hin : ∀ q ∈ ty.fields.sent.places 0, q.2.inPlace = true)
    (hq : (off, field) ∈ ty.fields.sent.places 0) : (if ty.checked then 4 else 0) ≤ off ∧ off + 16 ≤ ty.size := by
  obtain ⟨r, hr, hlo, hh⟩ := Rpc.places_range.2 _ 0 ((layout_sent _).2 ty.layout) _ hq (hin _ hq)
  have := ty.fit.sent.2 r hr
  omega

/-! ## What is sent -/

lemma buffer_first {s : Serializer} (hs : s = serializer.buffer x { mem := mem }) :
    s.mem = mem ∧ s.iovfull = false ∧ s.iov = bufferSegments mem x ∧ s.iov.length ≤ 1 := by
  subst hs
  by_cases h : 0 < readWord mem (x + 8) <;> simp [serializer, Serializer.pushBuffer, bufferSegments, h, BACK_ENTRIES]

section Serialize

variable {ty : MessageType} (hin : ∀ q ∈ ty.fields.sent.places 0, q.2.inPlace = true)

include hin

lemma inPlace_at (x : Nat) : ∀ q ∈ ty.fields.sent.places x, q.2.inPlace = true := by
  intro q hq
  rw [places_at] at hq
  obtain ⟨q', hq', rfl⟩ := mem_map.1 hq
  exact hin q' hq'

lemma serialize_inPlace (hone : (ty.fields.sent.places 0).length ≤ 1) {x : Nat} (hs : serialize ty mem x = some s) :
    s.iovfull = false ∧ s.iov = segmentsOf mem ty.fields.sent x ++ [⟨x, ty.size⟩] ∧
      (∀ q ∈ ty.fields.sent.places 0, readBytes s.mem (x + q.1) 16 = readBytes mem (x + q.1) 16) ∧
      (ty.checked = true → checksum s.mem x = Crc.crc POLY 0#32 (readBytes s.mem (x + 4) (ty.size - 4))) := by
  obtain ⟨-, hse, -, hpr⟩ := (inPlace_spec serializer mem).2 ty.fields.sent x (inPlace_at hin x)
  rw [serialize, processMessage_eq, hpr, map_some] at hs
  cases hs
  -- the buffer is pushed and nothing is written
  generalize hs0 : (ty.fields.sent.places x).foldl (fun s q => serializer.buffer q.1 s) { mem := mem } = s0
  have hpu : s0.mem = mem ∧ s0.iovfull = false ∧ s0.iov = segmentsOf mem ty.fields.sent x ∧ s0.iov.length ≤ 1 := by
    rw [hse, ← hs0, places_at]
    cases hpl : ty.fields.sent.places 0 with
    | nil => exact ⟨rfl, rfl, rfl, Nat.zero_le _⟩
    | cons q qs =>
      rw [hpl, length_cons] at hone
      rw [eq_nil_of_length_eq_zero (show qs.length = 0 by omega), map_singleton, flatMap_singleton,
        foldl_cons, foldl_nil]
      exact buffer_first rfl
  obtain ⟨hm, hf, hi, hle⟩ := hpu
  have hpus : s0.pushBuffer x ty.size = { s0 with iov := s0.iov ++ [⟨x, ty.size⟩] } := by
    rw [Serializer.pushBuffer, if_pos (lt_of_le_of_lt hle (by decide)), if_pos ty.size_pos]
  rw [hpus]
  dsimp only
  rw [hi, hm]
  by_cases hc : ty.checked = true
  · rw [MessageType.addChecksum, if_pos hc]
    have hme' := addChecksum_eq mem (segmentsOf mem ty.fields.sent x) x (ty.header hc)
    rw [message] at hme'
    rw [hme']
    refine ⟨hf, rfl, fun q hq => readBytes_congr fun a h1 _ => setChecksum_of_avoids (.inr ?_), fun _ => ?_⟩
    · have := (ty.places_range hin hq).1
      rw [if_pos hc] at this
      omega
    · rw [checksum_setChecksum]
      congr 1
      exact (readBytes_congr fun a h1 _ => setChecksum_of_avoids (.inr h1)).symm
  · rw [MessageType.addChecksum, if_neg hc]
    exact ⟨hf, rfl, fun _ _ => rfl, fun h => absurd h hc⟩

end Serialize

/-! ## What is received -/

variable {view : List Iovec}

lemma readv_spec {bs : List Byte} (hn : (bytes view).Nodup) (hle : sum view = bs.length) (mem : Mem) :
    (bytes view).map (readv mem view bs) = bs ∧ ∀ a, a ∉ bytes view → readv mem view bs a = mem a := by
  induction view generalizing mem bs with
  | nil =>
    have hbs : bs = [] := eq_nil_of_length_eq_zero hle.symm
    rw [hbs]
    exact ⟨rfl, fun _ _ => rfl⟩
  | cons v vs ih =>
    rw [sum_cons] at hle
    rw [bytes_cons, nodup_append] at hn
    have ht : (bs.take v.iovLen).length = v.iovLen := by
      rw [length_take]
      omega
    obtain ⟨hm, hf⟩ := ih hn.2.1 (show sum vs = (bs.drop v.iovLen).length by rw [length_drop]; omega)
      (writeBytes mem v.iovBase (bs.take v.iovLen))
    rw [readv, bytes_cons]
    constructor
    · rw [map_append, hm]
      have hh : v.bytes.map (readv (writeBytes mem v.iovBase (bs.take v.iovLen)) vs (bs.drop v.iovLen)) =
          v.bytes.map (writeBytes mem v.iovBase (bs.take v.iovLen)) :=
        map_congr_left fun a ha => hf a fun hvs => hn.2.2 a ha a hvs rfl
      have hr := readBytes_writeBytes mem v.iovBase (bs.take v.iovLen)
      rw [ht] at hr
      rw [hh]
      exact (congrArg (· ++ _) hr).trans (take_append_drop ..)
    · intro a ha
      rw [mem_append, not_or] at ha
      rw [hf a ha.2]
      refine writeBytes_of_notMem mem ?_
      have hno : ¬ (v.iovBase ≤ a ∧ a < v.iovBase + v.iovLen) := fun h => ha.1 (mem_addresses.2 h)
      omega

lemma memcpy_spec (mem : Mem) {dst src n : Nat} (h : dst + n ≤ src ∨ src + n ≤ dst) :
    readBytes (memcpy mem dst src n) dst n = readBytes mem src n ∧
      ∀ a, a ∉ span dst n → memcpy mem dst src n a = mem a := by
  have hco : Copied mem (memcpy mem dst src n) (addresses dst n) (addresses src n) := .of_copies (by simp) (.refl _)
  constructor
  · refine hco.values (addresses_nodup ..) fun a ha hsr => ?_
    rw [mem_addresses] at ha hsr
    omega
  · exact fun a ha => hco.frame a fun hm => ha (mem_addresses.1 hm)

section Shorter

variable {buf cap x size k : Nat}

/-- What `shrink_to` leaves of the caller's buffer and the response for `k` bytes and a struct. -/
def shorterView (buf cap x size k : Nat) : List Iovec :=
  if k + size ≤ cap then [⟨buf, k + size⟩] else [⟨buf, cap⟩, ⟨x, k + size - cap⟩]

lemma truncate_shorter {v : Vec} (hvi : v.view = [⟨buf, cap⟩, ⟨x, size⟩]) (hk : k < cap) (hsi : 0 < size) :
    truncate v (k + size) = { v with view := shorterView buf cap x size k } := by
  have hsu : k + size ≠ sum v.view := by
    rw [hvi]
    simp only [sum_cons, sum_nil]
    omega
  have hsh : shrinkTo v.view (k + size) = (k + size, shorterView buf cap x size k) := by
    rw [hvi, shrinkTo, if_neg (by omega), shrinkLoop, shorterView]
    split
    · rfl
    · rw [shrinkLoop, if_pos (show k + size - cap ≤ size by omega)]
  rw [truncate, if_neg hsu, hsh]
  dsimp only
  rw [if_pos rfl]

lemma bytes_shorterView (hk : k < cap) :
    bytes (shorterView buf cap x size k) = (bytes [⟨buf, cap⟩, ⟨x, size⟩]).take (k + size) := by
  have ha : bytes [⟨buf, cap⟩, ⟨x, size⟩] = addresses buf cap ++ addresses x size := by
    rw [bytes_cons, bytes_cons, bytes_nil, append_nil]
    rfl
  rw [ha, shorterView, take_append, addresses_length]
  split
  next hle =>
    rw [addresses_take _ hle, Nat.sub_eq_zero_of_le hle, take_zero, bytes_cons, bytes_nil]
    rfl
  · rw [take_of_length_le (by rw [addresses_length]; omega), addresses_take _ (by omega), bytes_cons, bytes_cons,
      bytes_nil, append_nil]
    rfl

lemma extractBack_shorter {v : Vec} (hvi : v.view = shorterView buf cap x size k) (hk : k < cap) (hsi : 0 < size)
    (hi : size ≤ INT_MAX) (hro : v.nbases < v.capacity) : ∃ t v1, v.extractBackContinuous size = (some t, v1) ∧
    v1.view = (if k = 0 then [] else [⟨buf, k⟩]) ∧ (t = buf + k ∧ k + size ≤ cap ∨ t = v.brk) := by
  by_cases hle : k + size ≤ cap
  · rw [shorterView, if_pos hle] at hvi
    rw [Vec.extractBackContinuous, hvi, reverse_singleton, backContinuous, if_neg (show ¬ k + size < size by omega)]
    dsimp only
    rw [Nat.add_sub_cancel]
    refine ⟨_, _, rfl, ?_, .inl ⟨rfl, hle⟩⟩
    split <;> rfl
  · rw [shorterView, if_neg hle] at hvi
    have hr : reverse [(⟨buf, cap⟩ : Iovec), ⟨x, k + size - cap⟩] = [⟨x, k + size - cap⟩, ⟨buf, cap⟩] := rfl
    rw [Vec.extractBackContinuous, hvi, hr, backContinuous, if_pos (show k + size - cap < size by omega)]
    dsimp only
    rw [if_neg (by simp only [sum_cons, sum_nil]; omega), malloc_eq hro hi]
    refine ⟨_, _, rfl, ?_, .inr rfl⟩
    dsimp only
    rw [hvi, extractBackBuf, doExtractBack, if_neg (by omega), hr, extractBackLoop, if_neg (by dsimp only; omega)]
    dsimp only [copyBackward]
    rw [extractBackLoop, if_pos (by dsimp only; omega)]
    have hlef : cap - (size - (k + size - cap)) = k := by omega
    dsimp only [copyBackward]
    rw [hlef]
    split <;> rfl

lemma shorterView_length : (shorterView buf cap x size k).length < 2 ^ 16 := by
  rw [shorterView]
  split <;> simp

lemma iovLen_le_sum {g : Iovec} (hg : g ∈ view) : g.iovLen ≤ sum view := by
  obtain ⟨l1, l2, rfl⟩ := append_of_mem hg
  rw [sum_append, sum_cons]
  omega

lemma recv_shorter {v0 : Vec} (hv : v0.Sound) (hvi : v0.view = [⟨buf, cap⟩, ⟨x, size⟩]) (hk : k < cap) (hsi : 0 < size)
    (hle : reply.length = k + size) :
    ∃ v, doRecvBody v0 reply = some v ∧ v.Sound ∧ v.content = reply ∧ v.view = shorterView buf cap x size k ∧
      v.brk = v0.brk ∧ v.nbases = v0.nbases ∧ v.capacity = v0.capacity := by
  let w := shorterView buf cap x size k
  have hw : bytes w = (bytes v0.view).take (k + size) := by
    rw [hvi]
    exact bytes_shorterView hk
  have hn : (bytes w).Nodup := by
    rw [hw]
    exact hv.arena.nodup.sublist (take_sublist ..)
  have hsu : sum w = reply.length := by
    rw [← bytes_length, hw, length_take, bytes_length, hle, hvi]
    simp only [sum_cons, sum_nil]
    omega
  have hsub : ∀ a ∈ bytes w, a ∈ bytes v0.view := by
    rw [hw]
    exact fun a => mem_of_mem_take
  have hne : w.length ≠ 0 := by
    intro h0
    rw [eq_nil_of_length_eq_zero h0, sum_nil] at hsu
    omega
  refine ⟨{ v0 with mem := readv v0.mem w reply, view := w }, ?_, ?_, (readv_spec hn hsu v0.mem).1, rfl, rfl, rfl, rfl⟩
  · rw [doRecvBody, hle, truncate_shorter hvi hk hsi]
    dsimp only
    rw [if_neg hne, if_pos (hsu.trans hle)]
  · exact ⟨⟨fun a ha => hv.arena.fresh a (hsub a ha), hn⟩, ⟨fun h0 => hv.nonnull.1 (hsub 0 h0), hv.nonnull.2⟩, hv.space⟩

lemma buffer_left {s : Deserializer} (hvi : s.iov.view = if k = 0 then [] else [⟨buf, k⟩])
    (hle : readWord s.iov.mem (x + 8) = k) (hbu : buf < 2 ^ 64) :
    (k = 0 ∨ readWord (deserializer.buffer x s).iov.mem x = buf) ∧
      readWord (deserializer.buffer x s).iov.mem (x + 8) = k := by
  by_cases h0 : k = 0
  · have hr : deserializer.buffer x s = s := by simp only [deserializer, hle, if_pos h0]
    rw [hr]
    exact ⟨.inl h0, hle⟩
  rw [if_neg h0] at hvi
  have hf : s.iov.extractFrontContinuous k = (some buf, { s.iov with view := [] }) := by
    rw [Vec.extractFrontContinuous, hvi, frontContinuous, if_neg (lt_irrefl k)]
    dsimp only
    rw [Nat.sub_self, if_pos rfl]
  have hr : deserializer.buffer x s =
      { s with iov := { s.iov with mem := writeWord s.iov.mem x buf, view := [] } } := by
    simp only [deserializer, hle, if_neg h0, hf]
  rw [hr]
  refine ⟨.inr (readWord_writeWord _ _ hbu), ?_⟩
  rw [readWord_writeWord_of_disjoint (by omega), hle]

end Shorter

/-! ## The call -/

section Call

variable {ty : MessageType} (hin : ∀ q ∈ ty.fields.sent.places 0, q.2.inPlace = true)

include hin

lemma segments_one (hpl : ty.fields.sent.places 0 = [(off, field)]) (mem : Mem) (x : Nat) :
    ty.fields.sent.places x = [(x + off, field)] ∧ segmentsOf mem ty.fields.sent x = bufferSegments mem (x + off) := by
  have hat := places_at ty.fields.sent x
  rw [hpl, map_singleton] at hat
  obtain ⟨-, hse, -, -⟩ := (inPlace_spec serializer mem).2 ty.fields.sent x (inPlace_at hin x)
  rw [hat, flatMap_singleton] at hse
  exact ⟨hat, hse⟩

variable {y : Nat}

lemma call_shorter (hpl : ty.fields.sent.places 0 = [(off, field)]) {k : Nat} (hk : readWord m (y + off + 8) = k)
    (hch : ty.checked = true → checksum m y = Crc.crc POLY 0#32 (readBytes m (y + 4) (ty.size - 4)))
    {x brk : Nat} (hs : serialize ty mem x = some s)
    (hv : Vec.Sound { mem := s.mem, view := s.iov, brk := brk }) (hless : k < readWord mem (x + off + 8))
    (hre : reply = (bytes (segmentsOf m ty.fields.sent y ++ [⟨y, ty.size⟩])).map m)
    (hint : reply.length < 2 ^ 31) :
    ∃ mem', call ty mem x brk reply = some (some (reply.length, mem')) ∧ SameFields m mem' ty.fields.sent y x ∧
      (k = 0 ∨ readWord mem' (x + off) = readWord mem (x + off)) ∧ readWord mem' (x + off + 8) = k := by
  have hone : (ty.fields.sent.places 0).length ≤ 1 := by rw [hpl, length_singleton]
  have hm : (off, field) ∈ ty.fields.sent.places 0 := by rw [hpl]; exact mem_cons_self
  obtain ⟨hlo, hh⟩ := ty.places_range hin hm
  obtain ⟨hfu, hi, -, -⟩ := serialize_inPlace hin hone hs
  generalize hbuf : readWord mem (x + off) = buf
  generalize hcap : readWord mem (x + off + 8) = cap at hless
  rw [(segments_one hin hpl mem x).2, bufferSegments, hbuf, hcap, if_pos (by omega)] at hi
  have hvi : s.iov = [⟨buf, cap⟩, ⟨x, ty.size⟩] := hi
  obtain ⟨hat, hse⟩ := segments_one hin hpl m y
  have hsum : sum (segmentsOf m ty.fields.sent y) = k := by
    rw [hse, bufferSegments, hk]
    split
    · rfl
    · simp only [sum_nil]
      omega
  have hlen : reply.length = k + ty.size := by
    rw [hre, length_map, bytes_length, sum_append, hsum, sum_cons, sum_nil]
    rfl
  have hpo := ty.size_pos
  obtain ⟨v, hrec, hso, hcon, hvv, hbr, hba, hca⟩ := recv_shorter hv hvi hless hpo hlen
  -- the struct is elsewhere than the response
  have hbu : buf < 2 ^ 64 := hbuf ▸ readWord_lt ..
  have ha : ∀ a, buf ≤ a → a < buf + cap → a ∉ span x ty.size := by
    intro a h1 h2 hx
    have hn : (bytes s.iov).Nodup := hv.arena.nodup
    rw [hvi, bytes_cons, bytes_cons, bytes_nil, append_nil, nodup_append] at hn
    exact hn.2.2 a (mem_addresses.2 ⟨h1, h2⟩) a (mem_addresses.2 hx) rfl
  have hfr : x + ty.size ≤ brk := by
    have hla : x + (ty.size - 1) ∈ bytes s.iov := by
      rw [hvi, bytes_cons, bytes_cons, bytes_nil, append_nil]
      exact mem_append_right _ (mem_addresses.2 (show x ≤ _ ∧ _ < x + ty.size by omega))
    have hlt : x + (ty.size - 1) < brk := hv.arena.fresh _ hla
    omega
  have hsm : ty.size ≤ INT_MAX := by
    simp only [INT_MAX]
    omega
  have hro : v.nbases + 2 ≤ v.capacity := by
    rw [hba, hca]
    exact show 0 + 2 ≤ 32 by decide
  obtain ⟨hpla, -, hsu, -⟩ := (inPlace_spec deserializer m).2 ty.fields.sent y (inPlace_at hin y)
  have hsh : (segmentsOf m ty.fields.sent y).length ≤ 1 := by
    rw [hse, bufferSegments]
    split <;> simp
  obtain ⟨t, v1, s', he, -, hby, hru, hres, hsa, -⟩ := deserialize_received hpla hso
    (hcon.trans hre) (by rw [hsu]; exact fun p hp => by cases hp) hch
    (fun g hg => (iovLen_le_sum hg).trans (by rw [hsum]; simp only [INT_MAX]; omega)) hsm
    (by rw [hvv]; exact shorterView_length) (by omega)
  obtain ⟨t', v1', he', hlef, hplac⟩ := extractBack_shorter hvv hless hpo hsm (by omega)
  rw [he] at he'
  obtain ⟨ht, rfl⟩ := Prod.mk.inj he'
  cases ht
  obtain ⟨-, -, -, hpr⟩ := (inPlace_spec deserializer m).2 ty.fields.sent t (inPlace_at hin t)
  rw [hpr, (segments_one hin hpl m t).1, foldl_cons, foldl_nil] at hru
  cases hru
  obtain ⟨hpt, hw⟩ := buffer_left (x := t + off) (s := { iov := v1 }) hlef
    ((readWord_sub (i := off + 8) hby).trans hk) hbu
  generalize deserializer.buffer (t + off) { iov := v1 } = s' at *
  -- the struct is copied over the response
  have hd : x + ty.size ≤ t ∨ t + ty.size ≤ x := by
    rcases hplac with ⟨rfl, hle⟩ | rfl
    · by_contra hno
      rcases lt_or_ge x (buf + k) with hlt | hge
      · exact ha (buf + k) (by omega) (by omega) ⟨by omega, by omega⟩
      · exact ha x (by omega) (by omega) ⟨by omega, by omega⟩
    · exact .inl (hbr.symm ▸ hfr)
  obtain ⟨hco, hf⟩ := memcpy_spec s'.iov.mem hd
  refine ⟨memcpy s'.iov.mem x t ty.size, ?_, ?_, ?_, ?_⟩
  · have hex : reply.length < sum s.iov := by
      rw [hlen, hvi]
      simp only [sum_cons, sum_nil]
      omega
    rw [call, hs, bind_some, if_neg (by simp [hfu]), if_neg (by omega), hrec]
    dsimp only
    rw [if_pos hex, hres]
    rfl
  · refine moved_spec.2 ty.fields.sent y t x ((layout_sent _).2 ty.layout) (inPlace_at hin t)
      (fun r hr => readBytes_sub hco (ty.fit.sent.2 r hr).2) ?_ hsa
    rw [(segments_one hin hpl m t).1]
    intro q hq c hc
    rw [mem_singleton.1 hq] at hc
    have hlt := hc.2
    rw [hw] at hlt
    rcases hpt with h0 | hpt
    · have hge := hc.1
      omega
    · rw [hpt] at hlt
      exact hf c (ha c (hpt ▸ hc.1) (by omega))
  · refine hpt.imp_right fun h => ?_
    rw [← h]
    exact readWord_sub hco
  · rw [← hw]
    exact readWord_sub hco

section
variable {x : Nat} {s server : Serializer} (hone : (ty.fields.sent.places 0).length ≤ 1)
include hone

/-- A reply of the expected size is read over the buffer and the struct, and the struct keeps the server's pointer. -/
lemma call_equal (hch : ty.checked = true → checksum m y = Crc.crc POLY 0#32 (readBytes m (y + 4) (ty.size - 4)))
    (brk : Nat) (hs : serialize ty mem x = some s) (hnd : (bytes s.iov).Nodup)
    (hrep : reply = (bytes (segmentsOf m ty.fields.sent y ++ [⟨y, ty.size⟩])).map m) (hint : reply.length < 2 ^ 31)
    (hle : reply.length = sum s.iov) :
    ∃ mem', call ty mem x brk reply = some (some (reply.length, mem')) ∧
      readBytes mem' x ty.size = readBytes m y ty.size ∧
      (bytes (segmentsOf mem ty.fields.sent x)).map mem' = (bytes (segmentsOf m ty.fields.sent y)).map m := by
  obtain ⟨hf, hi, -, -⟩ := serialize_inPlace hin hone hs
  have hre := (readv_spec hnd hle.symm s.mem).1
  generalize hm : readv s.mem s.iov reply = mem' at hre
  rw [hrep, hi, bytes_append, bytes_append, map_append, map_append, readBytes_bytes, readBytes_bytes] at hre
  obtain ⟨hseg, hst⟩ := append_inj' hre (by rw [readBytes_length, readBytes_length])
  have hrec : doRecvBody { mem := s.mem, view := s.iov, brk := brk } reply =
      some { mem := mem', view := s.iov, brk := brk } := by
    rw [doRecvBody, truncate, if_pos hle]
    dsimp only
    rw [if_neg (show ¬ s.iov.length = 0 by rw [hi]; simp), if_pos hle.symm, hm]
  have hva : ty.validateChecksum mem' x s.iov 0 0 = (true, mem') := by
    rw [MessageType.validateChecksum]
    split
    next hc =>
      have hsize := ty.header hc
      have hh := readBytes_sub (i := 0) (k := 4) hst (by omega)
      have hrest := readBytes_sub (i := 4) (k := ty.size - 4) hst (by omega)
      have hsa : checksum mem' x = Crc.crc POLY 0#32 (readBytes mem' (x + 4) (ty.size - 4)) := by
        rw [add_zero, add_zero] at hh
        rw [hrest, ← hch hc, checksum, checksum, hh]
      rw [hi, validateChecksum_message _ hsize, ← hsa, setChecksum_checksum, beq_self_eq_true]
    · rfl
  refine ⟨mem', ?_, hst, hseg⟩
  rw [call, hs, bind_some, if_neg (by simp [hf]), if_neg (by omega), hrec]
  dsimp only
  rw [if_neg (by omega), hva]
  rfl

lemma segments_serialized (hs : serialize ty mem x = some s) :
    segmentsOf s.mem ty.fields.sent x = segmentsOf mem ty.fields.sent x := by
  obtain ⟨-, -, hw, -⟩ := serialize_inPlace hin hone hs
  obtain ⟨-, hse, -, -⟩ := (inPlace_spec serializer mem).2 ty.fields.sent x (inPlace_at hin x)
  obtain ⟨-, hs', -, -⟩ := (inPlace_spec serializer s.mem).2 ty.fields.sent x (inPlace_at hin x)
  rw [hse, hs', flatMap_def, flatMap_def]
  congr 1
  refine map_congr_left fun q hq => ?_
  rw [places_at] at hq
  obtain ⟨q', hq', rfl⟩ := mem_map.1 hq
  have hpt := readWord_sub (i := 0) (hw q' hq')
  have hlen := readWord_sub (i := 8) (hw q' hq')
  rw [add_zero] at hpt
  dsimp only
  rw [bufferSegments, bufferSegments, hpt, hlen]

end

end Call

/-- Equal fields have equal lengths. -/
lemma same_length {mem' : Mem} {z b : Nat} : (∀ (field : Ty) (off : Nat), ∀ q ∈ field.places off, q.2.inPlace = true →
      Same m mem' field (z + off) (b + off) → readWord mem' (b + q.1 + 8) = readWord m (z + q.1 + 8)) ∧
    ∀ (fs : Fields) (off : Nat), ∀ q ∈ fs.places off, q.2.inPlace = true →
      SameFields m mem' fs (z + off) (b + off) → readWord mem' (b + q.1 + 8) = readWord m (z + q.1 + 8) := by
  refine Ty.induct ?fixed ?aligned ?alignedIovecs ?buffer ?fixedBuffer ?string ?iovecArray ?sortedMap ?array
    ?message ?nil ?cons
  case fixed => exact fun _ _ q hq => by cases hq
  case aligned | alignedIovecs | iovecArray | sortedMap =>
    intro off q hq hin
    cases mem_singleton.1 hq
    cases hin
  case buffer | fixedBuffer | string => exact fun off q hq _ hsa => mem_singleton.1 hq ▸ hsa.1
  case array => exact fun elem _ off q hq _ hsa => mem_singleton.1 hq ▸ hsa.1
  case message => exact fun _ _ ih => ih
  case nil => exact fun _ q hq => by cases hq
  case cons =>
    intro offset field rest ihField ih off q hq hin hsa
    rcases mem_append.1 hq with hq | hq
    · refine ihField _ q hq hin ?_
      rw [← add_assoc, ← add_assoc]
      exact hsa.1
    · exact ih off q hq hin hsa.2

/-- The response at `x` has the fields of the server's at `y`, and what it points at is in the caller's buffer. -/
def Answered (ty : MessageType) (memServer mem mem' : Mem) (y x : Nat) : Prop :=
  SameFields memServer mem' ty.fields y x ∧ ∀ q ∈ ty.fields.sent.places 0, readWord mem' (x + q.1 + 8) = 0 ∨
    readWord mem' (x + q.1) = readWord mem (x + q.1) ∧ readWord mem' (x + q.1 + 8) ≤ readWord mem (x + q.1 + 8)

section

variable (ty : MessageType) (hone : (ty.fields.sent.places 0).length ≤ 1)
  (hin : ∀ q ∈ ty.fields.sent.places 0, q.2.inPlace = true) (memServer : Mem) (y : Nat) (server : Serializer)
  (hserver : serialize ty memServer y = some server) (mem : Mem) (x brk : Nat) (s : Serializer)
  (hs : serialize ty mem x = some s) (hv : Vec.Sound { mem := s.mem, view := s.iov, brk := brk })

include hone hin hserver hs hv

lemma call_returns (hi : sum server.iov < 2 ^ 31)
    (hle : ∀ q ∈ ty.fields.sent.places 0, readWord memServer (y + q.1 + 8) ≤ readWord mem (x + q.1 + 8)) :
    ∃ mem', call ty mem x brk ((bytes server.iov).map server.mem) = some (some (sum server.iov, mem')) ∧
      (Answered ty server.mem mem mem' y x ↔ ∀ q ∈ ty.fields.sent.places 0,
        readWord memServer (y + q.1 + 8) = readWord mem (x + q.1 + 8) →
          readWord mem (x + q.1 + 8) = 0 ∨ readWord memServer (y + q.1) = readWord mem (x + q.1)) := by
  obtain ⟨-, hio, hw, hch⟩ := serialize_inPlace hin hone hserver
  obtain ⟨-, his, -, -⟩ := serialize_inPlace hin hone hs
  rw [← segments_serialized hin hone hserver] at hio
  have hlen : ((bytes server.iov).map server.mem).length = sum server.iov := by rw [length_map, bytes_length]
  rw [← hlen] at hi ⊢
  have hsame : ∀ mem', readBytes mem' x ty.size = readBytes server.mem y ty.size →
      (∀ q ∈ ty.fields.sent.places y, ∀ c ∈ span (readWord server.mem q.1) (readWord server.mem (q.1 + 8)),
        mem' c = server.mem c) → SameFields server.mem mem' ty.fields y x := fun mem' hst hco =>
    (sameFields_sent _).1 (moved_spec.2 ty.fields.sent y y x ((layout_sent _).2 ty.layout) (inPlace_at hin y)
      (fun r hr => readBytes_sub hst (ty.fit.sent.2 r hr).2) hco ((same_refl _).2 _ y))
  cases hpl : ty.fields.sent.places 0 with
  | nil =>
    have hn : ∀ (m : Mem) z, segmentsOf m ty.fields.sent z = [] := by
      intro m z
      obtain ⟨-, hse, -, -⟩ := (inPlace_spec serializer m).2 ty.fields.sent z (inPlace_at hin z)
      rw [hse, places_at, hpl]
      rfl
    have heq : ((bytes server.iov).map server.mem).length = sum s.iov := by
      rw [hlen, hio, his, hn, hn]
      rfl
    obtain ⟨mem', hca, hst, -⟩ := call_equal hin hone hch brk hs hv.arena.nodup (by rw [hio]) hi heq
    refine ⟨mem', hca, iff_of_true ⟨hsame mem' hst fun q hq => ?_, ?_⟩ fun q hq => by cases hq⟩
    · rw [places_at, hpl] at hq
      cases hq
    · rw [hpl]
      exact fun q hq => by cases hq
  | cons q qs =>
    obtain rfl : qs = [] := by
      rw [hpl, length_cons] at hone
      exact eq_nil_of_length_eq_zero (by omega)
    obtain ⟨off, field⟩ := q
    have hq : (off, field) ∈ ty.fields.sent.places 0 := by rw [hpl]; exact mem_cons_self
    have hwp := readWord_sub (i := 0) (hw _ hq)
    rw [add_zero] at hwp
    have hwl := readWord_sub (i := 8) (hw _ hq)
    have hra := (ty.places_range hin hq).2
    rw [forall_mem_singleton]
    dsimp only at hwp hwl hra ⊢
    rcases Nat.lt_or_eq_of_le (hle _ hq) with hlt | heq
    · obtain ⟨mem', hca, hsa, hpt, hsi⟩ := call_shorter hin hpl hwl hch hs hv hlt (by rw [hio]) hi
      refine ⟨mem', hca, iff_of_true ⟨(sameFields_sent _).1 hsa, ?_⟩ fun he => absurd he (Nat.ne_of_lt hlt)⟩
      rw [hpl, forall_mem_singleton, hsi]
      exact hpt.imp_right fun h => ⟨h, le_of_lt hlt⟩
    · dsimp only at heq
      -- the buffers have the same size
      have hsS := (segments_one hin hpl server.mem y).2
      have hsC := (segments_one hin hpl mem x).2
      rw [bufferSegments, hwp, hwl, heq] at hsS
      rw [bufferSegments] at hsC
      have hsu : ((bytes server.iov).map server.mem).length = sum s.iov := by
        rw [hlen, hio, his, hsS, hsC, sum_append, sum_append]
        split <;> rfl
      obtain ⟨mem', hca, hst, hseg⟩ := call_equal hin hone hch brk hs hv.arena.nodup (by rw [hio]) hi hsu
      have hpt : readWord mem' (x + off) = readWord memServer (y + off) := (readWord_sub hst).trans hwp
      have hln : readWord mem' (x + off + 8) = readWord mem (x + off + 8) :=
        (readWord_sub (i := off + 8) hst).trans (hwl.trans heq)
      refine ⟨mem', hca, ?_⟩
      rw [Answered, hpl, forall_mem_singleton]
      dsimp only
      rw [hpt, hln]
      constructor
      · exact fun h _ => h.2.imp_right And.left
      · intro h
        refine ⟨hsame mem' hst ?_, (h heq).imp_right fun h => ⟨h, le_rfl⟩⟩
        rw [places_at, hpl, map_singleton, forall_mem_singleton]
        dsimp only
        rw [hwp, hwl, heq]
        rcases h heq with h0 | hp
        · intro c hc
          rw [h0] at hc
          exact absurd (lt_of_le_of_lt hc.1 hc.2) (lt_irrefl _)
        · intro c hc
          have hpos : 0 < readWord mem (x + off + 8) := by
            have := hc.1
            have := hc.2
            omega
          rw [hsS, hsC, if_pos hpos, if_pos hpos, hp, readBytes_bytes, readBytes_bytes] at hseg
          exact map_inj_left.1 hseg c (mem_addresses.2 (hp ▸ hc))

end

def caller (n : Nat) : Mem := writeBytes (fun _ => 0#8) 300 (leBytes 8 200 ++ leBytes 8 n)

/-- Three bytes at 100, and the string at 103. -/
def threeBytes : Mem := writeBytes (fun _ => 0#8) 100 (7#8 :: 8#8 :: 9#8 :: leBytes 8 100 ++ leBytes 8 3)

end Photon.Rpc
