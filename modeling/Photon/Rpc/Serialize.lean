import Photon.Rpc.Checksum
/-!
# `SerializerIOV` and `DeserializerIOV`

A message is a struct in memory. Its variable-length fields are a pointer and a length, and
what they point at is sent in front of the struct: first what the aligned fields of the
message itself point at, then the rest, each in the order of `PROCESS_FIELDS`. The receiver
takes the struct from the back, and goes over the fields in the same order to set their
pointers to what it takes from the front.

Both archives are the class `ArchiveBase` with their own `process_field` for a `buffer` and
an `iovec_array`; which overload a field is given to depends on its type only. Inside a
nested message or an array, `aligned_buffer` and `aligned_iovec_array` match the template
for built-in types better than their base class, so nothing is done with them.
-/

namespace Photon.Rpc

open Photon.Iovector Option

/-! ## Types -/

mutual

/-- The type of a field. `fixed` is any type that is not processed. -/
inductive Ty
  | fixed (size : Nat)
  | buffer
  | alignedBuffer
  | fixedBuffer
  | array (elem : Ty)
  | string
  | iovecArray
  | alignedIovecArray
  | sortedMap
  | message (size : Nat) (fields : Fields)

inductive Fields
  | nil
  | cons (offset : Nat) (field : Ty) (rest : Fields)

end

section Induct

variable {P : Ty → Prop} {Q : Fields → Prop} (fixed : ∀ size, P (.fixed size)) (alignedBuffer : P .alignedBuffer)
  (alignedIovecArray : P .alignedIovecArray) (buffer : P .buffer) (fixedBuffer : P .fixedBuffer) (string : P .string)
  (iovecArray : P .iovecArray) (sortedMap : P .sortedMap) (array : ∀ elem, P elem → P (.array elem))
  (message : ∀ size fields, Q fields → P (.message size fields)) (nil : Q .nil)
  (cons : ∀ offset field rest, P field → Q rest → Q (.cons offset field rest))

include fixed alignedBuffer alignedIovecArray buffer fixedBuffer string iovecArray sortedMap array message nil cons

lemma Ty.induct : (∀ field, P field) ∧ ∀ fields, Q fields :=
  ⟨fun field => Ty.rec fixed buffer alignedBuffer fixedBuffer array string iovecArray alignedIovecArray sortedMap message
      nil cons field,
    fun fields => Fields.rec fixed buffer alignedBuffer fixedBuffer array string iovecArray alignedIovecArray sortedMap
      message nil cons fields⟩

end Induct

def Ty.sizeof : Ty → Nat
  | .fixed size | .message size _ => size
  | .buffer | .alignedBuffer | .fixedBuffer | .array _ | .string => 16
  | .iovecArray | .alignedIovecArray => 24
  | .sortedMap => 32

mutual

def Ty.visited : Ty → Bool
  | .fixed _ | .alignedBuffer | .alignedIovecArray => false
  | .message _ fields => fields.visited
  | _ => true

def Fields.visited : Fields → Bool
  | .nil => false
  | .cons _ field rest => field.visited || rest.visited

end

def Fields.ranges : Fields → List (Nat × Nat)
  | .nil => []
  | .cons offset field rest => (offset, field.sizeof) :: rest.ranges

/-- The fields are in a struct of `size` bytes from `base` on, and do not overlap. -/
def Fields.Fit (base size : Nat) (fields : Fields) : Prop :=
  fields.ranges.Pairwise (fun r q => r.1 + r.2 ≤ q.1 ∨ q.1 + q.2 ≤ r.1) ∧
    ∀ r ∈ fields.ranges, base ≤ r.1 ∧ r.1 + r.2 ≤ size

instance (base size : Nat) (fields : Fields) : Decidable (fields.Fit base size) := instDecidableAnd

mutual

/-- The type is laid out as a compiler does. -/
def Ty.layout : Ty → Bool
  | .array elem => 0 < elem.sizeof && elem.layout
  | .message size fields => fields.Fit 0 size && fields.layout
  | _ => true

def Fields.layout : Fields → Bool
  | .nil => true
  | .cons _ field rest => field.layout && rest.layout

end

/-- A class derived from `Message`, or from `CheckedMessage`, which has its checksum first. -/
structure MessageType where
  size : Nat
  fields : Fields
  checked : Bool := false
  size_pos : 0 < size
  fit : fields.Fit (if checked then 4 else 0) size
  layout : fields.layout = true
  header : checked = true → 4 ≤ size

/-- `add_checksum`, which a `Message` does not have. -/
def MessageType.addChecksum (ty : MessageType) (mem : Mem) (x : Nat) (iov : List Iovec) : Mem :=
  if ty.checked then Rpc.addChecksum mem x iov else mem

def MessageType.validateChecksum (ty : MessageType) (mem : Mem) (x : Nat) (iov : List Iovec) (body bodyLength : Nat) :
    Bool × Mem :=
  if ty.checked then Rpc.validateChecksum mem x iov body bodyLength else (true, mem)

/-! ## `ArchiveBase` -/

structure Archive (σ : Type) where
  mem : σ → Mem
  /-- `process_field(buffer&)`. -/
  buffer : Nat → σ → σ
  /-- `process_field(iovec_array&)`. -/
  iovecArray : Nat → σ → σ

open Archive

section Archive

variable {σ : Type}

def each (f : Nat → σ → Option σ) (size : Nat) : Nat → Nat → σ → Option σ
  | 0, _, s => some s
  | n + 1, x, s => (f x s).bind (each f size n (x + size))

mutual

/-- `process_field` of a field at `x`; `none` when it reads through a null pointer. -/
def Archive.processField (ar : Archive σ) : Ty → Nat → σ → Option σ
  | .fixed _, _, s => some s
  | .buffer, x, s => some (ar.buffer x s)
  | .fixedBuffer, x, s => some (ar.buffer x s)
  | .string, x, s => some (ar.buffer x s)
  | .alignedBuffer, _, s => some s
  | .alignedIovecArray, _, s => some s
  | .iovecArray, x, s => some (ar.iovecArray x s)
  | .array elem, x, s =>
    let s := ar.buffer x s
    let ptr := readWord (ar.mem s) x
    let size := readWord (ar.mem s) (x + 8) / elem.sizeof
    if ptr = 0 ∧ size ≠ 0 ∧ elem.visited then none
    else each (ar.processField elem) elem.sizeof size ptr s
  -- `index`, whose elements are not processed, and `base_buffer`
  | .sortedMap, x, s => some (ar.buffer (x + 16) (ar.buffer x s))
  | .message _ fields, x, s => ar.processFields fields x s

def Archive.processFields (ar : Archive σ) : Fields → Nat → σ → Option σ
  | .nil, _, s => some s
  | .cons offset field rest, x, s => (ar.processField field (x + offset) s).bind (ar.processFields rest x)

end

def Archive.filterField (ar : Archive σ) (flag : Bool) : Ty → Nat → σ → Option σ
  | .alignedBuffer, x, s => some (if flag then ar.buffer x s else s)
  | .alignedIovecArray, x, s => some (if flag then ar.iovecArray x s else s)
  | field, x, s => if flag then some s else ar.processField field x s

def Archive.filterFields (ar : Archive σ) (flag : Bool) : Fields → Nat → σ → Option σ
  | .nil, _, s => some s
  | .cons offset field rest, x, s => (ar.filterField flag field (x + offset) s).bind (ar.filterFields flag rest x)

def Archive.processMessage (ar : Archive σ) (fields : Fields) (x : Nat) (s : σ) : Option σ :=
  (ar.filterFields true fields x s).bind (ar.filterFields false fields x)

end Archive

/-! ## `SerializerIOV` -/

/-- `back_free_iovcnt` of an empty `IOVector`, which has 32 entries and keeps 4 in front. -/
def BACK_ENTRIES : Nat := 28

structure Serializer where
  mem : Mem
  iov : List Iovec := []
  iovfull : Bool := false

def Serializer.pushBuffer (s : Serializer) (addr size : Nat) : Serializer :=
  if s.iov.length < BACK_ENTRIES then
    if 0 < size then { s with iov := s.iov ++ [⟨addr, size⟩] } else s
  else { s with iovfull := true }

def Serializer.addIovec (x p : Nat) (s : Serializer) : Serializer :=
  let s := { s with mem := writeWord s.mem (x + 16) (readWord s.mem (x + 16) + readWord s.mem (p + 8)) }
  s.pushBuffer (readWord s.mem p) (readWord s.mem (p + 8))

def Serializer.addIovecs (x : Nat) : Nat → Nat → Serializer → Serializer
  | 0, _, s => s
  | n + 1, p, s => addIovecs x n (p + 16) (s.addIovec x p)

def serializer : Archive Serializer where
  mem := Serializer.mem
  buffer x s := s.pushBuffer (readWord s.mem x) (readWord s.mem (x + 8))
  iovecArray x s :=
    let s := { s with mem := writeWord s.mem (x + 16) 0 }
    s.addIovecs x (readWord s.mem (x + 8) / 16) (readWord s.mem x)

def serialize (ty : MessageType) (mem : Mem) (x : Nat) : Option Serializer :=
  (serializer.processMessage ty.fields x { mem := mem }).map fun s =>
    let s := s.pushBuffer x ty.size
    { s with mem := ty.addChecksum s.mem x s.iov }

/-! ## `DeserializerIOV` -/

structure Deserializer where
  iov : Vec
  failed : Bool := false

def assignIovecs (mem : Mem) (x iov iovcnt : Nat) : Mem :=
  let mem := writeWord mem x iov
  let mem := writeWord mem (x + 8) (16 * iovcnt)
  writeWord mem (x + 16) (sum (iovecs mem iov iovcnt))

def deserializer : Archive Deserializer where
  mem s := s.iov.mem
  buffer x s :=
    let size := readWord s.iov.mem (x + 8)
    if size = 0 then s
    else
      match s.iov.extractFrontContinuous size with
      | (some ptr, v) => { s with iov := { v with mem := writeWord v.mem x ptr } }
      | (none, v) => { iov := { v with mem := writeWord v.mem x 0 }, failed := true }
  iovecArray x s :=
    let summedSize := readWord s.iov.mem (x + 16)
    let (ret, (iov, iovcnt), v) := s.iov.extractFrontView summedSize
    -- -1 is compared as a `ssize_t`
    if ret.getD (2 ^ 64 - 1) = summedSize then { s with iov := { v with mem := assignIovecs v.mem x iov iovcnt } }
    else { iov := v, failed := true }

/-- `deserialize`: the pointer to the message, which is null when it failed, and the vector. -/
def deserialize (ty : MessageType) (v : Vec) : Option (Option Nat × Vec) :=
  match v.extractBackContinuous ty.size with
  | (none, v) => some (none, v)
  | (some t, v) =>
    let (valid, mem) := ty.validateChecksum v.mem t v.view t ty.size
    let v := { v with mem := mem }
    if valid then
      (deserializer.processMessage ty.fields t { iov := v }).map fun s => (if s.failed then none else some t, s.iov)
    else some (none, v)

/-! ## Going over the fields -/

section Archive

variable {σ : Type} (ar : Archive σ) {f : Nat → σ → Option σ}

lemma each_eq_self (hf : ∀ x s, f x s = some s) (size n x : Nat) (s : σ) : each f size n x s = some s := by
  induction n generalizing x with
  | zero => rfl
  | succ n ih => rw [each, hf, bind_some, ih]

variable {P : σ → Prop}

mutual

lemma processField_of_not_visited : ∀ (field : Ty) (x : Nat) (s : σ), field.visited = false →
    ar.processField field x s = some s
  | .fixed _, _, _, _ => rfl
  | .alignedBuffer, _, _, _ => rfl
  | .alignedIovecArray, _, _, _ => rfl
  | .message _ fields, x, s, h => processFields_of_not_visited fields x s h

lemma processFields_of_not_visited : ∀ (fs : Fields) (x : Nat) (s : σ), fs.visited = false →
    ar.processFields fs x s = some s
  | .nil, _, _, _ => rfl
  | .cons offset field rest, x, s, h => by
    obtain ⟨hf, hr⟩ := Bool.or_eq_false_iff.1 h
    rw [processFields, processField_of_not_visited field _ s hf, bind_some,
      processFields_of_not_visited rest x s hr]

end

end Archive

/-! ## The order in which fields are sent

The two passes are one over the aligned fields as the base class they are processed as, and
the fields that are not aligned after them. -/

def Fields.append : Fields → Fields → Fields
  | .nil, fields => fields
  | .cons offset field rest, fields => .cons offset field (rest.append fields)

def Fields.aligned : Fields → Fields
  | .nil => .nil
  | .cons offset .alignedBuffer rest => .cons offset .buffer rest.aligned
  | .cons offset .alignedIovecArray rest => .cons offset .iovecArray rest.aligned
  | .cons _ _ rest => rest.aligned

def Fields.unaligned : Fields → Fields
  | .nil => .nil
  | .cons _ .alignedBuffer rest => rest.unaligned
  | .cons _ .alignedIovecArray rest => rest.unaligned
  | .cons offset field rest => .cons offset field rest.unaligned

def Fields.sent (fields : Fields) : Fields := fields.aligned.append fields.unaligned

section Sent

variable {σ : Type} (ar : Archive σ)

lemma processFields_append (fs rest : Fields) (x : Nat) (s : σ) :
    ar.processFields (fs.append rest) x s = (ar.processFields fs x s).bind (ar.processFields rest x) := by
  match fs with
  | .nil => rfl
  | .cons offset field fs =>
    rw [Fields.append, processFields, processFields, bind_assoc]
    congr 1
    funext s1
    exact processFields_append fs rest x s1

lemma filterFields_true : ∀ (fs : Fields) (x : Nat) (s : σ),
    ar.filterFields true fs x s = ar.processFields fs.aligned x s
  | .nil, _, _ => rfl
  | .cons offset field rest, x, s => by
    have ih := filterFields_true rest x
    cases field <;> simp [filterFields, filterField, Fields.aligned, processFields,
      processField, ih]

lemma filterFields_false : ∀ (fs : Fields) (x : Nat) (s : σ),
    ar.filterFields false fs x s = ar.processFields fs.unaligned x s
  | .nil, _, _ => rfl
  | .cons offset field rest, x, s => by
    have ih := funext (filterFields_false rest x)
    cases field <;> simp [filterFields, filterField, Fields.unaligned, processFields, ih]

lemma processMessage_eq (fs : Fields) (x : Nat) (s : σ) :
    ar.processMessage fs x s = ar.processFields fs.sent x s := by
  rw [processMessage, Fields.sent, processFields_append, filterFields_true,
    funext (filterFields_false ar fs x)]

end Sent

lemma ranges_append : ∀ fields rest : Fields, (fields.append rest).ranges = fields.ranges ++ rest.ranges
  | .nil, _ => rfl
  | .cons offset field fields, rest => by rw [Fields.append, Fields.ranges, Fields.ranges, ranges_append fields rest, List.cons_append]

lemma ranges_sent : ∀ fields : Fields, fields.sent.ranges.Perm fields.ranges
  | .nil => .nil
  | .cons offset field rest => by
    have ih := ranges_sent rest
    rw [Fields.sent, ranges_append] at ih ⊢
    cases field
    case alignedBuffer => exact ih.cons _
    case alignedIovecArray => exact ih.cons _
    all_goals exact List.perm_middle.trans (ih.cons _)

lemma Fields.Fit.sent {base size : Nat} {fs : Fields} (h : fs.Fit base size) : fs.sent.Fit base size := by
  have hpe := ranges_sent fs
  refine ⟨(hpe.pairwise_iff fun h => h.symm).2 h.1, fun r hr => h.2 r (hpe.mem_iff.1 hr)⟩

section All

variable {F : Fields → Prop} {P : Nat → Ty → Prop} (hnil : F .nil)
  (hcons : ∀ offset field rest, F (.cons offset field rest) ↔ P offset field ∧ F rest)

include hnil hcons

lemma append_iff : ∀ fields rest : Fields, F (fields.append rest) ↔ F fields ∧ F rest
  | .nil, rest => by simp [Fields.append, hnil]
  | .cons offset field fields, rest => by rw [Fields.append, hcons, hcons, append_iff fields rest, and_assoc]

lemma sent_iff (hbu : ∀ offset, P offset .alignedBuffer ↔ P offset .buffer)
    (hi : ∀ offset, P offset .alignedIovecArray ↔ P offset .iovecArray) :
    ∀ fields : Fields, F fields.sent ↔ F fields
  | .nil => Iff.rfl
  | .cons offset field rest => by
    have ih := sent_iff hbu hi rest
    rw [Fields.sent, append_iff hnil hcons] at ih ⊢
    rw [hcons, ← ih]
    cases field
    case alignedBuffer => rw [Fields.aligned, Fields.unaligned, hcons, hbu, and_assoc]
    case alignedIovecArray => rw [Fields.aligned, Fields.unaligned, hcons, hi, and_assoc]
    all_goals exact (and_congr_right fun _ => hcons ..).trans and_left_comm

end All

lemma layout_sent (fs : Fields) : fs.sent.layout = true ↔ fs.layout = true :=
  sent_iff (F := fun fs => fs.layout = true) (P := fun _ field => field.layout = true) rfl
    (fun _ _ _ => Bool.and_eq_true_iff) (fun _ => Iff.rfl) (fun _ => Iff.rfl) fs

end Photon.Rpc
