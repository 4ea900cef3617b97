import Photon.Rpc.Serialize
/-!
# What `DeserializerIOV` writes

A field is given what it points at from the front of the vector, in place or in a buffer
that the vector allocates. So going over a field writes the field itself, what is taken from
the front and what is allocated, and nothing that was there for another field.
-/

namespace Photon.Rpc

open Photon.Iovector Arena List Option

def entries (mem : Mem) (x : Nat) : List Iovec := iovecs mem (readWord mem x) (readWord mem (x + 8) / 16)

structure Got (x : Nat) (s s1 : Deserializer) (ptr n : Nat) : Prop where
  moves : s.iov.Moves (span x 16) s1.iov
  failed : s1.failed = s.failed
  ptr_eq : readWord s1.iov.mem x = ptr
  size_eq : readWord s1.iov.mem (x + 8) = n
  nonnull : ptr ≠ 0
  enough : n ≤ sum s.iov.view
  own : span ptr n ⊆ Own ∅ s.iov.arena s1.iov.arena
  content : readBytes s1.iov.mem ptr n = ((bytes s.iov.view).take n).map s.iov.mem
  rest : bytes s1.iov.view = (bytes s.iov.view).drop n
  place : addresses ptr n = (bytes s.iov.view).take n ∨ s.iov.brk ≤ ptr ∧ ptr + n ≤ s1.iov.brk
  nbases : s1.iov.nbases ≤ s.iov.nbases + 1
  capacity : s1.iov.capacity = s.iov.capacity

structure GotIovecs (x : Nat) (s s1 : Deserializer) (n : Nat) : Prop where
  moves : s.iov.Moves (span x 24) s1.iov
  failed : s1.failed = s.failed
  content : bytes (entries s1.iov.mem x) = (bytes s.iov.view).take n
  rest : bytes s1.iov.view = (bytes s.iov.view).drop n
  place : s.iov.brk ≤ readWord s1.iov.mem x ∧ readWord s1.iov.mem x + readWord s1.iov.mem (x + 8) ≤ s1.iov.brk
  kept : ∀ a ∈ bytes s.iov.view, s1.iov.mem a = s.iov.mem a

section Field

variable {s : Deserializer} {x : Nat} {v v' : Vec} {A : Set Nat} {y n : Nat}

lemma readWord_moves (h : v.Moves A v') (hx : Apart (span x n) v.arena)
    (hy : x ≤ y ∧ y + 8 ≤ x + n) (hA : ∀ a, y ≤ a → a < y + 8 → a ∉ A) : readWord v'.mem y = readWord v.mem y :=
  readWord_congr fun a h1 h2 => h.apart_kept hx (show a ∈ span x n from ⟨by omega, by omega⟩) (hA a h1 h2)

lemma readBytes_moves {B : Set Nat} (h : v.Moves A v') (hB : Apart B v.arena) (hy : span y n ⊆ B)
    (hA : ∀ a ∈ A, a ∉ B) : readBytes v'.mem y n = readBytes v.mem y n :=
  readBytes_congr fun a h1 h2 => h.apart_kept hB (hy ⟨h1, h2⟩) fun ha => hA a ha (hy ⟨h1, h2⟩)

lemma keeps_readWord {mem : Mem} (hk : Keeps (span x n) v.arena v'.arena mem)
    (hy : x ≤ y ∧ y + 8 ≤ x + n := by omega) : readWord mem y = readWord v'.mem y :=
  readWord_congr fun a h1 h2 => hk a (.inl ⟨by omega, by omega⟩)

lemma writeWord_moves {w : Nat} (h : v.Moves ∅ v') (hy : x ≤ y ∧ y + 8 ≤ x + n) :
    v.Moves (span x n) { v' with mem := writeWord v'.mem y w } := by
  refine (h.mono (Set.empty_subset _)).write fun a ha => writeWord_of_notMem ?_
  by_contra hno
  exact ha ⟨by omega, by omega⟩

lemma own_disjoint (hA : Apart A v.arena) {a : Nat} (ha : a ∈ Own ∅ v.arena v'.arena) : a ∉ A := by
  intro hm
  obtain ⟨hlt, hn⟩ := hA a hm
  rcases ha with ⟨⟨⟩⟩ | ⟨hp, -⟩ | ⟨hlo, -⟩
  · exact hn hp
  · omega

section
variable (hs : s.iov.Sound) (hx : Apart (span x 16) s.iov.arena)
include hs hx

lemma got_of_taken {ptr : Nat} (hn : readWord s.iov.mem (x + 8) ≠ 0)
    (ht : Taken s.iov v' ptr (readWord s.iov.mem (x + 8))) :
    Got x s { s with iov := { v' with mem := writeWord v'.mem x ptr } } ptr (readWord s.iov.mem (x + 8)) := by
  obtain ⟨hnu, hlt⟩ := ht.ptr_bound hs (Nat.pos_of_ne_zero hn)
  have ho : span ptr (readWord s.iov.mem (x + 8)) ⊆ Own ∅ s.iov.arena v'.arena := fun a => ht.mem_own hs
  refine ⟨writeWord_moves ht.moves (by omega), rfl, readWord_writeWord _ _ hlt, ?_, hnu, ht.enough, ho, ?_,
    ht.rest, ?_, ht.handed.nbases, ht.handed.capacity⟩
  · rw [readWord_writeWord_of_disjoint (by omega)]
    exact readWord_moves ht.moves hx (by omega) fun _ _ _ => Set.notMem_empty _
  · rw [← ht.handed.content]
    refine readBytes_congr fun a h1 h2 => writeWord_of_notMem ?_
    have hno := own_disjoint hx (ho ⟨h1, h2⟩)
    by_contra hw
    exact hno ⟨by omega, by omega⟩
  · rcases ht.handed.place with ⟨hpl, -⟩ | ⟨hpt, hbr⟩
    · exact .inl hpl
    · exact .inr ⟨le_of_eq hpt.symm, by rw [hpt]; exact le_of_eq hbr.symm⟩

lemma buffer_cases :
    readWord s.iov.mem (x + 8) = 0 ∧ deserializer.buffer x s = s ∨
      (s.iov.Moves (span x 16) (deserializer.buffer x s).iov ∧ (deserializer.buffer x s).failed = true ∧
        readWord (deserializer.buffer x s).iov.mem x = 0 ∧ ¬(readWord s.iov.mem (x + 8) ≤ sum s.iov.view ∧
          s.iov.nbases < s.iov.capacity ∧ readWord s.iov.mem (x + 8) ≤ INT_MAX)) ∨
      ∃ ptr, Got x s (deserializer.buffer x s) ptr (readWord s.iov.mem (x + 8)) := by
  by_cases hsi : readWord s.iov.mem (x + 8) = 0
  · refine .inl ⟨hsi, ?_⟩
    simp only [deserializer, if_pos hsi]
  rcases extractFrontContinuous_cases hs.arena.fresh (readWord s.iov.mem (x + 8)) with ⟨h, hn⟩ | ⟨ptr, v', h, ht⟩
  · have hr : deserializer.buffer x s =
        { iov := { s.iov with mem := writeWord s.iov.mem x 0 }, failed := true } := by
      simp only [deserializer, if_neg hsi, h]
    rw [hr]
    exact .inr (.inl ⟨writeWord_moves (.refl ∅ _) (by omega), rfl, readWord_writeWord _ _ (by omega), hn⟩)
  · have hr : deserializer.buffer x s = { s with iov := { v' with mem := writeWord v'.mem x ptr } } := by
      simp only [deserializer, if_neg hsi, h]
    rw [hr]
    exact .inr (.inr ⟨ptr, got_of_taken hs hx hsi ht⟩)

lemma buffer_got (hne : readWord s.iov.mem (x + 8) ≠ 0) (hn : readWord s.iov.mem (x + 8) ≤ sum s.iov.view)
    (hca : s.iov.nbases < s.iov.capacity) (hi : readWord s.iov.mem (x + 8) ≤ INT_MAX) :
    ∃ ptr, Got x s (deserializer.buffer x s) ptr (readWord s.iov.mem (x + 8)) := by
  rcases buffer_cases hs hx with ⟨h, -⟩ | ⟨-, -, -, h⟩ | h
  · exact absurd h hne
  · exact absurd ⟨hn, hca, hi⟩ h
  · exact h

end

lemma assignIovecs_of_notMem (mem : Mem) (iov iovcnt : Nat) {a : Nat} (ha : a ∉ span x 24) :
    assignIovecs mem x iov iovcnt a = mem a := by
  have hn : a < x ∨ x + 24 ≤ a := by
    by_contra hn
    exact ha ⟨by omega, by omega⟩
  rw [assignIovecs, writeWord_of_notMem (by omega), writeWord_of_notMem (by omega), writeWord_of_notMem (by omega)]

lemma assignIovecs_moves (h : v.Moves ∅ v') (iov iovcnt : Nat) :
    v.Moves (span x 24) { v' with mem := assignIovecs v'.mem x iov iovcnt } :=
  (h.mono (Set.empty_subset _)).write fun _ => assignIovecs_of_notMem _ _ _

lemma readWord_assignIovecs (mem : Mem) {iov iovcnt : Nat} (hi : iov < 2 ^ 64) (hcn : 16 * iovcnt < 2 ^ 64) :
    readWord (assignIovecs mem x iov iovcnt) x = iov ∧ readWord (assignIovecs mem x iov iovcnt) (x + 8) = 16 * iovcnt := by
  constructor
  · rw [assignIovecs, readWord_writeWord_of_disjoint (by omega), readWord_writeWord_of_disjoint (by omega),
      readWord_writeWord _ _ hi]
  · rw [assignIovecs, readWord_writeWord_of_disjoint (by omega), readWord_writeWord _ _ hcn]

lemma iovecArray_got (hs : s.iov.Sound) (hx : Apart (span x 24) s.iov.arena) (hne : readWord s.iov.mem (x + 16) ≠ 0)
    (hn : readWord s.iov.mem (x + 16) ≤ sum s.iov.view) (hcap : s.iov.nbases < s.iov.capacity)
    (hsl : s.iov.view.length * 16 ≤ INT_MAX) :
    GotIovecs x s (deserializer.iovecArray x s) (readWord s.iov.mem (x + 16)) ∧
      (deserializer.iovecArray x s).iov.nbases = s.iov.nbases + 1 ∧
      (deserializer.iovecArray x s).iov.capacity = s.iov.capacity := by
  obtain ⟨cs, v', he, hcs, hre, hst, hf, hmo, hbr, hba, hca⟩ := extractFrontView_spec hne hcap hsl
  have hr : deserializer.iovecArray x s =
      { s with iov := { v' with mem := assignIovecs v'.mem x s.iov.brk cs.length } } := by
    simp only [deserializer, he]
    rw [min_eq_left hn, if_pos (by rw [getD_some])]
  have hlt := (hs.moves hmo).brk_lt
  obtain ⟨hpt, hsi⟩ := readWord_assignIovecs v'.mem hs.brk_lt (show 16 * cs.length < 2 ^ 64 by omega)
  -- the slots are not where the array itself is
  have hslo : iovecs (assignIovecs v'.mem x s.iov.brk cs.length) s.iov.brk cs.length = cs.map Iovec.wrap := by
    rw [← hst]
    refine iovecs_congr fun a h1 _ => assignIovecs_of_notMem _ _ _ fun ha => ?_
    have hlt : a < s.iov.brk := (hx a ha).1
    omega
  rw [hr]
  refine ⟨⟨assignIovecs_moves hmo .., rfl, ?_, hre, ?_, fun a ha => ?_⟩, hba, hca⟩
  · dsimp only
    rw [entries, hpt, hsi, Nat.mul_div_cancel_left _ (by decide), hslo, bytes_wrap, hcs]
    intro a ha
    rw [hcs] at ha
    exact hs.lt_of_mem (mem_of_mem_take ha)
  · dsimp only
    rw [hpt, hsi]
    omega
  · exact (assignIovecs_of_notMem _ _ _ fun hm => (hx a hm).2 ha).trans (hf a (hs.arena.fresh a ha))

lemma iovecArray_empty (h0 : readWord s.iov.mem (x + 16) = 0) :
    deserializer.iovecArray x s = { s with iov := { s.iov with mem := assignIovecs s.iov.mem x 0 0 } } := by
  simp only [deserializer, Vec.extractFrontView, if_pos h0, getD_some, if_pos h0.symm]

end Field

/-! ## Arrays and messages -/

def Fields.span (fields : Fields) (x : Nat) : Set Nat := {a | ∃ r ∈ fields.ranges, a ∈ Arena.span (x + r.1) r.2}

lemma span_subset_span {x y m n : Nat} (h1 : x ≤ y := by omega) (h2 : y + m ≤ x + n := by omega) : span y m ⊆ span x n := by
  rintro a ⟨hlo, hh⟩
  exact ⟨by omega, by omega⟩

lemma span_halves (x m n : Nat) :
    span x m ⊆ span x (n + m) ∧ span (x + m) n ⊆ span x (n + m) ∧ ∀ a ∈ span x m, a ∉ span (x + m) n :=
  ⟨span_subset_span, span_subset_span,
    fun _ ha ha' => absurd ha.2 (not_lt.2 ha'.1)⟩

lemma Fields.Fit.span_subset {base size : Nat} {fs : Fields} (h : fs.Fit base size) (x : Nat) :
    fs.span x ⊆ Arena.span x size := by
  rintro a ⟨r, hr, ha⟩
  have := (h.2 r hr).2
  exact span_subset_span (by omega) (by omega) ha

section Cons

variable {offset : Nat} {field : Ty} {rest : Fields} (x : Nat)

lemma span_head_subset : Arena.span (x + offset) field.sizeof ⊆ (Fields.cons offset field rest).span x :=
  fun _ ha => ⟨_, mem_cons_self, ha⟩

lemma span_tail_subset : rest.span x ⊆ (Fields.cons offset field rest).span x := by
  rintro a ⟨r, hr, ha⟩
  exact ⟨r, mem_cons_of_mem _ hr, ha⟩

variable {base size : Nat} (h : (Fields.cons offset field rest).Fit base size)

include h

lemma Fields.Fit.tail : rest.Fit base size := ⟨(pairwise_cons.1 h.1).2, fun r hr => h.2 r (mem_cons_of_mem _ hr)⟩

lemma Fields.Fit.disjoint {a : Nat} (ha : a ∈ Arena.span (x + offset) field.sizeof) : a ∉ rest.span x := by
  rintro ⟨r, hr, har⟩
  have hse := (pairwise_cons.1 h.1).1 r hr
  have h1 := ha.1
  have h2 := ha.2
  have h3 := har.1
  have h4 := har.2
  dsimp only at hse
  omega

end Cons

variable {s' s1 : Deserializer} {k : Nat} {s : Deserializer}

section
variable {x ptr n : Nat} {s : Deserializer} (h : Got x s s1 ptr n)
include h

lemma Got.span_subset (hk : k ≤ n) (A : Set Nat) : span ptr k ⊆ Own A s.iov.arena s1.iov.arena := by
  intro a ha
  rcases h.own (span_subset_span le_rfl (by omega) ha) with ⟨⟨⟩⟩ | ho
  exact .inr ho

section
variable (hs : s.iov.Sound) (hx : Apart (span x 16) s.iov.arena) (hk : k ≤ n)
include hs hx hk

lemma Got.elems_apart : Apart (span ptr k) s1.iov.arena := (h.moves.apart_own hs.arena hx).mono (h.span_subset hk _)

lemma Got.readWord_kept {mem : Mem} (hm : s1.iov.Moves (span ptr k) s'.iov)
    (hme : Keeps (span x 16) s.iov.arena s'.iov.arena mem) {y : Nat} (hy : x ≤ y ∧ y + 8 ≤ x + 16) :
    readWord mem y = readWord s1.iov.mem y := by
  refine readWord_congr fun a ha1 ha2 => ?_
  have ha : a ∈ span x 16 := ⟨by omega, by omega⟩
  refine hme.before h.moves.toMoves hm.toMoves hs.arena hx subset_rfl (.inl ha) fun hp => ?_
  exact own_disjoint hx (h.span_subset hk ∅ hp) ha

end

end

end Photon.Rpc
