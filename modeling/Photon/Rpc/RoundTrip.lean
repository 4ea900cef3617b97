import Photon.Rpc.Value
/-!
# Deserializing what was serialized

The receiver has the struct of a field as the sender had it, so it takes from the front as
many bytes as the sender pushed for the field, and finds in them the structs of what is
nested in it.
-/

namespace Photon.Rpc

open Photon.Iovector Arena List Option

/-! ## One field -/

structure Fed (m : Mem) (segs : List Iovec) (rest : List Byte) (A : Set Nat) (s : Deserializer) : Prop where
  sound : s.iov.Sound
  apart : Apart A s.iov.arena
  content : s.iov.content = (bytes segs).map m ++ rest
  small : ∀ g ∈ segs, g.iovLen ≤ INT_MAX
  slots : s.iov.view.length * 16 ≤ INT_MAX
  room : s.iov.nbases + segs.length ≤ s.iov.capacity

structure Served (segs : List Iovec) (rest : List Byte) (A : Set Nat) (s s' : Deserializer) : Prop where
  moves : s.iov.Moves A s'.iov
  failed : s'.failed = s.failed
  content : s'.iov.content = rest
  nbases : s'.iov.nbases ≤ s.iov.nbases + segs.length
  capacity : s'.iov.capacity = s.iov.capacity

section Fed

variable {m : Mem} {segs segs' : List Iovec} {rest : List Byte} {A B C : Set Nat} {s s' s1 : Deserializer}

lemma Fed.first (h : Fed m (segs ++ segs') rest C s) (hA : A ⊆ C) : Fed m segs ((bytes segs').map m ++ rest) A s where
  __ := h
  apart := h.apart.mono hA
  content := by rw [h.content, bytes_append, map_append, append_assoc]
  small g hg := h.small g (mem_append_left _ hg)
  room := by
    have := h.room
    rw [length_append] at this
    omega

lemma Fed.next (h : Fed m (segs ++ segs') rest C s) (hs : Served segs ((bytes segs').map m ++ rest) A s s1)
    (hB : Apart B s1.iov.arena) : Fed m segs' rest B s1 where
  sound := h.sound.moves hs.moves
  apart := hB
  content := hs.content
  small g hg := h.small g (mem_append_right _ hg)
  slots := le_trans (Nat.mul_le_mul_right 16 hs.moves.iovcnt) h.slots
  room := by
    have h1 := h.room
    have h2 := hs.nbases
    rw [length_append] at h1
    rw [hs.capacity]
    omega

lemma Served.refl (h : s.iov.content = rest) : Served [] rest A s s := ⟨.refl A _, rfl, h, le_rfl, rfl⟩

lemma Served.mono (h : Served segs rest A s s') (hA : A ⊆ B) : Served segs rest B s s' :=
  { h with moves := h.moves.mono hA }

lemma Served.trans {rest' : List Byte} (h : Served segs rest' A s s1) (h' : Served segs' rest B s1 s')
    (hB : B ⊆ Own A s.iov.arena s1.iov.arena) : Served (segs ++ segs') rest A s s' where
  moves := h.moves.trans h'.moves hB
  failed := h'.failed.trans h.failed
  content := h'.content
  nbases := by
    have h1 := h.nbases
    have h2 := h'.nbases
    rw [length_append]
    omega
  capacity := h'.capacity.trans h.capacity

variable {n a b : Nat}

lemma content_drop {v v' : Vec} (h : v.Moves A v') (hs : v.Sound) (hA : Apart A v.arena)
    (hr : bytes v'.view = (bytes v.view).drop n) : v'.content = v.content.drop n := by
  rw [Vec.content, Vec.content, ← map_drop, ← hr]
  exact map_congr_left fun a => h.pool_kept hs.arena hA

section
variable {mem' mem : Mem} {y x : Nat} (h : readBytes mem' y n = readBytes mem x n)
include h

lemma readBytes_sub {i k : Nat} (hk : i + k ≤ n) : readBytes mem' (y + i) k = readBytes mem (x + i) k := by
  have hsp : ∀ (m : Mem) z, readBytes m z n =
      readBytes m z i ++ (readBytes m (z + i) k ++ readBytes m (z + i + k) (n - i - k)) := by
    intro m z
    rw [← readBytes_add, ← readBytes_add]
    congr 1
    omega
  rw [hsp, hsp] at h
  exact (append_inj (append_inj h (by simp)).2 (by simp)).1

lemma readWord_sub {i : Nat} (hk : i + 8 ≤ n := by omega) : readWord mem' (y + i) = readWord mem (x + i) :=
  readWord_of_readBytes (readBytes_sub h hk)

end

lemma readBytes_bytes (m : Mem) (x n : Nat) : (bytes [⟨x, n⟩]).map m = readBytes m x n := by
  rw [bytes_cons, bytes_nil, append_nil]
  rfl

section
variable (h : Fed m (bufferSegments m b) rest (span a 16) s) (hsize : readWord s.iov.mem (a + 8) = readWord m (b + 8))
include h hsize

lemma buffer_fed :
    Served (bufferSegments m b) rest (span a 16) s (deserializer.buffer a s) ∧
      (readWord m (b + 8) = 0 ∧ deserializer.buffer a s = s ∨
        ∃ ptr, Got a s (deserializer.buffer a s) ptr (readWord m (b + 8)) ∧
          readBytes (deserializer.buffer a s).iov.mem ptr (readWord m (b + 8)) =
            readBytes m (readWord m b) (readWord m (b + 8))) := by
  by_cases h0 : readWord m (b + 8) = 0
  · have hr : deserializer.buffer a s = s := by simp only [deserializer, hsize, if_pos h0]
    have hse : bufferSegments m b = [] := if_neg (by omega)
    rw [hse] at h ⊢
    rw [hr]
    exact ⟨.refl h.content, .inl ⟨h0, rfl⟩⟩
  · have hse : bufferSegments m b = [⟨readWord m b, readWord m (b + 8)⟩] := if_pos (by omega)
    rw [hse] at h ⊢
    have hco := h.content
    rw [readBytes_bytes] at hco
    have hle : sum s.iov.view = readWord m (b + 8) + rest.length := by
      rw [← content_length, hco, length_append, readBytes_length]
    have hroom := h.room
    have hsm := h.small _ mem_cons_self
    obtain ⟨ptr, hg⟩ := buffer_got h.sound h.apart (hsize.symm ▸ h0) (by omega) hroom (hsize.trans_le hsm)
    rw [hsize] at hg
    refine ⟨⟨hg.moves, hg.failed, ?_, hg.nbases, hg.capacity⟩, .inr ⟨ptr, hg, ?_⟩⟩
    · rw [content_drop hg.moves h.sound h.apart hg.rest, hco, drop_left' (readBytes_length ..)]
    · rw [hg.content, map_take]
      change s.iov.content.take _ = _
      rw [hco, take_left' (readBytes_length ..)]

lemma buffer_served : Served (bufferSegments m b) rest (span a 16) s (deserializer.buffer a s) ∧
    ∀ mem, Keeps (span a 16) s.iov.arena (deserializer.buffer a s).iov.arena mem → SameBuffer m mem b a := by
  obtain ⟨hse, hg⟩ := buffer_fed h hsize
  refine ⟨hse, fun mem hk => ?_⟩
  rw [SameBuffer, keeps_readWord hk, keeps_readWord hk]
  rcases hg with ⟨h0, he⟩ | ⟨ptr, hg, hby⟩
  · rw [he, hsize, h0]
    exact ⟨rfl, rfl⟩
  · rw [hg.ptr_eq, hg.size_eq, ← hby]
    exact ⟨rfl, readBytes_congr fun c h1 h2 => hk c (hg.span_subset le_rfl _ ⟨h1, h2⟩)⟩

end

lemma bytes_filter (cs : List Iovec) : bytes (cs.filter (0 < ·.iovLen)) = bytes cs := by
  induction cs with
  | nil => rfl
  | cons c cs ih =>
    rw [filter_cons]
    split
    · rw [bytes_cons, bytes_cons, ih]
    next hc => rw [bytes_cons, ih, bytes_of_iovLen_zero (by simpa using hc), nil_append]

lemma iovecArray_served (h : Fed m ((entries m b).filter (0 < ·.iovLen)) rest (span a 24) s)
    (hsu : readWord m (b + 16) = sum (entries m b)) (hsize : readWord s.iov.mem (a + 16) = readWord m (b + 16)) :
    Served ((entries m b).filter (0 < ·.iovLen)) rest (span a 24) s (deserializer.iovecArray a s) ∧
      ∀ mem, Keeps (span a 24) s.iov.arena (deserializer.iovecArray a s).iov.arena mem → SameIovecs m mem b a := by
  have hlen := content_length s.iov
  have hco := h.content
  rw [bytes_filter] at hco
  rw [hco, length_append, length_map, bytes_length, ← hsu] at hlen
  by_cases h0 : readWord m (b + 16) = 0
  · have hn : bytes (entries m b) = [] := by
      apply eq_nil_of_length_eq_zero
      rw [bytes_length, ← hsu, h0]
    rw [hn, map_nil, nil_append] at hco
    rw [iovecArray_empty (hsize.trans h0)]
    have hmo := assignIovecs_moves (x := a) (Vec.Moves.refl ∅ s.iov) 0 0
    refine ⟨⟨hmo, rfl, ?_, Nat.le_add_right .., rfl⟩, fun mem hk => ?_⟩
    · rw [← hco]
      exact content_drop (n := 0) hmo h.sound h.apart rfl
    have hw := keeps_readWord (y := a + 8) hk
    rw [(readWord_assignIovecs (x := a) s.iov.mem (by omega) (by omega)).2] at hw
    rw [SameIovecs, hn, entries, hw]
    rfl
  · -- some entry is not empty, and takes a place in the room there is
    have hpo : 0 < ((entries m b).filter (0 < ·.iovLen)).length := by
      rw [length_pos_iff]
      intro hn
      have hb := bytes_filter (entries m b)
      rw [hn] at hb
      have hz := congrArg length hb
      rw [bytes_length, bytes_length, sum_nil, ← hsu] at hz
      exact h0 hz.symm
    have hroom := h.room
    obtain ⟨hg, hba, hca⟩ := iovecArray_got h.sound h.apart (hsize.symm ▸ h0) (by omega) (by omega) h.slots
    rw [hsize, hsu] at hg
    have hbl : ((bytes (entries m b)).map m).length = sum (entries m b) := by rw [length_map, bytes_length]
    refine ⟨⟨hg.moves, hg.failed, ?_, by omega, hca⟩, fun mem hk => ?_⟩
    · rw [content_drop hg.moves h.sound h.apart hg.rest, hco, drop_left' hbl]
    have hpl := hg.place
    have he : entries mem a = entries (deserializer.iovecArray a s).iov.mem a := by
      rw [entries, entries, keeps_readWord hk, keeps_readWord hk]
      refine iovecs_congr fun c h1 h2 => hk c (.inr (.inr ⟨le_trans hpl.1 h1, ?_⟩))
      change c < (deserializer.iovecArray a s).iov.brk
      omega
    rw [SameIovecs, he, hg.content]
    -- the bytes that were taken are left as they were
    have hm : ((bytes s.iov.view).take (sum (entries m b))).map mem =
        ((bytes s.iov.view).take (sum (entries m b))).map s.iov.mem := by
      refine map_congr_left fun c hc => ?_
      rw [← hg.kept c (mem_of_mem_take hc)]
      refine hk c (.inr (.inl ⟨mem_of_mem_take hc, fun hd => ?_⟩))
      rw [Vec.arena, hg.rest] at hd
      exact disjoint_take_drop h.sound.arena.nodup le_rfl hc hd
    rw [hm, map_take]
    change s.iov.content.take _ = _
    rw [hco, take_left' hbl]

end Fed

/-! ## All fields -/

section Receive

variable {m : Mem} {rest : List Byte} {s : Deserializer}

lemma each_served {f : Nat → Deserializer → Option Deserializer} {size : Nat} {segs : Nat → List Iovec}
    {P : Mem → Nat → Nat → Prop} {n a b : Nat}
    (hf : ∀ i < n, ∀ c s rest, Fed m (segs (b + i * size)) rest (span c size) s →
      readBytes s.iov.mem c size = readBytes m (b + i * size) size →
      ∃ s', f c s = some s' ∧ Served (segs (b + i * size)) rest (span c size) s s' ∧
        ∀ mem, Keeps (span c size) s.iov.arena s'.iov.arena mem → P mem (b + i * size) c)
    (h : Fed m (collect segs size n b) rest (span a (n * size)) s)
    (hby : readBytes s.iov.mem a (n * size) = readBytes m b (n * size)) :
    ∃ s', each f size n a s = some s' ∧ Served (collect segs size n b) rest (span a (n * size)) s s' ∧
      ∀ mem, Keeps (span a (n * size)) s.iov.arena s'.iov.arena mem → ∀ i < n, P mem (b + i * size) (a + i * size) := by
  induction n generalizing a b s with
  | zero => exact ⟨s, rfl, .refl (by simpa [collect] using h.content), fun _ _ i hi => absurd hi (Nat.not_lt_zero i)⟩
  | succ n ih =>
    rw [Nat.succ_mul] at h hby ⊢
    rw [collect] at h ⊢
    obtain ⟨hh, hta, hsep⟩ := span_halves a size (n * size)
    have hb0 : b + 0 * size = b := by omega
    have hfs := hf 0 (by omega) a s ((bytes (collect segs size n (b + size))).map m ++ rest)
    rw [hb0] at hfs
    obtain ⟨s1, hs1, hse, hP⟩ := hfs (h.first hh) (by simpa using readBytes_sub (i := 0) hby (by omega))
    have hfe := h.next hse ((h.apart.mono hta).moves hse.moves.toMoves)
    have hke : readBytes s1.iov.mem (a + size) (n * size) = readBytes s.iov.mem (a + size) (n * size) :=
      readBytes_moves hse.moves (h.apart.mono hta) subset_rfl hsep
    have hsh : ∀ i, b + size + i * size = b + (i + 1) * size := fun i => by
      rw [Nat.succ_mul]
      omega
    obtain ⟨s', hs', hse', hP'⟩ := ih
      (fun i hi c t r ht hbs => by
        rw [hsh] at ht hbs ⊢
        exact hf (i + 1) (by omega) c t r ht hbs)
      hfe (hke.trans (readBytes_sub hby (by omega)))
    refine ⟨s', bind_eq_some_iff.2 ⟨s1, hs1, hs'⟩,
      (hse.mono hh).trans hse' fun c hc => .inl (hta hc), fun mem hk i hi => ?_⟩
    cases i with
    | zero =>
      rw [zero_mul, add_zero, add_zero]
      exact hP mem (hk.head hse.moves.toMoves hse'.moves.toMoves h.sound.arena (h.apart.mono hh)
        (h.apart.mono hta) hh hsep)
    | succ i =>
      have := hP' mem (hk.tail hse.moves.toMoves hse'.moves.toMoves hh hta) i (by omega)
      rw [hsh] at this
      have ha : a + size + i * size = a + (i + 1) * size := by
        rw [Nat.succ_mul]
        omega
      rwa [ha] at this

lemma array_served {elem : Ty} {a b : Nat}
    (ih : ∀ i < readWord m (b + 8) / elem.sizeof, ∀ a s rest, let c := readWord m b + i * elem.sizeof
      Fed m (segments m elem c) rest (span a elem.sizeof) s →
      readBytes s.iov.mem a elem.sizeof = readBytes m c elem.sizeof →
      (∀ p ∈ sums m elem c, readWord m (p + 16) = sum (entries m p)) →
      ∃ s', deserializer.processField elem a s = some s' ∧ Served (segments m elem c) rest (span a elem.sizeof) s s' ∧
        ∀ mem, Keeps (span a elem.sizeof) s.iov.arena s'.iov.arena mem → Same m mem elem c a)
    (h : Fed m (segments m (.array elem) b) rest (span a 16) s)
    (hsize : readWord s.iov.mem (a + 8) = readWord m (b + 8))
    (hsu : ∀ p ∈ sums m (.array elem) b, readWord m (p + 16) = sum (entries m p)) :
    ∃ s', deserializer.processField (.array elem) a s = some s' ∧
      Served (segments m (.array elem) b) rest (span a 16) s s' ∧
      ∀ mem, Keeps (span a 16) s.iov.arena s'.iov.arena mem → Same m mem (.array elem) b a := by
  rw [segments] at h ⊢
  obtain ⟨hse, ⟨h0, he⟩ | ⟨ptr, hg, hby⟩⟩ := buffer_fed (h.first subset_rfl) hsize
  · rw [he] at hse
    have hn : readWord m (b + 8) / elem.sizeof = 0 := by rw [h0, Nat.zero_div]
    have hm : deserializer.mem s = s.iov.mem := rfl
    refine ⟨s, ?_, ?_, fun mem hk => ?_⟩
    · rw [Archive.processField, he, hm, hsize, hn]
      rw [if_neg fun h => h.2.1 rfl]
      rfl
    · rw [hn, collect] at hse ⊢
      simpa using hse
    · rw [Same, keeps_readWord hk, hsize, hn]
      exact ⟨rfl, fun i hi => absurd hi (Nat.not_lt_zero i)⟩
  · have hk' := Nat.div_mul_le_self (readWord m (b + 8)) elem.sizeof
    have hf := h.next hse (hg.elems_apart h.sound h.apart hk')
    obtain ⟨s', hs', hse', hsa⟩ := each_served
      (fun i hi c t r ht hbs => ih i hi c t r ht hbs fun p hp => hsu p (mem_collect hi hp)) hf
      (readBytes_sub (i := 0) hby (by omega))
    refine ⟨s', ?_, hse.trans hse' (hg.span_subset hk' _), fun mem hk => ?_⟩
    · have hp : readWord (deserializer.mem (deserializer.buffer a s)) a = ptr := hg.ptr_eq
      have hl : readWord (deserializer.mem (deserializer.buffer a s)) (a + 8) = readWord m (b + 8) := hg.size_eq
      rw [Archive.processField, hp, hl, if_neg fun h => hg.nonnull h.1]
      exact hs'
    · rw [Same, hg.readWord_kept h.sound h.apart hk' hse'.moves hk (by omega),
        hg.readWord_kept h.sound h.apart hk' hse'.moves hk (by omega), hg.ptr_eq, hg.size_eq]
      exact ⟨rfl, hsa mem (hk.after hg.moves.toMoves hse'.moves.toMoves (hg.span_subset hk' _))⟩

lemma receive_spec : (∀ (field : Ty) (b a : Nat) (s : Deserializer) (rest : List Byte), field.layout = true →
      allSent m field b → Fed m (segments m field b) rest (span a field.sizeof) s →
      readBytes s.iov.mem a field.sizeof = readBytes m b field.sizeof →
      (∀ p ∈ sums m field b, readWord m (p + 16) = sum (entries m p)) →
      ∃ s', deserializer.processField field a s = some s' ∧
        Served (segments m field b) rest (span a field.sizeof) s s' ∧
        ∀ mem, Keeps (span a field.sizeof) s.iov.arena s'.iov.arena mem → Same m mem field b a) ∧
    ∀ (fields : Fields) (base size b a : Nat) (s : Deserializer) (rest : List Byte), fields.layout = true →
      fields.Fit base size → allSentOf m fields b → Fed m (segmentsOf m fields b) rest (fields.span a) s →
      (∀ r ∈ fields.ranges, readBytes s.iov.mem (a + r.1) r.2 = readBytes m (b + r.1) r.2) →
      (∀ p ∈ sumsOf m fields b, readWord m (p + 16) = sum (entries m p)) →
      ∃ s', deserializer.processFields fields a s = some s' ∧
        Served (segmentsOf m fields b) rest (fields.span a) s s' ∧
        ∀ mem, Keeps (fields.span a) s.iov.arena s'.iov.arena mem → SameFields m mem fields b a := by
  have hbu : ∀ (b a : Nat) (s : Deserializer) (rest : List Byte), Fed m (bufferSegments m b) rest (span a 16) s →
      readBytes s.iov.mem a 16 = readBytes m b 16 →
      ∃ s', some (deserializer.buffer a s) = some s' ∧ Served (bufferSegments m b) rest (span a 16) s s' ∧
        ∀ mem, Keeps (span a 16) s.iov.arena s'.iov.arena mem → SameBuffer m mem b a := fun b a s rest h hby =>
    ⟨_, rfl, buffer_served h (readWord_sub hby)⟩
  refine Ty.induct ?fixed ?aligned ?alignedIovecs ?buffer ?buffer ?buffer ?iovecArray ?sortedMap ?array ?message ?nil ?cons
  case fixed =>
    intro size b a s rest _ _ h hby _
    refine ⟨s, rfl, .refl (by simpa [segments] using h.content), fun mem hk => ?_⟩
    have hre : readBytes mem a size = readBytes s.iov.mem a size :=
      readBytes_congr fun c h1 h2 => hk c (.inl ⟨h1, h2⟩)
    exact hre.trans hby
  case aligned =>
    intro b a s rest _ hal h hby _
    have hal : readWord m (b + 8) = 0 := hal
    refine ⟨s, rfl, .refl (by simpa [segments] using h.content), fun mem hk => ?_⟩
    change Keeps (span a 16) _ _ _ at hk
    rw [Same, SameBuffer, keeps_readWord hk, readWord_sub (n := 16) hby, hal]
    exact ⟨rfl, rfl⟩
  case alignedIovecs =>
    intro b a s rest _ hal h hby _
    have hal : readWord m (b + 8) / 16 = 0 := hal
    refine ⟨s, rfl, .refl (by simpa [segments] using h.content), fun mem hk => ?_⟩
    change Keeps (span a 24) _ _ _ at hk
    have hlen : readWord mem (a + 8) = readWord m (b + 8) := by
      rw [keeps_readWord hk, readWord_sub (n := 24) hby]
    rw [Same, SameIovecs, entries, entries, hlen, hal]
    rfl
  case buffer => exact fun b a s rest _ _ h hby _ => hbu b a s rest h hby
  case iovecArray =>
    intro b a s rest _ _ h hby hsu
    exact ⟨_, rfl, iovecArray_served h (hsu b mem_cons_self) (readWord_sub (n := 24) hby)⟩
  case sortedMap =>
    intro b a s rest _ _ h hby _
    have hby : readBytes s.iov.mem a 32 = readBytes m b 32 := hby
    obtain ⟨hf, hsn, hsep⟩ := span_halves a 16 16
    obtain ⟨h1, hsa1⟩ := buffer_served (h.first hf) (readWord_sub hby)
    have hfe := h.next h1 ((h.apart.mono hsn).moves h1.moves.toMoves)
    have hsize : readWord (deserializer.buffer a s).iov.mem (a + 16 + 8) = readWord m (b + 16 + 8) := by
      rw [readWord_moves h1.moves (x := a + 16) (n := 16) (h.apart.mono hsn) (by omega) fun c h1 h2 hc => ?_]
      · exact readWord_sub (i := 24) hby
      · exact hsep c hc ⟨by omega, by omega⟩
    obtain ⟨h2, hs2⟩ := buffer_served hfe hsize
    refine ⟨_, rfl, (h1.mono hf).trans h2 fun c hc => .inl (hsn hc), fun mem hk => ⟨hsa1 mem ?_, hs2 mem ?_⟩⟩
    · exact hk.head h1.moves.toMoves h2.moves.toMoves h.sound.arena (h.apart.mono hf) (h.apart.mono hsn) hf hsep
    · exact hk.tail h1.moves.toMoves h2.moves.toMoves hf hsn
  case array =>
    intro elem ih b a s rest hl hal h hby hsu
    rw [Ty.layout, Bool.and_eq_true] at hl
    exact array_served (fun i hi a s rest => ih _ a s rest hl.2 (hal i hi)) h (readWord_sub (n := 16) hby) hsu
  case message =>
    intro size fields ih b a s rest hl hpl h hby hsu
    have hby : readBytes s.iov.mem a size = readBytes m b size := hby
    rw [Ty.layout, Bool.and_eq_true, decide_eq_true_eq] at hl
    have hsub := hl.1.span_subset a
    obtain ⟨s', hs', hse, hsa⟩ := ih 0 size b a s rest hl.2 hl.1 hpl
      { h with apart := h.apart.mono hsub }
      (fun r hr => readBytes_sub hby (hl.1.2 r hr).2) hsu
    exact ⟨s', hs', hse.mono hsub, fun mem hk => hsa mem (hk.tail (.refl _ _) hse.moves.toMoves hsub hsub)⟩
  case nil =>
    intro base size b a s rest _ _ _ h _ _
    exact ⟨s, rfl, .refl (by simpa [segmentsOf] using h.content), fun _ _ => trivial⟩
  case cons =>
    intro offset field rest ihField ih base size b a s tail hl hfi hpl h hby hsu
    rw [Fields.layout, Bool.and_eq_true] at hl
    rw [sumsOf, forall_mem_append] at hsu
    have ht := h.apart.mono (span_tail_subset a)
    obtain ⟨s1, hs1, hse, hsa⟩ := ihField (b + offset) (a + offset) s _ hl.1 hpl.1
      (h.first (span_head_subset a)) (hby _ mem_cons_self) hsu.1
    have hfe := h.next hse (ht.moves hse.moves.toMoves)
    obtain ⟨s', hs', hse', hsa'⟩ := ih base size b a s1 tail hl.2 hfi.tail hpl.2 hfe
      (fun r hr => by
        have hin : span (a + r.1) r.2 ⊆ rest.span a := fun c hc => ⟨r, hr, hc⟩
        rw [← hby r (mem_cons_of_mem _ hr)]
        exact readBytes_moves hse.moves ht hin fun c => hfi.disjoint a)
      hsu.2
    refine ⟨s', bind_eq_some_iff.2 ⟨s1, hs1, hs'⟩,
      (hse.mono (span_head_subset a)).trans hse' fun c hc => .inl (span_tail_subset a hc),
      fun mem hk => ⟨hsa mem ?_, hsa' mem ?_⟩⟩
    · exact hk.head hse.moves.toMoves hse'.moves.toMoves h.sound.arena (h.apart.mono (span_head_subset a)) ht
        (span_head_subset a) fun c => hfi.disjoint a
    · exact hk.tail hse.moves.toMoves hse'.moves.toMoves (span_head_subset a) (span_tail_subset a)

end Receive

/-! ## Whole messages -/

/-- What `serialize` writes is not part of the value: the sums of the arrays, and the checksum. -/
structure Separate (ty : MessageType) (mem : Mem) (x : Nat) : Prop where
  sums : ∀ p ∈ sumsOf mem ty.fields.sent x, ∀ a ∈ span (p + 16) 8, a ∉ readsOf mem ty.fields.sent x
  checksum : ty.checked = true → ∀ a ∈ span x 4,
    a ∉ readsOf mem ty.fields.sent x ∧ ∀ p ∈ sumsOf mem ty.fields.sent x, a ∉ span (p + 16) 8

lemma mem_of_collect {α : Type} {f : Nat → List α} {size n x : Nat} {a : α} (h : a ∈ collect f size n x) :
    ∃ i < n, a ∈ f (x + i * size) := by
  induction n generalizing x with
  | zero => cases h
  | succ n ih =>
    rw [collect, mem_append] at h
    rcases h with h | h
    · exact ⟨0, by omega, by simpa using h⟩
    · obtain ⟨i, hi, ha⟩ := ih h
      refine ⟨i + 1, by omega, ?_⟩
      rwa [Nat.succ_mul, add_comm _ size, ← add_assoc]

lemma sum_le_collect {f : Nat → List Iovec} {size n x i : Nat} (hi : i < n) :
    sum (f (x + i * size)) ≤ sum (collect f size n x) := by
  induction n generalizing x i with
  | zero => exact absurd hi (Nat.not_lt_zero i)
  | succ n ih =>
    rw [collect, sum_append]
    cases i with
    | zero =>
      rw [zero_mul, add_zero]
      exact Nat.le_add_right ..
    | succ i =>
      have := ih (x := x + size) (i := i) (by omega)
      rw [Nat.succ_mul, add_comm _ size, ← add_assoc]
      omega

lemma sums_spec {mem : Mem} : (∀ (field : Ty) (x p : Nat), p ∈ sums mem field x →
      iovecReads mem p ⊆ reads mem field x ∧ sum (entries mem p) ≤ sum (segments mem field x)) ∧
    ∀ (fs : Fields) (x p : Nat), p ∈ sumsOf mem fs x →
      iovecReads mem p ⊆ readsOf mem fs x ∧ sum (entries mem p) ≤ sum (segmentsOf mem fs x) := by
  have hn : ∀ {P : Nat → Prop} (p : Nat), p ∈ ([] : List Nat) → P p := fun _ hp => by cases hp
  refine Ty.induct (fun _ _ => hn) (fun _ => hn) (fun _ => hn) (fun _ => hn) (fun _ => hn) (fun _ => hn)
    ?iovecArray (fun _ => hn) ?array ?message (fun _ => hn) ?cons
  case iovecArray =>
    intro x p hp
    obtain rfl := mem_singleton.1 hp
    refine ⟨List.Subset.refl _, le_of_eq ?_⟩
    rw [segments, ← bytes_length, ← bytes_length, bytes_filter]
  case array =>
    intro elem ih x p hp
    obtain ⟨i, hi, hp⟩ := mem_of_collect hp
    obtain ⟨hr, hsu⟩ := ih _ p hp
    refine ⟨fun a ha => mem_append_right _ (mem_collect hi (hr ha)), ?_⟩
    rw [segments, sum_append]
    exact hsu.trans ((sum_le_collect hi).trans (Nat.le_add_left ..))
  case message => exact fun _ _ ih => ih
  case cons =>
    intro offset field rest ihField ih x p hp
    rw [segmentsOf, sum_append]
    rcases mem_append.1 hp with hp | hp
    · obtain ⟨hr, hsu⟩ := ihField _ p hp
      exact ⟨fun a ha => mem_append_left _ (hr ha), hsu.trans (Nat.le_add_right ..)⟩
    · obtain ⟨hr, hsu⟩ := ih _ p hp
      exact ⟨fun a ha => mem_append_right _ (hr ha), hsu.trans (Nat.le_add_left ..)⟩

/-- What `serialize` sends, and what of the value it leaves as it was. -/
structure Sent (ty : MessageType) (mem : Mem) (x : Nat) (s : Serializer) : Prop where
  iov : s.iov = segmentsOf mem ty.fields.sent x ++ [⟨x, ty.size⟩]
  agree : Agree mem s.mem (readsOf mem ty.fields.sent x)
  summed : ∀ p ∈ sumsOf mem ty.fields.sent x, Summed mem s.mem p
  checksum : ty.checked = true → checksum s.mem x = Crc.crc POLY 0#32 (readBytes s.mem (x + 4) (ty.size - 4))

variable {ty : MessageType}

lemma serialize_sent {mem : Mem} {x : Nat} {s : Serializer} (hse : Separate ty mem x)
    (h : serialize ty mem x = some s) (hf : s.iovfull = false) : Sent ty mem x s := by
  rw [serialize, processMessage_eq] at h
  obtain ⟨s0, hs0, rfl⟩ := map_eq_some_iff.1 h
  dsimp only at hf
  have hap : SumsApart (readsOf mem ty.fields.sent x) (sumsOf mem ty.fields.sent x) := by
    refine ⟨fun p hp a ha => ?_, hse.sums⟩
    apply (sums_spec.2 _ x p hp).1
    rw [iovecReads, append_assoc]
    exact mem_append_left _ (mem_addresses.2 ha)
  have hpu := (serializer_spec hap).2 ty.fields.sent x { mem := mem } s0
    (show readsOf mem ty.fields.sent x ⊆ _ from List.Subset.refl _) (List.Subset.refl _) (fun _ _ => rfl) hs0
  obtain ⟨hf0, hi⟩ := pushBuffer_iov hf
  obtain ⟨-, hi0⟩ := hpu.iov hf0
  rw [if_pos ty.size_pos, hi0, nil_append] at hi
  have hag := hpu.untouched.agree hap (List.Subset.refl _)
  by_cases hc : ty.checked = true
  · -- the checksum is written last
    have hm : ty.addChecksum (s0.pushBuffer x ty.size).mem x (s0.pushBuffer x ty.size).iov =
        setChecksum s0.mem x (Crc.crc POLY 0#32 (readBytes s0.mem (x + 4) (ty.size - 4))) := by
      rw [MessageType.addChecksum, if_pos hc, hi, pushBuffer_mem]
      exact addChecksum_eq _ _ _ (ty.header hc)
    have ho : ∀ c a, a ∉ span x 4 → setChecksum s0.mem x c a = s0.mem a := by
      intro c a ha
      apply setChecksum_of_avoids
      by_contra hno
      exact ha ⟨by omega, by omega⟩
    refine ⟨hi, fun a ha => ?_, fun p hp => ?_, fun _ => ?_⟩
    · dsimp only
      rw [hm, ho _ a fun hx => (hse.checksum hc a hx).1 ha]
      exact hag a ha
    · rw [Summed, ← hpu.summed p hp]
      dsimp only
      rw [hm]
      exact readWord_congr fun a h1 h2 => ho _ a fun hx => (hse.checksum hc a hx).2 p hp ⟨h1, h2⟩
    · dsimp only
      rw [hm, checksum_setChecksum]
      congr 1
      exact (readBytes_congr fun a h1 _ => setChecksum_of_avoids (.inr h1)).symm
  · have hm : ty.addChecksum (s0.pushBuffer x ty.size).mem x (s0.pushBuffer x ty.size).iov = s0.mem := by
      rw [MessageType.addChecksum, if_neg hc, pushBuffer_mem]
    refine ⟨hi, ?_, ?_, fun h => absurd h hc⟩
    · dsimp only
      rwa [hm]
    · dsimp only
      rw [hm]
      exact hpu.summed

lemma sum_lt {v : Vec} (hv : v.Sound) : sum v.view < 2 ^ 64 := by
  have hsu : bytes v.view ⊆ range v.brk := fun a ha => mem_range.2 (hv.arena.fresh a ha)
  have hlen := (hv.arena.nodup.subperm hsu).length_le
  rw [length_range] at hlen
  rw [← bytes_length]
  exact lt_of_le_of_lt hlen hv.brk_lt

lemma popped_fed {m : Mem} {segs : List Iovec} {x t : Nat} {v v1 : Vec} (hv : v.Sound) (hp : Popped v v1 t ty.size)
    (hco : v.content = (bytes (segs ++ [⟨x, ty.size⟩])).map m) (hsm : ∀ g ∈ segs, g.iovLen ≤ INT_MAX)
    (hsl : v.view.length < 2 ^ 16) (hr : v.nbases + (segs.length + 1) ≤ v.capacity) :
    Fed m segs [] (span t ty.size) { iov := v1 } ∧ readBytes v1.mem t ty.size = readBytes m x ty.size := by
  have hsp : v.content = (bytes segs).map m ++ readBytes m x ty.size := by
    rw [hco, bytes_append, map_append, readBytes_bytes]
  have hle : sum v.view - ty.size = ((bytes segs).map m).length := by
    rw [← content_length, hsp, length_append, readBytes_length, Nat.add_sub_cancel]
  refine ⟨⟨hp.sound hv, hp.apart hv, ?_, hsm, ?_, ?_⟩, ?_⟩
  · dsimp only
    rw [hp.content_rest hv, hle, hsp, take_left, append_nil]
  · have hcn := hp.iovcnt
    simp only [INT_MAX]
    omega
  · have hba := hp.handed.nbases
    dsimp only
    rw [hp.handed.capacity]
    omega
  · rw [hp.handed.content, map_drop]
    change v.content.drop _ = _
    rw [hle, hsp, drop_left]

lemma popped_validate (hp : Popped v v1 t ty.size) (hv : v.Sound)
    (h : (ty.validateChecksum v1.mem t v1.view t ty.size).1 = true) :
    (ty.validateChecksum v1.mem t v1.view t ty.size).2 = v1.mem := by
  rw [MessageType.validateChecksum] at h ⊢
  split at h
  next hc =>
    have hsize := ty.header hc
    rw [if_pos hc]
    refine validateChecksum_accepted (hp.nonnull hv (by omega)) hsize (fun a ha => ?_) h
    by_contra hno
    exact (hp.apart hv a ⟨by omega, by omega⟩).2 ha
  next hc => rw [if_neg hc]

lemma validateChecksum_of_eq {m : Mem} {x t : Nat} {v v1 : Vec} (hv : v.Sound)
    (hp : Popped v v1 t ty.size) (hby : readBytes v1.mem t ty.size = readBytes m x ty.size)
    (hsu : ty.checked = true → checksum m x = Crc.crc POLY 0#32 (readBytes m (x + 4) (ty.size - 4))) :
    (ty.validateChecksum v1.mem t v1.view t ty.size).1 = true := by
  rw [MessageType.validateChecksum]
  split
  next hc =>
    have hsize := ty.header hc
    have hh := readBytes_sub (i := 0) (k := 4) hby (by omega)
    have hrest := readBytes_sub (i := 4) (k := ty.size - 4) hby (by omega)
    rw [validate_iff (hp.nonnull hv ty.size_pos) hsize fun a ha => ?_]
    · rw [hrest, ← hsu hc, checksum, checksum]
      rw [add_zero, add_zero] at hh
      rw [hh]
      exact beq_self_eq_true _
    · by_contra hno
      exact (hp.apart hv a ⟨by omega, by omega⟩).2 ha
  · rfl

lemma deserialize_received {m : Mem} {x : Nat} {v : Vec} (hal : allSentOf m ty.fields.sent x)
    (hv : v.Sound) (hco : v.content = (bytes (segmentsOf m ty.fields.sent x ++ [⟨x, ty.size⟩])).map m)
    (hsu : ∀ p ∈ sumsOf m ty.fields.sent x, readWord m (p + 16) = sum (entries m p))
    (hch : ty.checked = true → checksum m x = Crc.crc POLY 0#32 (readBytes m (x + 4) (ty.size - 4)))
    (hsm : ∀ g ∈ segmentsOf m ty.fields.sent x, g.iovLen ≤ INT_MAX) (hsize : ty.size ≤ INT_MAX)
    (hsl : v.view.length < 2 ^ 16) (hro : v.nbases + ((segmentsOf m ty.fields.sent x).length + 1) ≤ v.capacity) :
    ∃ t v1 s', v.extractBackContinuous ty.size = (some t, v1) ∧ Popped v v1 t ty.size ∧
      readBytes v1.mem t ty.size = readBytes m x ty.size ∧
      deserializer.processFields ty.fields.sent t { iov := v1 } = some s' ∧
      deserialize ty v = some (some t, s'.iov) ∧ SameFields m s'.iov.mem ty.fields.sent x t ∧ s'.iov.content = [] := by
  have hlen := congrArg length hco
  rw [content_length, length_map, bytes_length, sum_append, sum_cons, sum_nil] at hlen
  dsimp only at hlen
  -- the message itself
  rcases extractBackContinuous_cases hv.arena.fresh ty.size with ⟨-, h⟩ | ⟨t, v1, he, hp⟩
  · exact absurd ⟨by omega, by omega, hsize⟩ h
  obtain ⟨hf, hby⟩ := popped_fed hv hp hco hsm hsl hro
  have hva := validateChecksum_of_eq hv hp hby hch
  -- its fields
  have hsub := ty.fit.sent.span_subset t
  obtain ⟨s', hs', hse, hg⟩ := receive_spec.2 ty.fields.sent _ _ x t { iov := v1 } []
    ((layout_sent ty.fields).2 ty.layout) ty.fit.sent hal
    { hf with apart := hf.apart.mono hsub }
    (fun r hr => readBytes_sub hby (ty.fit.sent.2 r hr).2) hsu
  refine ⟨t, v1, s', he, hp, hby, hs', ?_, hg _ fun _ _ => rfl, hse.content⟩
  rw [deserialize, he]
  dsimp only
  rw [if_pos hva, popped_validate hp hv hva, processMessage_eq, hs', map_some, hse.failed]
  rfl

lemma sameFields_sent {mem mem' : Mem} {x y : Nat} (fields : Fields) :
    SameFields mem mem' fields.sent x y ↔ SameFields mem mem' fields x y :=
  sent_iff (F := fun fields => SameFields mem mem' fields x y)
    (P := fun offset field => Same mem mem' field (x + offset) (y + offset)) trivial
    (fun _ _ _ => Iff.rfl) (fun _ => Iff.rfl) (fun _ => Iff.rfl) fields

/-- A vector with the bytes in one segment. -/
def oneSegment (bs : List Byte) : Vec where
  mem := writeBytes (fun _ => 0#8) 100 bs
  view := [⟨100, bs.length⟩]
  brk := 1000

def ofField (field : Ty) (h : field.sizeof = 16) (hl : field.layout = true) : MessageType where
  size := 16
  fields := .cons 0 field .nil
  checked := false
  size_pos := by decide
  fit := by
    rw [Fields.Fit, Fields.ranges, Fields.ranges, h]
    decide
  layout := by rw [Fields.layout, Fields.layout, hl]; rfl
  header h := by cases h

def pointedAt : List Byte := 7#8 :: leBytes 8 100 ++ leBytes 8 1

/-- The byte is at 100 and the struct at 101. -/
def oneByte : Mem := writeBytes (fun _ => 0#8) 100 pointedAt

lemma serialize_oneByte (ty : MessageType) (iov : List Iovec) (bs : List Byte)
    (h : (serialize ty oneByte 101).map (fun s => (s.iovfull, s.iov, (bytes s.iov).map s.mem)) = some (false, iov, bs)) :
    ∃ s, serialize ty oneByte 101 = some s ∧ s.iovfull = false ∧ s.iov = iov ∧ bs = (bytes s.iov).map s.mem := by
  obtain ⟨s, hs, he⟩ := map_eq_some_iff.1 h
  obtain ⟨hf, he⟩ := Prod.mk.inj he
  obtain ⟨hi, hbs⟩ := Prod.mk.inj he
  exact ⟨s, hs, hf, hi, hbs.symm⟩

def inHalves : Vec := { oneSegment pointedAt with view := [⟨100, 9⟩, ⟨109, 8⟩] }

lemma inHalves_sound : inHalves.Sound where
  arena := ⟨show ∀ x ∈ bytes [⟨100, 9⟩, ⟨109, 8⟩], x < 1000 by decide, show (bytes [⟨100, 9⟩, ⟨109, 8⟩]).Nodup by decide⟩
  nonnull := show 0 ∉ bytes [⟨100, 9⟩, ⟨109, 8⟩] ∧ 0 < 1000 by decide
  space := show 1000 + (32 - 0) * INT_MAX < 2 ^ 64 by decide

def nestedAligned : MessageType where
  size := 24
  fields := .cons 0 (.message 16 (.cons 0 .alignedBuffer .nil)) .nil
  checked := false
  size_pos := by decide
  fit := by decide
  layout := rfl
  header h := by cases h

def alignedBytes : List Byte := leBytes 8 100 ++ leBytes 8 1 ++ leBytes 8 0

end Photon.Rpc
