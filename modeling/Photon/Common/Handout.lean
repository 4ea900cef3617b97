import Photon.Common.Continuous
import Photon.Lib.Arena
/-!
# An `iovector` as an arena

Its segments are the pool, and what it allocates comes from `brk` on. An `iovec[]` is sixteen
bytes an entry in memory; `extract_front(bytes, iov)` allocates one with an entry for every
segment that is left.
-/

namespace Photon.Iovector

open List Nat

variable {v : Vec}

def iovecs (mem : Mem) (p : Nat) : Nat → List Iovec
  | 0 => []
  | n + 1 => ⟨readWord mem p, readWord mem (p + 8)⟩ :: iovecs mem (p + 16) n

def storeIovecs (mem : Mem) (p : Nat) : List Iovec → Mem
  | [] => mem
  | c :: cs => storeIovecs (writeWord (writeWord mem p c.iovBase) (p + 8) c.iovLen) (p + 16) cs

/-- `extract_front(bytes, iov)` with a view that has no slots: the return value, the `iovec[]` and its count. -/
def Vec.extractFrontView (v : Vec) (bytes : Nat) : Option Nat × (Nat × Nat) × Vec :=
  if bytes = 0 then (some 0, (0, 0), v)
  else
    match v.malloc (v.view.length * 16) with
    | none => (none, (0, 0), v)
    | some (ptr, v) =>
      let r := Iovector.extractFrontView v.view bytes v.view.length
      (r.ret, (ptr, r.out.length), { v with mem := storeIovecs v.mem ptr r.out, view := r.view })

/-! ## Entries in memory -/

/-- A pointer and a size are 64 bits. -/
def Iovec.wrap (c : Iovec) : Iovec := ⟨c.iovBase % 2 ^ 64, c.iovLen % 2 ^ 64⟩

variable {mem : Mem} {x : Nat} {cs : List Iovec} {c : Iovec}

/-- An array of `iovec`s is read from its own bytes. -/
lemma iovecs_congr {mem' : Mem} {p n : Nat} (h : ∀ x, p ≤ x → x < p + n * 16 → mem' x = mem x) :
    iovecs mem' p n = iovecs mem p n := by
  induction n generalizing p with
  | zero => rfl
  | succ n ih =>
    rw [iovecs, iovecs, ih fun x h1 h2 => h x (by omega) (by omega),
      readWord_congr fun x h1 h2 => h x (by omega) (by omega), readWord_congr fun x h1 h2 => h x (by omega) (by omega)]

lemma storeIovecs_of_notMem {p : Nat} (h : x < p ∨ p + cs.length * 16 ≤ x) : storeIovecs mem p cs x = mem x := by
  induction cs generalizing mem p with
  | nil => rfl
  | cons c cs ih =>
    rw [length_cons] at h
    rw [storeIovecs, ih (by omega), writeWord_of_notMem (by omega), writeWord_of_notMem (by omega)]

/-- What was stored is read back, up to the width of a word. -/
lemma iovecs_storeIovecs (mem : Mem) (p : Nat) (cs : List Iovec) :
    iovecs (storeIovecs mem p cs) p cs.length = cs.map Iovec.wrap := by
  induction cs generalizing mem p with
  | nil => rfl
  | cons c cs ih =>
    have hk : ∀ q, q + 8 ≤ p + 16 → readWord (storeIovecs mem p (c :: cs)) q =
        readWord (writeWord (writeWord mem p c.iovBase) (p + 8) c.iovLen) q := fun q hq =>
      readWord_congr fun x _ _ => storeIovecs_of_notMem (p := p + 16) (by omega)
    rw [length_cons, iovecs, hk p (by omega), hk (p + 8) (by omega), readWord_writeWord_mod,
      readWord_writeWord_of_disjoint (by omega), readWord_writeWord_mod, storeIovecs, ih]
    rfl

section
variable (h : ∀ x ∈ c.bytes, x + 1 < 2 ^ 64)
include h

/-- A segment that is not empty and ends below 2^64 is stored as it is. -/
lemma Iovec.wrap_eq (hn : c.iovLen ≠ 0) : c.wrap = c := by
  have hm : ∀ i < c.iovLen, c.iovBase + i + 1 < 2 ^ 64 := fun i hi =>
    h _ (mem_map.2 ⟨i, mem_range.2 hi, rfl⟩)
  have h1 := hm (c.iovLen - 1) (by omega)
  rw [Iovec.wrap, mod_eq_of_lt (by omega), mod_eq_of_lt (by omega)]

lemma Iovec.wrap_iovLen : c.wrap.iovLen = c.iovLen := by
  by_cases hn : c.iovLen = 0
  · rw [Iovec.wrap, hn]
    rfl
  · rw [c.wrap_eq h hn]

lemma Iovec.wrap_bytes : c.wrap.bytes = c.bytes := by
  by_cases hn : c.iovLen = 0
  · rw [bytes_of_iovLen_zero hn, bytes_of_iovLen_zero (by rw [c.wrap_iovLen h, hn])]
  · rw [c.wrap_eq h hn]

end

/-- So the bytes are the same ones. -/
lemma bytes_wrap (h : ∀ x ∈ bytes cs, x + 1 < 2 ^ 64) : bytes (cs.map Iovec.wrap) = bytes cs := by
  induction cs with
  | nil => rfl
  | cons c cs ih =>
    rw [map_cons, bytes_cons, bytes_cons, ih fun x hx => h x (by simp [hx]),
      c.wrap_bytes fun x hx => h x (by simp [hx])]

/-! ## The arena -/

def Vec.arena (v : Vec) : Arena Byte := ⟨v.mem, bytes v.view, v.brk⟩

/-- No address from here on will be used. -/
def Vec.limit (v : Vec) : Nat := v.brk + (v.capacity - v.nbases) * INT_MAX

/-- The segments do not overlap, and the buffers that can be allocated are in the address space. -/
structure Vec.Sound (v : Vec) : Prop where
  arena : v.arena.Sound
  nonnull : 0 ∉ bytes v.view ∧ 0 < v.brk
  space : v.limit < 2 ^ 64

structure Vec.Moves (A : Set Nat) (v v' : Vec) : Prop extends Arena.Moves A v.arena v'.arena where
  limit : v'.limit ≤ v.limit
  iovcnt : v'.view.length ≤ v.view.length

section Moves

variable {v v' v'' : Vec} {A B : Set Nat}

lemma Vec.Moves.refl (A : Set Nat) (v : Vec) : v.Moves A v := ⟨.refl A _, le_rfl, le_rfl⟩

/-- Two steps may write what the first was allowed to, and what it has allocated. -/
lemma Vec.Moves.trans (h : v.Moves A v') (h' : v'.Moves B v'') (hB : B ⊆ Arena.Own A v.arena v'.arena) :
    v.Moves A v'' :=
  ⟨h.toMoves.trans h'.toMoves hB, le_trans h'.limit h.limit, le_trans h'.iovcnt h.iovcnt⟩

lemma Vec.Moves.mono (h : v.Moves A v') (hA : A ⊆ B) : v.Moves B v' := ⟨h.toMoves.mono hA, h.limit, h.iovcnt⟩

/-- The vector stays sound. -/
lemma Vec.Sound.moves (hs : v.Sound) (h : v.Moves A v') : v'.Sound where
  arena := hs.arena.moves h.toMoves
  nonnull := ⟨fun h0 => hs.nonnull.1 (h.mem_pool h0), lt_of_lt_of_le hs.nonnull.2 h.brk⟩
  space := lt_of_le_of_lt h.limit hs.space

lemma Vec.Sound.brk_lt (hs : v.Sound) : v.brk < 2 ^ 64 := by
  have := hs.space
  rw [Vec.limit] at this
  omega

/-- Its bytes have addresses of 64 bits. -/
lemma Vec.Sound.lt_of_mem (hs : v.Sound) (hx : x ∈ bytes v.view) : x + 1 < 2 ^ 64 :=
  lt_of_le_of_lt (hs.arena.fresh x hx) hs.brk_lt

lemma Vec.Moves.write (h : v.Moves A v') (hm : ∀ x, x ∉ A → mem x = v'.mem x) :
    v.Moves A { v' with mem := mem } where
  __ := h
  frame x hx hn := (hm x fun hA => hn (.inl hA)).trans (h.frame x hx hn)

end Moves

/-! ## What is handed out -/

/-- `n` bytes from the front are handed out at `ptr`. -/
structure Taken (v v' : Vec) (ptr n : Nat) : Prop where
  handed : Handed v v' ((bytes v.view).take n) ptr n
  rest : bytes v'.view = (bytes v.view).drop n
  enough : n ≤ sum v.view
  limit : v'.limit ≤ v.limit
  iovcnt : v'.view.length ≤ v.view.length

/-- A buffer comes from `brk`, and uses up one of the bases. -/
lemma malloc_some {v' : Vec} {size ptr : Nat} (h : v.malloc size = some (ptr, v')) :
    v.nbases < v.capacity ∧ size ≤ INT_MAX ∧ ptr = v.brk ∧
      v' = { v with brk := v.brk + size, nbases := v.nbases + 1 } ∧ v'.limit ≤ v.limit := by
  rw [Vec.malloc] at h
  split at h
  · cases h
  rename_i hn
  obtain ⟨rfl, rfl⟩ := Prod.mk.inj (Option.some.inj h)
  refine ⟨by omega, by omega, rfl, rfl, ?_⟩
  have hsu : v.capacity - v.nbases = (v.capacity - (v.nbases + 1)) + 1 := by omega
  rw [Vec.limit, Vec.limit, hsu, succ_mul]
  dsimp only
  omega

variable {σ : Type} {view rest : List Iovec}

/-- Extraction fails only for lack of bytes, of a base, or with a size that is no `int`. -/
lemma extractFrontContinuous_cases (hf : v.Fresh) (n : Nat) :
    v.extractFrontContinuous n = (none, v) ∧ ¬(n ≤ sum v.view ∧ v.nbases < v.capacity ∧ n ≤ INT_MAX) ∨
      ∃ ptr v', v.extractFrontContinuous n = (some ptr, v') ∧ Taken v v' ptr n := by
  unfold Vec.extractFrontContinuous
  cases h : frontContinuous v.view n with
  | some r =>
    have hcut := frontContinuous_some h
    have hpl : addresses r.1 n = (bytes v.view).take n := (append_nil _).symm.trans hcut.take
    have hlen := congrArg length hpl
    rw [addresses_length, length_take, bytes_length] at hlen
    exact .inr ⟨_, _, rfl, handed_place hpl, hcut.drop, by omega, le_rfl, hcut.after_le⟩
  | none =>
    dsimp only
    split
    · exact .inl ⟨rfl, by omega⟩
    cases hm : v.malloc n with
    | none => exact .inl ⟨rfl, fun h => by cases (malloc_eq h.2.1 h.2.2).symm.trans hm⟩
    | some =>
      obtain ⟨-, -, hpt, hv, hli⟩ := malloc_some hm
      obtain ⟨⟨⟨-, hvi⟩, hco⟩, hcn⟩ := extractFrontBuf_copied v.view n v.mem v.brk
      rw [min_eq_left (by omega)] at hvi hco
      rw [hv] at hli
      dsimp only
      rw [hpt, hv]
      exact .inr ⟨_, _, rfl, handed_copy (fun a ha => hf a (mem_of_mem_take ha)) hco, hvi, by omega, hli, hcn⟩

section Taken

variable {v v' : Vec} {ptr n : Nat}

lemma Handed.brk_le {xs : List Nat} (h : Handed v v' xs ptr n) : v.brk ≤ v'.brk := by
  rcases h.place with ⟨-, hb⟩ | ⟨-, hb⟩
  · exact le_of_eq hb.symm
  · exact (le_add_right _ _).trans_eq hb.symm

/-- What remains in the vector is not written. -/
lemma Taken.moves (h : Taken v v' ptr n) : v.Moves ∅ v' where
  pool := by
    rw [Vec.arena, Vec.arena, h.rest]
    exact drop_suffix ..
  brk := h.handed.brk_le
  frame x hx _ := h.handed.frame x hx
  __ := h

/-- What is handed out is the own memory of the taker. -/
lemma Taken.mem_own (h : Taken v v' ptr n) (hs : v.Sound) (hx : ptr ≤ x ∧ x < ptr + n) :
    x ∈ Arena.Own ∅ v.arena v'.arena := by
  rcases h.handed.place with ⟨hpl, -⟩ | ⟨rfl, hb⟩
  · have ht : x ∈ (bytes v.view).take n := hpl ▸ mem_addresses.2 hx
    refine .inr (.inl ⟨mem_of_mem_take ht, fun hd => ?_⟩)
    rw [Vec.arena, h.rest] at hd
    exact disjoint_take_drop hs.arena.nodup le_rfl ht hd
  · exact .inr (.inr ⟨hx.1, hx.2.trans_eq hb.symm⟩)

/-- It is no null pointer. -/
lemma Taken.ptr_bound (h : Taken v v' ptr n) (hs : v.Sound) (hn : 0 < n) : ptr ≠ 0 ∧ ptr < 2 ^ 64 := by
  rcases h.handed.place with ⟨hpl, -⟩ | ⟨rfl, -⟩
  · have hm : ptr ∈ (bytes v.view).take n := hpl ▸ mem_addresses.2 (by omega)
    have hm := mem_of_mem_take hm
    exact ⟨fun h0 => hs.nonnull.1 (h0 ▸ hm), lt_of_succ_lt (hs.lt_of_mem hm)⟩
  · exact ⟨ne_of_gt hs.nonnull.2, hs.brk_lt⟩

end Taken

structure Popped (v v' : Vec) (ptr n : Nat) : Prop where
  handed : Handed v v' ((bytes v.view).drop (sum v.view - n)) ptr n
  rest : bytes v'.view = (bytes v.view).take (sum v.view - n)
  enough : n ≤ sum v.view
  limit : v'.limit ≤ v.limit
  iovcnt : v'.view.length ≤ v.view.length

/-- The same at the back. -/
lemma extractBackContinuous_cases (hf : v.Fresh) (n : Nat) :
    v.extractBackContinuous n = (none, v) ∧ ¬(n ≤ sum v.view ∧ v.nbases < v.capacity ∧ n ≤ INT_MAX) ∨
      ∃ ptr v', v.extractBackContinuous n = (some ptr, v') ∧ Popped v v' ptr n := by
  unfold Vec.extractBackContinuous
  cases h : backContinuous v.view.reverse n with
  | some r =>
    have hcut := backContinuous_some h
    rw [reverse_reverse, sum_reverse] at hcut
    have hpl : addresses r.1 n = (bytes v.view).drop (sum v.view - n) := (append_nil _).symm.trans hcut.drop
    have hlen := congrArg length hpl
    rw [addresses_length, length_drop, bytes_length] at hlen
    exact .inr ⟨_, _, rfl, handed_place hpl, hcut.take, by omega, le_rfl, hcut.before_le⟩
  | none =>
    dsimp only
    split
    · exact .inl ⟨rfl, by omega⟩
    cases hm : v.malloc n with
    | none => exact .inl ⟨rfl, fun h => by cases (malloc_eq h.2.1 h.2.2).symm.trans hm⟩
    | some =>
      obtain ⟨-, -, hpt, hv, hli⟩ := malloc_some hm
      obtain ⟨⟨⟨-, hvi⟩, hco⟩, hcn⟩ := extractBackBuf_copied v.view n v.mem v.brk
      rw [min_eq_left (by omega)] at hvi hco
      rw [Nat.add_sub_cancel] at hco
      rw [hv] at hli
      dsimp only
      rw [hpt, hv]
      exact .inr ⟨_, _, rfl, handed_copy (fun a ha => hf a (mem_of_mem_drop ha)) hco, hvi, by omega, hli, hcn⟩

section Popped

variable {v v' : Vec} {ptr n : Nat}

section
variable (h : Popped v v' ptr n)
include h

lemma Popped.mem_view {a : Nat} (ha : a ∈ bytes v'.view) : a ∈ bytes v.view := by
  rw [h.rest] at ha
  exact mem_of_mem_take ha

/-- The vector stays sound when something is popped from its back. -/
lemma Popped.sound (hs : v.Sound) : v'.Sound where
  arena := by
    refine ⟨fun a ha => lt_of_lt_of_le (hs.arena.fresh a (h.mem_view ha)) h.handed.brk_le, ?_⟩
    rw [Vec.arena, h.rest]
    exact hs.arena.nodup.sublist (take_sublist ..)
  nonnull := ⟨fun h0 => hs.nonnull.1 (h.mem_view h0), lt_of_lt_of_le hs.nonnull.2 h.handed.brk_le⟩
  space := lt_of_le_of_lt h.limit hs.space

/-- What was popped is apart from what remains. -/
lemma Popped.apart (hs : v.Sound) : Arena.Apart (Arena.span ptr n) v'.arena := by
  intro a ha
  rcases h.handed.place with ⟨hpl, hb⟩ | ⟨rfl, hb⟩
  · have hd : a ∈ (bytes v.view).drop (sum v.view - n) := hpl ▸ mem_addresses.2 ha
    refine ⟨(hs.arena.fresh a (mem_of_mem_drop hd)).trans_eq hb.symm, fun ht => ?_⟩
    rw [Vec.arena, h.rest] at ht
    exact disjoint_take_drop hs.arena.nodup le_rfl ht hd
  · refine ⟨ha.2.trans_eq hb.symm, fun ht => ?_⟩
    have hlt : a < v.brk := hs.arena.fresh a (h.mem_view ht)
    have hg := ha.1
    omega

lemma Popped.nonnull (hs : v.Sound) (hn : 0 < n) : ptr ≠ 0 := by
  rcases h.handed.place with ⟨hpl, -⟩ | ⟨rfl, -⟩
  · rintro rfl
    have h0 : 0 ∈ (bytes v.view).drop (sum v.view - n) := hpl ▸ mem_addresses.2 (by omega)
    exact hs.nonnull.1 (mem_of_mem_drop h0)
  · exact ne_of_gt hs.nonnull.2

/-- What remains holds the same bytes as before. -/
lemma Popped.content_rest (hs : v.Sound) : v'.content = v.content.take (sum v.view - n) := by
  rw [Vec.content, Vec.content, ← map_take, ← h.rest]
  exact map_congr_left fun a ha => h.handed.frame a (hs.arena.fresh a (h.mem_view ha))

end

end Popped

/-- The segments at the front, in an array of their own. -/
lemma extractFrontView_spec {n : Nat} (hn : n ≠ 0) (hca : v.nbases < v.capacity) (hsl : v.view.length * 16 ≤ INT_MAX) :
    ∃ cs v', v.extractFrontView n = (some (min n (sum v.view)), (v.brk, cs.length), v') ∧
    bytes cs = (bytes v.view).take n ∧ bytes v'.view = (bytes v.view).drop n ∧
    iovecs v'.mem v.brk cs.length = cs.map Iovec.wrap ∧ (∀ a < v.brk, v'.mem a = v.mem a) ∧
    v.Moves ∅ v' ∧ v.brk + cs.length * 16 ≤ v'.brk ∧ v'.nbases = v.nbases + 1 ∧ v'.capacity = v.capacity := by
  obtain ⟨cs, rest, hcu, hfe⟩ := doExtractFront_spec (storeNext v.view.length) v.view n
  have hlen := hcu.before_le
  have he := hfe [] cs (feed_storeNext _ [] cs (by simpa using hlen))
  have hm := malloc_eq hca hsl
  obtain ⟨-, -, -, -, hli⟩ := malloc_some hm
  let v' : Vec := { v with
    mem := storeIovecs v.mem v.brk cs
    view := rest
    brk := v.brk + v.view.length * 16
    nbases := v.nbases + 1 }
  have hf : ∀ a < v.brk, v'.mem a = v.mem a := fun a ha => storeIovecs_of_notMem (.inl ha)
  refine ⟨cs, v', ?_, hcu.take, hcu.drop, iovecs_storeIovecs .., hf,
    ⟨⟨?_, ?_, fun a ha _ => hf a ha⟩, hli, hcu.after_le⟩, ?_, rfl, rfl⟩
  · rw [Vec.extractFrontView, if_neg hn, hm]
    dsimp only [Iovector.extractFrontView]
    rw [he]
  · change bytes rest <:+ bytes v.view
    rw [hcu.drop]
    exact drop_suffix ..
  · exact le_add_right _ _
  · dsimp only [v']
    omega

end Photon.Iovector
