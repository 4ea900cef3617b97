import Mathlib.Algebra.Ring.Nat
import Mathlib.Data.List.Nodup
import Photon.Lib.Machine
/-!
# PooledStackAllocator

Stacks that are given back are kept in slots, one for each power of two times the least size, until `in_pool_size` would
reach the threshold.
-/

namespace Photon.StackAllocator

open List Option

def log2Truncate (x : Nat) : Nat := x.log2

def log2RoundUp (x : Nat) : Nat := if x ≤ 1 then x else log2Truncate (x - 1) + 1

/-- `MIN_ALLOCATION_SIZE` and `N_SLOTS`; the sizes of the slots are kept in 32 bits. -/
structure Params where
  minSize : Nat
  nSlots : Nat
  pos : 0 < minSize
  slots : 0 < nSlots
  fits : ∀ i < nSlots, minSize * 2 ^ i < 2 ^ 32

/-- `PooledStackAllocator<>`. -/
def Params.default : Params := ⟨4 * 1024, 15, by decide, by decide, by decide⟩

def Params.slotsize (p : Params) (i : Nat) : Nat := p.minSize * 2 ^ i % 2 ^ 32

def Params.getSlot (p : Params) (length : Nat) : Nat :=
  let index := log2RoundUp (length % 2 ^ 32)
  let base := log2Truncate p.minSize
  if index ≤ base then 0 else index - base

/-- The code does not keep the size of a block. -/
structure Block where
  ptr : Nat
  len : Nat
  deriving DecidableEq

structure St where
  /-- What is in `slots[i].pool`, with `i` and the last one first. -/
  pool : List (Nat × Block) := []
  inPoolSize : Nat := 0
  trimThreshold : Nat := 1024 * 1024 * 1024
  /-- What is handed out, with the size asked for; not in the code. -/
  out : List (Block × Nat) := []

variable (p : Params) (s : St)

/-- `__alloc(n)`; `mem` is what `posix_memalign` gives. -/
def St.create (n size : Nat) : Option Nat → St
  | none => s
  | some a => { s with out := (⟨a, n⟩, size) :: s.out }

/-- `slots[i].pool.pop_back()` for the block `x`. -/
def St.pop (x : Nat × Block) : St := { s with pool := s.pool.erase x, inPoolSize := s.inPoolSize - p.slotsize x.1 }

def St.alloc (size : Nat) (mem : Option Nat) : St :=
  let idx := p.getSlot size
  if p.nSlots ≤ idx then s.create size size mem
  else match s.pool.find? (·.1 = idx) with
    | some x => { s.pop p x with out := (x.2, size) :: s.out }
    | none => s.create (p.slotsize idx) size mem

def St.dealloc (b : Block) (size : Nat) : St :=
  let idx := p.getSlot size
  let s := { s with out := s.out.erase (b, size) }
  if p.nSlots ≤ idx ∨ s.trimThreshold ≤ s.inPoolSize + p.slotsize idx then s
  else { s with pool := (idx, b) :: s.pool, inPoolSize := s.inPoolSize + p.slotsize idx }

def trimLoop (keep : Nat) : Nat → Nat → St → Option St
  | fuel, i, s =>
    if s.inPoolSize ≤ keep then some s
    else match fuel with
      | 0 => none
      | fuel + 1 => trimLoop keep fuel ((i + 1) % p.nSlots) ((s.pool.find? (·.1 = i)).elim s (s.pop p))

inductive Ev where
  | alloc (size : Nat) (mem : Option Nat)
  | dealloc (b : Block) (size : Nat)
  | trim (keep : Nat)
  | threshold (x : Nat)

def St.blocks : List Nat := s.pool.map (·.2.ptr) ++ s.out.map (·.1.ptr)

def machine : Machine St Ev where
  init := {}
  step s
    | .alloc size mem =>
      if 1 ≤ size ∧ size < 2 ^ 32 ∧ ∀ a ∈ mem, a ∉ s.blocks then some (s.alloc p size mem) else none
    | .dealloc b size => if (b, size) ∈ s.out then some (s.dealloc p b size) else none
    | .trim keep => trimLoop p keep (p.nSlots * s.pool.length) 0 s
    | .threshold x => some { s with trimThreshold := x }

variable {p s} {n size : Nat} {b : Block} {x : Nat × Block}

lemma le_log2RoundUp (x : Nat) : x ≤ 2 ^ log2RoundUp x := by
  unfold log2RoundUp log2Truncate
  split
  · exact le_of_lt x.lt_two_pow_self
  · have := Nat.lt_log2_self (n := x - 1)
    omega

lemma le_slotsize (hs : size < 2 ^ 32) (h : p.getSlot size < p.nSlots) : size ≤ p.slotsize (p.getSlot size) := by
  have hb : 2 ^ log2Truncate p.minSize ≤ p.minSize := Nat.log2_self_le (ne_of_gt p.pos)
  have hi : log2RoundUp size ≤ log2Truncate p.minSize + p.getSlot size := by
    simp only [Params.getSlot, Nat.mod_eq_of_lt hs]
    split <;> omega
  calc size ≤ 2 ^ log2RoundUp size := le_log2RoundUp size
    _ ≤ 2 ^ (log2Truncate p.minSize + p.getSlot size) := Nat.pow_le_pow_right (by decide) hi
    _ = 2 ^ log2Truncate p.minSize * 2 ^ p.getSlot size := Nat.pow_add ..
    _ ≤ p.minSize * 2 ^ p.getSlot size := Nat.mul_le_mul_right _ hb
    _ = p.slotsize (p.getSlot size) := (Nat.mod_eq_of_lt (p.fits _ h)).symm

structure Inv (p : Params) (s : St) : Prop where
  total : s.inPoolSize = (s.pool.map fun x => p.slotsize x.1).sum
  pooled : ∀ x ∈ s.pool, x.1 < p.nSlots ∧ x.2.len = p.slotsize x.1
  lent : ∀ x ∈ s.out, x.2 ≤ x.1.len ∧ (p.getSlot x.2 < p.nSlots → x.1.len = p.slotsize (p.getSlot x.2))
  nodup : s.blocks.Nodup

section
variable (hi : Inv p s)
include hi

lemma Inv.lend (hb : b.ptr ∉ s.blocks) (hs : size ≤ b.len)
    (hg : p.getSlot size < p.nSlots → b.len = p.slotsize (p.getSlot size)) :
    Inv p { s with out := (b, size) :: s.out } where
  total := hi.total
  pooled := hi.pooled
  lent := forall_mem_cons.2 ⟨⟨hs, hg⟩, hi.lent⟩
  nodup := nodup_middle.2 (nodup_cons.2 ⟨hb, hi.nodup⟩)

lemma Inv.create (mem : Option Nat) (hm : ∀ a ∈ mem, a ∉ s.blocks) (hs : size ≤ n)
    (hg : p.getSlot size < p.nSlots → n = p.slotsize (p.getSlot size)) : Inv p (s.create n size mem) := by
  cases mem with
  | none => exact hi
  | some a => exact hi.lend (hm a rfl) hs hg

lemma Inv.pop (hx : x ∈ s.pool) : Inv p (s.pop p x) ∧ x.2.ptr ∉ (s.pop p x).blocks := by
  have hp := perm_cons_erase hx
  have ht := hi.total.trans (hp.map _).sum_nat
  have hd : (x.2.ptr :: (s.pop p x).blocks).Nodup := ((hp.map _).append_right _).nodup_iff.1 hi.nodup
  rw [map_cons, sum_cons] at ht
  rw [nodup_cons] at hd
  refine ⟨⟨?_, fun y hy => hi.pooled y (mem_of_mem_erase hy), hi.lent, hd.2⟩, hd.1⟩
  dsimp only [St.pop]
  omega

lemma Inv.alloc (hs : size < 2 ^ 32) (mem : Option Nat) (hm : ∀ a ∈ mem, a ∉ s.blocks) :
    Inv p (s.alloc p size mem) := by
  simp only [St.alloc]
  split
  · rename_i hg
    exact hi.create mem hm le_rfl fun h => absurd h (not_lt.2 hg)
  rename_i hg
  have hle := le_slotsize hs (not_le.1 hg)
  split
  · rename_i x hx
    have hm := mem_of_find?_eq_some hx
    have hr : x.2.len = p.slotsize (p.getSlot size) := by
      rw [(hi.pooled x hm).2, show x.1 = _ by simpa using find?_some hx]
    exact (hi.pop hm).1.lend (hi.pop hm).2 (hr ▸ hle) fun _ => hr
  · exact hi.create mem hm hle fun _ => rfl

lemma Inv.dealloc (h : (b, size) ∈ s.out) : Inv p (s.dealloc p b size) ∧
    (s.inPoolSize < (s.dealloc p b size).inPoolSize → (s.dealloc p b size).inPoolSize < s.trimThreshold) := by
  have hp := ((perm_cons_erase h).map (·.1.ptr)).append_left (s.pool.map (·.2.ptr))
  have hd := (hp.trans perm_middle).nodup_iff.1 hi.nodup
  have hi' : Inv p { s with out := s.out.erase (b, size) } :=
    ⟨hi.total, hi.pooled, fun x hx => hi.lent x (mem_of_mem_erase hx), (nodup_cons.1 hd).2⟩
  simp only [St.dealloc]
  split
  · exact ⟨hi', fun h => absurd h (lt_irrefl _)⟩
  rename_i hg
  rw [not_or, not_le, not_le] at hg
  refine ⟨⟨?_, forall_mem_cons.2 ⟨⟨hg.1, (hi.lent _ h).2 hg.1⟩, hi.pooled⟩, hi'.lent, hd⟩, fun _ => hg.2⟩
  dsimp only
  rw [map_cons, sum_cons, ← hi.total, Nat.add_comm]

lemma Inv.empty (h : s.pool = []) (keep : Nat) : s.inPoolSize ≤ keep := by simp [hi.total, h]

/-- The last `c` slots that the loop has looked at were empty, and there are more than `c`. -/
lemma trimLoop_spec (keep : Nat) {fuel k c : Nat} (hc : c < p.nSlots) (hk : c ≤ k)
    (he : ∀ j < k, k ≤ j + c → ∀ x ∈ s.pool, x.1 ≠ j % p.nSlots) (hf : p.nSlots * s.pool.length ≤ fuel + c) :
    ∃ s', trimLoop p keep fuel (k % p.nSlots) s = some s' ∧ Inv p s' ∧ s'.inPoolSize ≤ keep := by
  induction fuel generalizing s k c with
  | zero =>
    have hp : s.pool = [] := by
      by_contra h
      have := Nat.mul_le_mul_left p.nSlots (length_pos_iff.2 h)
      omega
    exact ⟨s, by rw [trimLoop, if_pos (hi.empty hp keep)], hi, hi.empty hp keep⟩
  | succ fuel ih =>
    rw [trimLoop]
    split
    · rename_i h
      exact ⟨s, rfl, hi, h⟩
    rename_i hlt
    rw [Nat.mod_add_mod]
    cases hx : s.pool.find? (·.1 = k % p.nSlots) with
    | some x =>
      have hm := mem_of_find?_eq_some hx
      have hl : (s.pop p x).pool.length + 1 = s.pool.length := length_erase_add_one hm
      rw [← hl, Nat.mul_succ] at hf
      exact ih (hi.pop hm).1 p.slots (Nat.zero_le _) (fun j h1 h2 => by omega) (by omega)
    | none =>
      have he' : ∀ j < k + 1, k + 1 ≤ j + (c + 1) → ∀ x ∈ s.pool, x.1 ≠ j % p.nSlots := by
        intro j h1 h2
        rcases Nat.lt_succ_iff_lt_or_eq.1 h1 with h | rfl
        · exact he j h (by omega)
        · simpa using hx
      refine ih hi ?_ (by omega) he' (by omega)
      -- otherwise the loop has gone around once, and there is nothing in any slot
      by_contra hn
      refine hlt (hi.empty (eq_nil_iff_forall_not_mem.2 fun x hx => ?_) keep)
      have h1 := Nat.div_add_mod (k - x.1) p.nSlots
      have h2 := Nat.mod_lt (k - x.1) p.slots
      have hlt := (hi.pooled x hx).1
      refine he' (x.1 + p.nSlots * ((k - x.1) / p.nSlots)) (by omega) (by omega) x hx ?_
      rw [Nat.add_mul_mod_self_left, Nat.mod_eq_of_lt hlt]

lemma trim_spec (keep : Nat) : ∃ s', (machine p).step s (.trim keep) = some s' ∧ Inv p s' ∧ s'.inPoolSize ≤ keep := by
  have := trimLoop_spec hi keep p.slots le_rfl (fun j h => by omega) le_rfl
  rwa [Nat.zero_mod] at this

lemma step_inv {e : Ev} {s' : St} (he : (machine p).step s e = some s') : Inv p s' := by
  cases e with
  | alloc size mem =>
    obtain ⟨⟨-, hs, hm⟩, rfl⟩ := ite_some_none_eq_some.1 he
    exact hi.alloc hs mem hm
  | dealloc b size =>
    obtain ⟨h, rfl⟩ := ite_some_none_eq_some.1 he
    exact (hi.dealloc h).1
  | trim keep =>
    obtain ⟨r, hr, hi', -⟩ := trim_spec hi keep
    cases hr.symm.trans he
    exact hi'
  | threshold =>
    cases he
    exact ⟨hi.total, hi.pooled, hi.lent, hi.nodup⟩

end

/-- Whatever has been called: the blocks handed out are large enough and differ, and `in_pool_size` is the sum over the
pool; a `dealloc` that raises it stays below the threshold, and `trim` returns with at most `keep_size`. -/
theorem stack_pool_sound (p : Params) (es : List Ev) (hrun : (machine p).run es = some s) :
    (∀ x ∈ s.out, x.2 ≤ x.1.len) ∧ (s.out.map (·.1.ptr)).Nodup ∧
      s.inPoolSize = (s.pool.map fun x => p.slotsize x.1).sum ∧
      (∀ b size s', (machine p).step s (.dealloc b size) = some s' → s.inPoolSize < s'.inPoolSize →
        s'.inPoolSize < s.trimThreshold) ∧
      ∀ keep, ∃ s', (machine p).step s (.trim keep) = some s' ∧ s'.inPoolSize ≤ keep := by
  have h0 : Inv p {} := ⟨rfl, by simp, by simp, nodup_nil⟩
  have hi : Inv p s := Machine.run_inv h0 (fun h he => step_inv h he) hrun
  refine ⟨fun x hx => (hi.lent x hx).1, hi.nodup.of_append_right, hi.total, fun b size s' he hlt => ?_, fun keep => ?_⟩
  · obtain ⟨h, rfl⟩ := ite_some_none_eq_some.1 he
    exact (hi.dealloc h).2 hlt
  · obtain ⟨r, hr, -, hle⟩ := trim_spec hi keep
    exact ⟨r, hr, hle⟩

theorem stack_pool_sound_one : ∃ s, (machine .default).run [.alloc 5000 (some 1), .dealloc ⟨1, 8192⟩ 5000] = some s ∧
    s.inPoolSize = 8192 ∧ ∃ s', (machine .default).step s (.trim 0) = some s' ∧ s'.inPoolSize ≤ 0 :=
  ⟨_, rfl, rfl, (stack_pool_sound .default [.alloc 5000 (some 1), .dealloc ⟨1, 8192⟩ 5000] rfl).2.2.2.2 0⟩

end Photon.StackAllocator
