import Photon.Common.LockfreeBase
import Photon.Lib.Threads
/-!
# LockfreeBatchMPMCRingQueue

`push_batch` reserves positions at `tail`, copies into their slots and publishes them
at `write_head`; `pop_batch` reserves published positions at `read_tail`, copies out of
their slots and frees them at `head`. Publishing and freeing spin until the counter
has come to the first position of the batch, so both happen in the order of the
reservations. Each access to a counter and the copy of each element is a step.

`vals`, `pushed` and `popped` are not in the code: the values of the positions
reserved at `tail`, and those of the batches published and freed so far.
-/

namespace Photon.BatchQueue

open Lockfree List Function Option Nat

variable {α : Type}

structure Shared (α : Type) where
  tail : Nat := 0
  writeHead : Nat := 0
  readTail : Nat := 0
  head : Nat := 0
  slots : Nat → α
  vals : List α := []
  pushed : List α := []
  popped : List α := []

inductive Ret (α : Type) where
  | pushed (wn : Nat)
  | popped (xs : List α)

/-- Where a thread is; each constructor stands before the access it is named after. -/
inductive Pc (α : Type) where
  | idle (ret : Option (Ret α))
  | pushTail (xs : List α)
  | pushHead (xs : List α) (wt : Nat)
  | pushCas (xs : List α) (wt wn : Nat)
  /-- `i` elements are copied. -/
  | pushCopy (xs : List α) (wt wn i : Nat)
  | pushPublish (xs : List α) (wt wn : Nat)
  | popTail (n : Nat)
  | popHead (n rt : Nat)
  | popCas (n rt rn : Nat)
  | popCopy (rt rn : Nat) (got : List α)
  | popFree (rt rn : Nat) (got : List α)

inductive Ev (α : Type) where
  | pushBatch (xs : List α)
  | popBatch (n : Nat)
  | step

section Code
variable (k : Nat)

def advance (q : Shared α) : Pc α → Option (Shared α × Pc α)
  | .idle _ => none
  | .pushTail xs => some (q, .pushHead xs q.tail)
  | .pushHead xs wt =>
    let wn := min xs.length (sub64 (capacity k) (sub64 wt q.head))
    some (q, if wn = 0 then .idle (some (.pushed 0)) else .pushCas xs wt wn)
  | .pushCas xs wt wn =>
    if q.tail = wt then some ({ q with tail := wt + wn, vals := q.vals ++ xs.take wn }, .pushCopy xs wt wn 0)
    else some (q, .pushHead xs q.tail)
  | .pushCopy xs wt wn i =>
    match xs[i]? with
    | none => none
    | some x =>
      some ({ q with slots := update q.slots (copySlot k (idx k wt) wn i) x },
        if i + 1 = wn then .pushPublish xs wt wn else .pushCopy xs wt wn (i + 1))
  | .pushPublish xs wt wn =>
    if q.writeHead = wt then
      some ({ q with writeHead := wt + wn, pushed := q.pushed ++ xs.take wn }, .idle (some (.pushed wn)))
    else some (q, .pushPublish xs wt wn)
  | .popTail n => some (q, .popHead n q.readTail)
  | .popHead n rt =>
    let rn := min n (sub64 q.writeHead rt)
    some (q, if rn = 0 then .idle (some (.popped [])) else .popCas n rt rn)
  | .popCas n rt rn =>
    if q.readTail = rt then some ({ q with readTail := rt + rn }, .popCopy rt rn [])
    else some (q, .popHead n q.readTail)
  | .popCopy rt rn got =>
    let got' := got ++ [q.slots (copySlot k (idx k rt) rn got.length)]
    some (q, if got'.length = rn then .popFree rt rn got' else .popCopy rt rn got')
  | .popFree rt rn got =>
    if q.head = rt then some ({ q with head := rt + rn, popped := q.popped ++ got }, .idle (some (.popped got)))
    else some (q, .popFree rt rn got)

def next (q : Shared α) (p : Pc α) : Ev α → Option (Shared α × Pc α)
  | .pushBatch xs =>
    match p with
    | .idle _ => some (q, .pushTail xs)
    | _ => none
  | .popBatch n =>
    match p with
    | .idle _ => some (q, .popTail n)
    | _ => none
  | .step => advance k q p

def machine (slots : Nat → α) : Machine (Threads (Shared α) (Pc α)) (Nat × Ev α) :=
  Threads.machine { slots := slots } (.idle none) (fun _ p => p) (next k)

end Code

/-! ## The invariant -/

variable {k : Nat} {q q' : Shared α}

/-- The positions from `head` to `write_head` have their values in their slots. -/
structure Good (k : Nat) (q : Shared α) : Prop where
  head_le : q.head ≤ q.readTail
  readTail_le : q.readTail ≤ q.writeHead
  writeHead_le : q.writeHead ≤ q.tail
  tail_le : q.tail ≤ q.head + capacity k
  length : q.vals.length = q.tail
  pushed : q.pushed = q.vals.take q.writeHead
  popped : q.popped = q.vals.take q.head
  stored : ∀ i, q.head ≤ i → i < q.writeHead → q.vals[i]? = some (q.slots (idx k i))

/-- A push that has reserved its positions, and has copied `i` elements. -/
structure Filling (k : Nat) (q : Shared α) (xs : List α) (wt wn i : Nat) : Prop where
  writeHead_le : q.writeHead ≤ wt
  le_tail : wt + wn ≤ q.tail
  le_length : wn ≤ xs.length
  vals : slice q.vals wt wn = xs.take wn
  copied : ∀ j < i, xs[j]? = some (q.slots (idx k (wt + j)))

structure Draining (q : Shared α) (rt rn : Nat) (got : List α) : Prop where
  head_le : q.head ≤ rt
  le_readTail : rt + rn ≤ q.readTail
  got : got = slice q.vals rt got.length

/-- What a thread knows; a counter it has loaded may be stale. -/
def Knows (k : Nat) (q : Shared α) : Pc α → Prop
  | .pushHead _ wt => wt ≤ q.tail ∧ wt ≤ q.head + capacity k
  | .pushCas xs wt wn => 0 < wn ∧ wn ≤ xs.length ∧ (wt < q.tail ∨ wt + wn ≤ q.head + capacity k)
  | .pushCopy xs wt wn i => i < wn ∧ Filling k q xs wt wn i
  | .pushPublish xs wt wn => 0 < wn ∧ Filling k q xs wt wn wn
  | .popHead _ rt => rt ≤ q.readTail
  | .popCas _ rt rn => 0 < rn ∧ rt + rn ≤ q.writeHead
  | .popCopy rt rn got => got.length < rn ∧ Draining q rt rn got
  | .popFree rt rn got => 0 < rn ∧ got.length = rn ∧ Draining q rt rn got
  | .idle _ | .pushTail _ | .popTail _ => True

/-- The positions a push has reserved and not published: the first one, and how many. -/
def Pc.filling : Pc α → Option (Nat × Nat)
  | .pushCopy _ wt wn _ | .pushPublish _ wt wn => some (wt, wn)
  | _ => none

def Pc.draining : Pc α → Option (Nat × Nat)
  | .popCopy rt rn _ | .popFree rt rn _ => some (rt, rn)
  | _ => none

/-- Two batches have no position in common. -/
def Separate (r r' : Option (Nat × Nat)) : Prop :=
  ∀ a n b m, r = some (a, n) → r' = some (b, m) → a + n ≤ b ∨ b + m ≤ a

/-- What a step of a thread with the batches `fill` and `drain` leaves alone. -/
structure Rely (k : Nat) (fill drain : Option (Nat × Nat)) (q q' : Shared α) : Prop where
  tail_le : q.tail ≤ q'.tail
  head_le : q.head ≤ q'.head
  readTail_le : q.readTail ≤ q'.readTail
  writeHead_le : q.writeHead ≤ q'.writeHead
  vals : ∃ l, q'.vals = q.vals ++ l
  writeHead : q'.writeHead = q.writeHead ∨ ∃ n, fill = some (q.writeHead, n) ∧ q'.writeHead = q.writeHead + n
  head : q'.head = q.head ∨ ∃ n, drain = some (q.head, n) ∧ q'.head = q.head + n
  slots : ∀ i, q.writeHead ≤ i → i < q.tail → (∀ a n, fill = some (a, n) → i < a ∨ a + n ≤ i) →
    q'.slots (idx k i) = q.slots (idx k i)

open Rely

lemma Rely.refl (k : Nat) (fill drain : Option (Nat × Nat)) (q : Shared α) : Rely k fill drain q q where
  tail_le := le_rfl
  head_le := le_rfl
  readTail_le := le_rfl
  writeHead_le := le_rfl
  vals := ⟨[], (append_nil _).symm⟩
  writeHead := .inl rfl
  head := .inl rfl
  slots := fun _ _ _ _ => rfl

variable {drain r r' : Option (Nat × Nat)} {xs got : List α} {wn rn a n : Nat} {p p' : Pc α}

lemma Filling.stable {fill : Option (Nat × Nat)} {wt i : Nat} (hg : Good k q)
    (hr : Rely k fill drain q q') (hd : Separate fill (some (wt, wn))) (hi : i ≤ wn) (hn : 0 < wn)
    (h : Filling k q xs wt wn i) : Filling k q' xs wt wn i where
  writeHead_le := by
    have h1 := h.writeHead_le
    rcases hr.writeHead with he | ⟨n, hf, he⟩
    · omega
    · -- the batch that was published lies before this one
      have := hd _ _ _ _ hf rfl
      omega
  le_tail := le_trans h.le_tail hr.tail_le
  le_length := h.le_length
  vals := by
    obtain ⟨l, hl⟩ := hr.vals
    rw [hl, slice_append (by rw [hg.length]; exact h.le_tail), h.vals]
  copied := by
    intro j hj
    have h1 := h.writeHead_le
    have h2 := h.le_tail
    rw [hr.slots (wt + j) (by omega) (by omega), h.copied j hj]
    intro a n hf
    have := hd _ _ _ _ hf rfl
    omega

lemma Draining.stable {fill : Option (Nat × Nat)} {rt : Nat} (hg : Good k q)
    (hr : Rely k fill drain q q') (hd : Separate drain (some (rt, rn))) (hgo : got.length ≤ rn) (hn : 0 < rn)
    (h : Draining q rt rn got) : Draining q' rt rn got where
  head_le := by
    have h1 := h.head_le
    rcases hr.head with he | ⟨n, hf, he⟩
    · omega
    · have := hd _ _ _ _ hf rfl
      omega
  le_readTail := le_trans h.le_readTail hr.readTail_le
  got := by
    obtain ⟨l, hl⟩ := hr.vals
    have h1 := h.le_readTail
    have h2 := hg.readTail_le
    have h3 := hg.writeHead_le
    have h4 := hg.length
    rw [hl, slice_append (by omega)]
    exact h.got

lemma Knows.stable {fill : Option (Nat × Nat)} (hg : Good k q) (hr : Rely k fill drain q q')
    (hf : Separate fill p.filling) (hd : Separate drain p.draining) (h : Knows k q p) : Knows k q' p := by
  have ht := hr.tail_le
  have hh := hr.head_le
  cases p with
  | idle | pushTail | popTail => trivial
  | pushHead => exact ⟨le_trans h.1 ht, by have := h.2; omega⟩
  | pushCas =>
    obtain ⟨h1, h2, h3⟩ := h
    exact ⟨h1, h2, by omega⟩
  | pushCopy => exact ⟨h.1, h.2.stable hg hr hf (le_of_lt h.1) (by have := h.1; omega)⟩
  | pushPublish => exact ⟨h.1, h.2.stable hg hr hf le_rfl h.1⟩
  | popHead => exact le_trans h hr.readTail_le
  | popCas => exact ⟨h.1, le_trans h.2 hr.writeHead_le⟩
  | popCopy => exact ⟨h.1, h.2.stable hg hr hd (le_of_lt h.1) (by have := h.1; omega)⟩
  | popFree => exact ⟨h.1, h.2.1, h.2.2.stable hg hr hd (le_of_eq h.2.1) h.1⟩

/-! ## What a step does to the shared state -/

section
variable (hg : Good k q)
include hg

lemma Good.reserve (hle : wn ≤ xs.length) (hf : q.tail + wn ≤ q.head + capacity k)
    (hq : q' = { q with tail := q.tail + wn, vals := q.vals ++ xs.take wn }) :
    Good k q' ∧ Filling k q' xs q.tail wn 0 ∧ Rely k none none q q' := by
  subst hq
  have hl := hg.length
  have h1 := hg.head_le
  have h2 := hg.readTail_le
  have h3 := hg.writeHead_le
  refine ⟨?_, ?_, ?_⟩
  · exact {
      head_le := h1
      readTail_le := h2
      writeHead_le := le_trans h3 (le_add_right _ _)
      tail_le := hf
      length := by simp only [length_append, length_take]; omega
      pushed := by
        dsimp only
        rw [take_append_of_le_length (by omega), hg.pushed]
      popped := by
        dsimp only
        rw [take_append_of_le_length (by omega), hg.popped]
      stored := by
        intro i hi hw
        dsimp only at hw
        rw [getElem?_append_left (by omega)]
        exact hg.stored i hi hw }
  · exact {
      writeHead_le := h3
      le_tail := le_rfl
      le_length := hle
      vals := by rw [slice, ← hl, drop_left, take_of_length_le (length_take_le ..)]
      copied := fun j hj => absurd hj (not_lt_zero j) }
  · exact { refl k none none q with
      tail_le := le_add_right _ _
      vals := ⟨_, rfl⟩
      slots := fun _ _ _ _ => rfl }

lemma Good.fill {wt i : Nat} {x : α} (hf : Filling k q xs wt wn i) (hi : i < wn) (hx : xs[i]? = some x)
    (hq : q' = { q with slots := update q.slots (idx k (wt + i)) x }) :
    Good k q' ∧ Filling k q' xs wt wn (i + 1) ∧ Rely k (some (wt, wn)) drain q q' := by
  subst hq
  have h1 := hf.writeHead_le
  have h2 := hf.le_tail
  have h3 := hg.tail_le
  have h4 := hg.head_le
  have h5 := hg.readTail_le
  -- every other position between `head` and `tail` has another slot
  have hot : ∀ j, q.head ≤ j → j < q.tail → j ≠ wt + i →
      update q.slots (idx k (wt + i)) x (idx k j) = q.slots (idx k j) := by
    intro j hj hj' hn
    refine update_of_ne ?_ _ _
    rcases lt_or_gt_of_ne hn with hlt | hgt
    · exact idx_ne hlt (by omega)
    · exact (idx_ne hgt (by omega)).symm
  refine ⟨{ hg with stored := ?_ }, { hf with copied := ?_ }, { refl k (some (wt, wn)) drain q with slots := ?_ }⟩
  · intro j hj hw
    dsimp only at hj hw ⊢
    rw [hot j hj (by omega) (by omega)]
    exact hg.stored j hj hw
  · intro j hj
    dsimp only
    rcases lt_or_eq_of_le (le_of_lt_succ hj) with hlt | rfl
    · rw [hot (wt + j) (by omega) (by omega) (by omega)]
      exact hf.copied j hlt
    · rw [update_self]
      exact hx
  · intro j hj hj' ho
    have := ho _ _ rfl
    exact hot j (by omega) hj' (by omega)

lemma Good.publish (hf : Filling k q xs q.writeHead wn wn)
    (hq : q' = { q with writeHead := q.writeHead + wn, pushed := q.pushed ++ xs.take wn }) :
    Good k q' ∧ Rely k (some (q.writeHead, wn)) drain q q' := by
  subst hq
  have h2 := hf.le_tail
  refine ⟨?_, ?_⟩
  · exact { hg with
      readTail_le := le_trans hg.readTail_le (le_add_right _ _)
      writeHead_le := h2
      pushed := by rw [hg.pushed, ← hf.vals, take_add_slice]
      stored := by
        intro i hi hw
        dsimp only at hi hw ⊢
        rcases lt_or_ge i q.writeHead with hlt | hge
        · exact hg.stored i hi hlt
        obtain ⟨j, rfl⟩ := Nat.exists_eq_add_of_le hge
        have hj : j < wn := by omega
        rw [← slice_getElem? hj, hf.vals, getElem?_take_of_lt hj]
        exact hf.copied j hj }
  · exact { refl k (some (q.writeHead, wn)) drain q with
      writeHead_le := le_add_right _ _
      writeHead := .inr ⟨wn, rfl, rfl⟩
      slots := fun _ _ _ _ => rfl }

lemma Good.take (h : q.readTail + rn ≤ q.writeHead) (hq : q' = { q with readTail := q.readTail + rn }) :
    Good k q' ∧ Draining q' q.readTail rn [] ∧ Rely k none none q q' := by
  subst hq
  refine ⟨?_, ⟨hg.head_le, le_rfl, by simp [slice]⟩, ?_⟩
  · exact { hg with head_le := le_trans hg.head_le (le_add_right _ _), readTail_le := h }
  · exact { refl k none none q with readTail_le := le_add_right _ _, slots := fun _ _ _ _ => rfl }

lemma Draining.read {rt : Nat} (hd : Draining q rt rn got) (hlt : got.length < rn) :
    Draining q rt rn (got ++ [q.slots (idx k (rt + got.length))]) := by
  have h1 := hd.head_le
  have h2 := hd.le_readTail
  have h3 := hg.readTail_le
  have hs := hg.stored (rt + got.length) (by omega) (by omega)
  refine { hd with got := ?_ }
  have hsu : slice q.vals rt (got.length + 1) = slice q.vals rt got.length ++ [q.slots (idx k (rt + got.length))] := by
    rw [slice, take_add_one, getElem?_drop, hs]
    rfl
  rw [length_append, length_singleton, hsu, ← hd.got]

lemma Good.free {fill : Option (Nat × Nat)} (hgo : got.length = rn) (hd : Draining q q.head rn got)
    (hq : q' = { q with head := q.head + rn, popped := q.popped ++ got }) :
    Good k q' ∧ Rely k fill (some (q.head, rn)) q q' := by
  subst hq
  have h2 := hd.le_readTail
  refine ⟨?_, ?_⟩
  · exact { hg with
      head_le := h2
      tail_le := by have := hg.tail_le; dsimp only; omega
      popped := by
        have h := hd.got
        rw [hgo] at h
        rw [hg.popped, h, take_add_slice]
      stored := fun i hi hw => hg.stored i (le_trans (le_add_right _ _) hi) hw }
  · exact { refl k fill (some (q.head, rn)) q with
      head_le := le_add_right _ _
      head := .inr ⟨rn, rfl, rfl⟩
      slots := fun _ _ _ _ => rfl }

end

/-! ## Every step -/

lemma Knows.filling_le (h : Knows k q p) (hf : p.filling = some (a, n)) : a + n ≤ q.tail := by
  cases p with
  | pushCopy xs wt wn i | pushPublish xs wt wn =>
    cases hf
    exact h.2.le_tail
  | _ => cases hf

lemma Knows.draining_le (h : Knows k q p) (hf : p.draining = some (a, n)) : a + n ≤ q.readTail := by
  cases p with
  | popCopy =>
    cases hf
    exact h.2.le_readTail
  | popFree =>
    cases hf
    exact h.2.2.le_readTail
  | _ => cases hf

/-- A step that leaves `q'` and goes to `p'` is good if it keeps the shared state, the thread knows what it needs, the
others can rely on it, and its batch is the one it had or one that nobody has. -/
structure Keeps (k : Nat) (q : Shared α) (p : Pc α) (q' : Shared α) (p' : Pc α) : Prop where
  good : Good k q'
  knows : Knows k q' p'
  rely : Rely k p.filling p.draining q q'
  filling : ∀ r, p'.filling = some r → p.filling = some r ∨ q.tail ≤ r.1
  draining : ∀ r, p'.draining = some r → p.draining = some r ∨ q.readTail ≤ r.1

lemma Keeps.load (hg : Good k q) (h : Knows k q p') (hf : p'.filling = none) (hd : p'.draining = none) :
    Keeps k q p q p' :=
  ⟨hg, h, refl k _ _ q, (fun _ hr => by cases hf.symm.trans hr), (fun _ hr => by cases hd.symm.trans hr)⟩

lemma advance_keeps (hk : k ≤ 63) (hg : Good k q) (hl : Knows k q p)
    (h : advance k q p = some (q', p')) : Keeps k q p q' p' := by
  have hca : capacity k < 2 ^ 64 := Nat.pow_lt_pow_right (by decide) (by omega)
  cases p with
  | idle => cases h
  | pushTail =>
    cases h
    exact .load hg ⟨le_refl q.tail, hg.tail_le⟩ rfl rfl
  | pushHead xs wt =>
    obtain ⟨h1, h2⟩ := hl
    simp only [advance, some.injEq, Prod.mk.injEq] at h
    obtain ⟨rfl, rfl⟩ := h
    split
    · exact .load hg trivial rfl rfl
    next hn =>
    refine .load hg ⟨by omega, by omega, ?_⟩ rfl rfl
    -- a stale `wt` behind `head` makes the subtraction wrap, but then `tail` has moved on
    rcases lt_or_ge wt q.head with hlt | hge
    · have h3 := hg.head_le
      have h4 := hg.readTail_le
      have h5 := hg.writeHead_le
      exact .inl (by omega)
    · have hsu := sub64_eq hge (by omega)
      have hroom := sub64_le (show sub64 wt q.head ≤ capacity k by omega)
      exact .inr (by omega)
  | pushCas =>
    obtain ⟨h1, h2, h3⟩ := hl
    simp only [advance] at h
    split at h
    next ht =>
      cases h
      subst ht
      obtain ⟨hg', hf, hr⟩ := hg.reserve h2 (by omega) rfl
      refine ⟨hg', ⟨h1, hf⟩, hr, fun r hr => .inr ?_, nofun⟩
      cases hr
      exact le_rfl
    · cases h
      exact .load hg ⟨le_refl q.tail, hg.tail_le⟩ rfl rfl
  | pushCopy =>
    obtain ⟨h1, hf⟩ := hl
    simp only [advance] at h
    split at h
    · cases h
    next x hx =>
    have h2 := hf.writeHead_le
    have h3 := hf.le_tail
    have h4 := hg.head_le
    have h5 := hg.readTail_le
    have h6 := hg.tail_le
    rw [copySlot_eq h1 (by omega), some.injEq, Prod.mk.injEq] at h
    obtain ⟨rfl, rfl⟩ := h
    obtain ⟨hg', hf', hr⟩ := hg.fill hf h1 hx rfl
    split
    next hla =>
      exact ⟨hg', ⟨by omega, hla ▸ hf'⟩, hr, fun r hr => .inl hr, nofun⟩
    · exact ⟨hg', ⟨by omega, hf'⟩, hr, fun r hr => .inl hr, nofun⟩
  | pushPublish =>
    obtain ⟨h1, hf⟩ := hl
    simp only [advance] at h
    split at h
    next hw =>
      cases h
      subst hw
      obtain ⟨hg', hr⟩ := hg.publish hf rfl
      exact ⟨hg', trivial, hr, nofun, nofun⟩
    · cases h
      exact ⟨hg, ⟨h1, hf⟩, refl k _ _ q, fun r hr => .inl hr, nofun⟩
  | popTail =>
    cases h
    exact .load hg le_rfl rfl rfl
  | popHead n rt =>
    simp only [advance, some.injEq, Prod.mk.injEq] at h
    obtain ⟨rfl, rfl⟩ := h
    split
    · exact .load hg trivial rfl rfl
    next hn =>
    have h1 : rt ≤ q.writeHead := le_trans hl hg.readTail_le
    have h2 := sub64_le h1
    exact .load hg ⟨by omega, by omega⟩ rfl rfl
  | popCas =>
    obtain ⟨h1, h2⟩ := hl
    simp only [advance] at h
    split at h
    next ht =>
      cases h
      subst ht
      obtain ⟨hg', hd, hr⟩ := hg.take h2 rfl
      refine ⟨hg', ⟨h1, hd⟩, hr, nofun, fun r hr => .inr ?_⟩
      cases hr
      exact le_rfl
    · cases h
      exact .load hg le_rfl rfl rfl
  | popCopy =>
    obtain ⟨h1, hd⟩ := hl
    have h2 := hd.head_le
    have h3 := hd.le_readTail
    have h4 := hg.readTail_le
    have h5 := hg.writeHead_le
    have h6 := hg.tail_le
    simp only [advance] at h
    rw [copySlot_eq h1 (by omega), some.injEq, Prod.mk.injEq] at h
    obtain ⟨rfl, rfl⟩ := h
    have hd' := hd.read hg h1
    split
    next hla =>
      exact ⟨hg, ⟨by omega, hla, hd'⟩, refl k _ _ q, nofun, fun r hr => .inl hr⟩
    next hla =>
    refine ⟨hg, ⟨?_, hd'⟩, refl k _ _ q, nofun, fun r hr => .inl hr⟩
    rw [length_append, length_singleton] at hla ⊢
    omega
  | popFree =>
    obtain ⟨h1, h2, hd⟩ := hl
    simp only [advance] at h
    split at h
    next hw =>
      cases h
      subst hw
      obtain ⟨hg', hr⟩ := hg.free h2 hd rfl
      exact ⟨hg', trivial, hr, nofun, nofun⟩
    · cases h
      exact ⟨hg, ⟨h1, h2, hd⟩, refl k _ _ q, nofun, fun r hr => .inl hr⟩

lemma next_keeps (hk : k ≤ 63) (hg : Good k q) {e : Ev α} (hl : Knows k q p)
    (h : next k q p e = some (q', p')) : Keeps k q p q' p' := by
  cases e with
  | pushBatch xs | popBatch n =>
    simp only [next] at h
    split at h <;> cases h
    exact .load hg trivial rfl rfl
  | step => exact advance_keeps hk hg hl h

lemma good_init (slots : Nat → α) : Good k { slots := slots } where
  head_le := le_rfl
  readTail_le := le_rfl
  writeHead_le := le_rfl
  tail_le := zero_le _
  length := rfl
  pushed := rfl
  popped := rfl
  stored := fun i _ hi => absurd hi (not_lt_zero i)

def Apart (p r : Pc α) : Prop := Separate p.filling r.filling ∧ Separate p.draining r.draining

lemma Separate.symm (h : Separate r r') : Separate r' r := fun a n b m ha hb => (h b m a n hb ha).symm

lemma Separate.keeps {s : Option (Nat × Nat)} {top : Nat} (h : Separate r s)
    (hr : ∀ x, r' = some x → r = some x ∨ top ≤ x.1) (hs : ∀ a n, s = some (a, n) → a + n ≤ top) : Separate r' s := by
  intro a n b m ha hb
  rcases hr (a, n) ha with ho | hn
  · exact h a n b m ho hb
  · exact .inr (le_trans (hs b m hb) hn)

lemma machine_inv (hk : k ≤ 63) {slots : Nat → α} {es : List (Nat × Ev α)} {s : Threads (Shared α) (Pc α)}
    (h : (machine k slots).run es = some s) : Threads.Holds (Good k) (Knows k) Apart s := by
  refine Threads.threads_inv (fun p r hx => ⟨hx.1.symm, hx.2.symm⟩) (fun _ _ _ hx => hx) (good_init slots) trivial
    ⟨nofun, nofun⟩ ?_ h
  intro q p e q' p' hg hl hn
  have hke := next_keeps hk hg hl hn
  refine ⟨hke.good, hke.knows, fun r hr hx => ⟨hr.stable hg hke.rely hx.1 hx.2, ?_, ?_⟩⟩
  · exact hx.1.keeps hke.filling fun a n => hr.filling_le
  · exact hx.2.keeps hke.draining fun a n => hr.draining_le

/-- The slots of a batch of `n` from position `a` on, as they are copied. -/
def batchSlots (k : Nat) : Option (Nat × Nat) → List Nat
  | none => []
  | some (a, n) => (range n).map (copySlot k (idx k a) n)

/-- The slots a thread writes until it publishes them. -/
def Pc.writes (k : Nat) (p : Pc α) : List Nat := batchSlots k p.filling

/-- The slots a thread reads until it frees them. -/
def Pc.reads (k : Nat) (p : Pc α) : List Nat := batchSlots k p.draining

lemma Knows.le_filling (h : Knows k q p) (hf : p.filling = some (a, n)) : q.writeHead ≤ a := by
  cases p with
  | pushCopy xs wt wn i | pushPublish xs wt wn =>
    cases hf
    exact h.2.writeHead_le
  | _ => cases hf

lemma Knows.le_draining (h : Knows k q p) (hf : p.draining = some (a, n)) : q.head ≤ a := by
  cases p with
  | popCopy =>
    cases hf
    exact h.2.head_le
  | popFree =>
    cases hf
    exact h.2.2.head_le
  | _ => cases hf

lemma mem_batchSlots {j : Nat} (hn : ∀ a n, r = some (a, n) → n ≤ capacity k)
    (h : j ∈ batchSlots k r) : ∃ a n i, r = some (a, n) ∧ i < n ∧ j = idx k (a + i) := by
  match r with
  | none => cases h
  | some (a, n) =>
    obtain ⟨i, hi, rfl⟩ := mem_map.1 h
    have hi := mem_range.1 hi
    exact ⟨a, n, i, rfl, hi, copySlot_eq hi (hn a n rfl)⟩

/-- The slots being written are not being read: they are of positions from `write_head` on, less than a round after
those that are read. -/
lemma writes_not_reads (hg : Good k q) {r : Pc α} (hp : Knows k q p) (hr : Knows k q r) {j : Nat}
    (hw : j ∈ p.writes k) : j ∉ r.reads k := by
  intro hre
  have h1 := hg.head_le
  have h2 := hg.readTail_le
  have h3 := hg.writeHead_le
  have h4 := hg.tail_le
  obtain ⟨a, n, i, hf, hi, rfl⟩ := mem_batchSlots (fun a n hf => by
    have := hp.filling_le hf
    have := hp.le_filling hf
    omega) hw
  obtain ⟨b, m, l, hd, hl, he⟩ := mem_batchSlots (fun b m hd => by
    have := hr.draining_le hd
    have := hr.le_draining hd
    omega) hre
  have ha := hp.le_filling hf
  have ha' := hp.filling_le hf
  have hb := hr.le_draining hd
  have hb' := hr.draining_le hd
  exact idx_ne (show b + l < a + i by omega) (by omega) he.symm

/-- After every run: the order of the counters; no slot that a push is writing is one that a pop is reading; and what
was popped is what was reserved first, in that order, as is what was published. -/
theorem batch_queue {k : Nat} (hk : k ≤ 63) {slots : Nat → α} {es : List (Nat × Ev α)}
    {s : Threads (Shared α) (Pc α)} (h : (machine k slots).run es = some s) :
    (s.shared.head ≤ s.shared.readTail ∧ s.shared.readTail ≤ s.shared.writeHead ∧ s.shared.writeHead ≤ s.shared.tail ∧
      s.shared.tail ≤ s.shared.head + capacity k) ∧
      (∀ t u j, j ∈ (s.thread t).writes k → j ∉ (s.thread u).reads k) ∧
      s.shared.vals.length = s.shared.tail ∧ s.shared.pushed = s.shared.vals.take s.shared.writeHead ∧
      s.shared.popped = s.shared.vals.take s.shared.head ∧ s.shared.popped <+: s.shared.pushed := by
  obtain ⟨hg, hl, -⟩ := machine_inv hk h
  refine ⟨⟨hg.head_le, hg.readTail_le, hg.writeHead_le, hg.tail_le⟩, fun t u j => writes_not_reads hg (hl t) (hl u),
    hg.length, hg.pushed, hg.popped, ?_⟩
  rw [hg.popped, hg.pushed]
  exact take_prefix_take_left (le_trans hg.head_le hg.readTail_le)

/-- On a ring of two slots, the second batch has a value in the last slot and one in the first; two pops take them all.
-/
def acrossTheEnd : List (Nat × Ev Nat) :=
  [(1, .pushBatch [4]), (1, .step), (1, .step), (1, .step), (1, .step), (1, .step),
    (2, .popBatch 3), (2, .step), (2, .step), (2, .step), (1, .pushBatch [5, 6]), (1, .step), (2, .step), (2, .step),
    (1, .step), (1, .step), (1, .step), (1, .step), (1, .step), (2, .popBatch 3), (2, .step), (2, .step), (2, .step),
    (2, .step), (2, .step), (2, .step)]

theorem batch_queue_acrossTheEnd :
    ∃ s, (machine 1 fun _ => 0).run acrossTheEnd = some s ∧ s.shared.popped = [4, 5, 6] ∧
      s.shared.popped = s.shared.vals.take s.shared.head ∧ s.shared.popped <+: s.shared.pushed := by
  have hr : (machine 1 fun _ => 0).run acrossTheEnd = some _ := rfl
  obtain ⟨-, -, -, -, h1, h2⟩ := batch_queue (by decide) hr
  exact ⟨_, hr, by decide +kernel, h1, h2⟩

end Photon.BatchQueue
