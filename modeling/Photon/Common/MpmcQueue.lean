import Mathlib.Data.List.Perm.Subperm
import Photon.Common.LockfreeBase
import Photon.Lib.Threads
/-!
# LockfreeMPMCRingQueue

`push` takes a position at `tail` and `pop` one at `head`, each by a
compare-exchange, and the mark of the slot says whose turn it is: `2 * turn` is free
for the push of that round, `2 * turn + 1` is written, `2 * turn + 2` is read. Each
load, store and compare-exchange is a step of its own; counters do not wrap.

`vals`, `pushes`, `pops` and `leaves` are not in the code: the value of each position
taken at `tail`, the positions and values of the calls that returned true, and the
positions in the order they were taken at `head`. A thread records whether the queue
was full, and whether it was empty, at some moment of its call.

Between taking a position and storing the mark a thread owns the slot. What the
others may rely on meanwhile is `Rely`.
-/

namespace Photon.Mpmc

open Lockfree List Function Prod Option Nat

variable {α : Type}

structure Shared (α : Type) where
  tail : Nat := 0
  head : Nat := 0
  data : Nat → α
  mark : Nat → Nat := fun _ => 0
  vals : List α := []
  pushes : List (Nat × α) := []
  pops : List (Nat × α) := []
  leaves : List Nat := []

def thisTurnWrite (k x : Nat) : Nat := (turn k x <<< 1) + 1

def thisTurnRead (k x : Nat) : Nat := (turn k x <<< 1) + 2

def lastTurnRead (k x : Nat) : Nat := turn k x <<< 1

inductive Ret (α : Type) where
  | pushed (ok : Bool)
  | popped (x : Option α)

/-- Where a thread is; each constructor stands before the access it is named after. -/
inductive Pc (α : Type) where
  | idle (ret : Option (Ret α))
  | pushStart (x : α)
  | pushMark (x : α) (t : Nat)
  | pushCas (x : α) (t : Nat)
  | pushHead (x : α) (prevTail : Nat)
  | pushTail (x : α) (prevTail h : Nat)
  | pushData (x : α) (t : Nat)
  | pushStore (x : α) (t : Nat)
  | popStart
  | popMark (h : Nat)
  | popCas (h : Nat)
  | popTail (prevHead : Nat)
  | popHead (prevHead t : Nat)
  | popData (h : Nat)
  | popStore (h : Nat) (x : α)

structure Thread (α : Type) where
  pc : Pc α := .idle none
  wasFull : Bool := false
  wasEmpty : Bool := false

inductive Ev (α : Type) where
  | push (x : α)
  | pop
  | step

section Code
variable (k : Nat)

def advance (q : Shared α) : Pc α → Option (Shared α × Pc α)
  | .idle _ => none
  | .pushStart x => some (q, .pushMark x q.tail)
  | .pushMark x t => some (q, if q.mark (idx k t) = lastTurnRead k t then .pushCas x t else .pushHead x t)
  | .pushCas x t =>
    if q.tail = t then some ({ q with tail := t + 1, vals := q.vals ++ [x] }, .pushData x t)
    else some (q, .pushMark x q.tail)
  | .pushHead x prevTail => some (q, .pushTail x prevTail q.head)
  | .pushTail x prevTail h =>
    some (q, if q.tail = prevTail ∧ checkFull k h q.tail then .idle (some (.pushed false)) else .pushMark x q.tail)
  | .pushData x t => some ({ q with data := update q.data (idx k t) x }, .pushStore x t)
  | .pushStore x t =>
    some ({ q with mark := update q.mark (idx k t) (thisTurnWrite k t), pushes := q.pushes ++ [(t, x)] },
      .idle (some (.pushed true)))
  | .popStart => some (q, .popMark q.head)
  | .popMark h => some (q, if q.mark (idx k h) = thisTurnWrite k h then .popCas h else .popTail h)
  | .popCas h =>
    if q.head = h then some ({ q with head := h + 1, leaves := q.leaves ++ [h] }, .popData h)
    else some (q, .popMark q.head)
  | .popTail prevHead => some (q, .popHead prevHead q.tail)
  | .popHead prevHead t =>
    some (q, if q.head = prevHead ∧ checkEmpty q.head t then .idle (some (.popped none)) else .popMark q.head)
  | .popData h => some (q, .popStore h (q.data (idx k h)))
  | .popStore h x =>
    some ({ q with mark := update q.mark (idx k h) (thisTurnRead k h), pops := q.pops ++ [(h, x)] },
      .idle (some (.popped (some x))))

def next (q : Shared α) (th : Thread α) : Ev α → Option (Shared α × Thread α)
  | .push x =>
    match th.pc with
    | .idle _ => some (q, { pc := .pushStart x })
    | _ => none
  | .pop =>
    match th.pc with
    | .idle _ => some (q, { pc := .popStart })
    | _ => none
  | .step => (advance k q th.pc).map fun r => (r.1, { th with pc := r.2 })

/-- The positions taken at `tail` and not yet at `head` are as many as there are slots. -/
def Shared.full (q : Shared α) : Bool := q.tail = q.head + capacity k

def Shared.empty (q : Shared α) : Bool := q.tail = q.head

/-- A thread in a call sees whether the queue is full or empty. -/
def observe (q : Shared α) (th : Thread α) : Thread α :=
  match th.pc with
  | .idle _ => th
  | _ => { th with wasFull := th.wasFull || q.full k, wasEmpty := th.wasEmpty || q.empty }

def machine (data : Nat → α) : Machine (Threads (Shared α) (Thread α)) (Nat × Ev α) :=
  Threads.machine { data := data } {} (observe k) (next k)

end Code

/-! ## The invariant -/

section Inv
variable {k : Nat} {q q' : Shared α}

lemma lastTurnRead_eq (k x : Nat) : lastTurnRead k x = 2 * turn k x := by
  rw [lastTurnRead, shiftLeft_eq, mul_comm]

lemma thisTurnWrite_eq (k x : Nat) : thisTurnWrite k x = 2 * turn k x + 1 := by
  rw [thisTurnWrite, shiftLeft_eq, mul_comm]

lemma thisTurnRead_eq (k x : Nat) : thisTurnRead k x = 2 * turn k x + 2 := by
  rw [thisTurnRead, shiftLeft_eq, mul_comm]

/-- The shared state. A position is written once the mark of its slot is past `2 * turn`, and read once it is past
`2 * turn + 1`. -/
structure Good (k : Nat) (q : Shared α) : Prop where
  head_le : q.head ≤ q.tail
  tail_le : q.tail ≤ q.head + capacity k
  length : q.vals.length = q.tail
  unwritten : ∀ i, q.tail ≤ i → q.mark (idx k i) ≤ 2 * turn k i
  unread : ∀ i, q.head ≤ i → q.mark (idx k i) ≤ 2 * turn k i + 1
  stored : ∀ i x, q.vals[i]? = some x → q.mark (idx k i) = 2 * turn k i + 1 → q.data (idx k i) = x
  written : ∀ i x, q.vals[i]? = some x → 2 * turn k i < q.mark (idx k i) → (i, x) ∈ q.pushes
  pushes : ∀ p ∈ q.pushes, q.vals[p.1]? = some p.2 ∧ 2 * turn k p.1 < q.mark (idx k p.1)
  pushes_nodup : (q.pushes.map fst).Nodup
  pops : ∀ p ∈ q.pops, p ∈ q.pushes ∧ 2 * turn k p.1 + 1 < q.mark (idx k p.1)
  pops_nodup : (q.pops.map fst).Nodup
  leaves : q.leaves = range q.head

/-- A push that has its position and has not stored the mark. -/
structure Pushing (k : Nat) (q : Shared α) (t : Nat) (x : α) : Prop where
  lt : t < q.tail
  mark : q.mark (idx k t) = 2 * turn k t
  val : q.vals[t]? = some x

structure Popping (k : Nat) (q : Shared α) (h : Nat) : Prop where
  lt : h < q.head
  mark : q.mark (idx k h) = 2 * turn k h + 1

/-- What a thread knows. What it has loaded may be stale, except for a mark it has seen on the position that is still
next. -/
def Knows (k : Nat) (q : Shared α) (wasFull wasEmpty : Bool) : Pc α → Prop
  | .pushMark _ t | .pushHead _ t => t ≤ q.tail
  | .pushCas _ t => t ≤ q.tail ∧ (q.tail = t → q.mark (idx k t) = 2 * turn k t)
  | .pushTail _ t h => t ≤ q.tail ∧ (t < q.tail ∨ h ≤ t ∧ t ≤ h + capacity k ∧ (t = h + capacity k → wasFull = true))
  | .pushData x t => Pushing k q t x
  | .pushStore x t => Pushing k q t x ∧ q.data (idx k t) = x
  | .idle (some (.pushed false)) => wasFull = true
  | .popMark h | .popTail h => h ≤ q.head
  | .popCas h => h ≤ q.head ∧ (q.head = h → q.mark (idx k h) = 2 * turn k h + 1)
  | .popHead h t => h ≤ q.head ∧ (h < q.head ∨ (h = t → wasEmpty = true))
  | .popData h => Popping k q h
  | .popStore h x => Popping k q h ∧ q.vals[h]? = some x
  | .idle (some (.popped none)) => wasEmpty = true
  | .idle none | .idle (some (.pushed true)) | .idle (some (.popped (some _))) | .pushStart _ | .popStart => True

def Pc.owns (k : Nat) : Pc α → Option Nat
  | .pushData _ t | .pushStore _ t => some (idx k t)
  | .popData h | .popStore h _ => some (idx k h)
  | _ => none

/-- What a step leaves alone, seen from a thread that does not own the slot `own`. -/
structure Rely (k : Nat) (own : Option Nat) (q q' : Shared α) : Prop where
  tail_le : q.tail ≤ q'.tail
  head_le : q.head ≤ q'.head
  vals : ∀ (i : Nat) x, q.vals[i]? = some x → q'.vals[i]? = some x
  slot : ∀ j, own ≠ some j → q'.mark j = q.mark j ∧ q'.data j = q.data j
  free : q'.tail = q.tail → q.mark (idx k q.tail) = 2 * turn k q.tail → q'.mark (idx k q.tail) = 2 * turn k q.tail
  ready : q'.head = q.head → q.mark (idx k q.head) = 2 * turn k q.head + 1 →
    q'.mark (idx k q.head) = 2 * turn k q.head + 1

lemma Rely.refl (k : Nat) (own : Option Nat) (q : Shared α) : Rely k own q q where
  tail_le := le_rfl
  head_le := le_rfl
  vals := fun _ _ h => h
  slot := fun _ _ => ⟨rfl, rfl⟩
  free := fun _ h => h
  ready := fun _ h => h

variable {own : Option Nat} {t i j : Nat} {x : α} {f e : Bool} {p : Pc α} {th : Thread α}

lemma Pushing.stable (hr : Rely k own q q') (h : Pushing k q t x)
    (ho : own ≠ some (idx k t)) : Pushing k q' t x where
  lt := lt_of_lt_of_le h.lt hr.tail_le
  mark := by rw [(hr.slot _ ho).1, h.mark]
  val := hr.vals _ _ h.val

lemma Popping.stable (hr : Rely k own q q') (h : Popping k q i) (ho : own ≠ some (idx k i)) : Popping k q' i where
  lt := lt_of_lt_of_le h.lt hr.head_le
  mark := by rw [(hr.slot _ ho).1, h.mark]

lemma Pushing.ne_tail (h : Pushing k q t x) (hm : q.mark (idx k q.tail) = 2 * turn k q.tail) :
    idx k q.tail ≠ idx k t := by
  intro he
  rw [he, h.mark] at hm
  have h1 := eq_of_idx_turn he (by omega)
  have h2 := h.lt
  omega

lemma Pushing.ne_head (h : Pushing k q t x) (hm : q.mark (idx k q.head) = 2 * turn k q.head + 1) :
    idx k q.head ≠ idx k t := by
  intro he
  rw [he, h.mark] at hm
  omega

lemma Popping.ne_tail (h : Popping k q i) (hm : q.mark (idx k q.tail) = 2 * turn k q.tail) :
    idx k q.tail ≠ idx k i := by
  intro he
  rw [he, h.mark] at hm
  omega

lemma Popping.ne_head (h : Popping k q i) (hm : q.mark (idx k q.head) = 2 * turn k q.head + 1) :
    idx k q.head ≠ idx k i := by
  intro he
  rw [he, h.mark] at hm
  have h1 := eq_of_idx_turn he (by omega)
  have h2 := h.lt
  omega

lemma Knows.stable {f' e' : Bool} (hr : Rely k own q q') (ho : ∀ j, p.owns k = some j → own ≠ some j)
    (hf : f = true → f' = true) (he : e = true → e' = true) (h : Knows k q f e p) : Knows k q' f' e' p := by
  have hta := hr.tail_le
  have hh := hr.head_le
  match p with
  | .idle none | .idle (some (.pushed true)) | .idle (some (.popped (some _))) | .pushStart _ | .popStart => trivial
  | .idle (some (.pushed false)) => exact hf h
  | .idle (some (.popped none)) => exact he h
  | .pushMark _ t | .pushHead _ t => exact le_trans h hta
  | .pushCas _ t =>
    obtain ⟨h1, h2⟩ := h
    refine ⟨by omega, fun ht => ?_⟩
    have hq : q.tail = t := by omega
    subst hq
    exact hr.free ht (h2 rfl)
  | .pushTail _ t i =>
    obtain ⟨h1, h2⟩ := h
    refine ⟨by omega, ?_⟩
    rcases h2 with h2 | ⟨h2, h3, h4⟩
    · exact .inl (by omega)
    · exact .inr ⟨h2, h3, fun h => hf (h4 h)⟩
  | .pushData x t => exact Pushing.stable hr h (ho _ rfl)
  | .pushStore x t => exact ⟨h.1.stable hr (ho _ rfl), by rw [(hr.slot _ (ho _ rfl)).2, h.2]⟩
  | .popMark i | .popTail i => exact le_trans h hh
  | .popCas i =>
    obtain ⟨h1, h2⟩ := h
    refine ⟨by omega, fun ht => ?_⟩
    have hq : q.head = i := by omega
    subst hq
    exact hr.ready ht (h2 rfl)
  | .popHead i t =>
    obtain ⟨h1, h2⟩ := h
    refine ⟨by omega, ?_⟩
    rcases h2 with h2 | h2
    · exact .inl (by omega)
    · exact .inr fun h => he (h2 h)
  | .popData i => exact Popping.stable hr h (ho _ rfl)
  | .popStore i x => exact ⟨h.1.stable hr (ho _ rfl), hr.vals _ _ h.2⟩

/-! ## What a step does to the shared state -/

lemma getElem?_append_singleton {l : List α} {y : α} (h : (l ++ [x])[i]? = some y) :
    l[i]? = some y ∨ i = l.length ∧ y = x := by
  rcases lt_or_ge i l.length with hi | hi
  · rw [getElem?_append_left hi] at h
    exact .inl h
  · rw [getElem?_append_right hi, getElem?_singleton] at h
    split at h <;> cases h
    exact .inr ⟨by omega, rfl⟩

lemma getElem?_append_of_some {l l' : List α} (h : l[i]? = some x) : (l ++ l')[i]? = some x := by
  rw [List.getElem?_append_left (List.getElem?_eq_some_iff.1 h).1, h]

lemma Good.takeTail (hg : Good k q) (hm : q.mark (idx k q.tail) = 2 * turn k q.tail)
    (hq : q' = { q with tail := q.tail + 1, vals := q.vals ++ [x] }) :
    Good k q' ∧ Pushing k q' q.tail x ∧ Rely k none q q' := by
  subst hq
  have hlen := hg.length
  have hlt : q.tail < q.head + capacity k := by
    -- a whole round behind `head`, the slot would wait for the pop of the position at `head`
    refine lt_of_le_of_ne hg.tail_le fun h => ?_
    have hu := hg.unread q.head le_rfl
    rw [h, idx_add_capacity, turn_add_capacity] at hm
    omega
  refine ⟨?_, ⟨lt_succ_self _, hm, by rw [← hlen]; exact getElem?_concat_length⟩, ?_⟩
  · exact {
      head_le := le_succ_of_le hg.head_le
      tail_le := hlt
      length := by simp [hlen]
      unwritten := fun i hi => hg.unwritten i (le_of_succ_le hi)
      __ := hg
      stored := by
        intro i y hy hma
        rcases getElem?_append_singleton hy with hy | ⟨rfl, -⟩
        · exact hg.stored i y hy hma
        · rw [hlen] at hma
          dsimp only at hma
          omega
      written := by
        intro i y hy hma
        rcases getElem?_append_singleton hy with hy | ⟨rfl, -⟩
        · exact hg.written i y hy hma
        · rw [hlen] at hma
          dsimp only at hma
          omega
      pushes := fun p hp => ⟨getElem?_append_of_some (hg.pushes p hp).1, (hg.pushes p hp).2⟩ }
  · exact {
      tail_le := le_succ _
      head_le := le_rfl
      vals := fun i y => getElem?_append_of_some
      slot := fun _ _ => ⟨rfl, rfl⟩
      free := fun h => absurd h (succ_ne_self _)
      ready := fun _ h => h }

lemma Good.takeHead (hg : Good k q) (hm : q.mark (idx k q.head) = 2 * turn k q.head + 1)
    (hq : q' = { q with head := q.head + 1, leaves := q.leaves ++ [q.head] }) :
    Good k q' ∧ Popping k q' q.head ∧ Rely k none q q' := by
  subst hq
  have hlt : q.head < q.tail := by
    refine lt_of_le_of_ne hg.head_le fun h => ?_
    have := hg.unwritten q.head (le_of_eq h.symm)
    omega
  refine ⟨?_, ⟨lt_succ_self _, hm⟩, ?_⟩
  · exact {
      head_le := hlt
      tail_le := by have := hg.tail_le; dsimp only; omega
      __ := hg
      unread := fun i hi => hg.unread i (le_of_succ_le hi)
      leaves := by rw [hg.leaves, range_succ] }
  · exact {
      tail_le := le_rfl
      head_le := le_succ _
      vals := fun _ _ h => h
      slot := fun _ _ => ⟨rfl, rfl⟩
      free := fun _ h => h
      ready := fun h => absurd h (succ_ne_self _) }

lemma Good.writeData (hg : Good k q) (hp : Pushing k q t x) :
    Good k { q with data := update q.data (idx k t) x } ∧
      Rely k (some (idx k t)) q { q with data := update q.data (idx k t) x } := by
  refine ⟨{ hg with stored := ?_ }, { Rely.refl k (some (idx k t)) q with slot := ?_ }⟩
  · intro i y hy hma
    have hn : idx k i ≠ idx k t := by
      intro h
      have hm := hp.mark
      dsimp only at hma
      rw [h] at hma
      omega
    dsimp only
    rw [update_of_ne hn]
    exact hg.stored i y hy hma
  · intro j hj
    exact ⟨rfl, update_of_ne (fun h => hj (by rw [h])) _ _⟩

lemma Rely.storeMark {j m : Nat} {ps os : List (Nat × α)}
    (ht : q.mark (idx k q.tail) = 2 * turn k q.tail → idx k q.tail ≠ j)
    (hh : q.mark (idx k q.head) = 2 * turn k q.head + 1 → idx k q.head ≠ j) :
    Rely k (some j) q { q with mark := update q.mark j m, pushes := ps, pops := os } where
  __ := Rely.refl k (some j) q
  slot := fun i hi => ⟨update_of_ne (fun h => hi (by rw [h])) _ _, rfl⟩
  free := fun _ hf => by simpa only [update_of_ne (ht hf)] using hf
  ready := fun _ hr => by simpa only [update_of_ne (hh hr)] using hr

lemma marked {m : Nat} (hm : q.mark (idx k t) = m) (m' i : Nat) :
    (idx k i = idx k t ∧ q.mark (idx k i) = m ∧ update q.mark (idx k t) m' (idx k i) = m') ∨
      update q.mark (idx k t) m' (idx k i) = q.mark (idx k i) := by
  by_cases hj : idx k i = idx k t
  · exact .inl ⟨hj, hj ▸ hm, by rw [hj, update_self]⟩
  · exact .inr (update_of_ne hj ..)

lemma nodup_concat {l : List (Nat × α)} (hn : (l.map fst).Nodup) (h : ∀ p ∈ l, p.1 ≠ i) :
    ((l ++ [(i, x)]).map fst).Nodup := by
  simp only [map_append, map_cons, map_nil]
  refine nodup_append.2 ⟨hn, nodup_singleton _, ?_⟩
  intro a ha b hb
  cases mem_singleton.1 hb
  obtain ⟨p, hp, rfl⟩ := mem_map.1 ha
  exact h p hp

lemma turn_le_turn (hi : idx k i = idx k j) (hij : i ≤ j) : turn k i ≤ turn k j := by
  rcases lt_or_eq_of_le hij with h | rfl
  · exact le_of_lt (turn_lt_turn hi h)
  · exact le_rfl

lemma Good.storeWrite (hg : Good k q) (hp : Pushing k q t x) (hd : q.data (idx k t) = x)
    (hq : q' = { q with mark := update q.mark (idx k t) (2 * turn k t + 1), pushes := q.pushes ++ [(t, x)] }) :
    Good k q' ∧ Rely k (some (idx k t)) q q' := by
  subst hq
  have hm := hp.mark
  have hu := marked hm (2 * turn k t + 1)
  have hmo : ∀ i, q.mark (idx k i) ≤ update q.mark (idx k t) (2 * turn k t + 1) (idx k i) := fun i => by
    have := hu i
    omega
  refine ⟨?_, ?_⟩
  · exact {
      __ := hg
      unwritten := by
        intro i hi
        rcases hu i with ⟨hj, -, hn⟩ | hn <;> simp only [hn]
        · have := turn_lt_turn hj.symm (lt_of_lt_of_le hp.lt hi)
          omega
        · exact hg.unwritten i hi
      unread := by
        intro i hi
        rcases hu i with ⟨hj, -, hn⟩ | hn <;> simp only [hn]
        · -- position `t` is less than a round behind every position that is unread
          have hle : t ≤ i := by
            refine Nat.le_of_not_lt fun h => ?_
            have h1 := add_capacity_le hj h
            have h2 := hg.tail_le
            have h3 := hp.lt
            dsimp only at hi
            omega
          have := turn_le_turn hj.symm hle
          omega
        · exact hg.unread i hi
      stored := by
        intro i y hy hma
        rcases hu i with ⟨hj, -, hn⟩ | hn <;> simp only [hn] at hma
        · obtain rfl : i = t := eq_of_idx_turn hj (by omega)
          cases hp.val.symm.trans hy
          exact hd
        · exact hg.stored i y hy hma
      written := by
        intro i y hy hma
        rcases hu i with ⟨hj, ho, hn⟩ | hn <;> simp only [hn] at hma
        · rcases lt_or_ge (turn k i) (turn k t) with hlt | hge
          · exact mem_append_left _ (hg.written i y hy (by omega))
          obtain rfl : i = t := eq_of_idx_turn hj (by omega)
          cases hp.val.symm.trans hy
          exact mem_append_right _ (mem_singleton.2 rfl)
        · exact mem_append_left _ (hg.written i y hy hma)
      pushes := by
        intro p hp'
        rcases mem_append.1 hp' with hp' | hp'
        · exact ⟨(hg.pushes p hp').1, lt_of_lt_of_le (hg.pushes p hp').2 (hmo _)⟩
        cases mem_singleton.1 hp'
        refine ⟨hp.val, ?_⟩
        simp only [update_self]
        omega
      pushes_nodup := nodup_concat hg.pushes_nodup fun p hp' h => by
        have := (hg.pushes p hp').2
        rw [h] at this
        omega
      pops := fun p hp' =>
        ⟨mem_append_left _ (hg.pops p hp').1, lt_of_lt_of_le (hg.pops p hp').2 (hmo _)⟩ }
  · exact .storeMark hp.ne_tail hp.ne_head

lemma Good.storeRead (hg : Good k q) {h : Nat} (hp : Popping k q h) (hv : q.vals[h]? = some x)
    (hq : q' = { q with mark := update q.mark (idx k h) (2 * turn k h + 2), pops := q.pops ++ [(h, x)] }) :
    Good k q' ∧ Rely k (some (idx k h)) q q' := by
  subst hq
  have hm := hp.mark
  have hu := marked hm (2 * turn k h + 2)
  have hmo : ∀ i, q.mark (idx k i) ≤ update q.mark (idx k h) (2 * turn k h + 2) (idx k i) := fun i => by
    have := hu i
    omega
  have hla : ∀ i, q.head ≤ i → update q.mark (idx k h) (2 * turn k h + 2) (idx k i) ≤
      max (q.mark (idx k i)) (2 * turn k i) := by
    intro i hi
    rcases hu i with ⟨hj, -, hn⟩ | hn
    · have := turn_lt_turn hj.symm (lt_of_lt_of_le hp.lt hi)
      omega
    · omega
  refine ⟨?_, ?_⟩
  · exact {
      __ := hg
      unwritten := by
        intro i hi
        have h1 := hla i (le_trans hg.head_le hi)
        have h2 := hg.unwritten i hi
        dsimp only
        omega
      unread := by
        intro i hi
        have h1 := hla i hi
        have h2 := hg.unread i hi
        dsimp only
        omega
      stored := by
        intro i y hy hma
        rcases hu i with ⟨-, -, hn⟩ | hn <;> simp only [hn] at hma
        · omega
        · exact hg.stored i y hy hma
      written := by
        intro i y hy hma
        have := hu i
        exact hg.written i y hy (by dsimp only at hma; omega)
      pushes := fun p hp' => ⟨(hg.pushes p hp').1, lt_of_lt_of_le (hg.pushes p hp').2 (hmo _)⟩
      pops := by
        intro p hp'
        rcases mem_append.1 hp' with hp' | hp'
        · exact ⟨(hg.pops p hp').1, lt_of_lt_of_le (hg.pops p hp').2 (hmo _)⟩
        cases mem_singleton.1 hp'
        refine ⟨hg.written h x hv (by omega), ?_⟩
        simp only [update_self]
        omega
      pops_nodup := nodup_concat hg.pops_nodup fun p hp' h => by
        have := (hg.pops p hp').2
        rw [h] at this
        omega }
  · exact .storeMark hp.ne_tail hp.ne_head

/-! ## Every step -/

lemma Knows.owner (h : Knows k q f e p) (ho : p.owns k = some j) :
    (∃ t x, idx k t = j ∧ Pushing k q t x) ∨ ∃ i, idx k i = j ∧ Popping k q i := by
  cases p with
  | pushData x t => exact .inl ⟨t, x, some.inj ho, h⟩
  | pushStore x t => exact .inl ⟨t, x, some.inj ho, h.1⟩
  | popData i => exact .inr ⟨i, some.inj ho, h⟩
  | popStore i => exact .inr ⟨i, some.inj ho, h.1⟩
  | _ => cases ho

lemma Knows.not_owns_tail (hm : q.mark (idx k q.tail) = 2 * turn k q.tail)
    (h : Knows k q f e p) : p.owns k ≠ some (idx k q.tail) := by
  intro ho
  rcases h.owner ho with ⟨t, x, he, hp⟩ | ⟨i, he, hp⟩ <;> exact hp.ne_tail hm he.symm

lemma Knows.not_owns_head (hm : q.mark (idx k q.head) = 2 * turn k q.head + 1)
    (h : Knows k q f e p) : p.owns k ≠ some (idx k q.head) := by
  intro ho
  rcases h.owner ho with ⟨t, x, he, hp⟩ | ⟨i, he, hp⟩ <;> exact hp.ne_head hm he.symm

def Local (k : Nat) (q : Shared α) (th : Thread α) : Prop := Knows k q th.wasFull th.wasEmpty th.pc

def Apart (k : Nat) (th th' : Thread α) : Prop := ∀ j, th.pc.owns k = some j → th'.pc.owns k ≠ some j

lemma observe_pc (q : Shared α) (th : Thread α) : (observe k q th).pc = th.pc := by
  unfold observe
  split <;> rfl

lemma observe_wasFull (q : Shared α) (th : Thread α) (h : th.wasFull = true) : (observe k q th).wasFull = true := by
  unfold observe
  split <;> simp [h]

lemma observe_wasEmpty (q : Shared α) (th : Thread α) (h : th.wasEmpty = true) : (observe k q th).wasEmpty = true := by
  unfold observe
  split <;> simp [h]

lemma Local.observe (h : Local k q th) : Local k q (observe k q th) := by
  unfold Local
  rw [observe_pc]
  exact Knows.stable (Rely.refl k none q) nofun (observe_wasFull q th) (observe_wasEmpty q th) h

/-- A step that leaves `q'` and goes to `p'` is good if it keeps the shared state, the thread knows what it needs, the
others can rely on it, and it owns no slot that another thread owns. -/
structure Keeps (k : Nat) (q : Shared α) (p : Pc α) (f e : Bool) (q' : Shared α) (p' : Pc α) : Prop where
  good : Good k q'
  knows : Local k q' (observe k q' ⟨p', f, e⟩)
  rely : Rely k (p.owns k) q q'
  owns : ∀ j, p'.owns k = some j → p.owns k = some j ∨ ∀ f e r, Knows k q f e r → r.owns k ≠ some j

lemma Keeps.load (hg : Good k q) {p' : Pc α} (h : Local k q (observe k q ⟨p', f, e⟩))
    (ho : p'.owns k = none) : Keeps k q p f e q p' :=
  ⟨hg, h, Rely.refl k _ q, fun j hj => by rw [ho] at hj; cases hj⟩

lemma advance_keeps (hk : k ≤ 64) (hg : Good k q) {p' : Pc α} (hl : Knows k q f e p)
    (h : advance k q p = some (q', p')) : Keeps k q p f e q' p' := by
  have hma := lastTurnRead_eq k
  cases p with
  | idle => cases h
  | pushStart x | popStart =>
    cases h
    exact .load hg le_rfl rfl
  | pushMark =>
    simp only [advance, some.injEq, mk.injEq] at h
    obtain ⟨rfl, rfl⟩ := h
    split
    · next hm => exact .load hg ⟨hl, fun _ => by rw [hm, hma]⟩ rfl
    · exact .load hg hl rfl
  | pushCas =>
    simp only [advance] at h
    split at h
    next ht =>
      cases h
      subst ht
      obtain ⟨h1, h2, h3⟩ := hg.takeTail (hl.2 rfl) rfl
      refine ⟨h1, h2, h3, fun j hj => .inr fun f e r hr => ?_⟩
      cases hj
      exact hr.not_owns_tail (hl.2 rfl)
    · cases h
      exact .load hg le_rfl rfl
  | pushHead x t =>
    cases h
    -- the moment at which `head` is loaded: if `tail` is still `t` a round later, the queue is full now
    refine .load hg ⟨hl, ?_⟩ rfl
    rcases lt_or_eq_of_le hl with hlt | he
    · exact .inl hlt
    · subst he
      refine .inr ⟨hg.head_le, hg.tail_le, fun h => ?_⟩
      simp [Mpmc.observe, Shared.full, h]
  | pushTail =>
    obtain ⟨-, h2⟩ := hl
    simp only [advance, some.injEq, mk.injEq] at h
    obtain ⟨rfl, rfl⟩ := h
    split
    next ht =>
      obtain ⟨ht, hf⟩ := ht
      rcases h2 with h2 | ⟨h2, h3, h4⟩
      · omega
      · rw [ht, checkFull_iff hk h2 h3] at hf
        exact .load hg (h4 hf) rfl
    · exact .load hg le_rfl rfl
  | pushData =>
    cases h
    obtain ⟨h1, h2⟩ := hg.writeData hl
    refine ⟨h1, ⟨⟨hl.lt, hl.mark, hl.val⟩, ?_⟩, h2, fun j hj => .inl hj⟩
    simp
  | pushStore =>
    cases h
    obtain ⟨h1, h2⟩ := hg.storeWrite hl.1 hl.2 rfl
    rw [thisTurnWrite_eq]
    exact ⟨h1, trivial, h2, fun j hj => by cases hj⟩
  | popMark =>
    simp only [advance, some.injEq, mk.injEq] at h
    obtain ⟨rfl, rfl⟩ := h
    split
    · next hm => exact .load hg ⟨hl, fun _ => by rw [hm, thisTurnWrite_eq]⟩ rfl
    · exact .load hg hl rfl
  | popCas =>
    simp only [advance] at h
    split at h
    next ht =>
      cases h
      subst ht
      obtain ⟨h1, h2, h3⟩ := hg.takeHead (hl.2 rfl) rfl
      refine ⟨h1, h2, h3, fun j hj => .inr fun f e r hr => ?_⟩
      cases hj
      exact hr.not_owns_head (hl.2 rfl)
    · cases h
      exact .load hg le_rfl rfl
  | popTail =>
    cases h
    refine .load hg ⟨hl, ?_⟩ rfl
    rcases lt_or_eq_of_le hl with hlt | he
    · exact .inl hlt
    · exact .inr fun h => by simp [Mpmc.observe, Shared.empty, ← h, he]
  | popHead =>
    obtain ⟨-, h2⟩ := hl
    simp only [advance, some.injEq, mk.injEq] at h
    obtain ⟨rfl, rfl⟩ := h
    split
    next ht =>
      obtain ⟨ht, hem⟩ := ht
      rcases h2 with h2 | h2
      · omega
      · rw [ht, checkEmpty, decide_eq_true_iff] at hem
        exact .load hg (h2 hem) rfl
    · exact .load hg le_rfl rfl
  | popData i =>
    cases h
    have hlt : i < q.vals.length := by
      have h1 := hl.lt
      have h2 := hg.head_le
      have h3 := hg.length
      omega
    have hv := getElem?_eq_getElem hlt
    refine ⟨hg, ⟨hl, ?_⟩, Rely.refl k _ q, fun j hj => .inl hj⟩
    rw [hg.stored i _ hv hl.mark, hv]
  | popStore =>
    cases h
    obtain ⟨h1, h2⟩ := hg.storeRead hl.1 hl.2 rfl
    rw [thisTurnRead_eq]
    exact ⟨h1, trivial, h2, fun j hj => by cases hj⟩

lemma next_keeps (hk : k ≤ 64) (hg : Good k q) {th' : Thread α} {e : Ev α} (hl : Local k q th)
    (h : next k q th e = some (q', th')) : Keeps k q th.pc th'.wasFull th'.wasEmpty q' th'.pc := by
  cases e with
  | push x | pop =>
    simp only [next] at h
    split at h <;> cases h
    exact .load hg trivial rfl
  | step =>
    obtain ⟨⟨q1, p1⟩, ha, he⟩ := map_eq_some_iff.1 h
    cases he
    exact advance_keeps hk hg hl ha

lemma good_init (data : Nat → α) : Good k { data := data } where
  head_le := le_rfl
  tail_le := zero_le _
  length := rfl
  unwritten := fun _ _ => zero_le _
  unread := fun _ _ => zero_le _
  stored := by simp
  written := by simp
  pushes := by simp
  pushes_nodup := by simp
  pops := by simp
  pops_nodup := by simp
  leaves := rfl

lemma machine_inv (hk : k ≤ 64) {data : Nat → α} {es : List (Nat × Ev α)} {s : Threads (Shared α) (Thread α)}
    (h : (machine k data).run es = some s) : Threads.Holds (Good k) (Local k) (Apart k) s := by
  refine Threads.threads_inv ?_ ?_ (good_init data) trivial (fun j hj => by cases hj) ?_ h
  · intro th r hx j hj hr
    exact hx j hr hj
  · intro q th r hx j
    rw [observe_pc, observe_pc]
    exact hx j
  · intro q th e q' th' hg hl hn
    have hke := next_keeps hk hg hl hn
    refine ⟨hke.good, hke.knows, fun r hr hx => ⟨?_, fun j hj => ?_⟩⟩
    · refine Local.observe (hr.stable hke.rely ?_ id id)
      intro j hj ho
      exact hx j ho hj
    · rcases hke.owns j hj with ho | hno
      · exact hx j ho
      · exact hno _ _ _ hr

end Inv

/-- A `pop` that returned a value returned the one pushed at its position by a `push` that returned true, and no two
have the same position; nor have two pushes. Positions are taken in increasing order, none left out. A call returns
false only if the queue was full, or empty, at some moment of it. -/
theorem mpmc_queue {k : Nat} (hk : k ≤ 63) {data : Nat → α} {es : List (Nat × Ev α)}
    {s : Threads (Shared α) (Thread α)} (h : (machine k data).run es = some s) :
    (∀ p ∈ s.shared.pops, p ∈ s.shared.pushes) ∧ (s.shared.pops.map fst).Nodup ∧ (s.shared.pushes.map fst).Nodup ∧
      s.shared.leaves = range s.shared.head ∧ s.shared.vals.length = s.shared.tail ∧
      (∀ p ∈ s.shared.pushes, s.shared.vals[p.1]? = some p.2) ∧
      (∀ t, (s.thread t).pc = .idle (some (.pushed false)) → (s.thread t).wasFull = true) ∧
      ∀ t, (s.thread t).pc = .idle (some (.popped none)) → (s.thread t).wasEmpty = true := by
  obtain ⟨hg, hl, -⟩ := machine_inv (by omega) h
  refine ⟨fun p hp => (hg.pops p hp).1, hg.pops_nodup, hg.pushes_nodup, hg.leaves, hg.length,
    fun p hp => (hg.pushes p hp).1, fun t ht => ?_, fun t ht => ?_⟩
  · have := hl t
    rwa [Local, ht] at this
  · have := hl t
    rwa [Local, ht] at this

/-- A pop that starts while the push has its position but not yet the mark goes round its loop, gets the value, and the
next one finds the queue empty. -/
def popDuringPush : List (Nat × Ev Nat) :=
  [(1, .push 5), (1, .step), (1, .step), (1, .step), (2, .pop), (2, .step), (2, .step), (1, .step), (2, .step), (1, .step),
    (2, .step), (2, .step), (2, .step), (2, .step), (2, .step), (2, .pop), (2, .step), (2, .step), (2, .step), (2, .step)]

theorem mpmc_queue_popDuringPush :
    ∃ s, (machine 1 fun _ => 0).run popDuringPush = some s ∧ s.shared.pops = [(0, 5)] ∧
      (∀ p ∈ s.shared.pops, p ∈ s.shared.pushes) ∧ (s.thread 2).wasEmpty = true := by
  have hr : (machine 1 fun _ => 0).run popDuringPush = some _ := rfl
  obtain ⟨h1, -, -, -, -, -, -, h2⟩ := mpmc_queue (by decide) hr
  exact ⟨_, hr, rfl, h1, h2 2 rfl⟩

/-- No more values are popped than pushed, and those pushed are at most the capacity more than those that left. -/
theorem mpmc_bounded {k : Nat} (hk : k ≤ 63) {data : Nat → α} {es : List (Nat × Ev α)}
    {s : Threads (Shared α) (Thread α)} (h : (machine k data).run es = some s) :
    s.shared.pops.length ≤ s.shared.pushes.length ∧
      s.shared.pushes.length ≤ s.shared.leaves.length + capacity k := by
  obtain ⟨hg, -, -⟩ := machine_inv (by omega) h
  have hpo := (subperm_of_subset hg.pops_nodup.of_map fun p hp => (hg.pops p hp).1).length_le
  have hlt : s.shared.pushes.map fst ⊆ range s.shared.tail := fun i hi => by
    obtain ⟨p, hp, rfl⟩ := mem_map.1 hi
    rw [mem_range, ← hg.length]
    exact (List.getElem?_eq_some_iff.1 (hg.pushes p hp).1).1
  have hpu := (subperm_of_subset hg.pushes_nodup hlt).length_le
  have hca := hg.tail_le
  simp only [length_map, length_range] at hpu
  rw [hg.leaves, length_range]
  omega

theorem mpmc_bounded_popDuringPush : ∃ s, (machine 1 fun _ => 0).run popDuringPush = some s ∧
    s.shared.pops.length = 1 ∧ s.shared.pushes.length ≤ s.shared.leaves.length + 2 := by
  have hr : (machine 1 fun _ => 0).run popDuringPush = some _ := rfl
  exact ⟨_, hr, rfl, (mpmc_bounded (by decide) hr).2⟩

end Photon.Mpmc
