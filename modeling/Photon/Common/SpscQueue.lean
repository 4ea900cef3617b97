import Photon.Common.LockfreeBase
import Photon.Lib.Machine
/-!
# LockfreeSPSCRingQueue

One producer and one consumer, whose loads and stores interleave. `tail` and `head` are
`size_t` and wrap; they are the numbers of values stored and taken, modulo `2 ^ 64`. A
callback stores or reads the values one by one.

`stored`, `calls` and `taken` are not in the code: the values stored, what each call of
the producer stored, and the values taken.
-/

namespace Photon.Spsc

open Lockfree List Function Option Nat

variable {α : Type}

/-- The calls of the producer. The callback of `produce_push_batch` stores the values in their order, as many as it is
given room for; that of `push_batch` is a `memcpy`. -/
inductive Produce (α : Type) where
  | push (x : α)
  | producePushBatch (xs : List α)
  | producePushBatchFully (xs : List α)

/-- The calls of the consumer. The callback of `pop_batch` is a `memcpy`. -/
inductive Consume where
  | pop
  | consumePopBatch (n : Nat)

/-- Where the producer is; `loadTail` and `loadHead` stand before the loads. -/
inductive ProducerPc (α : Type) where
  | idle (ret : Nat)
  | loadTail (c : Produce α)
  | loadHead (c : Produce α) (t : Nat)
  /-- `push`, before `slots[idx(t)] = x`. -/
  | slot (c : Produce α) (x : α) (t : Nat)
  /-- The first `i` of the values are in their slots; after the last one, `tail` is stored. -/
  | fill (c : Produce α) (xs : List α) (t i : Nat)

inductive ConsumerPc (α : Type) where
  | idle (ret : List α)
  | loadHead (c : Consume)
  | loadTail (c : Consume) (h : Nat)
  /-- `pop`, before `x = slots[idx(h)]`. -/
  | slot (h : Nat)
  /-- The values `got` are read; after the last one, `head` is stored. -/
  | drain (h n : Nat) (got : List α)

structure Queue (α : Type) where
  tail : Nat := 0
  head : Nat := 0
  slots : Nat → α
  stored : List α := []
  calls : List (Produce α × List α) := []
  taken : List α := []

structure St (α : Type) where
  queue : Queue α
  producer : ProducerPc α := .idle 0
  consumer : ConsumerPc α := .idle []

inductive Ev (α : Type) where
  | produce (c : Produce α)
  | consume (c : Consume)
  | producer
  | consumer

section Code
variable (k : Nat)

def Queue.produced (q : Queue α) (c : Produce α) (xs : List α) : Queue α :=
  { q with stored := q.stored ++ xs, calls := q.calls ++ [(c, xs)] }

def produceAt (q : Queue α) (t h : Nat) : Produce α → Queue α × ProducerPc α
  | .push x => if checkFull k h t then (q.produced (.push x) [], .idle 0) else (q, .slot (.push x) x t)
  | .producePushBatch xs =>
    let n := min xs.length (sub64 (capacity k) (sub64 t h))
    if n = 0 then (q.produced (.producePushBatch xs) [], .idle 0) else (q, .fill (.producePushBatch xs) (xs.take n) t 0)
  | .producePushBatchFully xs =>
    if xs.length > sub64 (capacity k) (sub64 t h) then (q.produced (.producePushBatchFully xs) [], .idle 0)
    else (q, .fill (.producePushBatchFully xs) xs t 0)

def producerStep (q : Queue α) : ProducerPc α → Option (Queue α × ProducerPc α)
  | .idle _ => none
  | .loadTail c => some (q, .loadHead c q.tail)
  | .loadHead c t => some (produceAt k q t q.head c)
  | .slot c x t => some ({ q with slots := update q.slots (idx k t) x }, .fill c [x] t 1)
  | .fill c xs t i =>
    match xs[i]? with
    | some x =>
      some ({ q with slots := update q.slots (copySlot k (idx k t) xs.length i) x }, .fill c xs t (i + 1))
    | none => some ({ q.produced c xs with tail := (t + xs.length) % 2 ^ 64 }, .idle xs.length)

def consumeAt (h t : Nat) : Consume → ConsumerPc α
  | .pop => if checkEmpty h t then .idle [] else .slot h
  | .consumePopBatch n =>
    let n := min n (sub64 t h)
    if n = 0 then .idle [] else .drain h n []

def consumerStep (q : Queue α) : ConsumerPc α → Option (Queue α × ConsumerPc α)
  | .idle _ => none
  | .loadHead c => some (q, .loadTail c q.head)
  | .loadTail c h => some (q, consumeAt h q.tail c)
  | .slot h => some (q, .drain h 1 [q.slots (idx k h)])
  | .drain h n got =>
    if got.length < n then some (q, .drain h n (got ++ [q.slots (copySlot k (idx k h) n got.length)]))
    else some ({ q with head := (h + n) % 2 ^ 64, taken := q.taken ++ got }, .idle got)

def step (s : St α) : Ev α → Option (St α)
  | .produce c =>
    match s.producer with
    | .idle _ => some { s with producer := .loadTail c }
    | _ => none
  | .consume c =>
    match s.consumer with
    | .idle _ => some { s with consumer := .loadHead c }
    | _ => none
  | .producer => (producerStep k s.queue s.producer).map fun r => { s with queue := r.1, producer := r.2 }
  | .consumer => (consumerStep k s.queue s.consumer).map fun r => { s with queue := r.1, consumer := r.2 }

def machine (slots : Nat → α) : Machine (St α) (Ev α) := ⟨{ queue := { slots := slots } }, step k⟩

end Code

/-! ## The invariant -/

variable {k : Nat} {q q' : Queue α}

/-- What a call stored is what it was asked to store: all, a part that fits, or nothing. -/
def Stored : Produce α → List α → Prop
  | .push x, ys => ys = [x] ∨ ys = []
  | .producePushBatch xs, ys => ys <+: xs
  | .producePushBatchFully xs, ys => ys = xs ∨ ys = []

structure Good (k : Nat) (q : Queue α) : Prop where
  tail : q.tail = q.stored.length % 2 ^ 64
  head : q.head = q.taken.length % 2 ^ 64
  room : q.stored.length ≤ q.taken.length + capacity k
  pre : q.taken <+: q.stored
  slots : ∀ i, q.taken.length ≤ i → i < q.stored.length → q.stored[i]? = some (q.slots (idx k i))
  calls : q.stored = (q.calls.map Prod.snd).flatten
  results : ∀ p ∈ q.calls, Stored p.1 p.2

/-- What the producer knows: nobody else moves `tail`, and `head` only makes room. -/
def ProducerOk (k : Nat) (q : Queue α) : ProducerPc α → Prop
  | .idle _ | .loadTail _ => True
  | .loadHead _ t => t = q.tail
  | .slot c x t => t = q.tail ∧ Stored c [x] ∧ q.stored.length < q.taken.length + capacity k
  | .fill c xs t i =>
    t = q.tail ∧ Stored c xs ∧ q.stored.length + xs.length ≤ q.taken.length + capacity k ∧
      ∀ j < i, xs[j]? = some (q.slots (idx k (q.stored.length + j)))

/-- What the consumer knows: nobody else moves `head`, and `tail` only adds values. -/
def ConsumerOk (q : Queue α) : ConsumerPc α → Prop
  | .idle _ | .loadHead _ => True
  | .loadTail _ h => h = q.head
  | .slot h => h = q.head ∧ q.taken.length < q.stored.length
  | .drain h n got =>
    h = q.head ∧ q.taken.length + n ≤ q.stored.length ∧ got.length ≤ n ∧
      got = slice q.stored q.taken.length got.length

structure Inv (k : Nat) (s : St α) : Prop where
  good : Good k s.queue
  producer : ProducerOk k s.queue s.producer
  consumer : ConsumerOk s.queue s.consumer

lemma idx_mod (hk : k ≤ 64) (x : Nat) : idx k (x % 2 ^ 64) = idx k x := by
  rw [idx_eq, idx_eq]
  exact Nat.mod_mod_of_dvd x (Nat.pow_dvd_pow 2 hk)

section
variable (hk : k ≤ 63)
include hk

lemma capacity_lt : capacity k < 2 ^ 64 := Nat.pow_lt_pow_right (by decide) (by omega)

section
variable (hg : Good k q)
include hg

lemma Good.checkFull_iff : checkFull k q.head q.tail = true ↔ q.stored.length = q.taken.length + capacity k := by
  have h1 := hg.pre.length_le
  have h2 := hg.room
  have h3 := capacity_lt hk
  have hf := Lockfree.checkFull_iff (by omega : k ≤ 64) h1 h2
  rw [checkFull, decide_eq_true_iff, checkMaskEqual_iff (by omega)] at hf ⊢
  rw [hg.head, hg.tail, idx_mod (by omega), idx_mod (by omega), ← hf]
  refine and_congr_left fun _ => not_congr ?_
  omega

lemma Good.checkEmpty_iff : checkEmpty q.head q.tail = true ↔ q.stored.length = q.taken.length := by
  have h1 := hg.pre.length_le
  have h2 := hg.room
  have h3 := capacity_lt hk
  rw [checkEmpty, decide_eq_true_iff, hg.head, hg.tail]
  omega

lemma Good.available : sub64 q.tail q.head = q.stored.length - q.taken.length := by
  have h1 := hg.pre.length_le
  have h2 := hg.room
  have h3 := capacity_lt hk
  rw [hg.head, hg.tail]
  unfold sub64
  omega

lemma Good.free : sub64 (capacity k) (sub64 q.tail q.head) = q.taken.length + capacity k - q.stored.length := by
  have h1 := hg.pre.length_le
  have h2 := hg.room
  have h3 := capacity_lt hk
  rw [hg.available hk, sub64_eq (by omega) (by omega)]
  omega

lemma Good.idx_tail : idx k q.tail = idx k q.stored.length := by
  rw [hg.tail, idx_mod (by omega)]

lemma Good.idx_head : idx k q.head = idx k q.taken.length := by
  rw [hg.head, idx_mod (by omega)]

end

end

/-! ## The producer -/

lemma ConsumerOk.stable {c : ConsumerPc α} (h : ConsumerOk q c) (hh : q'.head = q.head)
    (ht : q'.taken = q.taken) (hst : ∃ l, q'.stored = q.stored ++ l) : ConsumerOk q' c := by
  obtain ⟨l, hl⟩ := hst
  have hle : q.stored.length ≤ q'.stored.length := by simp [hl]
  cases c with
  | idle | loadHead => trivial
  | loadTail => exact h.trans hh.symm
  | slot =>
    obtain ⟨h1, h2⟩ := h
    exact ⟨h1.trans hh.symm, by rw [ht]; omega⟩
  | drain =>
    obtain ⟨h1, h2, h3, h4⟩ := h
    refine ⟨h1.trans hh.symm, by rw [ht]; omega, h3, ?_⟩
    rw [hl, ht, slice_append (by omega)]
    exact h4

variable {c : Produce α} {xs got : List α} {p' p : ProducerPc α}

lemma Good.refused (hg : Good k q) (hc : Stored c []) : Good k (q.produced c []) := by
  have he : (q.produced c []).stored = q.stored := append_nil _
  exact {
    tail := by rw [he]; exact hg.tail
    head := hg.head
    room := by rw [he]; exact hg.room
    pre := by rw [he]; exact hg.pre
    slots := by
      rw [he]
      exact hg.slots
    calls := by simp [Queue.produced, hg.calls]
    results := by
      intro p hp
      rcases mem_append.1 hp with hp | hp
      · exact hg.results p hp
      · cases mem_singleton.1 hp
        exact hc }

section
variable (hg : Good k q) (hroom : q.stored.length + xs.length ≤ q.taken.length + capacity k)
include hg hroom

lemma Good.fill {i : Nat} {x : α} (hx : xs[i]? = some x)
    (hf : ∀ j < i, xs[j]? = some (q.slots (idx k (q.stored.length + j)))) :
    Good k { q with slots := update q.slots (idx k (q.stored.length + i)) x } ∧ ∀ j < i + 1, xs[j]? =
        some (update q.slots (idx k (q.stored.length + i)) x (idx k (q.stored.length + j))) := by
  have hi : i < xs.length := (List.getElem?_eq_some_iff.1 hx).1
  have ho : ∀ j, q.taken.length ≤ j → j < q.stored.length + i →
      update q.slots (idx k (q.stored.length + i)) x (idx k j) = q.slots (idx k j) := by
    intro j hj hj'
    exact update_of_ne (idx_ne hj' (by omega)) _ _
  refine ⟨{ hg with slots := ?_ }, ?_⟩
  · intro j hj hj'
    dsimp only at hj hj' ⊢
    rw [ho j hj (by omega)]
    exact hg.slots j hj hj'
  · intro j hj
    have hpr := hg.pre.length_le
    rcases lt_or_eq_of_le (le_of_lt_succ hj) with hlt | rfl
    · rw [ho _ (by omega) (by omega)]
      exact hf j hlt
    · rw [update_self]
      exact hx

lemma Good.storeTail (hc : Stored c xs)
    (hf : ∀ j < xs.length, xs[j]? = some (q.slots (idx k (q.stored.length + j)))) :
    Good k { q.produced c xs with tail := (q.tail + xs.length) % 2 ^ 64 } where
  tail := by simp only [Queue.produced, length_append, hg.tail, mod_add_mod]
  head := hg.head
  room := by simpa only [Queue.produced, length_append] using hroom
  pre := hg.pre.trans (prefix_append ..)
  slots := by
    intro i hi hi'
    simp only [Queue.produced, length_append] at hi hi' ⊢
    rcases lt_or_ge i q.stored.length with hlt | hge
    · rw [getElem?_append_left hlt]
      exact hg.slots i hi hlt
    · obtain ⟨j, rfl⟩ := Nat.exists_eq_add_of_le hge
      rw [getElem?_append_right hge, Nat.add_sub_cancel_left]
      exact hf j (by omega)
  calls := by simp [Queue.produced, hg.calls]
  results := by
    intro p hp
    rcases mem_append.1 hp with hp | hp
    · exact hg.results p hp
    · cases mem_singleton.1 hp
      exact hc

end

lemma produceAt_ok (hk : k ≤ 63) (hg : Good k q) (h : produceAt k q q.tail q.head c = (q', p')) :
    Good k q' ∧ ProducerOk k q' p' ∧ ∀ r, ConsumerOk q r → ConsumerOk q' r := by
  have hroom := hg.room
  have hn : ∃ l, q.stored ++ [] = q.stored ++ l := ⟨[], rfl⟩
  cases c with
  | push =>
    simp only [produceAt] at h
    split at h
    · cases h
      exact ⟨hg.refused (.inr rfl), trivial, fun r hr => hr.stable rfl rfl hn⟩
    next hf =>
    rw [hg.checkFull_iff hk] at hf
    cases h
    exact ⟨hg, ⟨rfl, .inl rfl, by omega⟩, fun r hr => hr⟩
  | producePushBatch =>
    simp only [produceAt, hg.free hk] at h
    split at h
    · cases h
      exact ⟨hg.refused nil_prefix, trivial, fun r hr => hr.stable rfl rfl hn⟩
    cases h
    refine ⟨hg, ⟨rfl, take_prefix .., ?_, fun j hj => absurd hj (not_lt_zero j)⟩, fun r hr => hr⟩
    rw [length_take]
    omega
  | producePushBatchFully =>
    simp only [produceAt, hg.free hk] at h
    split at h
    · cases h
      exact ⟨hg.refused (.inr rfl), trivial, fun r hr => hr.stable rfl rfl hn⟩
    · cases h
      exact ⟨hg, ⟨rfl, .inl rfl, by omega, fun j hj => absurd hj (not_lt_zero j)⟩, fun r hr => hr⟩

lemma producerStep_ok (hk : k ≤ 63) (hg : Good k q) (hp : ProducerOk k q p) (h : producerStep k q p = some (q', p')) :
    Good k q' ∧ ProducerOk k q' p' ∧ ∀ c, ConsumerOk q c → ConsumerOk q' c := by
  cases p with
  | idle => cases h
  | loadTail c =>
    cases h
    exact ⟨hg, rfl, fun c hc => hc⟩
  | loadHead c t =>
    obtain rfl : t = q.tail := hp
    exact produceAt_ok hk hg (some.inj h)
  | slot c x =>
    obtain ⟨rfl, hc, hroom⟩ := hp
    cases h
    rw [hg.idx_tail hk]
    have hx : [x][0]? = some x := rfl
    obtain ⟨hg', hf⟩ := hg.fill (show q.stored.length + [x].length ≤ _ from hroom) hx
      (fun j hj => absurd hj (not_lt_zero j))
    exact ⟨hg', ⟨rfl, hc, hroom, hf⟩, fun c hc => hc.stable rfl rfl ⟨[], (append_nil _).symm⟩⟩
  | fill c xs =>
    obtain ⟨rfl, hc, hroom, hf⟩ := hp
    have hpr := hg.pre.length_le
    simp only [producerStep] at h
    split at h
    next x hx =>
      cases h
      rw [hg.idx_tail hk, copySlot_eq (List.getElem?_eq_some_iff.1 hx).1 (by omega)]
      obtain ⟨hg', hf'⟩ := hg.fill hroom hx hf
      exact ⟨hg', ⟨rfl, hc, hroom, hf'⟩, fun c hc => hc.stable rfl rfl ⟨[], (append_nil _).symm⟩⟩
    next hx =>
      cases h
      have hlen := getElem?_eq_none_iff.1 hx
      exact ⟨hg.storeTail hroom hc fun j hj => hf j (by omega), trivial, fun c hc => hc.stable rfl rfl ⟨xs, rfl⟩⟩

/-! ## The consumer -/

lemma ProducerOk.stable {h : Nat} (hp : ProducerOk k q p) :
    ProducerOk k { q with head := h, taken := q.taken ++ got } p := by
  have hle : q.taken.length ≤ (q.taken ++ got).length := by simp
  cases p with
  | idle | loadTail => trivial
  | loadHead => exact hp
  | slot =>
    obtain ⟨h1, h2, h3⟩ := hp
    exact ⟨h1, h2, by dsimp only; omega⟩
  | fill =>
    obtain ⟨h1, h2, h3, h4⟩ := hp
    exact ⟨h1, h2, by dsimp only; omega, h4⟩

lemma Good.read (hg : Good k q) (hlt : q.taken.length + got.length < q.stored.length)
    (hgo : got = slice q.stored q.taken.length got.length) :
    got ++ [q.slots (idx k (q.taken.length + got.length))] = slice q.stored q.taken.length (got.length + 1) := by
  have hs := hg.slots (q.taken.length + got.length) (le_add_right _ _) hlt
  rw [slice, take_add_one, getElem?_drop, hs]
  exact congrArg (· ++ _) hgo

lemma Good.storeHead (hg : Good k q) (hle : q.taken.length + got.length ≤ q.stored.length)
    (hgo : got = slice q.stored q.taken.length got.length) :
    Good k { q with head := (q.head + got.length) % 2 ^ 64, taken := q.taken ++ got } where
  __ := hg
  head := by simp only [length_append, hg.head, mod_add_mod]
  room := by
    have := hg.room
    simp only [length_append]
    omega
  pre := by
    rw [hgo, prefix_iff_eq_take.1 hg.pre, length_take, min_eq_left (by omega), take_add_slice]
    exact take_prefix ..
  slots := by
    intro i hi hi'
    simp only [length_append] at hi
    exact hg.slots i (by omega) hi'

lemma consumerStep_ok (hk : k ≤ 63) (hg : Good k q) {c c' : ConsumerPc α} (hc : ConsumerOk q c)
    (h : consumerStep k q c = some (q', c')) :
    Good k q' ∧ ConsumerOk q' c' ∧ ∀ p, ProducerOk k q p → ProducerOk k q' p := by
  have hpr := hg.pre.length_le
  have hroom := hg.room
  cases c with
  | idle => cases h
  | loadHead =>
    cases h
    exact ⟨hg, rfl, fun p hp => hp⟩
  | loadTail c i =>
    obtain rfl : i = q.head := hc
    simp only [consumerStep, some.injEq, Prod.mk.injEq] at h
    obtain ⟨rfl, rfl⟩ := h
    refine ⟨hg, ?_, fun p hp => hp⟩
    cases c with
    | pop =>
      simp only [consumeAt]
      split
      · trivial
      next he =>
        rw [hg.checkEmpty_iff hk] at he
        exact ⟨rfl, by omega⟩
    | consumePopBatch =>
      simp only [consumeAt, hg.available hk]
      split
      · trivial
      · exact ⟨rfl, by omega, zero_le _, by simp [slice]⟩
  | slot =>
    obtain ⟨rfl, hlt⟩ := hc
    cases h
    rw [hg.idx_head hk]
    have hgo : ([] : List α) = slice q.stored q.taken.length 0 := by simp [slice]
    exact ⟨hg, ⟨rfl, hlt, le_rfl, hg.read (show q.taken.length + ([] : List α).length < _ from hlt) hgo⟩,
      fun p hp => hp⟩
  | drain i n got =>
    obtain ⟨rfl, hlen, hle, hgo⟩ := hc
    simp only [consumerStep] at h
    split at h
    next hlt =>
      cases h
      rw [hg.idx_head hk, copySlot_eq hlt (by omega)]
      refine ⟨hg, ⟨rfl, hlen, by rw [length_append, length_singleton]; omega, ?_⟩, fun p hp => hp⟩
      rw [length_append, length_singleton]
      exact hg.read (by omega) hgo
    next hlt =>
      cases h
      obtain rfl : got.length = n := by omega
      exact ⟨hg.storeHead hlen hgo, trivial, fun p hp => hp.stable⟩

/-! ## Every run -/

lemma inv_init (slots : Nat → α) : Inv k ({ queue := { slots := slots } } : St α) where
  good := {
    tail := rfl
    head := rfl
    room := zero_le _
    pre := nil_prefix
    slots := fun i _ hi => absurd hi (not_lt_zero i)
    calls := rfl
    results := by simp }
  producer := trivial
  consumer := trivial

lemma inv_step (hk : k ≤ 63) {s s' : St α} (hi : Inv k s) {e : Ev α} (h : step k s e = some s') : Inv k s' := by
  cases e with
  | produce =>
    simp only [step] at h
    split at h <;> cases h
    exact { hi with producer := trivial }
  | consume =>
    simp only [step] at h
    split at h <;> cases h
    exact { hi with consumer := trivial }
  | producer =>
    obtain ⟨⟨q, p⟩, hst, rfl⟩ := map_eq_some_iff.1 h
    obtain ⟨h1, h2, h3⟩ := producerStep_ok hk hi.good hi.producer hst
    exact ⟨h1, h2, h3 _ hi.consumer⟩
  | consumer =>
    obtain ⟨⟨q, c⟩, hst, rfl⟩ := map_eq_some_iff.1 h
    obtain ⟨h1, h2, h3⟩ := consumerStep_ok hk hi.good hi.consumer hst
    exact ⟨h1, h3 _ hi.producer, h2⟩

/-- What a call of the consumer that has just returned gave back. -/
def ConsumerPc.returned : ConsumerPc α → List α
  | .idle got => got
  | _ => []

/-- What the consumer takes is what its calls return. -/
lemma consumerStep_returned {c c' : ConsumerPc α} (h : consumerStep k q c = some (q', c')) :
    q'.taken = q.taken ++ c'.returned := by
  cases c with
  | idle => cases h
  | loadHead | slot =>
    cases h
    exact (append_nil _).symm
  | loadTail c i =>
    simp only [consumerStep, some.injEq, Prod.mk.injEq] at h
    obtain ⟨rfl, rfl⟩ := h
    cases c <;> simp only [consumeAt] <;> split <;> exact (append_nil _).symm
  | drain i n got =>
    simp only [consumerStep] at h
    split at h <;> cases h
    · exact (append_nil _).symm
    · rfl

/-- A call of the producer returns how many values it has stored. -/
lemma producerStep_returned {p : ProducerPc α} {ret : Nat} (h : producerStep k q p = some (q', .idle ret)) :
    ∃ c ys, q'.calls = q.calls ++ [(c, ys)] ∧ ret = ys.length := by
  cases p with
  | idle | loadTail | slot => cases h
  | loadHead c t =>
    simp only [producerStep, some.injEq] at h
    cases c <;> simp only [produceAt] at h <;> split at h <;> cases h <;> exact ⟨_, [], rfl, rfl⟩
  | fill c xs t i =>
    simp only [producerStep] at h
    split at h <;> cases h
    exact ⟨c, xs, rfl, rfl⟩

/-- What was taken is a prefix of what was stored, and so is what the consumer is reading; at most `capacity` values
are stored and not taken, which is what `read_available` says. Each call of the producer stored what it should, and
returns how much this is; what the consumer takes is what its calls return. -/
theorem spsc_queue {k : Nat} (hk : k ≤ 63) {slots : Nat → α} {es : List (Ev α)} {s : St α}
    (h : (machine k slots).run es = some s) :
    s.queue.taken <+: s.queue.stored ∧ s.queue.stored.length ≤ s.queue.taken.length + capacity k ∧
      sub64 s.queue.tail s.queue.head = s.queue.stored.length - s.queue.taken.length ∧
      (∀ i n got, s.consumer = .drain i n got → s.queue.taken ++ got <+: s.queue.stored) ∧
      s.queue.stored = (s.queue.calls.map Prod.snd).flatten ∧
      (∀ c ys, (c, ys) ∈ s.queue.calls → Stored c ys) ∧
      (∀ s' ret, step k s .producer = some s' → s'.producer = .idle ret →
        ∃ c ys, s'.queue.calls = s.queue.calls ++ [(c, ys)] ∧ ret = ys.length) ∧
      ∀ s', step k s .consumer = some s' → s'.queue.taken = s.queue.taken ++ s'.consumer.returned := by
  have hi : Inv k s := Machine.run_inv (I := Inv k) (inv_init slots) (inv_step hk ·) h
  have hg := hi.good
  refine ⟨hg.pre, hg.room, hg.available hk, fun i n got hc => ?_, hg.calls, fun c ys => hg.results _, ?_, ?_⟩
  · have ho := hi.consumer
    rw [hc] at ho
    exact (hg.storeHead (by have := ho.2.1; have := ho.2.2.1; omega) ho.2.2.2).pre
  · intro s' ret hs' hre
    obtain ⟨⟨q, p⟩, hst, rfl⟩ := map_eq_some_iff.1 hs'
    obtain rfl : p = .idle ret := hre
    exact producerStep_returned hst
  · intro s' hs'
    obtain ⟨⟨q, c⟩, hst, rfl⟩ := map_eq_some_iff.1 hs'
    exact consumerStep_returned hst

/-- On a ring of two slots, three values are refused and two are stored, while the consumer looks in between. -/
def refuseThree : List (Ev Nat) :=
  [.produce (.producePushBatchFully [1, 2, 3]), .producer, .producer,
    .produce (.producePushBatchFully [4, 5]), .producer,
    .producer, .producer, .consume .pop, .consumer, .consumer, .producer, .producer, .consume (.consumePopBatch 9),
    .consumer, .consumer, .consumer, .consumer, .consumer]

theorem spsc_queue_refuseThree :
    ∃ s, (machine 1 fun _ => 0).run refuseThree = some s ∧ s.queue.taken = [4, 5] ∧ s.queue.taken <+: s.queue.stored ∧
      s.queue.stored = (s.queue.calls.map Prod.snd).flatten := by
  have hr : (machine 1 fun _ => 0).run refuseThree = some _ := rfl
  obtain ⟨h1, -, -, -, h2, -⟩ := spsc_queue (by decide) hr
  exact ⟨_, hr, by decide +kernel, h1, h2⟩

end Photon.Spsc
