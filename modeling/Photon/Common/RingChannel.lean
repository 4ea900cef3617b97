import Photon.Lib.Machine
import Photon.Lib.Roster
import Photon.Thread.Basic
/-!
# RingChannel

`send` pushes and signals the semaphore if some receiver is registered in `idler`;
`recv` pops, and if that fails registers, and pops again until it succeeds, yielding or
waiting on the semaphore in between. The queue is a FIFO with atomic `push` and `pop`,
the semaphore a counter. A wait may also end by its timeout.

The argument is a balance: as long as some receiver has found the queue empty and
sleeps or is about to, each value in the queue has a signal on its way, or a receiver
that is awake and will pop before it sleeps.
-/

namespace Photon.RingChannel

open List Nat Roster

variable {α : Type}

/-- Where a receiver is. `max` is `max_yield_turn`, `turn` is `yield_turn`. -/
inductive Receiver (α : Type) where
  | idle (ret : Option α)
  /-- Before the first `pop`. -/
  | start (max : Nat)
  /-- It has yielded, before `idler.fetch_add`. -/
  | register (max : Nat)
  /-- Before `pop` of the loop. -/
  | loop (max turn : Nat)
  /-- `pop` of the loop has failed. -/
  | failed (max turn : Nat)
  /-- In `queue_sem.wait(1, ...)`. -/
  | wait (max : Nat)
  /-- Before `idler.fetch_sub`. -/
  | leave (x : α)

open Receiver

inductive Sender (α : Type) where
  | idle
  | push (x : α)
  /-- Before `idler.load`. -/
  | load
  /-- Before `queue_sem.signal(1)`. -/
  | signal

structure St (α : Type) where
  queue : List α := []
  count : Nat := 0
  idler : Nat := 0
  receivers : List (Receiver α)
  senders : List (Sender α)

inductive Ev (α : Type) where
  | recv (i max : Nat)
  /-- `expired` is what `yield_timeout.expired()` says. -/
  | receiver (i : Nat) (expired : Bool)
  /-- The wait of the receiver ends after its 100 ms. -/
  | timeout (i : Nat)
  | send (i : Nat) (x : α)
  | sender (i : Nat)

def St.setReceiver (s : St α) (i : Nat) (p : Receiver α) : St α := { s with receivers := s.receivers.set i p }

def St.setSender (s : St α) (i : Nat) (p : Sender α) : St α := { s with senders := s.senders.set i p }

def St.receiverStep (s : St α) (i : Nat) (expired : Bool) : Receiver α → Option (St α)
  | .idle _ => none
  | .start max =>
    match s.queue with
    | [] => some (s.setReceiver i (.register max))
    | x :: queue => some ({ s with queue := queue }.setReceiver i (.idle (some x)))
  | .register max => some ({ s with idler := s.idler + 1 }.setReceiver i (.loop max max))
  | .loop max turn =>
    match s.queue with
    | [] => some (s.setReceiver i (.failed max turn))
    | x :: queue => some ({ s with queue := queue }.setReceiver i (.leave x))
  | .failed max turn =>
    if turn > 0 ∧ expired = false then some (s.setReceiver i (.loop max (turn - 1)))
    else some (s.setReceiver i (.wait max))
  | .wait max =>
    if s.count = 0 then none else some ({ s with count := s.count - 1 }.setReceiver i (.loop max max))
  | .leave x => some ({ s with idler := s.idler - 1 }.setReceiver i (.idle (some x)))

/-- `capacity` is that of the queue: a full one makes `send` try again. -/
def St.senderStep (capacity : Nat) (s : St α) (i : Nat) : Sender α → Option (St α)
  | .idle => none
  | .push x =>
    if s.queue.length < capacity then some ({ s with queue := s.queue ++ [x] }.setSender i .load) else some s
  | .load => some (s.setSender i (if s.idler = 0 then .idle else .signal))
  | .signal => some ({ s with count := s.count + 1 }.setSender i .idle)

def step (capacity : Nat) (s : St α) : Ev α → Option (St α)
  | .recv i max =>
    match s.receivers[i]? with
    | some (.idle _) => some (s.setReceiver i (.start max))
    | _ => none
  | .receiver i expired => s.receivers[i]?.bind (s.receiverStep i expired)
  | .timeout i =>
    match s.receivers[i]? with
    | some (.wait max) => some (s.setReceiver i (.loop max max))
    | _ => none
  | .send i x =>
    match s.senders[i]? with
    | some .idle => some (s.setSender i (.push x))
    | _ => none
  | .sender i => s.senders[i]?.bind (s.senderStep capacity i)

def machine (α : Type) (capacity n m : Nat) : Machine (St α) (Ev α) :=
  ⟨{ receivers := replicate n (.idle none), senders := replicate m .idle }, step capacity⟩

/-! ## The balance -/

def Receiver.registered : Receiver α → Bool
  | .loop _ _ | .failed _ _ | .wait _ | .leave _ => true
  | _ => false

/-- Has found the queue empty, and may sleep without another `pop`. -/
def Receiver.sleepy : Receiver α → Bool
  | .failed _ _ | .wait _ => true
  | _ => false

def Receiver.popping : Receiver α → Bool
  | .loop _ _ => true
  | _ => false

def Sender.between : Sender α → Bool
  | .load | .signal => true
  | _ => false

structure Inv (s : St α) : Prop where
  idler : s.idler = s.receivers.countP registered
  balance : 0 < s.receivers.countP sleepy →
    s.queue.length ≤ s.count + s.receivers.countP popping + s.senders.countP Sender.between

lemma sleepy_le_registered (l : List (Receiver α)) : l.countP sleepy ≤ l.countP registered :=
  countP_mono_left fun p _ h => by cases p <;> first | rfl | cases h

variable {s s' : St α} {i : Nat} {p : Receiver α} {queue : List α} {capacity : Nat}

/-- A receiver moves. Either it leaves the queue empty, or it does not become sleepy and takes no more from the signals
and the receivers that will pop than it takes from the queue. -/
lemma Inv.moveReceiver (hi : Inv s) {p' : Receiver α} {count idler : Nat} (hp : s.receivers[i]? = some p)
    (hid : idler + (if p.registered then 1 else 0) = s.idler + (if p'.registered then 1 else 0))
    (hba : queue = [] ∨ (p'.sleepy = true → p.sleepy = true) ∧
      queue.length + s.count + (if p.popping then 1 else 0) ≤ s.queue.length + count + (if p'.popping then 1 else 0)) :
    Inv ({ s with queue := queue, count := count, idler := idler }.setReceiver i p') where
  idler := by
    have h1 := countP_set_add hp p' registered
    have h2 := hi.idler
    simp only [St.setReceiver]
    omega
  balance := by
    intro hsl
    simp only [St.setReceiver] at hsl ⊢
    rcases hba with rfl | ⟨hk, hle⟩
    · exact zero_le _
    have h1 := countP_set_add hp p' sleepy
    have h2 := countP_set_add hp p' popping
    have h3 : (if p'.sleepy then 1 else 0) ≤ (if p.sleepy then 1 else 0) := by
      split
      · next h => rw [if_pos (hk h)]
      · exact zero_le _
    have h4 := hi.balance (by omega)
    omega

lemma Inv.moveSender (hi : Inv s) {p p' : Sender α} {count : Nat} (hp : s.senders[i]? = some p)
    (hba : 0 < s.receivers.countP sleepy →
      queue.length + s.count + (if p.between then 1 else 0) ≤ s.queue.length + count + (if p'.between then 1 else 0)) :
    Inv ({ s with queue := queue, count := count }.setSender i p') where
  idler := hi.idler
  balance := by
    intro hsl
    have h1 := countP_set_add hp p' Sender.between
    have h2 := hi.balance hsl
    have h3 := hba hsl
    simp only [St.setSender]
    omega

lemma inv_receiver (hi : Inv s) {expired : Bool} (hp : s.receivers[i]? = some p)
    (h : s.receiverStep i expired p = some s') : Inv s' := by
  cases p with simp only [St.receiverStep] at h
  | idle => cases h
  | start =>
    split at h
    next hq =>
      cases h
      exact hi.moveReceiver hp rfl (.inl hq)
    next x queue hq =>
    cases h
    refine hi.moveReceiver hp rfl (.inr ⟨nofun, ?_⟩)
    simp only [hq, popping, length_cons, Bool.false_eq_true, if_false]
    omega
  | register =>
    cases h
    exact hi.moveReceiver hp rfl (.inr ⟨nofun, le_succ _⟩)
  | loop =>
    split at h
    next hq =>
      cases h
      exact hi.moveReceiver hp rfl (.inl hq)
    next x queue hq =>
    cases h
    refine hi.moveReceiver hp rfl (.inr ⟨nofun, ?_⟩)
    simp only [hq, popping, length_cons, if_true, Bool.false_eq_true, if_false]
    omega
  | failed =>
    split at h
    · cases h
      exact hi.moveReceiver hp rfl (.inr ⟨nofun, le_succ _⟩)
    · cases h
      exact hi.moveReceiver hp rfl (.inr ⟨fun _ => rfl, le_rfl⟩)
  | wait =>
    split at h
    · cases h
    next hc =>
    cases h
    refine hi.moveReceiver hp rfl (.inr ⟨nofun, ?_⟩)
    simp only [popping, if_true, Bool.false_eq_true, if_false]
    omega
  | leave =>
    cases h
    -- this receiver is counted in `idler`
    have hpo : 0 < s.receivers.countP registered := countP_pos hp rfl
    have hid := hi.idler
    refine hi.moveReceiver hp ?_ (.inr ⟨nofun, le_rfl⟩)
    simp only [registered, if_true, Bool.false_eq_true, if_false]
    omega

lemma inv_sender (hi : Inv s) {p : Sender α} (hp : s.senders[i]? = some p)
    (h : s.senderStep capacity i p = some s') : Inv s' := by
  cases p with
  | idle => cases h
  | push =>
    simp only [St.senderStep] at h
    split at h
    · cases h
      refine hi.moveSender hp fun _ => ?_
      simp only [Sender.between, length_append, length_singleton, if_true, Bool.false_eq_true, if_false]
      omega
    · cases h
      exact hi
  | load =>
    simp only [St.senderStep] at h
    cases h
    refine hi.moveSender hp fun hsl => ?_
    -- nobody is registered only if nobody is sleepy
    have h1 := sleepy_le_registered s.receivers
    have h2 := hi.idler
    have h3 : s.idler ≠ 0 := by omega
    rw [if_neg h3]
    exact le_rfl
  | signal =>
    cases h
    refine hi.moveSender hp fun _ => ?_
    simp only [Sender.between, if_true, Bool.false_eq_true, if_false]
    omega

lemma inv_step (hi : Inv s) {e : Ev α} (h : step capacity s e = some s') : Inv s' := by
  cases e with simp only [step] at h
  | recv =>
    split at h
    next hp =>
      cases h
      exact hi.moveReceiver hp rfl (.inr ⟨nofun, le_rfl⟩)
    · cases h
  | receiver =>
    obtain ⟨p, hp, hst⟩ := Option.bind_eq_some_iff.1 h
    exact inv_receiver hi hp hst
  | timeout =>
    split at h
    next hp =>
      cases h
      exact hi.moveReceiver hp rfl (.inr ⟨nofun, le_succ _⟩)
    · cases h
  | send =>
    split at h
    next hp =>
      cases h
      exact hi.moveSender hp fun _ => le_rfl
    · cases h
  | sender =>
    obtain ⟨p, hp, hst⟩ := Option.bind_eq_some_iff.1 h
    exact inv_sender hi hp hst

lemma inv_init (capacity n m : Nat) : Inv (machine α capacity n m).init where
  idler := by simp [machine, countP_replicate, registered]
  balance := fun _ => zero_le _

/-- After every run, if some receiver sleeps, the others sleep too or are not in `recv`, the semaphore has nothing to
give and no sender is about to signal, then there is nothing in the queue to receive. -/
theorem recv_not_forgotten {capacity n m : Nat} {es : List (Ev α)} (h : (machine α capacity n m).run es = some s)
    (hsleep : ∃ max, .wait max ∈ s.receivers)
    (hreceivers : ∀ p ∈ s.receivers, (∃ ret, p = .idle ret) ∨ ∃ max, p = .wait max) (hcount : s.count = 0)
    (hsenders : ∀ p ∈ s.senders, p.between = false) : s.queue = [] := by
  have hi : Inv s := Machine.run_inv (I := Inv) (inv_init capacity n m) (inv_step ·) h
  obtain ⟨max, hm⟩ := hsleep
  have hsl : 0 < s.receivers.countP sleepy := countP_pos_iff.2 ⟨_, hm, rfl⟩
  have hpo : s.receivers.countP popping = 0 := by
    rw [countP_eq_zero]
    intro p hp
    rcases hreceivers p hp with ⟨ret, rfl⟩ | ⟨max, rfl⟩ <;> exact Bool.false_ne_true
  have hbe : s.senders.countP Sender.between = 0 := by
    rw [countP_eq_zero]
    intro p hp
    rw [hsenders p hp]
    exact Bool.false_ne_true
  have hba := hi.balance hsl
  rw [hcount, hpo, hbe] at hba
  exact length_eq_zero_iff.1 (le_zero.1 hba)

/-- Two receivers go to sleep; a value is sent, and the first receiver is woken and takes it. -/
def oneServed : List (Ev Nat) :=
  [.recv 0 0, .receiver 0 false, .receiver 0 false, .receiver 0 false, .recv 1 0, .receiver 1 false, .receiver 1 false,
    .receiver 1 false, .receiver 0 false, .receiver 1 false, .send 0 7, .sender 0, .sender 0, .sender 0,
      .receiver 0 false,
    .receiver 0 false, .receiver 0 false]

theorem recv_not_forgotten_oneServed :
    ∃ s, (machine Nat 2 2 1).run oneServed = some s ∧ s.receivers = [.idle (some 7), .wait 0] ∧ s.queue = [] := by
  obtain ⟨s, hru, hr, hs, hc⟩ : ∃ s, (machine Nat 2 2 1).run oneServed = some s ∧
      s.receivers = [.idle (some 7), .wait 0] ∧ s.senders = [.idle] ∧ s.count = 0 := ⟨_, rfl, rfl, rfl, rfl⟩
  refine ⟨s, hru, hr, recv_not_forgotten hru ⟨0, by simp [hr]⟩ (fun p hp => ?_) hc (fun p hp => ?_)⟩
  · simp only [hr, mem_cons, not_mem_nil, or_false] at hp
    rcases hp with rfl | rfl
    · exact .inl ⟨_, rfl⟩
    · exact .inr ⟨_, rfl⟩
  · rw [hs] at hp
    cases mem_singleton.1 hp
    rfl

/-- Without a receiver the value that was sent stays in the queue. -/
theorem unattended_value :
    ∃ s, (machine Nat 2 0 1).run [.send 0 7, .sender 0, .sender 0] = some s ∧
      (∀ p ∈ s.receivers, ∃ max, p = .wait max) ∧
      s.count = 0 ∧ (∀ p ∈ s.senders, p.between = false) ∧ s.queue ≠ [] := by
  refine ⟨_, rfl, (fun p hp => by cases hp), rfl, fun p hp => ?_, cons_ne_nil _ _⟩
  cases mem_singleton.1 hp
  rfl

end Photon.RingChannel
