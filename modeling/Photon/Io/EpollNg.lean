import Mathlib.Data.Nat.Bitwise
/-!
# Interests of the epoll-ng engine

`add_interest` registers a descriptor with up to three sub-pollers, and takes
back on exit what is registered with the earlier ones when a later one fails.
-/

namespace Photon.EpollNg

open Function

/-- The registrations of one epoll instance: events and data of each descriptor. -/
abbrev Poller := Int → Option (Nat × Nat)

structure Pollers where
  reader : Poller
  writer : Poller
  error : Poller

structure Event where
  fd : Int
  interests : Nat
  data : Nat

/-- What `epoll_ctl` has against an `EPOLL_CTL_ADD` of each poller, other than `EEXIST`: errno `n + 1`. -/
structure Kernel where
  reader : Option Nat := none
  writer : Option Nat := none
  error : Option Nat := none

variable {p : Poller} {fd : Int} {reg : Nat × Nat} {k : Option Nat} {b : Bool}

def Poller.add (p : Poller) (fd : Int) (reg : Nat × Nat) (k : Option Nat) : Int × Poller :=
  if (p fd).isSome then (-17, p)
  else match k with
    | some n => (-(n + 1), p)
    | none => (0, update p fd (some reg))

def Poller.rm (p : Poller) (fd : Int) : Poller := update p fd none

/-- One of the three parts of `add_interest`: nothing without the interest. -/
def Poller.addIf (b : Bool) (p : Poller) (fd : Int) (reg : Nat × Nat) (k : Option Nat) : Int × Poller :=
  if b then p.add fd reg k else (0, p)

namespace Event

variable (e : Event)

def read : Bool := e.interests &&& 1 != 0
def write : Bool := e.interests &&& 2 != 0
def error : Bool := e.interests &&& 4 != 0
/-- `EPOLLONESHOT` for `ONE_SHOT`. -/
def mod : Nat := if e.interests &&& 0x8000 != 0 then 2 ^ 30 else 0

def addReader (k : Kernel) (s : Pollers) : Int × Poller :=
  s.reader.addIf e.read e.fd (e.mod ||| 1 ||| 0x2000, e.data) k.reader
def addWriter (k : Kernel) (s : Pollers) : Int × Poller :=
  s.writer.addIf e.write e.fd (e.mod ||| 4, e.data) k.writer
def addError (k : Kernel) (s : Pollers) : Int × Poller :=
  s.error.addIf e.error e.fd (e.mod ||| 8, e.data) k.error

end Event

/-- The `DEFER`s are those that the call has come past. -/
def addInterest (k : Kernel) (s : Pollers) (e : Event) : Int × Pollers :=
  if e.fd < 0 then (-1, s)
  else
    let (ret, reader) := e.addReader k s
    if ret < 0 then (ret, { s with reader })
    else
      let (ret, writer) := e.addWriter k s
      if ret < 0 then (ret, { s with reader := reader.rm e.fd, writer })
      else
        let (ret, error) := e.addError k s
        if ret < 0 then (ret, { reader := reader.rm e.fd, writer := writer.rm e.fd, error })
        else (ret, { reader, writer, error })

lemma Poller.addIf_failed (h : (addIf b p fd reg k).1 < 0) : (addIf b p fd reg k).2 = p := by
  unfold addIf add at *
  split_ifs at * <;> cases k <;> simp_all

/-- Taking back restores the poller that was added to, or one that had nothing to take. -/
lemma Poller.rm_addIf (h : ¬ (addIf b p fd reg k).1 < 0) :
    (addIf b p fd reg k).2.rm fd = p ↔ b = true ∨ p fd = none := by
  unfold addIf add rm at *
  split_ifs at * with hb hp
  · simp at h
  · cases k <;> simp_all
  · simp [hb, eq_comm]

/-- A failed `add_interest` leaves the registrations as they were if and only if there is none to lose: the poller
before the one that fails has the descriptor only when this call put it there. -/
theorem add_interest_iff (k : Kernel) (s : Pollers) (e : Event) :
    ((addInterest k s e).1 < 0 → (addInterest k s e).2 = s) ↔
      (0 ≤ e.fd → 0 ≤ (e.addReader k s).1 →
        ((e.addWriter k s).1 < 0 ∨ (e.addError k s).1 < 0 → e.read ∨ s.reader e.fd = none) ∧
        (0 ≤ (e.addWriter k s).1 → (e.addError k s).1 < 0 → e.write ∨ s.writer e.fd = none)) := by
  unfold addInterest
  split_ifs with hf
  · simp [Int.not_le.2 hf]
  obtain ⟨reader, writer, error⟩ := s
  dsimp only
  split_ifs with hr hw he
  · have hR : (e.addReader k ⟨reader, writer, error⟩).2 = reader := Poller.addIf_failed hr
    simp [Int.not_le.2 hr, hR]
  · have hR := Poller.rm_addIf hr
    have hW := Poller.addIf_failed hw
    simp_all [Event.addReader, Event.addWriter]
  · have hR := Poller.rm_addIf hr
    have hW := Poller.rm_addIf hw
    have hE := Poller.addIf_failed he
    simp_all [Event.addReader, Event.addWriter, Event.addError]
  · simp_all

/-- A write interest in a descriptor that is registered for both: the earlier read interest is lost. -/
theorem read_interest_lost :
    let s : Pollers := ⟨update (fun _ => none) 5 (some (1, 7)), update (fun _ => none) 5 (some (4, 7)), fun _ => none⟩
    (addInterest {} s ⟨5, 2, 8⟩).1 = -17 ∧ (addInterest {} s ⟨5, 2, 8⟩).2.reader 5 = none ∧ s.reader 5 = some (1, 7) := by
  decide

end Photon.EpollNg
