import Mathlib.Tactic.Lemma
/-!
# Pending events of the epoll engines

The counters of the events that `epoll_wait` has stored and that are still to be delivered: `_events_remain` of the
epoll engine, and `remains` of a poller of the epoll-ng engine.
-/

namespace Photon.Epoll

inductive Engine where
  | epoll
  | ng
  deriving DecidableEq

inductive Wait where
  | events (n : Fin 17)
  | eintr
  | error

/-- What is done with the events: one call that waits, or one turn of the loop that delivers. -/
inductive Op where
  | wait (outs : List Wait)
  | deliver (fdcb : Bool)

/-- The counter, and the events that were returned and delivered so far; the latter are not in the code. -/
structure St where
  remain : Int := 0
  got : Int := 0
  delivered : Int := 0

variable {k : Engine} {s : St} {o : Op} {outs : List Wait} {ret : Int}

/-- The `ret` with which the loop around `epoll_wait` is left: an error other than `EINTR` is not looked at again,
because `cool_down_ms` is 1. -/
def epollWait : List Wait → Option Int
  | [] => none
  | .eintr :: outs => epollWait outs
  | .error :: _ => some (-1)
  | .events n :: _ => some n

/-- `do_epoll_wait` assigns to a `uint16_t`, `reap` adds to an `int`. -/
def St.store (s : St) (ret : Int) : Engine → Int
  | .epoll => ret % 65536
  | .ng => s.remain + ret

def step (k : Engine) (s : St) : Op → St
  | .wait outs =>
    -- `wait_for_events` of the epoll engine waits when nothing is left
    if k = .epoll ∧ s.remain ≠ 0 then s
    else match epollWait outs with
      | none => s
      | some ret => { s with remain := s.store ret k, got := s.got + max ret 0 }
  | .deliver fdcb =>
    if s.remain ≠ 0 ∧ fdcb = true then { s with remain := s.remain - 1, delivered := s.delivered + 1 } else s

def Good (s : St) : Prop := 0 ≤ s.remain ∧ s.remain ≤ 16 ∧ s.remain = s.got - s.delivered

def Fits (k : Engine) (s : St) : Op → Prop
  | .wait outs => (k = .epoll ∧ s.remain ≠ 0) ∨ ∀ ret, epollWait outs = some ret → 0 ≤ ret ∧ s.remain + ret ≤ 16
  | .deliver _ => True

/-- `P` holds of every operation in the state in which it is done. -/
def Along (k : Engine) (P : St → Op → Prop) : St → List Op → Prop
  | _, [] => True
  | s, o :: os => P s o ∧ Along k P (step k s o) os

lemma epollWait_range (h : epollWait outs = some ret) : -1 ≤ ret ∧ ret ≤ 16 := by
  induction outs with
  | nil => cases h
  | cons w outs ih =>
    cases w with
    | eintr => exact ih h
    | error => cases h; decide
    | events n => cases h; omega

lemma step_good (hs : Good s) : Good (step k s o) ↔ Fits k s o := by
  obtain ⟨h0, h1, h2⟩ := hs
  cases o with
  | deliver fdcb =>
    simp only [step, Fits, iff_true]
    split <;> simp only [Good] <;> omega
  | wait outs =>
    simp only [step, Fits]
    split
    · simp_all [Good]
    next hk =>
      cases hw : epollWait outs with
      | none => simp_all [Good]
      | some ret =>
        have hr := epollWait_range hw
        cases k <;> simp_all [Good, St.store] <;> omega

/-- The counter is the number of events that were returned and not delivered, and the array has room for them, if and
only if no `epoll_wait` fails with an error other than `EINTR` and a poller reaps only what it has room for. -/
theorem pending_iff (k : Engine) (os : List Op) :
    Along k (fun s o => Good (step k s o)) {} os ↔ Along k (Fits k) {} os := by
  have hs : Good {} := ⟨Int.le_refl 0, by decide, rfl⟩
  generalize ({} : St) = s at hs
  induction os generalizing s with
  | nil => exact Iff.rfl
  | cons o os ih =>
    constructor
    · rintro ⟨hg, ht⟩
      exact ⟨(step_good hs).1 hg, (ih _ hg).1 ht⟩
    · rintro ⟨hf, ht⟩
      have hg := (step_good hs).2 hf
      exact ⟨hg, (ih _ hg).2 ht⟩

/-- One failed wait, and the counter says 65535 or -1. -/
theorem failed_wait_counted : (step .epoll {} (.wait [.error])).remain = 65535 ∧
    (step .ng {} (.wait [.error])).remain = -1 := by
  decide

end Photon.Epoll
