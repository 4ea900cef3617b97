import Photon.Lib.Machine
import Photon.Thread.Basic
/-!
# Run, sleep and standby queues

In which queues a thread is. The order in a queue and the wait queues are left out, and what `resume_threads` and work
stealing do with a list is an event for each thread of it.
-/

namespace Photon.Standby

open Function List

inductive Kind where
  | runq
  | sleepq
  | standbyq
  deriving DecidableEq

open Kind

structure St where
  vcpu : Tid → Nat := fun _ => 0
  state : Tid → States := fun _ => .done
  q : Kind × Nat → List Tid := fun _ => []

variable (s : St)

/-- `t` goes from the queue `src` to `dst`, with its new vCPU and state. -/
def St.move (t : Tid) (src dst : Option (Kind × Nat)) (v : Nat) (st : States) : St where
  vcpu := update s.vcpu t v
  state := update s.state t st
  q c := (if src = some c then (s.q c).erase t else s.q c) ++ if dst = some c then [t] else []

def St.pop (c : Kind × Nat) (t : Tid) : St := s.move t c none (s.vcpu t) (s.state t)

/-- `v` is the vCPU of the caller, if it has one. -/
def St.prelockedThreadInterrupt (t : Tid) (v : Option Nat) : St :=
  let vcpu := s.vcpu t
  if v ≠ some vcpu then s.move t none (standbyq, vcpu) vcpu .standby
  else s.move t (sleepq, vcpu) (runq, vcpu) vcpu .ready

/-- `resume_threads` for a thread of the standby queue. -/
def St.resumeStandby (v : Nat) (t : Tid) : St :=
  (s.pop (sleepq, v) t).move t (standbyq, v) (runq, v) (s.vcpu t) .ready

def St.resumeExpired (v : Nat) (t : Tid) : St :=
  if s.state t = .sleeping then s.move t (sleepq, v) (runq, v) (s.vcpu t) .ready else s.pop (sleepq, v) t

inductive Ev where
  | create (t : Tid) (v : Nat)
  | run (t : Tid)
  | yield (t : Tid)
  | usleep (t : Tid)
  | die (t : Tid)
  | expired (v : Nat) (t : Tid)
  | standby (v : Nat) (t : Tid)
  | interrupt (t : Tid) (v : Option Nat)
  /-- `ws_scan_standbyq` and `ws_scan_runq`: vCPU `v` takes a thread from a queue of `u`. -/
  | wsScan (k : Kind) (u v : Nat) (t : Tid)
  | doThreadMigrate (t : Tid) (v : Nat)

def enabled : Ev → Bool
  | .create t _ => s.state t = .done
  | .run t => s.state t ∈ [.ready, .standby] ∧ t ∈ s.q (runq, s.vcpu t)
  | .yield t | .usleep t | .die t => s.state t = .running
  | .expired v t => t ∈ s.q (sleepq, v)
  | .standby v t => t ∈ s.q (standbyq, v)
  | .interrupt t _ => s.state t = .sleeping
  | .wsScan k u _ t => t ∈ s.q (k, u) ∧ k ≠ sleepq ∧ s.state t ≠ .running
  | .doThreadMigrate t v => s.state t = .ready ∧ v ≠ s.vcpu t

def next : Ev → St
  | .create t v => s.move t none (runq, v) v .ready
  | .run t => s.move t none none (s.vcpu t) .running
  | .yield t => s.move t none none (s.vcpu t) .ready
  | .usleep t => s.move t (runq, s.vcpu t) (sleepq, s.vcpu t) (s.vcpu t) .sleeping
  | .die t => s.move t (runq, s.vcpu t) none (s.vcpu t) .done
  | .expired v t => s.resumeExpired v t
  | .standby v t => s.resumeStandby v t
  | .interrupt t v => s.prelockedThreadInterrupt t v
  | .wsScan k u v t => s.move t (k, u) (runq, v) v (s.state t)
  | .doThreadMigrate t v => s.move t (runq, s.vcpu t) (standbyq, v) v .standby

def machine : Machine St Ev where
  init := {}
  step s e := if enabled s e then some (next s e) else none

/-- No thread is stolen while the sleep queue of its vCPU has it. -/
def awake : Ev → Bool
  | .wsScan _ u _ t => t ∉ s.q (sleepq, u)
  | _ => true

/-- The queues a thread in this state is in. -/
inductive Fits : States → List Kind → Prop
  | done : Fits .done []
  | running : Fits .running [runq]
  | ready : Fits .ready [runq]
  | sleeping : Fits .sleeping [sleepq]
  | stolen : Fits .standby [runq]
  | standby : Fits .standby [standbyq]
  | interrupted : Fits .standby [sleepq, standbyq]

structure At (t : Tid) (ks : List Kind) : Prop where
  fits : Fits (s.state t) ks
  count : ∀ c, (s.q c).count t = if c.2 = s.vcpu t ∧ c.1 ∈ ks then 1 else 0

def Inv : Prop := ∀ t, ∃ ks, At s t ks

/-- A live thread that does not run is in one queue, or in two while it waits after an interrupt from another vCPU. -/
def Placed : Prop :=
  (∀ t, s.state t ≠ .done → s.state t ≠ .running → (∃! k, t ∈ s.q (k, s.vcpu t)) ∨
    s.state t = .standby ∧ ∀ k, t ∈ s.q (k, s.vcpu t) ↔ k = sleepq ∨ k = standbyq) ∧
  ∀ v t, t ∈ s.q (sleepq, v) → s.vcpu t = v

variable {s} {s' : St} {t : Tid} {l m : List Kind} {c : Kind × Nat} {st : States} {v : Nat} {e : Ev}
  {src dst : Option (Kind × Nat)}

lemma At.mem (h : At s t l) : t ∈ s.q c ↔ c.2 = s.vcpu t ∧ c.1 ∈ l := by
  rw [← count_pos_iff, h.count]
  split <;> simp [*]

lemma At.move (hf : Fits st m) (hq : ∀ c, (s.q c).count t - (if src = some c then 1 else 0) +
    (if dst = some c then 1 else 0) = if c.2 = v ∧ c.1 ∈ m then 1 else 0) : At (s.move t src dst v st) t m := by
  refine ⟨by simpa [St.move] using hf, fun c => ?_⟩
  simp only [St.move, update_self, ← hq c, count_append]
  split <;> split <;> simp

section
variable (hi : Inv s)
include hi

lemma Inv.move (h : ∀ l, At s t l → At (s.move t src dst v st) t m) : Inv (s.move t src dst v st) := by
  intro u
  obtain ⟨l, hl⟩ := hi u
  rcases eq_or_ne u t with rfl | hu
  · exact ⟨m, h l hl⟩
  · refine ⟨l, by simpa [St.move, hu] using hl.fits, fun c => ?_⟩
    simp only [St.move, count_append, update_of_ne hu, ← hl.count c]
    split <;> split <;> simp [hu.symm, count_erase_of_ne hu]

lemma Inv.mem {k : Kind} (h : t ∈ s.q (k, v)) : ∃ l, s.vcpu t = v ∧ k ∈ l ∧ At s t l := by
  obtain ⟨l, hl⟩ := hi t
  obtain ⟨hv, hk⟩ := hl.mem.1 h
  exact ⟨l, hv.symm, hk, hl⟩

lemma Inv.placed : Placed s := by
  refine ⟨fun t hd hr => ?_, fun v t h => ?_⟩
  · obtain ⟨l, hl⟩ := hi t
    have hf := hl.fits
    simp only [hl.mem, true_and]
    generalize s.state t = st at *
    cases hf with
    | done => exact absurd rfl hd
    | running => exact absurd rfl hr
    | ready | sleeping | stolen | standby => exact .inl ⟨_, mem_singleton_self _, fun _ => mem_singleton.1⟩
    | interrupted => exact .inr ⟨rfl, by simp⟩
  · obtain ⟨l, h, -⟩ := hi.mem h
    exact h

lemma step_inv (ha : awake s e) (he : machine.step s e = some s') : Inv s' := by
  obtain ⟨h, rfl⟩ := Option.ite_some_none_eq_some.1 he
  cases e with
  | create t v => exact hi.move fun l ⟨hf, hc⟩ => .move .ready (by grind [Fits, enabled])
  | run t =>
    obtain ⟨l, -, hk, hf, hc⟩ := hi.mem (of_decide_eq_true h).2
    exact hi.move fun _ _ => .move .running (by grind [Fits])
  | yield t => exact hi.move fun l ⟨hf, hc⟩ => .move .ready (by grind [Fits, enabled])
  | usleep t => exact hi.move fun l ⟨hf, hc⟩ => .move .sleeping (by grind [Fits, enabled])
  | die t => exact hi.move fun l ⟨hf, hc⟩ => .move .done (by grind [Fits, enabled])
  | expired v t =>
    obtain ⟨l, rfl, hk, hf, hc⟩ := hi.mem (of_decide_eq_true h)
    rw [next, St.resumeExpired]
    split
    · exact hi.move fun _ _ => .move .ready (by grind [Fits])
    · exact hi.move (m := [standbyq]) fun _ _ => .move (by grind [Fits]) (by grind [Fits])
  | standby v t =>
    obtain ⟨l, rfl, hk, hf, hc⟩ := hi.mem (of_decide_eq_true h)
    have h1 : At (s.pop (sleepq, s.vcpu t) t) t [standbyq] := .move (by grind [Fits]) (by grind [Fits])
    have hc := h1.count
    exact (hi.move fun _ _ => h1).move fun _ _ => .move .ready (by grind [St.pop, St.move])
  | interrupt t v =>
    simp only [next, St.prelockedThreadInterrupt]
    split
    · exact hi.move fun l ⟨hf, hc⟩ => .move .interrupted (by grind [Fits, enabled])
    · exact hi.move fun l ⟨hf, hc⟩ => .move .ready (by grind [Fits, enabled])
  | wsScan k u v t =>
    obtain ⟨hm, hk, hr⟩ := of_decide_eq_true h
    obtain ⟨l, rfl, hl, hf, hc⟩ := hi.mem hm
    have hs := hc (sleepq, s.vcpu t)
    rw [count_eq_zero.2 (of_decide_eq_true ha)] at hs
    exact hi.move (m := [runq]) fun _ _ => .move (by grind [Fits]) (by grind [Fits])
  | doThreadMigrate t v => exact hi.move fun l ⟨hf, hc⟩ => .move .standby (by grind [Fits, enabled])

end

theorem threads_placed (es : List Ev) (hm : machine.Meets (awake · ·) es) (hrun : machine.run es = some s) : Placed s :=
  (Machine.run_inv_of (fun _ => ⟨[], .done, fun c => by simp [machine]⟩) step_inv hm hrun).placed

theorem threads_placed_one : ∃ s, machine.run [.create 1 0, .run 1, .usleep 1, .interrupt 1 (some 1)] = some s ∧ Placed s :=
  ⟨_, rfl, threads_placed [.create 1 0, .run 1, .usleep 1, .interrupt 1 (some 1)] (by decide) rfl⟩

/-- Interrupted from vCPU 1, a thread that sleeps on vCPU 0 is in two queues; when vCPU 1 has stolen it, the sleep queue
of vCPU 0 still has it. -/
theorem sleeper_in_two_queues : ∃ s s', machine.run [.create 1 0, .run 1, .usleep 1, .interrupt 1 (some 1)] = some s ∧
    s.state 1 = .standby ∧ s.vcpu 1 = 0 ∧ 1 ∈ s.q (sleepq, 0) ∧ 1 ∈ s.q (standbyq, 0) ∧
    machine.step s (.wsScan standbyq 0 1 1) = some s' ∧ s'.vcpu 1 = 1 ∧ 1 ∈ s'.q (sleepq, 0) :=
  ⟨_, _, rfl, rfl, rfl, by decide, by decide, rfl, rfl, by decide⟩

end Photon.Standby
