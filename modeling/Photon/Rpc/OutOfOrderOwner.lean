import Photon.Rpc.OutOfOrderCalm
import Photon.Rpc.OutOfOrderWait
/-!
# The owner of an operation that is collected

A reader that has taken an operation out of `m_map` is in `do_collect` with the context of another thread.
`Ev.Keeps` says when that thread stays in `wait_completion` meanwhile.
-/

namespace Photon.Ooo

open Option

variable {s s' : St} {e : Ev} {r u : Tid} {x : Nat} {f : Bool}

def Ev.waits : Ev → Option Tid
  | .wait t | .resume t | .completion t _ _ | .collected t _ => some t
  | .issued t ret => if 0 ≤ ret then some t else none
  | _ => none

def Op.Safe (o : Op) : Prop := ∀ ret, o.pc = .done ret → o.phase = .collected

/-- The thread of `u` has not timed out, and when it comes to wait its tag is in use again. -/
def Ev.Keeps (s : St) (u : Tid) : Ev → Prop
  | .resume t => t = u → ¬ (s.op u).TimedOut
  | .wait t => t = u → (s.op u).phase = .collected ∨ (s.find (s.op u).tag ≠ none ∧ (s.op u).phase = .issued)
  | .issued t ret => t = u → 0 ≤ ret → (s.op u).pc = .issuing true → s.find (s.op u).tag ≠ none
  | _ => True

lemma St.finish_op (h : u ∉ s.wait) (ret : Int) : (s.finish u ret).op u = { s.op u with pc := .done ret } :=
  (notifyOne_op (s := s.goto u _) h).trans (goto_op_self ..)

open St

lemma St.tryLock_pc (h : s.mutexR = some r) : ((s.tryLock u).op u).pc = .asleep := by
  rw [tryLock_of_some h, goto_op_self]

lemma waitCompletion_safe (hm : s.mutexR = some r) (hw : u ∉ s.wait) : ((s.waitCompletion u).op u).Safe ↔
    (s.op u).phase = .collected ∨ (s.find (s.op u).tag ≠ none ∧ (s.op u).phase = .issued) := by
  unfold waitCompletion
  split
  next hf => simp [Op.Safe, hf]
  next hf =>
    cases hp : (s.op u).phase with
    | issued =>
      have : (((s.set u { s.op u with phase := .waiting }).tryLock u).op u).pc = .asleep := tryLock_pc hm
      simp [Op.Safe, this, hf]
    | _ => simp [Op.Safe, finish_op hw, hp]

lemma wake_safe (hm : s.mutexR = some r) (hw : u ∉ s.wait) (hp : (s.op u).pc = .woken f) :
    ((s.wake u f).op u).Safe ↔ ¬ (s.op u).TimedOut := by
  unfold wake Op.TimedOut Op.Safe
  split
  next hc => simp [finish_op hw, hc]
  next hc =>
    cases f with
    | true =>
      rw [if_pos rfl, finish_op (s := s.giveUp u) hw]
      simp [hc, hp, giveUp, erase]
    | false => simp [tryLock_pc hm, hp]

lemma issueDone_safe {ret : Int} (hm : s.mutexR = some r) (hw : u ∉ s.wait) (h0 : 0 ≤ ret) :
    ((s.issueDone u ret f).op u).Safe ↔ (f = true → s.find (s.op u).tag ≠ none) := by
  simp only [issueDone, if_neg (Int.not_lt.2 h0)]
  cases f with
  | false => simp [Op.Safe]
  | true =>
    refine (waitCompletion_safe (s := { s with mutexW := none }.set u _) hm hw).trans ?_
    simp [find]

lemma collect_safe {ret : Int} (hw : u ∉ s.wait) : ((s.collect u u x ret).op u).Safe := by
  intro k hd
  by_cases hx : x = ((s.record u ret).op u).tag
  · simp only [collect, if_pos hx]
    have ho := finish_op (s := { s.record u ret with mutexR := none }) hw
    exact congrArg Op.phase ((ho _).trans (by rw [record, set_op_self]))
  · simp [collect, if_neg hx] at hd

lemma step_safe (hc : Ctl s) (hr : (s.op r).pc = .collecting u x) (he : step s e = some s') :
    (e.waits = some u → (s'.op u).Safe) ↔ e.Keeps s u := by
  have hk : (s.op r).pc.kind = .reader := by rw [hr]; rfl
  have hm := (hc.reader r).2 hk
  have hw : (s.op u).pc.kind ≠ .sleeper → u ∉ s.wait := hc.not_mem
  have ho := step_outcome he
  cases e with
  | start | issue | timeout => simp [Ev.waits, Ev.Keeps]
  | wait t =>
    obtain ⟨hp, rfl⟩ := ho
    simp only [Ev.waits, Ev.Keeps, some_inj]
    refine forall_congr' ?_
    rintro rfl
    exact waitCompletion_safe hm (hw (by simp [hp, Pc.kind]))
  | resume t =>
    obtain ⟨f, hp, rfl⟩ := ho
    simp only [Ev.waits, Ev.Keeps, some_inj]
    refine forall_congr' ?_
    rintro rfl
    exact wake_safe hm (hw (by simp [hp, Pc.kind])) hp
  | issued t ret =>
    obtain ⟨g, hp, rfl⟩ := ho
    by_cases h0 : 0 ≤ ret
    · simp only [Ev.waits, Ev.Keeps, some_inj, h0, if_true, true_imp_iff]
      refine forall_congr' ?_
      rintro rfl
      rw [issueDone_safe hm (hw (by simp [hp, Pc.kind])) h0]
      simp [hp]
    · simp [Ev.waits, Ev.Keeps, h0]
  | completion t ret tag =>
    obtain rfl := hc.reader_unique hk (by rw [ho.1]; rfl)
    cases hr.symm.trans ho.1
  | collected t ret =>
    obtain ⟨v, y, hp, rfl⟩ := ho
    obtain rfl := hc.reader_unique hk (by rw [hp]; rfl)
    obtain ⟨rfl, rfl⟩ := Pc.collecting.inj (hr.symm.trans hp)
    simp only [Ev.waits, Ev.Keeps, iff_true, some_inj]
    rintro rfl
    exact collect_safe (hw (by simp [hp, Pc.kind]))

/-- The owner of an operation that a reader collects does not return from `wait_completion` before the operation is
marked, if and only if the event keeps it there. -/
theorem owner_outlives_iff (es : List Ev) (hrun : machine.run es = some s) (he : step s e = some s') :
    (∀ r u x, (s.op r).pc = .collecting u x → e.waits = some u → (s'.op u).Safe) ↔
      ∀ r u x, (s.op r).pc = .collecting u x → e.Keeps s u := by
  have hc : Ctl s := (Machine.run_inv init_ctl step_ctl hrun).1
  refine forall_congr' fun r => forall_congr' fun u => forall_congr' fun x => ?_
  exact forall_congr' fun hr => step_safe hc hr he

def collectOther : List Ev :=
  [.start 0 none true, .issue 0, .issued 0 0, .start 1 none true, .issue 1, .issued 1 0, .completion 0 0 2, .timeout 1]

/-- A third thread gives up, and its notification wakes the owner while its operation is collected. -/
def wakeOwner : List Ev :=
  [.start 0 none true, .issue 0, .issued 0 0, .start 1 none true, .issue 1, .issued 1 0, .start 2 none true, .issue 2,
    .issued 2 0, .completion 0 0 2, .timeout 2, .resume 2]

theorem owner_outlives_iff_collected : ∃ s s', machine.run wakeOwner = some s ∧ step s (.resume 1) = some s' ∧
    (s.op 0).pc = .collecting 1 2 ∧ (s.op 1).pc = .woken false ∧ (s'.op 1).Safe := by
  obtain ⟨s, s', hr, he, hc, hp⟩ : ∃ s s', machine.run wakeOwner = some s ∧ step s (.resume 1) = some s' ∧
      (s.op 0).pc = .collecting 1 2 ∧ (s.op 1).pc = .woken false := ⟨_, _, rfl, rfl, rfl, rfl⟩
  refine ⟨s, s', hr, he, hc, hp, (owner_outlives_iff wakeOwner hr he).2 ?_ 0 1 2 hc rfl⟩
  -- the owner was woken and has not timed out
  rintro r u x - rfl ⟨ht, -⟩
  rw [hp] at ht
  cases ht

theorem owner_returns_early : ∃ s s', machine.run collectOther = some s ∧ step s (.resume 1) = some s' ∧
    (s'.op 0).pc = .collecting 1 2 ∧ (s'.op 1).pc = .done (-1) ∧ (s'.op 1).phase = .waiting :=
  ⟨_, _, rfl, rfl, rfl, rfl, rfl⟩

end Photon.Ooo
