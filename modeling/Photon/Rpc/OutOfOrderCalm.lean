import Photon.Rpc.OutOfOrderOnce
/-!
# What an event leaves as it is

Most events only move a thread on: no operation is started, issued or timed out, and no
thread begins to collect. `Calm` says so for two states of the engine, and holds of each move
that an event is made of.
-/

namespace Photon.Ooo

/-! ## What an event does to an operation -/

/-- The thread gave up waiting, and its operation was not collected. -/
def Op.TimedOut (o : Op) : Prop := o.pc = .woken true ∧ o.phase ≠ .collected

/-- An operation is neither started nor issued nor timed out, and its thread does not begin to
collect. -/
structure Op.Calm (o o' : Op) : Prop where
  tag : o'.tag = o.tag
  locking : ∀ user g, o'.pc = .locking user g → o.pc = .locking user g
  issuing : ∀ g, o'.pc = .issuing g → o.pc = .issuing g
  timedOut : o'.TimedOut → o.TimedOut
  collecting : ∀ u x, o'.pc = .collecting u x → o.pc = .collecting u x

structure Calm (s s' : St) : Prop where
  op : ∀ u, (s.op u).Calm (s'.op u)
  collects : s.collects ⊆ s'.collects

open Calm

section

variable {s s' s'' : St} {t : Tid}

lemma Op.Calm.refl (o : Op) : o.Calm o := ⟨rfl, fun _ _ h => h, fun _ h => h, fun h => h, fun _ _ h => h⟩

lemma Calm.refl (s : St) : Calm s s := ⟨fun _ => .refl _, List.Subset.refl _⟩

lemma Calm.trans (h : Calm s s') (h' : Calm s' s'') : Calm s s'' := by
  refine ⟨fun u => ?_, List.Subset.trans h.collects h'.collects⟩
  obtain ⟨h1, h2, h3, h4, h5⟩ := h.op u
  obtain ⟨h1', h2', h3', h4', h5'⟩ := h'.op u
  exact ⟨h1'.trans h1, fun _ _ hp => h2 _ _ (h2' _ _ hp), fun _ hp => h3 _ (h3' _ hp), fun hp => h4 (h4' hp),
    fun _ _ hp => h5 _ _ (h5' _ _ hp)⟩

lemma Calm.set {o : Op} (ho : (s.op t).Calm o) : Calm s (s.set t o) := by
  refine ⟨fun u => ?_, List.Subset.refl _⟩
  by_cases hu : u = t
  · rw [hu, St.set_op_self]
    exact ho
  · rw [St.set_op_of_ne s hu]
    exact .refl _

def Pc.plain : Pc → Bool
  | .locking _ _ | .issuing _ | .woken true | .collecting _ _ => false
  | _ => true

lemma Op.Calm.of_plain {o o' : Op} (ht : o'.tag = o.tag) (hp : o'.pc.plain = true) : o.Calm o' := by
  refine ⟨ht, fun _ _ h => ?_, fun _ h => ?_, fun h => ?_, fun _ _ h => ?_⟩
  · rw [h] at hp
    cases hp
  · rw [h] at hp
    cases hp
  · rw [h.1] at hp
    cases hp
  · rw [h] at hp
    cases hp

lemma Calm.goto {p : Pc} (hp : p.plain = true) : Calm s (s.goto t p) := .set (.of_plain rfl hp)

lemma Calm.congr (h : Calm s s') {m r w q k f} :
    Calm s { s' with map := m, mutexR := r, mutexW := w, wait := q, mTag := k, failed := f } :=
  ⟨h.op, h.collects⟩

lemma Calm.notifyOne : Calm s s.notifyOne := by
  unfold St.notifyOne
  split
  · exact .refl s
  · exact (goto rfl).congr

lemma Calm.finish (r : Int) : Calm s (s.finish t r) := (goto rfl).trans .notifyOne

lemma Calm.leave (r : Int) : Calm s (s.leave t r) := by
  obtain ⟨ho, hc⟩ := finish (s := { s with mutexR := none }) (t := t) r
  exact ⟨ho, hc⟩

lemma Calm.giveUp : Calm s (s.giveUp t) := (refl s).congr

lemma Calm.tryLock : Calm s (s.tryLock t) := by
  unfold St.tryLock
  split <;> exact (goto rfl).congr

lemma Calm.waitCompletion (hpc : (s.op t).pc = .issued) : Calm s (s.waitCompletion t) := by
  unfold St.waitCompletion
  split
  · exact .goto rfl
  split
  · exact .finish _
  · exact .finish _
  · exact .finish _
  · have hse : Calm s (s.set t { s.op t with phase := .waiting }) := .set (.of_plain rfl (hpc ▸ rfl))
    exact hse.trans .tryLock

lemma Calm.issueDone (ret : Int) (g : Bool) : Calm s (s.issueDone t ret g) := by
  simp only [St.issueDone]
  split
  · exact (goto rfl).congr
  have hse : Calm s ({ s with mutexW := none }.set t { s.op t with pc := .issued, phase := .issued }) :=
    (set (s := s) (t := t) (o := { s.op t with pc := .issued, phase := .issued }) (.of_plain rfl rfl)).congr
  split
  · exact hse.trans (.waitCompletion (by rw [St.set_op_self]))
  · exact hse

lemma Calm.wake (failed : Bool) : Calm s (s.wake t failed) := by
  unfold St.wake
  split
  · exact .finish _
  · split
    · exact giveUp.trans (.finish _)
    · exact .tryLock

lemma Op.Calm.collected {o o' : Op} (ht : o'.tag = o.tag) (hpc : o'.pc = o.pc ∨ o'.pc = .woken true)
    (hph : o'.phase = .collected) : o.Calm o' := by
  rcases hpc with hpc | hpc
  · exact ⟨ht, fun _ _ h => hpc ▸ h, fun _ h => hpc ▸ h, fun h => absurd hph h.2, fun _ _ h => hpc ▸ h⟩
  · exact ⟨ht, fun _ _ h => Pc.noConfusion (hpc.symm.trans h), fun _ h => Pc.noConfusion (hpc.symm.trans h),
      fun h => absurd hph h.2, fun _ _ h => Pc.noConfusion (hpc.symm.trans h)⟩

lemma Calm.record (u : Tid) (ret : Int) : Calm s (s.record u ret) := by
  have hu : (s.op u).Calm { s.op u with ret := ret, phase := .collected } := .collected rfl (.inl rfl) rfl
  obtain ⟨ho, hc⟩ := set (s := { s with collects := s.collects ++ [(u, ret)] }) hu
  exact ⟨ho, List.Subset.trans (List.subset_append_left ..) hc⟩

lemma St.issueOperation_free {user : Option Nat} {g : Bool} (hf : s.find (s.tagFor user) = none) :
    (s.issueOperation t user g).op t = { pc := .issuing g, tag := s.tagFor user, ret := 0 } ∧
      (∀ u ≠ t, (s.issueOperation t user g).op u = s.op u) ∧ (s.issueOperation t user g).collects = s.collects := by
  simp only [St.issueOperation]
  split
  next u hu =>
    rw [show s.find (s.tagFor user) = some u from hu] at hf
    cases hf
  · exact ⟨St.set_op_self .., fun u hu => St.set_op_of_ne _ hu _, rfl⟩

lemma St.issueDone_not_issuing (hf : s.find (s.op t).tag ≠ none) (g : Bool) :
    ((s.issueDone t 0 true).op t).pc ≠ .issuing g := by
  simp only [St.issueDone, if_neg (show ¬ (0 : Int) < 0 by decide), if_true]
  rw [St.waitCompletion_issued (s := { s with mutexW := none })
    (o := { s.op t with pc := .issued, phase := .issued }) rfl hf]
  split
  all_goals
    rw [St.set_op_self]
    exact Pc.noConfusion

lemma Calm.interrupt {u : Tid} (hph : (s.op u).phase = .collected) : Calm s (s.interrupt u) := by
  have hu : (s.op u).Calm { s.op u with pc := .woken true } := .collected rfl (.inr rfl) hph
  unfold St.interrupt
  split
  · exact (set hu).congr
  · exact .refl s

lemma St.notifyOne_collects : s.notifyOne.collects = s.collects := by
  unfold St.notifyOne
  split <;> rfl

lemma St.collect_collects (u : Tid) (x : Nat) (ret : Int) :
    (s.collect t u x ret).collects = s.collects ++ [(u, ret)] := by
  simp only [St.collect]
  split
  · exact St.notifyOne_collects
  · exact (St.interrupt_fields u).2.1

lemma Calm.collect (u : Tid) (x : Nat) (ret : Int) : Calm s (s.collect t u x ret) := by
  simp only [St.collect]
  split
  · exact (record u ret).trans (.leave _)
  · refine ((record u ret).trans (.interrupt ?_)).trans (.goto rfl)
    rw [St.record, St.set_op_self]

end

end Photon.Ooo
