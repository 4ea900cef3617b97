import Photon.Rpc.OutOfOrder
/-!
# An operation that is collected before its thread waits

`ooo_issue_operation` and `ooo_wait_completion` can be called apart. If a reader collects the
operation in between, `wait_completion` finds `COLLECTED` and returns what was collected, but
it first looks for the tag in `m_map`, and the reader has removed it.
-/

namespace Photon.Ooo

open Phase List

def St.result (s : St) (t : Tid) : Option Int := s.collects.reverse.lookup t

/-- The context of an operation that is collected has what `do_collect` returned. -/
def Kept (s : St) : Prop := ∀ t, (s.op t).phase = .collected → s.result t = some (s.op t).ret

section

variable {s s' : St} {t : Tid}

lemma Kept.set {o : Op} (h : Kept s) (ho : o.phase = .collected → s.result t = some o.ret) : Kept (s.set t o) := by
  intro u hu
  by_cases hut : u = t
  · rw [hut, St.set_op_self] at hu ⊢
    exact ho hu
  · rw [St.set_op_of_ne s hut] at hu ⊢
    exact h u hu

lemma Kept.restart {o : Op} (h : Kept s) (ho : o.phase ≠ .collected) : Kept (s.set t o) :=
  h.set fun hp => absurd hp ho

lemma Kept.goto (h : Kept s) (p : Pc) : Kept (s.goto t p) := h.set (h t)

lemma Kept.congr (h : Kept s) (ho : s'.op = s.op) (hc : s'.collects = s.collects) : Kept s' := by
  unfold Kept St.result at *
  rwa [ho, hc]

lemma St.notifyOne_op (h : t ∉ s.wait) : s.notifyOne.op t = s.op t := by
  unfold St.notifyOne
  split
  · rfl
  rename_i u q hq
  have hn : t ≠ u := by
    rintro rfl
    exact h (by simp [hq])
  exact St.goto_op_of_ne _ hn _

lemma Kept.record (h : Kept s) (u : Tid) (ret : Int) : Kept (s.record u ret) := by
  have hr : ∀ v, (s.record u ret).result v = if v = u then some ret else s.result v := by
    intro v
    simp only [St.record, St.result, St.set_collects, reverse_append, reverse_singleton, singleton_append, lookup_cons]
    split <;> simp_all
  intro v hv
  rw [hr]
  by_cases hvu : v = u
  · rw [if_pos hvu, hvu, St.record, St.set_op_self]
  · rw [St.record, St.set_op_of_ne _ hvu] at hv ⊢
    rw [if_neg hvu]
    exact h v hv

lemma step_kept {e : Ev} (h : Kept s) (he : step s e = some s') : Kept s' := by
  refine step_moves (fun t _ => ⟨?_, ?_, ?_, ?_⟩) h he
  · exact fun h ho hc _ => h.congr ho hc
  · exact fun p h _ => h.goto p
  · exact fun o h ho => h.restart ho
  · exact fun u ret h => h.record u ret

end

/-- `wait_completion` for an operation that was collected before returns what was collected exactly when the tag is in
the map again; otherwise it returns -1, which can be the same. -/
theorem wait_returns_collected {es : List Ev} {s : St} {t : Tid} (hrun : machine.run es = some s)
    (hpc : (s.op t).pc = .issued) (hcol : (s.op t).phase = .collected) :
    (∃ s' r, step s (.wait t) = some s' ∧ (s'.op t).pc = .done r ∧ s.result t = some r) ↔
      s.find (s.op t).tag ≠ none ∨ s.result t = some (-1) := by
  have hct : Ctl s := (Machine.run_inv (I := fun s => Ctl s ∧ Awake s) init_ctl step_ctl hrun).1
  have hk : Kept s := Machine.run_inv (fun t h => by cases h) step_kept hrun
  have hst : step s (.wait t) = some (s.waitCompletion t) := by simp only [step, hpc, if_true]
  by_cases hfind : s.find (s.op t).tag = none
  · have hpc' : ((s.waitCompletion t).op t).pc = .done (-1) := by
      rw [St.waitCompletion, if_pos hfind, St.goto_op_self]
    constructor
    · rintro ⟨s', r, hs', hr, hre⟩
      rw [hst] at hs'
      cases hs'
      rw [hpc'] at hr
      cases hr
      exact .inr hre
    · intro h
      exact ⟨_, -1, hst, hpc', h.resolve_left (not_not.2 hfind)⟩
  · have hn : t ∉ (s.goto t (.done (s.op t).ret)).wait := hct.not_mem (by rw [hpc]; exact Kind.noConfusion)
    refine iff_of_true ⟨s.waitCompletion t, (s.op t).ret, hst, ?_, hk t hcol⟩ (.inl hfind)
    rw [St.waitCompletion, if_neg hfind, hcol]
    change ((s.goto t (.done (s.op t).ret)).notifyOne.op t).pc = _
    rw [St.notifyOne_op hn, St.goto_op_self]

/-- The first call waits for the operation of tag 5 only after a third one has used the tag
again. -/
def tagAgain : List Ev :=
  [.start 0 (some 5) false, .issue 0, .issued 0 0, .start 1 none true, .issue 1, .issued 1 0, .completion 1 0 5,
    .collected 1 7, .start 2 (some 5) false, .issue 2]

theorem wait_returns_collected_tagAgain :
    ∃ s s' r, machine.run tagAgain = some s ∧ step s (.wait 0) = some s' ∧ (s'.op 0).pc = .done r ∧
      s.result 0 = some r := by
  obtain ⟨s, hr, hpc, hco, hf⟩ : ∃ s, machine.run tagAgain = some s ∧ (s.op 0).pc = .issued ∧
      (s.op 0).phase = .collected ∧ s.find (s.op 0).tag ≠ none := ⟨_, rfl, rfl, rfl, by decide⟩
  obtain ⟨s', r, h⟩ := (wait_returns_collected hr hpc hco).2 (.inl hf)
  exact ⟨s, s', r, hr, h⟩

/-- Thread 1 collects the operation of thread 0, which then waits and gets -1. -/
theorem wait_loses_collected :
    ∃ s s', machine.run [.start 0 none false, .issue 0, .issued 0 0, .start 1 none true, .issue 1, .issued 1 0,
        .completion 1 0 1, .collected 1 7] = some s ∧
      (s.op 0).pc = .issued ∧ (s.op 0).phase = .collected ∧ s.result 0 = some 7 ∧
      step s (.wait 0) = some s' ∧ (s'.op 0).pc = .done (-1) :=
  ⟨_, _, rfl, rfl, rfl, by decide, rfl, rfl⟩

end Photon.Ooo
