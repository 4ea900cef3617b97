import Mathlib.Algebra.BigOperators.Group.Finset.Basic
import Photon.Rpc.OutOfOrderOnce
/-!
# Runs of OooEngine

Every operation brings a fixed amount of work to the engine, and each event after its start
uses up some of it, so the threads cannot wake each other for ever. What they come to when
nothing more can happen is then what every run comes to.
-/

namespace Photon.Ooo

open List

variable {u : Tid} {s' : St} {e : Ev}

/-! ## The threads that have started -/

structure Within (T : Finset Tid) (s : St) : Prop where
  mem : ∀ t, (s.op t).pc ≠ .idle → t ∈ T
  queue : ∀ t ∈ s.wait, t ∈ T

open Within

section

variable {T : Finset Tid} {s s' : St} {t : Tid}

section
variable {ret : Int} (hT : Within T s)
include hT

lemma Within.set {o : Op} (ht : t ∈ T) : Within T (s.set t o) := by
  refine ⟨fun u hu => ?_, hT.queue⟩
  by_cases hut : u = t
  · rwa [hut]
  · rw [St.set_op_of_ne s hut] at hu
    exact hT.mem u hu

lemma Within.congr (ho : s'.op = s.op) (hq : s'.wait ⊆ s.wait) : Within T s' :=
  ⟨by rw [ho]; exact hT.mem, fun u hu => hT.queue u (hq hu)⟩

lemma Within.giveUp : Within T (s.giveUp t) := hT.congr rfl (List.Subset.refl _)

lemma Within.record : Within T (s.record u ret) := by
  refine ⟨fun v hv => ?_, hT.queue⟩
  rw [St.record_pc] at hv
  exact hT.mem v hv

lemma step_within (hst : ∀ t user together, e = .start t user together → t ∈ T)
    (he : step s e = some s') : Within T s' := by
  refine step_moves (fun t ht => ?_) hT he
  replace ht : t ∈ T := ht.elim (hT.mem t) fun ⟨user, g, h⟩ => hst t user g h
  refine ⟨?_, ?_, fun o hT _ => hT.set ht, fun u ret hT => hT.record⟩
  · intro s s' hT ho _ hq
    refine ⟨by rw [ho]; exact hT.mem, fun u hu => ?_⟩
    rcases mem_cons.1 (hq hu) with rfl | hu
    · exact ht
    · exact hT.queue u hu
  · rintro s u p hT (rfl | hu | hu)
    · exact hT.set ht
    · exact hT.set (hT.queue u hu)
    · exact hT.set (hT.mem u (hu ▸ Pc.noConfusion))

end

end

/-! ## The work that is left -/

def Pc.cost : Pc → Nat
  | .idle | .done _ => 0
  | .locking _ _ => 6
  | .issuing _ => 5
  | .issued | .woken false => 4
  | .asleep | .completing => 3
  | .woken true | .collecting _ _ => 2

def Op.cost (o : Op) : Nat := o.pc.cost + if o.pc = .idle ∨ o.phase = .collected then 0 else 2

lemma Op.cost_le (o : Op) : o.cost ≤ o.pc.cost + 2 := by
  unfold Op.cost
  split <;> omega

def St.load (T : Finset Tid) (s : St) : Nat := ∑ t ∈ T, (s.op t).cost

open St

section

variable {T : Finset Tid} {lossy : Bool} {s : St} {stage : Tid → Stage} {t : Tid}

lemma St.load_set (ht : t ∈ T) (o : Op) : (s.set t o).load T + (s.op t).cost = s.load T + o.cost := by
  unfold load
  rw [← Finset.add_sum_erase T _ ht, ← Finset.add_sum_erase T (fun u => (s.op u).cost) ht, set_op_self]
  have hr : ∑ u ∈ T.erase t, ((s.set t o).op u).cost = ∑ u ∈ T.erase t, (s.op u).cost :=
    Finset.sum_congr rfl fun u hu => by rw [St.set_op_of_ne s (Finset.ne_of_mem_erase hu)]
  omega

lemma St.load_goto (ht : t ∈ T) (hpc : (s.op t).pc ≠ .idle) {p : Pc} (hp : p ≠ .idle) :
    (s.goto t p).load T + (s.op t).pc.cost = s.load T + p.cost := by
  have h : (s.goto t p).load T + (s.op t).cost = s.load T + Op.cost { s.op t with pc := p } := load_set ht _
  simp only [Op.cost, hpc, hp, false_or] at h
  omega

lemma St.load_notifyOne (hc : Ctl s) (hT : Within T s) : s.notifyOne.load T ≤ s.load T + 1 := by
  unfold St.notifyOne
  split
  · omega
  rename_i u q hq
  have hu : (s.op u).pc = .asleep := hc.asleep (by simp [hq])
  have hn : (s.op u).pc ≠ .idle := by rw [hu]; exact Pc.noConfusion
  have h := load_goto (s := { s with wait := q }) (hT.mem u hn) hn (p := .woken false) Pc.noConfusion
  simp only [hu, Pc.cost] at h
  change _ = s.load T + 4 at h
  omega

lemma St.load_finish (hT : Within T s) (hpc : (s.op t).pc ≠ .idle) {r : Int} (hc : Ctl (s.goto t (.done r))) :
    (s.finish t r).load T + (s.op t).pc.cost ≤ s.load T + 1 := by
  have h1 : (s.goto t (.done r)).load T + (s.op t).pc.cost = s.load T + 0 :=
    load_goto (hT.mem t hpc) hpc Pc.noConfusion
  have h2 : (s.finish t r).load T ≤ (s.goto t (.done r)).load T + 1 := load_notifyOne hc (hT.set (hT.mem t hpc))
  omega

lemma St.load_leave (hc : Ctl s) (hT : Within T s) (hk : (s.op t).pc.kind = .reader) (r : Int) :
    (s.leave t r).load T + (s.op t).pc.cost ≤ s.load T + 1 := by
  have hpc : (s.op t).pc ≠ .idle := fun h => by rw [h] at hk; cases hk
  exact load_finish (s := { s with mutexR := none }) (hT.congr rfl (List.Subset.refl _)) hpc (hc.unlockR hk rfl)

lemma St.load_tryLock (hT : Within T s) (hpc : (s.op t).pc ≠ .idle) :
    (s.tryLock t).load T + (s.op t).pc.cost = s.load T + 3 := by
  unfold St.tryLock
  split
  · exact load_goto (s := { s with mutexR := some t }) (hT.mem t hpc) hpc Pc.noConfusion
  · exact load_goto (s := { s with wait := s.wait ++ [t] }) (hT.mem t hpc) hpc Pc.noConfusion

variable {together : Bool}

lemma St.load_issued (ht : t ∈ T) (hpc : (s.op t).pc = .issuing together)
    (hph : (s.op t).phase = .beforeIssue) (hf : s.find (s.op t).tag ≠ none) :
    ((s.set t { s.op t with pc := .issued, phase := .issued }).waitCompletion t).load T + 1 ≤ s.load T := by
  have hse : ∀ o : Op, o.pc.cost = 3 → o.pc ≠ .idle → o.phase = .waiting → (s.set t o).load T + 1 ≤ s.load T := by
    intro o hco hn ho
    have hl := load_set (s := s) ht o
    have h5 : (s.op t).pc.cost = 5 := by rw [hpc]; rfl
    have hi : (s.op t).pc ≠ .idle := hpc ▸ Pc.noConfusion
    simp only [Op.cost, h5, hco, hph, ho, hn, hi, false_or, reduceCtorEq, if_false] at hl
    omega
  rw [waitCompletion_issued (o := { s.op t with pc := .issued, phase := .issued }) rfl hf]
  split
  · exact hse { s.op t with pc := .completing, phase := .waiting } rfl Pc.noConfusion rfl
  · exact hse { s.op t with pc := .asleep, phase := .waiting } rfl Pc.noConfusion rfl

lemma St.load_wake {failed : Bool} (hc : Ctl s) (hT : Within T s) (hpc : (s.op t).pc = .woken failed) :
    (s.wake t failed).load T + 1 ≤ s.load T := by
  have hn : (s.op t).pc ≠ .idle := hpc ▸ Pc.noConfusion
  have hk : (s.op t).pc.kind = .plain := by rw [hpc]; rfl
  have hco : 2 ≤ (s.op t).pc.cost := by
    rw [hpc]
    cases failed <;> decide
  unfold St.wake
  split
  · have := load_finish hT hn (r := (s.op t).ret) (hc.set hk.symm)
    omega
  split
  · have h : ((s.giveUp t).finish t (-1)).load T + (s.op t).pc.cost ≤ s.load T + 1 :=
      load_finish (s := s.giveUp t) hT.giveUp hn ((hc.giveUp t).set hk.symm)
    omega
  rename_i hf
  rw [Bool.not_eq_true] at hf
  have h := load_tryLock hT hn
  rw [hpc, hf] at h
  change _ + 4 = _ at h
  omega

lemma St.load_record (ret : Int) (hu : u ∈ T) (hpc : (s.op u).pc ≠ .idle) (hph : (s.op u).phase = .waiting) :
    (s.record u ret).load T + 2 = s.load T := by
  have h : (s.record u ret).load T + (s.op u).cost = s.load T + Op.cost { s.op u with ret := ret, phase := .collected } :=
    load_set (s := { s with collects := s.collects ++ [(u, ret)] }) hu _
  simp only [Op.cost, hpc, hph, false_or] at h
  simp at h
  omega

lemma St.load_interrupt (hT : Within T s) (u : Tid) : (s.interrupt u).load T ≤ s.load T := by
  unfold St.interrupt
  split
  next hpc =>
    have hn : (s.op u).pc ≠ .idle := hpc ▸ Pc.noConfusion
    have h : ({ s with wait := s.wait.erase u }.goto u (.woken true)).load T + (s.op u).pc.cost = s.load T + 2 :=
      load_goto (s := { s with wait := s.wait.erase u }) (hT.mem u hn) hn Pc.noConfusion
    rw [hpc] at h
    change _ + 3 = _ at h
    omega
  · exact le_rfl

lemma St.load_collect {x : Nat} {ret : Int} (h : At lossy s stage) (hc : Ctl s) (hT : Within T s)
    (hpc : (s.op t).pc = .collecting u x) : (s.collect t u x ret).load T + 1 ≤ s.load T := by
  obtain ⟨hid, hw⟩ := h.waiting (h.1.reader t u x hpc).1
  have hr := load_record ret (hT.mem u hid) hid hw
  have hp1 : ((s.record u ret).op t).pc = .collecting u x := by rw [St.record_pc, hpc]
  have hT1 : Within T (s.record u ret) := hT.record
  have hc1 := hc.record u ret
  generalize hs1 : s.record u ret = s1 at *
  simp only [St.collect, hs1]
  split
  · have hl := load_leave hc1 hT1 (by rw [hp1]; rfl) (if u = t then (s1.op t).ret else -1)
    rw [hp1] at hl
    change _ + 2 ≤ _ at hl
    omega
  · have hi := load_interrupt hT1 u
    have hp2 : ((s1.interrupt u).op t).pc = .collecting u x := by
      rw [interrupt_op_of_awake u (hp1 ▸ Pc.noConfusion), hp1]
    have hn : ((s1.interrupt u).op t).pc ≠ .idle := hp2 ▸ Pc.noConfusion
    have ht : t ∈ T := hT.mem t (hpc ▸ Pc.noConfusion)
    have hl := load_goto ht hn (p := .completing) Pc.noConfusion
    rw [hp2] at hl
    change _ + 2 = _ + 3 at hl
    omega

/-! ## What one event uses -/

/-- The events that bring work. -/
def Ev.starts : Ev → Bool
  | .start .. => true
  | _ => false

lemma step_load (h : At lossy s stage) (hc : Ctl s) (hT : Within T s) (ho : Orderly lossy s e)
    (he : step s e = some s') (hst : e.starts = false) : s'.load T + 1 ≤ s.load T := by
  replace he := step_outcome he
  cases e with
  | start => cases hst
  | issue t =>
    obtain ⟨user, together, hpc, hfr, rfl⟩ := he
    have hf := h.2 t
    simp only [Fits, hpc] at hf
    have hfr := ho user together hpc
    simp only [St.issueOperation]
    split
    next u hu =>
      rw [show s.find (s.tagFor user) = some u from hu] at hfr
      cases hfr
    have hn : (s.op t).pc ≠ .idle := hpc ▸ Pc.noConfusion
    have hl := load_set (s := s) (hT.mem t hn) { pc := .issuing together, tag := s.tagFor user, ret := 0 }
    simp only [Op.cost, hpc, hf.2.1, Pc.cost] at hl
    simp at hl
    change (s.set t _).load T + 1 ≤ _
    omega
  | issued t =>
    obtain ⟨together, hpc, rfl⟩ := he
    have hf := h.2 t
    simp only [Fits, hpc] at hf
    obtain ⟨rfl, hph, hr⟩ := hf
    have hn : (s.op t).pc ≠ .idle := hpc ▸ Pc.noConfusion
    simp only [St.issueDone, if_true]
    split
    · have hl := load_goto (s := s) (hT.mem t hn) hn (p := .done (-1)) Pc.noConfusion
      rw [hpc] at hl
      change _ + 5 = _ + 0 at hl
      change (s.goto t _).load T + 1 ≤ _
      omega
    · have hfi : s.find (s.op t).tag ≠ none := by
        rw [h.1.find_own hr]
        exact Option.some_ne_none t
      exact load_issued (s := { s with mutexW := none }) (hT.mem t hn) hpc hph hfi
  | wait t =>
    obtain ⟨hpc, rfl⟩ := he
    have hf := h.2 t
    simp only [Fits, hpc] at hf
  | timeout t =>
    obtain ⟨hpc, rfl⟩ := he
    have hn : (s.op t).pc ≠ .idle := hpc ▸ Pc.noConfusion
    have hl := load_goto (s := { s with wait := s.wait.erase t }) (hT.mem t hn) hn (p := .woken true) Pc.noConfusion
    change _ + (s.op t).pc.cost = s.load T + 2 at hl
    rw [hpc] at hl
    change _ + 3 = _ at hl
    omega
  | resume =>
    obtain ⟨failed, hpc, rfl⟩ := he
    exact load_wake hc hT hpc
  | completion t ret tag =>
    obtain ⟨hpc, rfl⟩ := he
    have hn : (s.op t).pc ≠ .idle := hpc ▸ Pc.noConfusion
    have hfa : ∀ r, ((s.giveUp t).leave t r).load T + 1 ≤ s.load T := fun r => by
      have hl := load_leave (s := s.giveUp t) (t := t) (hc.giveUp t) hT.giveUp (show (s.op t).pc.kind = _ by rw [hpc]; rfl) r
      change _ + (s.op t).pc.cost ≤ s.load T + 1 at hl
      rw [hpc] at hl
      change _ + 3 ≤ _ at hl
      omega
    unfold St.complete
    split
    · exact hfa (-1)
    split
    · exact hfa (-2)
    rename_i u hu
    have hl := load_goto (s := s.erase tag) (hT.mem t hn) hn (p := .collecting u tag) Pc.noConfusion
    change _ + (s.op t).pc.cost = s.load T + 2 at hl
    rw [hpc] at hl
    change _ + 3 = _ at hl
    omega
  | collected =>
    obtain ⟨u, tag, hpc, rfl⟩ := he
    exact load_collect h hc hT hpc

lemma step_load_start {user : Option Nat} (ht : t ∈ T)
    (he : step s (.start t user together) = some s') : s'.load T ≤ s.load T + 8 := by
  simp only [step] at he
  split at he <;> cases he
  rename_i hpc
  have hl : (s.goto t (.locking user together)).load T + (s.op t).cost =
      s.load T + Op.cost { s.op t with pc := .locking user together } := load_set ht _
  have hn : Op.cost { s.op t with pc := .locking user together } ≤ 6 + 2 := Op.cost_le _
  omega

/-! ## Runs -/

structure Good (lossy : Bool) (T : Finset Tid) (s : St) : Prop where
  ctl : Ctl s
  awake : Awake s
  within : Within T s
  stages : ∃ stage, At lossy s stage

lemma good_init : Good lossy T {} where
  ctl := init_ctl.1
  awake := init_ctl.2
  within := ⟨fun _ h => absurd rfl h, nofun⟩
  stages := ⟨_, init_at⟩

def Ev.starter : Ev → Option Tid
  | .start t _ _ => some t
  | _ => none

lemma step_good (h : Good lossy T s) (ho : Orderly lossy s e) (hT : ∀ t ∈ e.starter, t ∈ T)
    (he : step s e = some s') : Good lossy T s' := by
  obtain ⟨hct, ha⟩ := step_ctl ⟨h.ctl, h.awake⟩ he
  obtain ⟨stage, hat⟩ := h.stages
  refine ⟨hct, ha, step_within h.within (fun t user together heq => hT t ?_) he, _, step_at hat h.ctl ho he⟩
  rw [heq]
  rfl

end

/-- The operation of `u` was issued and is not collected. While a reader is in `do_completion`
no other thread collects, so then its completion has not been received. -/
def Due (s : St) (u : Tid) : Prop := (s.op u).phase = .issued ∨ (s.op u).phase = .waiting

/-- Every thread calls `issue_wait`, with a tag that no operation has that is under way; there
are no timeouts and no failures, and a completion is that of an operation that is due. -/
def Clean (s : St) : Ev → Prop
  | .start _ _ together => together = true
  | .issue t =>
    match (s.op t).pc with
    | .locking (some x) _ => s.find x = none
    | _ => True
  | .issued _ ret => 0 ≤ ret
  | .timeout _ => False
  | .completion _ ret tag => 0 ≤ ret ∧ ∃ u, Due s u ∧ (s.op u).tag = tag
  | _ => True

/-- Nothing can happen but a new call, a timeout or a completion of an operation that is not due. -/
def Quiet (s : St) : Prop := ∀ e s', step s e = some s' →
    match e with
    | .start _ _ _ | .timeout _ => True
    | .completion _ _ tag => ∀ u, Due s u → (s.op u).tag ≠ tag
    | _ => False

section

variable {T : Finset Tid} {lossy : Bool} {s : St} {stage : Tid → Stage} {t : Tid}

lemma At.registered_of_due (h : At lossy s stage) (hc : Ctl s) (hpc : (s.op t).pc = .completing)
    (hd : Due s u) : stage u = .registered ∨ stage u = .gone := by
  have hin : stage u ≠ .inCollect := fun hg => by
    obtain ⟨r, x, hr⟩ := h.1.hasReader u hg
    have hrt : r = t := hc.reader_unique (hr ▸ rfl) (hpc ▸ rfl)
    rw [hrt, hpc] at hr
    cases hr
  have hco : (s.op u).phase ≠ .collected := fun hc => by simp [Due, hc] at hd
  have hbe : (s.op u).phase ≠ .beforeIssue := fun hc => by simp [Due, hc] at hd
  have hf := h.2 u
  cases hpu : (s.op u).pc <;> simp_all [Fits]

lemma At.not_gone (h : At false s stage) : stage t ≠ .gone := by
  intro hg
  have hf := h.2 t
  cases hpc : (s.op t).pc <;> simp_all [Fits]

lemma At.orderly (h : At false s stage) (hc : Ctl s) (hclean : Clean s e)
    (he : step s e = some s') : Orderly false s e := by
  cases e with
  | start => exact hclean
  | issue =>
    intro user together hpc
    cases user with
    | none => exact find_tagFor_none
    | some =>
      simp only [Clean, hpc] at hclean
      exact hclean
  | issued => exact .inr hclean
  | timeout => exact hclean.elim
  | completion t =>
    obtain ⟨hre, u, hd, rfl⟩ := hclean
    have hpc : (s.op t).pc = .completing := by
      by_contra hn
      simp [step, hn] at he
    have hr := (h.registered_of_due hc hpc hd).resolve_right h.not_gone
    simp only [Orderly, if_pos hre]
    refine ⟨u, h.1.find_own hr, fun hb => by simp [Due, hb] at hd, fun hpc => ?_⟩
    have hf := h.2 u
    simp [Fits, hpc, hr] at hf
  | _ => trivial

lemma Linked.filter_collects (hl : Linked s stage) {r : Int} (h : (t, r) ∈ s.collects) :
    s.collects.filter (·.1 = t) = [(t, r)] := by
  obtain ⟨l1, l2, hl1⟩ := append_of_mem h
  have ho := hl.once
  rw [hl1, map_append, map_cons, nodup_middle, nodup_cons] at ho
  have hn : ∀ p ∈ l1 ++ l2, p.1 ≠ t := fun p hp heq =>
    ho.1 (by rw [← map_append]; exact mem_map.2 ⟨p, hp, heq⟩)
  have h₁ : l1.filter (·.1 = t) = [] := filter_eq_nil_iff.2 fun p hp => by
    simpa using hn p (mem_append_left _ hp)
  have h₂ : l2.filter (·.1 = t) = [] := filter_eq_nil_iff.2 fun p hp => by
    simpa using hn p (mem_append_right _ hp)
  rw [hl1, filter_append, h₁, filter_cons_of_pos (by simp), h₂]
  rfl

lemma Good.done_of_quiet (h : Good lossy T s) (hq : Quiet s) (ht : (s.op t).pc ≠ .idle) :
    ∃ r, (s.op t).pc = .done r := by
  obtain ⟨stage, hat⟩ := h.stages
  have hwo : ∀ u f, (s.op u).pc ≠ .woken f := fun u f hpc =>
    hq (.resume u) (s.wake u f) (by simp only [step, hpc])
  have hco : ∀ r u x, (s.op r).pc ≠ .collecting u x := fun r u x hpc =>
    hq (.collected r 0) (s.collect r u x 0) (by simp only [step, hpc])
  have hi : ∀ u g, (s.op u).pc ≠ .issuing g := fun u g hpc =>
    hq (.issued u 0) (s.issueDone u 0 g) (by simp only [step, hpc])
  have hcom : ∀ u, (s.op u).pc ≠ .completing := by
    intro u hpc
    have hf := hat.2 u
    simp only [Fits, hpc] at hf
    have hst : step s (.completion u 0 (s.op u).tag) = some (s.complete u 0 (s.op u).tag) := by
      simp only [step, hpc, if_true]
    exact hq _ _ hst u (.inr hf.1) rfl
  have hW : s.mutexW = none := by
    refine Option.eq_none_iff_forall_ne_some.2 fun w hw => ?_
    have hk := (h.ctl.writer w).1 hw
    cases hpc : (s.op w).pc with
    | issuing g => exact hi w g hpc
    | _ =>
      rw [hpc] at hk
      cases hk
  have hR : s.mutexR = none := by
    refine Option.eq_none_iff_forall_ne_some.2 fun r hr => ?_
    have hk := (h.ctl.reader r).1 hr
    cases hpc : (s.op r).pc with
    | completing => exact hcom r hpc
    | collecting u x => exact hco r u x hpc
    | _ =>
      rw [hpc] at hk
      cases hk
  have hwa : s.wait = [] := by
    by_contra hn
    rcases h.awake hn with hR' | ⟨u, f, hu⟩
    · exact hR' hR
    · exact hwo u f hu
  cases hpc : (s.op t).pc with
  | idle => exact absurd hpc ht
  | locking user g =>
    exact (hq (.issue t) (s.issueOperation t user g) (by simp only [step, hpc, hW, if_true])).elim
  | issuing g => exact absurd hpc (hi t g)
  | issued =>
    have hf := hat.2 t
    simp only [Fits, hpc] at hf
  | asleep =>
    have hm := (h.ctl.queue t).2 (hpc ▸ rfl)
    rw [hwa] at hm
    cases hm
  | woken f => exact absurd hpc (hwo t f)
  | completing => exact absurd hpc (hcom t)
  | collecting u x => exact absurd hpc (hco t u x)
  | done r => exact ⟨r, rfl⟩

lemma quiet_of_returned (h : ∀ t, (s.op t).pc = .idle ∨ ∃ r, (s.op t).pc = .done r) : Quiet s := by
  intro e s' he
  cases e with
  | start | timeout => trivial
  | issue t | issued t ret | wait t | resume t | completion t ret tag | collected t =>
    rcases h t with hpc | ⟨r, hpc⟩ <;> simp [step, hpc] at he

end

/-! ## Every operation is collected once -/

def starters (es : List Ev) : Finset Tid := (es.filterMap Ev.starter).toFinset

def CleanIn (T : Finset Tid) (s : St) (e : Ev) : Prop := Clean s e ∧ ∀ t ∈ e.starter, t ∈ T

variable {es : List Ev}

lemma cleanIn_starters (h : machine.Meets Clean es) : machine.Meets (CleanIn (starters es)) es := by
  refine h.imp fun e he s hclean => ⟨hclean, fun t ht => ?_⟩
  rw [starters, mem_toFinset, mem_filterMap]
  exact ⟨e, he, ht⟩

section

variable {T : Finset Tid} {s s' : St} {e : Ev}

section
variable (h : Good false T s) (hclean : CleanIn T s e) (he : step s e = some s')
include h hclean he

lemma Good.step_clean : Good false T s' := by
  obtain ⟨stage, hat⟩ := h.stages
  exact step_good h (hat.orderly h.ctl hclean.1 he) hclean.2 he

lemma Good.use_clean (hst : e.starts = false) : s'.load T + 1 ≤ s.load T := by
  obtain ⟨stage, hat⟩ := h.stages
  exact step_load hat h.ctl h.within (hat.orderly h.ctl hclean.1 he) he hst

end

lemma Good.pay_clean (hclean : CleanIn T s e) (he : step s e = some s') (hst : e.starts = true) :
    s'.load T ≤ s.load T + 8 := by
  cases e with
  | start t => exact step_load_start (hclean.2 t rfl) he
  | _ => cases hst

end

lemma good_of_clean {s : St} (hclean : machine.Meets Clean es) (hr : machine.run es = some s) :
    Good false (starters es) s :=
  Machine.run_inv_of good_init (·.step_clean) (cleanIn_starters hclean) hr

/-- `do_collect` is called at most once for each operation, and `issue_wait` returns what it
returned. A run is over when each thread has done its few events, and then all have
returned. -/
theorem issue_wait_collects_once {es : List Ev} {s : St} (hclean : machine.Meets Clean es)
    (hrun : machine.run es = some s) :
    (s.collects.map Prod.fst).Nodup ∧ (∀ t r, (s.op t).pc = .done r → s.collects.filter (·.1 = t) = [(t, r)]) ∧
      es.countP (fun e => !e.starts) ≤ 8 * es.countP Ev.starts ∧
      (Quiet s → ∀ t, (s.op t).pc ≠ .idle → ∃ r, (s.op t).pc = .done r ∧ s.collects.filter (·.1 = t) = [(t, r)]) := by
  have hin := cleanIn_starters hclean
  have hgo := good_of_clean hclean hrun
  have hloa : es.countP (fun e => !e.starts) + s.load (starters es) ≤
      load (starters es) {} + 8 * es.countP Ev.starts := by
    refine Machine.runFrom_load (I := Good false (starters es)) ?_ ?_ ?_ good_init hin hrun
    · exact fun h => h.step_clean
    · exact fun _ => Good.pay_clean
    · exact fun h => h.use_clean
  obtain ⟨stage, hl, hf⟩ := hgo.stages
  have hd : ∀ t r, (s.op t).pc = .done r → s.collects.filter (·.1 = t) = [(t, r)] := by
    intro t r hpc
    have hft := hf t
    simp only [Fits, hpc] at hft
    obtain ⟨hg, -, hre⟩ | ⟨hlo, -⟩ := hft
    · exact hl.filter_collects ((hl.collects t r).2 ⟨hg, hre⟩)
    · cases hlo
  refine ⟨hl.once, hd, ?_, fun hq t ht => ?_⟩
  · have hz : load (starters es) {} = 0 := Finset.sum_eq_zero fun t _ => rfl
    omega
  · obtain ⟨r, hr⟩ := hgo.done_of_quiet hq ht
    exact ⟨r, hr, hd t r hr⟩

/-- Two calls. The first one is the reader, and gets the completion of the second one before
its own. -/
def twoCalls : List Ev :=
  [.start 0 none true, .issue 0, .issued 0 0, .start 1 (some 5) true, .issue 1, .issued 1 0, .completion 0 0 5,
    .collected 0 7, .resume 1, .completion 0 0 1, .collected 0 9]

lemma twoCalls_clean : machine.Meets Clean twoCalls := by
  refine .cons ?_ rfl <| .cons ?_ rfl <| .cons ?_ rfl <| .cons ?_ rfl <| .cons ?_ rfl <| .cons ?_ rfl <|
    .cons ?_ rfl <| .cons ?_ rfl <| .cons ?_ rfl <| .cons ?_ rfl <| .cons ?_ rfl trivial
  · rfl
  · trivial
  · exact le_rfl
  · rfl
  · exact rfl
  · exact le_rfl
  · exact ⟨by decide, 1, .inr rfl, rfl⟩
  · trivial
  · trivial
  · exact ⟨by decide, 0, .inr rfl, rfl⟩
  · trivial

lemma twoCalls_returned {s : St} (hr : machine.run twoCalls = some s) (h0 : (s.op 0).pc = .done 9)
    (h1 : (s.op 1).pc = .done 7) : Quiet s := by
  refine quiet_of_returned fun t => ?_
  by_cases hpc : (s.op t).pc = .idle
  · exact .inl hpc
  have hm := (good_of_clean twoCalls_clean hr).within.mem t hpc
  rw [show starters twoCalls = {0, 1} by decide, Finset.mem_insert, Finset.mem_singleton] at hm
  rcases hm with rfl | rfl
  · exact .inr ⟨9, h0⟩
  · exact .inr ⟨7, h1⟩

theorem issue_wait_collects_once_twoCalls :
    ∃ s, machine.run twoCalls = some s ∧ Quiet s ∧ s.collects = [(1, 7), (0, 9)] ∧
      (∃ r, (s.op 1).pc = .done r ∧ s.collects.filter (·.1 = 1) = [(1, r)]) := by
  obtain ⟨s, hr, h0, h1, hco⟩ : ∃ s, machine.run twoCalls = some s ∧ (s.op 0).pc = .done 9 ∧
      (s.op 1).pc = .done 7 ∧ s.collects = [(1, 7), (0, 9)] := ⟨_, rfl, rfl, rfl, rfl⟩
  have hq := twoCalls_returned hr h0 h1
  exact ⟨s, hr, hq, hco, (issue_wait_collects_once twoCalls_clean hr).2.2.2 hq 1 (by rw [h1]; exact Pc.noConfusion)⟩

end Photon.Ooo
