import Mathlib.Data.List.Perm.Subperm
import Photon.Rpc.OutOfOrder
/-!
# Every operation is collected once

The way of an operation through the engine: it is registered in `m_map`, a reader takes it
out and collects it, and its thread returns what was collected. `Fits` says at which stage
an operation is when its thread is at a given place, `Linked` what the stages mean for the
map and for the calls of `do_collect`.
-/

namespace Photon.Ooo

open List Function Prod Pc

inductive Stage where
  | fresh
  /-- In `m_map`. -/
  | registered
  /-- Taken out by a reader that is in `do_collect`. -/
  | inCollect
  | collected
  /-- Failed, or timed out. -/
  | gone
  deriving DecidableEq

/-- The stage of the operation of `t`. With `lossy` an operation may be given up. -/
def Fits (lossy : Bool) (t : Tid) (o : Op) (g : Stage) : Prop :=
  match o.pc with
  | .idle => o.phase = .beforeIssue ∧ g = .fresh
  | .locking _ together => together = true ∧ o.phase = .beforeIssue ∧ g = .fresh
  | .issuing together => together = true ∧ o.phase = .beforeIssue ∧ g = .registered
  | .issued => False
  | .asleep => o.phase = .waiting ∧ (g = .registered ∨ g = .inCollect)
  | .woken failed =>
    o.phase = .waiting ∧ (g = .registered ∧ (failed = true → lossy = true) ∨ g = .inCollect ∧ failed = false) ∨
      o.phase = .collected ∧ g = .collected
  | .completing => o.phase = .waiting ∧ g = .registered
  | .collecting u tag =>
    o.phase = .waiting ∧ (u = t ∧ g = .inCollect ∨ u ≠ t ∧ tag ≠ o.tag ∧ g = .registered)
  | .done ret => g = .collected ∧ o.phase = .collected ∧ o.ret = ret ∨ lossy = true ∧ g = .gone

structure Linked (s : St) (stage : Tid → Stage) : Prop where
  map : ∀ x u, (x, u) ∈ s.map ↔ stage u = .registered ∧ (s.op u).tag = x
  keys : (s.map.map fst).Nodup
  reader : ∀ t u x, (s.op t).pc = .collecting u x → stage u = .inCollect ∧ (s.op u).tag = x
  hasReader : ∀ u, stage u = .inCollect → ∃ t x, (s.op t).pc = .collecting u x
  collects : ∀ u v, (u, v) ∈ s.collects ↔ stage u = .collected ∧ (s.op u).ret = v
  once : (s.collects.map fst).Nodup
  failed : ∀ u, stage u = .gone → u ∈ s.failed

def At (lossy : Bool) (s : St) (stage : Tid → Stage) : Prop := Linked s stage ∧ ∀ t, Fits lossy t (s.op t) (stage t)

/-- No engine or network failure is seen, and no completion of an operation that is not
registered or has timed out. An operation may fail or time out when `lossy` allows it, but
not while it is collected. -/
def Orderly (lossy : Bool) (s : St) : Ev → Prop
  | .start _ _ together => together = true
  | .issue t => ∀ user together, (s.op t).pc = .locking user together → s.find (s.tagFor user) = none
  | .issued _ ret => lossy = true ∨ 0 ≤ ret
  | .timeout t => lossy = true ∧ ∀ r x, (s.op r).pc ≠ .collecting t x
  | .completion _ ret tag =>
    if 0 ≤ ret then ∃ u, s.find tag = some u ∧ (s.op u).phase ≠ .beforeIssue ∧ (s.op u).pc ≠ .woken true
    else lossy = true
  | _ => True

def nextStage (s : St) (stage : Tid → Stage) : Ev → Tid → Stage
  | .issue t => update stage t .registered
  | .issued t ret => if ret < 0 then update stage t .gone else stage
  | .resume t =>
    if (s.op t).pc = .woken true ∧ (s.op t).phase ≠ .collected then update stage t .gone else stage
  | .completion t ret tag =>
    if ret < 0 then update stage t .gone
    else
      match s.find tag with
      | some u => update stage u .inCollect
      | none => stage
  | .collected t _ =>
    match (s.op t).pc with
    | .collecting u _ => update stage u .collected
    | _ => stage
  | _ => stage

section

variable {lossy : Bool} {s : St} {stage : Tid → Stage} {t : Tid}
  {x : Nat} {u r : Tid} {o : Op} {s' : St} {failed : Bool} {ret : Int}

lemma St.mem_of_find (h : s.find x = some u) : (x, u) ∈ s.map := by
  obtain ⟨l1, l2, hl, -⟩ := lookup_eq_some_iff.1 h
  rw [hl]
  simp

lemma St.find_eq_none : s.find x = none ↔ x ∉ s.map.map fst := by
  rw [St.find, lookup_eq_none_iff, mem_map]
  constructor
  · rintro h ⟨p, hp, rfl⟩
    simpa using h p hp
  · intro h p hp
    simpa using fun hx => h ⟨p, hp, hx.symm⟩

lemma Linked.find_of_mem (hl : Linked s stage) (h : (x, u) ∈ s.map) : s.find x = some u := by
  cases hf : s.find x with
  | none => exact absurd (mem_map.2 ⟨_, h, rfl⟩) (St.find_eq_none.1 hf)
  | some v => rw [(inj_on_of_nodup_map hl.keys (St.mem_of_find hf) h rfl : (x, v) = (x, u)) |> mk.inj |>.2]

lemma Linked.find_own (hl : Linked s stage) (h : stage t = .registered) : s.find (s.op t).tag = some t :=
  hl.find_of_mem ((hl.map ..).2 ⟨h, rfl⟩)

lemma Ctl.reader_unique (hc : Ctl s) (hr : (s.op r).pc.kind = .reader) (ht : (s.op t).pc.kind = .reader) : r = t :=
  Option.some.inj ((hc.reader r).2 hr ▸ (hc.reader t).2 ht)

lemma nextTag_notMem {used : List Nat} : ∀ {fuel tag : Nat}, nextTag used fuel tag ∈ used → tag ∈ used →
    range' tag (fuel + 1) ⊆ used
  | 0, tag, _, ht => by simpa [range'] using ht
  | fuel + 1, tag, h, ht => by
    rw [nextTag] at h
    split at h
    next hm =>
      rw [range'_succ]
      exact cons_subset.2 ⟨ht, nextTag_notMem h hm⟩
    next hm => exact absurd h hm

lemma St.find_tagFor_none : s.find (s.tagFor none) = none := by
  refine St.find_eq_none.2 fun hm => ?_
  have hle : (range' (s.mTag + 1) (s.map.length + 1)).length ≤ (s.map.map fst).length := by
    refine (subperm_of_subset nodup_range' ?_).length_le
    rw [St.tagFor, nextTag] at hm
    split at hm
    next h => exact nextTag_notMem hm h
    next h => exact absurd hm h
  rw [length_range', length_map] at hle
  omega

/-! ## Moves that do not change a stage -/

lemma Linked.set (hl : Linked s stage) (ht : o.tag = (s.op t).tag) (hre : o.ret = (s.op t).ret)
    (hpc : ∀ u x, o.pc = .collecting u x ↔ (s.op t).pc = .collecting u x) : Linked (s.set t o) stage := by
  have ho : ∀ u, ((s.set t o).op u).tag = (s.op u).tag ∧ ((s.set t o).op u).ret = (s.op u).ret ∧
      ∀ v x, ((s.set t o).op u).pc = .collecting v x ↔ (s.op u).pc = .collecting v x := by
    intro u
    by_cases hu : u = t
    · rw [hu, St.set_op_self]
      exact ⟨ht, hre, hpc⟩
    · rw [St.set_op_of_ne s hu]
      exact ⟨rfl, rfl, fun _ _ => Iff.rfl⟩
  refine ⟨fun x u => ?_, hl.keys, fun r u x hr => ?_, fun u hu => ?_, fun u v => ?_, hl.once, hl.failed⟩
  · rw [(ho u).1]
    exact hl.map x u
  · rw [(ho u).1]
    exact hl.reader r u x (((ho r).2.2 u x).1 hr)
  · obtain ⟨r, x, hr⟩ := hl.hasReader u hu
    exact ⟨r, x, ((ho r).2.2 u x).2 hr⟩
  · rw [(ho u).2.1]
    exact hl.collects u v

section
variable (h : At lossy s stage)
include h

lemma At.set (ht : o.tag = (s.op t).tag) (hr : o.ret = (s.op t).ret)
    (hpc : ∀ u x, o.pc = .collecting u x ↔ (s.op t).pc = .collecting u x) (hf : Fits lossy t o (stage t)) :
    At lossy (s.set t o) stage := by
  refine ⟨h.1.set ht hr hpc, fun u => ?_⟩
  by_cases hu : u = t
  · rw [hu, St.set_op_self]
    exact hf
  · rw [St.set_op_of_ne s hu]
    exact h.2 u

lemma At.congr {r w q k} : At lossy { s with mutexR := r, mutexW := w, wait := q, mTag := k } stage := by
  obtain ⟨⟨h1, h2, h3, h4, h5, h6, h7⟩, h8⟩ := h
  exact ⟨⟨h1, h2, h3, h4, h5, h6, h7⟩, h8⟩

lemma At.goto {p : Pc} (hpc : ∀ u x, (s.op t).pc ≠ .collecting u x)
    (hp : ∀ u x, p ≠ .collecting u x) (hf : Fits lossy t { s.op t with pc := p } (stage t)) :
    At lossy (s.goto t p) stage :=
  h.set rfl rfl (fun u x => iff_of_false (hp u x) (hpc u x)) hf

lemma At.wakeUp (hpc : (s.op t).pc = .asleep)
    (hfa : failed = true → lossy = true ∧ stage t ≠ .inCollect) : At lossy (s.goto t (.woken failed)) stage := by
  refine h.goto (fun u x => by simp [hpc]) (fun u x => Pc.noConfusion) ?_
  have hfi := h.2 t
  simp only [Fits, hpc] at hfi ⊢
  obtain ⟨hw, hr | hi⟩ := hfi
  · exact .inl ⟨hw, .inl ⟨hr, fun hf => (hfa hf).1⟩⟩
  refine .inl ⟨hw, .inr ⟨hi, ?_⟩⟩
  cases failed with
  | false => rfl
  | true => exact absurd hi (hfa rfl).2

end

lemma Ctl.asleep (hc : Ctl s) (ht : t ∈ s.wait) : (s.op t).pc = .asleep := by
  have hk := (hc.queue t).1 ht
  cases hpc : (s.op t).pc <;> simp_all [kind]

lemma At.notifyOne (h : At lossy s stage) (hc : Ctl s) : At lossy s.notifyOne stage := by
  unfold St.notifyOne
  split
  · exact h
  next u q hq =>
    have hu : (s.op u).pc = .asleep := hc.asleep (by simp [hq])
    exact At.wakeUp h.congr hu nofun

lemma At.tryLock (h : At lossy s stage) (hw : (s.op t).phase = .waiting) (hr : stage t = .registered)
    (hpc : ∀ u x, (s.op t).pc ≠ .collecting u x) : At lossy (s.tryLock t) stage := by
  unfold St.tryLock
  split
  · exact At.goto h.congr hpc (fun _ _ => Pc.noConfusion) ⟨hw, hr⟩
  · exact At.goto h.congr hpc (fun _ _ => Pc.noConfusion)
      ⟨hw, .inl hr⟩

lemma At.finish (h : At lossy s stage) (hc : Ctl s) {f : Bool} (hpc : (s.op t).pc = .woken f)
    (hco : (s.op t).phase = .collected) : At lossy (s.finish t (s.op t).ret) stage := by
  have hk : (s.op t).pc.kind = .plain := by rw [hpc]; rfl
  refine At.notifyOne ?_ (hc.set hk.symm)
  refine h.goto (fun u x => by simp [hpc]) (fun u x => Pc.noConfusion) ?_
  have hf := h.2 t
  simp only [Fits, hpc, hco] at hf
  exact .inl ⟨by simpa using hf, hco, rfl⟩

/-! ## From stage to stage -/

lemma Linked.change
    {g : Stage} (hl : Linked s stage) (ho : ∀ v ≠ u, (s'.op v).tag = (s.op v).tag ∧ (s'.op v).ret = (s.op v).ret)
    (hm : ∀ x, ∀ v ≠ u, (x, v) ∈ s'.map ↔ (x, v) ∈ s.map)
    (hma : ∀ x, (x, u) ∈ s'.map ↔ g = .registered ∧ (s'.op u).tag = x)
    (hk : (s'.map.map fst).Nodup) (hre : ∀ r x, ∀ v ≠ u, (s'.op r).pc = .collecting v x ↔ (s.op r).pc = .collecting v x)
    (hrea : ∀ r x, (s'.op r).pc = .collecting u x → g = .inCollect ∧ (s'.op u).tag = x)
    (hr' : g = .inCollect → ∃ r x, (s'.op r).pc = .collecting u x)
    (hcol : ∀ y, ∀ v ≠ u, (v, y) ∈ s'.collects ↔ (v, y) ∈ s.collects)
    (hco : ∀ y, (u, y) ∈ s'.collects ↔ g = .collected ∧ (s'.op u).ret = y) (hon : (s'.collects.map fst).Nodup)
    (hf : ∀ v ∈ s.failed, v ∈ s'.failed) (hfa : g = .gone → u ∈ s'.failed) : Linked s' (update stage u g) := by
  refine ⟨fun x v => ?_, hk, fun r v x hr => ?_, fun v hv => ?_, fun v y => ?_, hon, fun v hv => ?_⟩
  all_goals by_cases hvu : v = u
  · subst hvu
    rw [update_self]
    exact hma x
  · rw [update_of_ne hvu, hm x v hvu, (ho v hvu).1]
    exact hl.map x v
  · subst hvu
    rw [update_self]
    exact hrea r x hr
  · rw [update_of_ne hvu, (ho v hvu).1]
    exact hl.reader r v x ((hre r x v hvu).1 hr)
  · subst hvu
    rw [update_self] at hv
    exact hr' hv
  · rw [update_of_ne hvu] at hv
    obtain ⟨r, x, hr⟩ := hl.hasReader v hv
    exact ⟨r, x, (hre r x v hvu).2 hr⟩
  · subst hvu
    rw [update_self]
    exact hco y
  · rw [update_of_ne hvu, hcol y v hvu, (ho v hvu).2]
    exact hl.collects v y
  · subst hvu
    rw [update_self] at hv
    exact hfa hv
  · rw [update_of_ne hvu] at hv
    exact hf v (hl.failed v hv)

lemma At.register (h : At lossy s stage) (hg : stage t = .fresh) (hpc : ∀ u x, (s.op t).pc ≠ .collecting u x)
    (ho : ∀ u x, o.pc ≠ .collecting u x) (hfr : s.find o.tag = none) (hfi : Fits lossy t o .registered) :
    At lossy ({ s with map := (o.tag, t) :: s.map }.set t o) (update stage t .registered) := by
  obtain ⟨hl, hf⟩ := h
  have hn : ∀ x, (x, t) ∉ s.map := fun x hx => by simpa [hg] using (hl.map x t).1 hx
  refine ⟨hl.change (fun v hv => ?_) (fun x v hv => ?_) (fun x => ?_) ?_ (fun r x v hv => ?_) (fun r x hr => ?_)
    nofun (fun y v _ => Iff.rfl) (fun y => ?_) hl.once (fun v hv => hv) nofun,
    fun v => ?_⟩
  · rw [St.set_op_of_ne _ hv]
    exact ⟨rfl, rfl⟩
  · simp [hv]
  · simp [hn x, eq_comm]
  · exact nodup_cons.2 ⟨St.find_eq_none.1 hfr, hl.keys⟩
  · by_cases hr : r = t
    · rw [hr, St.set_op_self]
      exact iff_of_false (ho v x) (hpc v x)
    · rw [St.set_op_of_ne _ hr]
  · by_cases hrt : r = t
    · rw [hrt, St.set_op_self] at hr
      exact absurd hr (ho t x)
    · rw [St.set_op_of_ne _ hrt] at hr
      simpa [hg] using hl.reader r t x hr
  · exact iff_of_false (fun hy => by simpa [hg] using (hl.collects t y).1 hy) (by simp)
  · by_cases hv : v = t
    · rw [hv, St.set_op_self, update_self]
      exact hfi
    · rw [St.set_op_of_ne _ hv, update_of_ne hv]
      exact hf v

lemma Linked.tag_ne (hl : Linked s stage) (hg : stage t = .registered) {v : Tid} (hv : v ≠ t)
    (hx : (x, v) ∈ s.map) : x ≠ (s.op t).tag := by
  rintro rfl
  have ho := hl.find_own hg
  rw [hl.find_of_mem hx] at ho
  exact hv (Option.some.inj ho)

lemma Linked.erase (hl : Linked s stage) (hg : stage u = .registered) :
    (∀ x, ∀ v ≠ u, (x, v) ∈ (s.erase (s.op u).tag).map ↔ (x, v) ∈ s.map) ∧
      (∀ x, (x, u) ∉ (s.erase (s.op u).tag).map) ∧ ((s.erase (s.op u).tag).map.map fst).Nodup := by
  refine ⟨fun x v hv => ?_, fun x hx => ?_, ?_⟩
  · simp only [St.erase, mem_filter, decide_eq_true_eq]
    exact ⟨fun hx => hx.1, fun hx => ⟨hx, hl.tag_ne hg hv hx⟩⟩
  · simp only [St.erase, mem_filter, decide_eq_true_eq] at hx
    exact hx.2 ((hl.map x u).1 hx.1).2.symm
  · exact hl.keys.sublist (filter_sublist.map _)

lemma At.giveUp (h : At true s stage) (hg : stage t = .registered) (hpc : ∀ u x, (s.op t).pc ≠ .collecting u x)
    (ret : Int) : At true ((s.giveUp t).goto t (.done ret)) (update stage t .gone) := by
  obtain ⟨hl, hf⟩ := h
  obtain ⟨ho, hn, hk⟩ := hl.erase hg
  refine ⟨hl.change (fun v hv => ?_) ho (fun x => iff_of_false (hn x) (fun hgi => by cases hgi.1)) hk
    (fun r x v hv => ?_) (fun r x hr => ?_) nofun (fun y v _ => Iff.rfl) (fun y => ?_) hl.once
    (fun v => mem_cons_of_mem _) (fun _ => mem_cons_self ..), fun v => ?_⟩
  · rw [St.goto_op_of_ne _ hv]
    exact ⟨rfl, rfl⟩
  · by_cases hr : r = t
    · rw [hr, St.goto_op_self]
      exact iff_of_false Pc.noConfusion (hpc v x)
    · rw [St.goto_op_of_ne _ hr]
      rfl
  · by_cases hrt : r = t
    · rw [hrt, St.goto_op_self] at hr
      cases hr
    · rw [St.goto_op_of_ne _ hrt] at hr
      simpa [hg] using hl.reader r t x hr
  · exact iff_of_false (fun hy => by simpa [hg] using (hl.collects t y).1 hy) (fun hgi => by cases hgi.1)
  · by_cases hv : v = t
    · rw [hv, St.goto_op_self, update_self]
      exact .inr ⟨rfl, rfl⟩
    · rw [St.goto_op_of_ne _ hv, update_of_ne hv]
      exact hf v

lemma At.take (h : At lossy s stage) (hc : Ctl s) (hpc : (s.op t).pc = .completing)
    (hg : stage u = .registered) (hu : (s.op u).phase ≠ .beforeIssue) (hw : (s.op u).pc ≠ .woken true) :
    At lossy ((s.erase (s.op u).tag).goto t (.collecting u (s.op u).tag)) (update stage u .inCollect) := by
  obtain ⟨hl, hf⟩ := h
  obtain ⟨ho, hn, hke⟩ := hl.erase hg
  have ht : ∀ v p, (((s.erase (s.op u).tag).goto t p).op v).tag = (s.op v).tag ∧
      (((s.erase (s.op u).tag).goto t p).op v).ret = (s.op v).ret := by
    intro v p
    by_cases hv : v = t
    · rw [hv, St.goto_op_self]
      exact ⟨rfl, rfl⟩
    · rw [St.goto_op_of_ne _ hv]
      exact ⟨rfl, rfl⟩
  refine ⟨hl.change (fun v _ => ht v _) ho (fun x => iff_of_false (hn x) (fun hgi => by cases hgi.1)) hke
    (fun r x v hv => ?_) (fun r x hr => ⟨rfl, ?_⟩) (fun _ => ⟨t, _, by rw [St.goto_op_self]⟩) (fun y v _ => Iff.rfl)
    (fun y => ?_) hl.once (fun v hv => hv) nofun, fun v => ?_⟩
  · by_cases hr : r = t
    · rw [hr, St.goto_op_self, hpc]
      exact iff_of_false (fun he => hv (Pc.collecting.inj he).1.symm) Pc.noConfusion
    · rw [St.goto_op_of_ne _ hr]
      rfl
  · by_cases hrt : r = t
    · rw [hrt, St.goto_op_self] at hr
      rw [(ht u _).1]
      exact (collecting.inj hr).2
    · rw [St.goto_op_of_ne _ hrt] at hr
      simpa [hg] using hl.reader r u x hr
  · exact iff_of_false (fun hy => by simpa [hg] using (hl.collects u y).1 hy) (fun hgi => by cases hgi.1)
  · have hfv := hf v
    rcases eq_or_ne v t with rfl | hvt
    · rw [St.goto_op_self]
      simp only [Fits, hpc] at hfv ⊢
      rcases eq_or_ne u v with rfl | huv
      · rw [update_self]
        exact ⟨hfv.1, .inl ⟨rfl, rfl⟩⟩
      · rw [update_of_ne (Ne.symm huv)]
        exact ⟨hfv.1, .inr ⟨huv, hl.tag_ne hfv.2 huv ((hl.map ..).2 ⟨hg, rfl⟩), hfv.2⟩⟩
    · rw [St.goto_op_of_ne _ hvt]
      rcases eq_or_ne v u with rfl | hvu
      · rw [update_self]
        change Fits lossy v (s.op v) .inCollect
        have hki : (s.op v).pc.kind ≠ .reader := fun hk => hvt (hc.reader_unique hk (hpc ▸ rfl))
        cases hpv : (s.op v).pc with
        | asleep =>
          simp only [Fits, hpv] at hfv ⊢
          exact ⟨hfv.1, .inr trivial⟩
        | woken f =>
          have hf : f = false := by
            cases f
            · rfl
            · exact absurd hpv hw
          simp only [Fits, hpv] at hfv ⊢
          obtain ⟨hwa, -⟩ | ⟨-, hco⟩ := hfv
          · exact .inl ⟨hwa, .inr ⟨trivial, hf⟩⟩
          · rw [hg] at hco
            cases hco
        | completing | collecting _ _ => exact absurd (hpv ▸ rfl) hki
        | _ => simp_all [Fits]
      · rw [update_of_ne hvu]
        exact hfv

lemma Ctl.not_collecting (hc : Ctl s) (hpc : (s.op t).pc = .collecting u x) (hr : r ≠ t)
    (v : Tid) (y : Nat) : (s.op r).pc ≠ .collecting v y := fun hrv =>
  hr (hc.reader_unique (hrv ▸ rfl) (hpc ▸ rfl))

section
variable (h : At lossy s stage)
include h

lemma At.deliver (hc : Ctl s) (hpc : (s.op t).pc = .collecting u x) (hm : s'.map = s.map)
    (hco : s'.collects = s.collects ++ [(u, ret)]) (hfa : s'.failed = s.failed) (ht : ∀ v, (s'.op v).tag = (s.op v).tag)
    (hret : ∀ v, (s'.op v).ret = if v = u then ret else (s.op v).ret) (hre : ∀ r v y, (s'.op r).pc ≠ .collecting v y)
    (hf : ∀ v, Fits lossy v (s'.op v) (update stage u .collected v)) : At lossy s' (update stage u .collected) := by
  obtain ⟨hl, -⟩ := h
  have hg : stage u = .inCollect := (hl.reader t u x hpc).1
  have hn : ∀ y, (u, y) ∉ s.collects := fun y hy => by simpa [hg] using (hl.collects u y).1 hy
  refine ⟨hl.change (fun v hv => ⟨ht v, by rw [hret, if_neg hv]⟩) (fun y v _ => by rw [hm]) (fun y => ?_)
    (by rw [hm]; exact hl.keys) (fun r y v hv => iff_of_false (hre r v y) ?_) (fun r y hr => absurd hr (hre r u y))
    nofun (fun y v hv => ?_) (fun y => ?_) ?_ (fun v hv => by rwa [hfa]) nofun,
    hf⟩
  · rw [hm, hl.map, hg]
    exact iff_of_false (fun hx => by cases hx.1) (fun hx => by cases hx.1)
  · by_cases hr : r = t
    · rw [hr, hpc]
      exact fun he => hv (collecting.inj he).1.symm
    · exact hc.not_collecting hpc hr v y
  · rw [hco]
    simp [hv]
  · rw [hco, hret, if_pos rfl]
    simp [hn, eq_comm]
  · rw [hco, map_append, nodup_append]
    refine ⟨hl.once, by simp, fun v hv w hw => ?_⟩
    obtain ⟨⟨a, y⟩, hy, rfl⟩ := mem_map.1 hv
    rw [mem_singleton.1 hw]
    rintro rfl
    exact hn y hy

lemma At.collectOwn (hc : Ctl s) (hpc : (s.op t).pc = .collecting t x) :
    At lossy ((s.record t ret).leave t ret) (update stage t .collected) := by
  have hk : (s.op t).pc.kind = .reader := by rw [hpc]; rfl
  refine At.notifyOne ?_ ((hc.record t ret).unlockR (by rw [St.record_pc, hk]) rfl)
  have hop : ∀ v ≠ t, ({ s.record t ret with mutexR := none }.goto t (.done ret)).op v = s.op v := fun v hv => by
    rw [St.goto_op_of_ne _ hv]
    exact St.set_op_of_ne _ hv _
  have ho : ({ s.record t ret with mutexR := none }.goto t (.done ret)).op t =
      { s.op t with pc := .done ret, ret := ret, phase := .collected } := by
    rw [St.goto_op_self]
    simp only [St.record, St.set_op_self]
  refine h.deliver hc hpc rfl rfl rfl (fun v => ?_) (fun v => ?_) (fun r v y => ?_) (fun v => ?_)
  · by_cases hv : v = t
    · rw [hv, ho]
    · rw [hop v hv]
  · by_cases hv : v = t
    · rw [hv, ho, if_pos rfl]
    · rw [hop v hv, if_neg hv]
  · by_cases hr : r = t
    · rw [hr, ho]
      exact Pc.noConfusion
    · rw [hop r hr]
      exact hc.not_collecting hpc hr v y
  · by_cases hv : v = t
    · rw [hv, ho, update_self]
      exact .inl ⟨rfl, rfl, rfl⟩
    · rw [hop v hv, update_of_ne hv]
      exact h.2 v

lemma At.waiting (hg : stage u = .inCollect) : (s.op u).pc ≠ .idle ∧ (s.op u).phase = .waiting := by
  have hf := h.2 u
  rw [hg] at hf
  cases hpu : (s.op u).pc <;> simp_all [Fits]

lemma At.beingCollected (hc : Ctl s) (hpc : (s.op t).pc = .collecting u x)
    (hu : u ≠ t) : (s.op u).pc = .asleep ∨ (s.op u).pc = .woken false := by
  have hg : stage u = .inCollect := (h.1.reader t u x hpc).1
  have hf := h.2 u
  rw [hg] at hf
  cases hpu : (s.op u).pc with
  | asleep => exact .inl rfl
  | woken =>
    simp only [Fits, hpu] at hf
    obtain ⟨-, hr | hi⟩ | hco := hf
    · cases hr.1
    · rw [hi.2]
      exact .inr rfl
    · cases hco.2
  | collecting v y => exact absurd hpu (hc.not_collecting hpc hu v y)
  | _ => simp [Fits, hpu] at hf

end

lemma St.interrupt_collected (ret : Int) (hpu : (s.op u).pc = .asleep ∨ (s.op u).pc = .woken false) :
    ∃ f, ((s.record u ret).interrupt u).op u = { s.op u with pc := .woken f, ret := ret, phase := .collected } := by
  have hr : (s.record u ret).op u = { s.op u with ret := ret, phase := .collected } := St.set_op_self ..
  unfold St.interrupt
  rcases hpu with hpu | hpu
  · rw [if_pos (by rw [St.record_pc, hpu]), St.goto_op_self]
    exact ⟨true, by dsimp only; rw [hr]⟩
  · rw [if_neg (by rw [St.record_pc, hpu]; exact Pc.noConfusion), hr]
    exact ⟨false, by rw [← hpu]⟩

lemma St.interrupt_fields (u : Tid) :
    (s.interrupt u).map = s.map ∧ (s.interrupt u).collects = s.collects ∧ (s.interrupt u).failed = s.failed := by
  unfold St.interrupt
  split <;> exact ⟨rfl, rfl, rfl⟩

section
variable (h : At lossy s stage) (hc : Ctl s) (hpc : (s.op t).pc = .collecting u x)
include h hc hpc

lemma At.collectOther (hu : u ≠ t) :
    At lossy (((s.record u ret).interrupt u).goto t .completing) (update stage u .collected) := by
  obtain ⟨f, hf⟩ := St.interrupt_collected ret (h.beingCollected hc hpc hu)
  obtain ⟨hm, hco, hfa⟩ := St.interrupt_fields u
  have hot : ∀ v ≠ u, ((s.record u ret).interrupt u).op v = s.op v := fun v hv => by
    rw [St.interrupt_op_of_ne hv]
    exact St.set_op_of_ne _ hv _
  generalize (s.record u ret).interrupt u = s1 at hf hm hco hfa hot
  have ho : (s1.goto t .completing).op t = { s.op t with pc := .completing } := by
    rw [St.goto_op_self, hot t hu.symm]
  have hopu : (s1.goto t .completing).op u = { s.op u with pc := .woken f, ret := ret, phase := .collected } := by
    rw [St.goto_op_of_ne _ hu, hf]
  have hop : ∀ v, v ≠ t → v ≠ u → (s1.goto t .completing).op v = s.op v := fun v hvt hvu => by
    rw [St.goto_op_of_ne _ hvt, hot v hvu]
  have ha : ∀ v, v = t ∨ v = u ∨ v ≠ t ∧ v ≠ u := fun v => by tauto
  refine h.deliver hc hpc hm hco hfa (fun v => ?_) (fun v => ?_) (fun r v y => ?_) (fun v => ?_)
  · rcases ha v with rfl | rfl | ⟨hvt, hvu⟩
    · rw [ho]
    · rw [hopu]
    · rw [hop v hvt hvu]
  · rcases ha v with rfl | rfl | ⟨hvt, hvu⟩
    · rw [ho, if_neg hu.symm]
    · rw [hopu, if_pos rfl]
    · rw [hop v hvt hvu, if_neg hvu]
  · rcases ha r with rfl | rfl | ⟨hrt, hru⟩
    · rw [ho]
      exact Pc.noConfusion
    · rw [hopu]
      exact Pc.noConfusion
    · rw [hop r hrt hru]
      exact hc.not_collecting hpc hrt v y
  · rcases ha v with rfl | rfl | ⟨hvt, hvu⟩
    · rw [ho, update_of_ne hu.symm]
      have hfi := h.2 v
      simp only [Fits, hpc] at hfi
      obtain ⟨hw, ⟨hse, -⟩ | ⟨-, -, hr⟩⟩ := hfi
      · exact absurd hse hu
      · exact ⟨hw, hr⟩
    · rw [hopu, update_self]
      exact .inr ⟨rfl, rfl⟩
    · rw [hop v hvt hvu, update_of_ne hvu]
      exact h.2 v

lemma At.collect : At lossy (s.collect t u x ret) (update stage u .collected) := by
  have ht : ((s.record u ret).op t).tag = (s.op t).tag := by
    rw [St.record, St.set_op]
    split
    next hut => rw [hut]
    · rfl
  have ho := (h.1.reader t u x hpc).2
  have hf := (h.2 t)
  simp only [Fits, hpc] at hf
  simp only [St.collect, ht]
  obtain ⟨rfl, -⟩ | ⟨hu, hx, -⟩ := hf.2
  · have hr : ((s.record u ret).op u).ret = ret := by simp [St.record]
    rw [if_pos ho.symm, if_pos rfl, hr]
    exact h.collectOwn hc hpc
  · rw [if_neg hx]
    exact h.collectOther hc hpc hu

end

lemma At.finishFailed (h : At true s stage) (hc : Ctl s) (hg : stage t = .registered)
    (hk : (s.op t).pc.kind = .plain) (ret : Int) : At true ((s.giveUp t).finish t ret) (update stage t .gone) := by
  refine (h.giveUp hg (fun u x hpc => ?_) ret).notifyOne ((hc.giveUp t).set hk.symm)
  rw [hpc] at hk
  cases hk

lemma At.leaveFailed (h : At true s stage) (hc : Ctl s) (hpc : (s.op t).pc = .completing) (ret : Int) :
    At true ((s.giveUp t).leave t ret) (update stage t .gone) := by
  have hf := h.2 t
  simp only [Fits, hpc] at hf
  have h1 : At true { s with mutexR := none } stage := h.congr
  refine (h1.giveUp hf.2 (fun u x => ?_) ret).notifyOne ((hc.giveUp t).unlockR ?_ rfl)
  · change (s.op t).pc ≠ _
    rw [hpc]
    exact Pc.noConfusion
  · change (s.op t).pc.kind = _
    rw [hpc]
    rfl

lemma St.tryLock_of_some (h : s.mutexR = some r) : s.tryLock t = { s with wait := s.wait ++ [t] }.goto t .asleep := by
  simp only [St.tryLock, h]

lemma At.wake (h : At lossy s stage) (hc : Ctl s) (hpc : (s.op t).pc = .woken failed) :
    At lossy (s.wake t failed) (nextStage s stage (.resume t)) := by
  have hf := h.2 t
  simp only [Fits, hpc] at hf
  have hn : ∀ u x, (s.op t).pc ≠ .collecting u x := fun u x => hpc ▸ Pc.noConfusion
  have hk : (s.op t).pc.kind = .plain := by rw [hpc]; rfl
  simp only [St.wake, nextStage, hpc, woken.injEq]
  obtain ⟨hw, ⟨hre, hlo⟩ | ⟨hin, rfl⟩⟩ | ⟨hco, -⟩ := hf
  · rw [if_neg (hw ▸ Phase.noConfusion)]
    cases failed with
    | false => simpa using h.tryLock hw hre hn
    | true =>
      obtain rfl := hlo rfl
      simpa [hw] using h.finishFailed hc hre hk (-1)
  · rw [if_neg (hw ▸ Phase.noConfusion), if_neg Bool.false_ne_true, if_neg (by simp)]
    -- its reader has the lock
    obtain ⟨r, x, hr⟩ := h.1.hasReader t hin
    have hR : s.mutexR = some r := (hc.reader r).2 (hr ▸ rfl)
    rw [St.tryLock_of_some hR]
    refine At.goto h.congr hn
      (fun _ _ => Pc.noConfusion) ?_
    exact ⟨hw, .inr hin⟩
  · rw [if_pos hco, if_neg (by simp [hco])]
    exact h.finish hc hpc hco

lemma At.complete (h : At lossy s stage) (hc : Ctl s) (hpc : (s.op t).pc = .completing)
    (ho : Orderly lossy s (.completion t ret x)) :
    At lossy (s.complete t ret x) (nextStage s stage (.completion t ret x)) := by
  simp only [St.complete, nextStage]
  simp only [Orderly] at ho
  split
  next hr =>
    rw [if_neg (by omega)] at ho
    obtain rfl := ho
    exact h.leaveFailed hc hpc (-1)
  next hr =>
    rw [if_pos (by omega)] at ho
    obtain ⟨u, hu, hph, hw⟩ := ho
    obtain ⟨hg, rfl⟩ := (h.1.map x u).1 (St.mem_of_find hu)
    rw [hu]
    exact h.take hc hpc hg hph hw

lemma St.waitCompletion_issued (hph : o.phase = .issued) (hf : s.find o.tag ≠ none) :
    (s.set t o).waitCompletion t =
      if s.mutexR = none then { s with mutexR := some t }.set t { o with pc := .completing, phase := .waiting }
      else { s with wait := s.wait ++ [t] }.set t { o with pc := .asleep, phase := .waiting } := by
  have hse : ∀ o' : Op, (s.set t o).set t o' = s.set t o' := fun o' => by simp [St.set]
  have hf' : (s.set t o).find o.tag ≠ none := hf
  simp only [St.waitCompletion, St.set_op_self, if_neg hf', hph, hse, St.tryLock, St.set_mutexR]
  cases s.mutexR <;> simp [St.goto, St.set]

lemma At.issuedTogether (h : At lossy s stage) (hg : stage t = .registered) (hpc : ∀ u x, (s.op t).pc ≠ .collecting u x) :
    At lossy ((s.set t { s.op t with pc := .issued, phase := .issued }).waitCompletion t) stage := by
  have hf : s.find (s.op t).tag ≠ none := by
    rw [h.1.find_own hg]
    exact Option.some_ne_none t
  rw [St.waitCompletion_issued (o := { s.op t with pc := .issued, phase := .issued }) rfl hf]
  split
  · exact At.set h.congr rfl rfl
      (fun u x => iff_of_false Pc.noConfusion (hpc u x)) ⟨rfl, hg⟩
  · exact At.set h.congr rfl rfl
      (fun u x => iff_of_false Pc.noConfusion (hpc u x)) ⟨rfl, .inl hg⟩

/-! ## Runs -/

lemma init_at : At lossy {} fun _ => .fresh :=
  ⟨⟨by simp, nodup_nil, by simp, by simp, by simp, nodup_nil, by simp⟩, fun _ => ⟨rfl, rfl⟩⟩

lemma step_at {e : Ev} (h : At lossy s stage) (hc : Ctl s) (ho : Orderly lossy s e)
    (he : step s e = some s') : At lossy s' (nextStage s stage e) := by
  replace he := step_outcome he
  cases e with
  | start t =>
    obtain ⟨hpc, rfl⟩ := he
    refine h.goto (fun u x => hpc ▸ Pc.noConfusion) (fun u x => Pc.noConfusion) ?_
    have hf := h.2 t
    simp only [Fits, hpc] at hf
    exact ⟨ho, hf⟩
  | issue t =>
    obtain ⟨user, together, hpc, hfr, rfl⟩ := he
    have hfr := ho user together hpc
    have hf := h.2 t
    simp only [Fits, hpc] at hf
    simp only [St.issueOperation]
    split
    next u hu =>
      rw [show s.find (s.tagFor user) = some u from hu] at hfr
      cases hfr
    refine At.register (s := { s with mTag := _, mutexW := some t }) h.congr hf.2.2
      (fun u x => ?_) (fun u x => Pc.noConfusion) hfr ⟨hf.1, rfl, rfl⟩
    change (s.op t).pc ≠ _
    rw [hpc]
    exact Pc.noConfusion
  | issued t =>
    obtain ⟨together, hpc, rfl⟩ := he
    have hf := h.2 t
    simp only [Fits, hpc] at hf
    obtain ⟨rfl, -, hre⟩ := hf
    have hn : ∀ u x, (s.op t).pc ≠ .collecting u x := fun u x => hpc ▸ Pc.noConfusion
    have h1 : At lossy { s with mutexW := none } stage := h.congr
    simp only [St.issueDone, nextStage, if_true]
    split
    next hret =>
      obtain rfl : lossy = true := ho.resolve_right (by omega)
      exact h1.giveUp hre hn _
    · exact h1.issuedTogether hre hn
  | wait t =>
    obtain ⟨hpc, rfl⟩ := he
    have hf := h.2 t
    simp only [Fits, hpc] at hf
  | timeout t =>
    obtain ⟨hpc, rfl⟩ := he
    refine At.wakeUp h.congr hpc fun _ => ⟨ho.1, ?_⟩
    intro hg
    obtain ⟨r, x, hr⟩ := h.1.hasReader t hg
    exact ho.2 r x hr
  | resume =>
    obtain ⟨failed, hpc, rfl⟩ := he
    exact h.wake hc hpc
  | completion =>
    obtain ⟨hpc, rfl⟩ := he
    exact h.complete hc hpc ho
  | collected =>
    obtain ⟨u, tag, hpc, rfl⟩ := he
    simp only [nextStage, hpc]
    exact h.collect hc hpc

end

end Photon.Ooo
