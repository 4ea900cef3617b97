import Photon.Rpc.OutOfOrderRuns
import Photon.Rpc.StubInv
/-!
# The calls of a stub

A call whose reply has arrived returns it, as long as nothing disturbs the stream. When another
call has timed out and its reply comes late, the reader finds no operation for it and returns
-2.
-/

namespace Photon.Rpc.Stub

open List

open Ooo (Within)

/-! ## The threads do not run for ever -/

def Ev.runs : Ev → Bool
  | .call _ _ | .reply _ _ _ | .deliver _ | .tick _ => false
  | _ => true

def Ev.caller : Ev → Option Tid
  | .call t _ => some t
  | _ => none

def St.load (T : Finset Tid) (s : St) : Nat := 2 * s.ooo.load T + if s.reading then 0 else 1

open St

section

variable {T : Finset Tid} {s s' : St} {stage : Tid → Ooo.Stage} {got rest : List Reply} {o : Ooo.St} {t : Tid}

lemma Inv.engine_load {e : Ooo.Ev} (h : Inv s stage got rest) (hT : Within T s.ooo) (hor : Ooo.Orderly true s.ooo e)
    (ho : Ooo.step s.ooo e = some o) (hst : e.starts = false) : o.load T + 1 ≤ s.ooo.load T :=
  Ooo.step_load h.stages h.ctl hT hor ho hst

lemma Inv.lock_load (h : Inv s stage got rest) (hT : Within T s.ooo) (he : step s (.lock t) = some s')
    (ht : s.ooo.tagFor none < 2 ^ 64) : s'.ooo.load T + 1 ≤ s.ooo.load T ∧ s'.reading = s.reading := by
  simp only [step, Option.bind_eq_some_iff] at he
  obtain ⟨s1, hs1, he⟩ := he
  obtain ⟨o, ho, rfl⟩ := engine_eq_some.1 hs1
  have hl := h.engine_load hT (h.issue_orderly t) ho rfl
  split at he
  · obtain ⟨o', ho', rfl⟩ := engine_eq_some.1 he
    have hT' : Within T o := Ooo.step_within (e := .issue t) hT (fun _ _ _ h => by cases h) ho
    have hl' : o'.load T + 1 ≤ o.load T := (h.issue ho ht).engine_load (e := .issued t (-1)) hT' (.inl rfl) ho' rfl
    exact ⟨by change o'.load T + 1 ≤ _; omega, rfl⟩
  · cases he
    exact ⟨hl, rfl⟩

variable {e : Ev}

lemma Inv.use (h : Inv s stage got rest) (hT : Within T s.ooo) (hok : Undisturbed s e)
    (he : step s e = some s') (hru : e.runs = true) : s'.load T + 1 ≤ s.load T := by
  have hen : ∀ {e' : Ooo.Ev} {s1 : St}, s1.engine e' = some s' → s1.ooo = s.ooo → s1.reading = s.reading →
      Ooo.Orderly true s.ooo e' → e'.starts = false → s'.load T + 1 ≤ s.load T := by
    intro e' s1 he hoo hr hor hst
    obtain ⟨o, ho, rfl⟩ := engine_eq_some.1 he
    rw [hoo] at ho
    have hl := h.engine_load hT hor ho hst
    simp only [load, hr]
    omega
  cases e with
  | lock =>
    obtain ⟨hl, hr⟩ := h.lock_load hT he hok
    simp only [load, hr]
    omega
  | sent =>
    simp only [step] at he
    split at he
    · cases he
    · exact hen he rfl rfl (.inl rfl) rfl
  | recv =>
    simp only [step] at he
    split at he
    next hpc =>
      split at he
      · exact hen he rfl rfl rfl rfl
      · cases he
        simp [load, hpc.2]
    · cases he
  | header =>
    obtain ⟨r, l, o, rfl, hpc, hr, -, ho, rfl⟩ := h.header_step he
    have hl := h.engine_load hT (h.completion_orderly hpc) ho rfl
    simp only [load, hr, if_true]
    change 2 * o.load T + 1 + 1 ≤ _
    omega
  | body =>
    simp only [step] at he
    split at he
    · exact hen he rfl rfl trivial rfl
    · cases he
  | bodyFails =>
    rw [h.not_bodyFails] at he
    cases he
  | timeout =>
    simp only [step] at he
    split at he
    next hla => exact hen he rfl rfl (h.timeout_orderly hla) rfl
    · cases he
  | resume => exact hen he rfl rfl trivial rfl
  | sendFails | headerFails => exact hok.elim
  | _ => cases hru

lemma Within.engine {e : Ooo.Ev} (he : s.engine e = some s') (hT : Within T s.ooo)
    (hst : ∀ t user g, e = .start t user g → t ∈ T) : Within T s'.ooo := by
  obtain ⟨o, ho, rfl⟩ := engine_eq_some.1 he
  exact Ooo.step_within hT hst ho

lemma step_within (hT : Within T s.ooo) (hca : ∀ t ∈ e.caller, t ∈ T) (he : step s e = some s') : Within T s'.ooo := by
  have ho : ∀ {s1 s2 : St} {e' : Ooo.Ev}, s1.engine e' = some s2 → Within T s1.ooo → e'.starts = false →
      Within T s2.ooo := by
    intro s1 s2 e' he hT hst
    refine Within.engine he hT fun t user g heq => ?_
    rw [heq] at hst
    cases hst
  cases e with simp only [step] at he
  | call t =>
    split at he
    · refine Within.engine he hT fun u user g heq => ?_
      obtain ⟨rfl, -⟩ := Ooo.Ev.start.inj heq
      exact hca t rfl
    · cases he
  | lock =>
    simp only [Option.bind_eq_some_iff] at he
    obtain ⟨s1, hs1, he⟩ := he
    have hT1 := ho hs1 hT rfl
    split at he
    · exact ho he hT1 rfl
    · cases he
      exact hT1
  | sent =>
    split at he
    · cases he
    · exact ho he hT rfl
  | sendFails t | headerFails t | body t | timeout t =>
    split at he
    · exact ho he hT rfl
    · cases he
  | reply t function body | deliver n =>
    split at he
    · cases he
      exact hT
    · cases he
  | recv =>
    split at he
    · split at he
      · exact ho he hT rfl
      · cases he
        exact hT
    · cases he
  | header =>
    split at he
    · unfold headerRead at he
      split at he <;> exact ho he hT rfl
    · cases he
  | bodyFails =>
    split at he
    · split at he
      · exact ho he hT rfl
      · cases he
    · cases he
  | resume => exact ho he hT rfl
  | tick =>
    cases he
    exact hT

lemma pay (hca : ∀ t ∈ e.caller, t ∈ T) (he : step s e = some s') (hr : e.runs = false) :
    s'.load T ≤ s.load T + 16 := by
  cases e with simp only [step] at he
  | call t =>
    split at he
    · obtain ⟨o, ho, rfl⟩ := engine_eq_some.1 he
      have hl : o.load T ≤ s.ooo.load T + 8 := Ooo.step_load_start (hca t rfl) ho
      simp only [load]
      omega
    · cases he
  | reply t function body | deliver n =>
    split at he
    · cases he
      exact Nat.le_add_right ..
    · cases he
  | tick =>
    cases he
    exact Nat.le_add_right ..
  | _ => cases hr

lemma Inv.returned {r : Reply} {ret : Int} (h : Inv s stage got rest) (hg : r ∈ got)
    (hpc : (s.ooo.op r.caller).pc = .done ret) : ret = r.body.length := by
  obtain ⟨hco, hr⟩ := (h.stages.1.collects ..).1 (h.collected r hg)
  have hf := h.stages.2 r.caller
  simp only [Ooo.Fits, hpc, hco] at hf
  obtain ⟨-, -, hd⟩ | ⟨-, hgo⟩ := hf
  · rw [← hd, hr]
  · cases hgo

end

/-! ## Runs -/

def UndisturbedIn (T : Finset Tid) (s : St) (e : Ev) : Prop := Undisturbed s e ∧ ∀ t ∈ e.caller, t ∈ T

def Good (T : Finset Tid) (s : St) : Prop := (∃ stage got rest, Inv s stage got rest) ∧ Within T s.ooo

lemma step_good {T : Finset Tid} {s s' : St} {e : Ev} (h : Good T s) (ho : UndisturbedIn T s e)
    (he : step s e = some s') : Good T s' :=
  ⟨step_inv h.1 ho.1 he, step_within h.2 ho.2 he⟩

def callers (es : List Ev) : Finset Tid := (es.filterMap Ev.caller).toFinset

variable {es : List Ev}

lemma undisturbedIn_callers (h : machine.Meets Undisturbed es) : machine.Meets (UndisturbedIn (callers es)) es := by
  refine h.imp fun e he s ho => ⟨ho, fun t ht => ?_⟩
  rw [callers, mem_toFinset, mem_filterMap]
  exact ⟨e, he, ht⟩

lemma good_init {T : Finset Tid} : Good T {} := ⟨⟨_, _, _, init_inv⟩, ⟨fun _ h => absurd rfl h, nofun⟩⟩

lemma run_bound {s : St} (ho : machine.Meets Undisturbed es) (hr : machine.run es = some s) :
    es.countP Ev.runs ≤ 16 * es.countP (fun e => !e.runs) + 1 := by
  have hin := undisturbedIn_callers ho
  have hlo : es.countP (fun e => !!e.runs) + s.load (callers es) ≤
      load (callers es) {} + 16 * es.countP (fun e => !e.runs) := by
    refine Machine.runFrom_load step_good ?_ ?_ good_init hin hr
    · intro s e s' _ ho he hp
      exact pay ho.2 he (by simpa using hp)
    · intro s e s' h ho he hp
      obtain ⟨⟨stage, got, rest, h⟩, hT⟩ := h
      exact h.use hT ho.1 he (by simpa using hp)
  have hz : load (callers es) {} = 1 := by
    have : Ooo.St.load (callers es) {} = 0 := Finset.sum_eq_zero fun _ _ => rfl
    simp only [load]
    change 2 * Ooo.St.load (callers es) {} + 1 = 1
    omega
  simp only [Bool.not_not] at hlo
  change es.countP Ev.runs + _ ≤ _ at hlo
  omega

/-- A call whose reply has arrived does not return anything but its size, and has returned when
no thread can run. The threads stop running when nothing comes from outside. -/
theorem call_returns_reply {es : List Ev} {s : St} {r : Reply} (hok : machine.Meets Undisturbed es)
    (hrun : machine.run es = some s) (harr : Arrived s r) :
    (∀ ret, (s.ooo.op r.caller).pc = .done ret → ret = r.body.length) ∧
      (Idle s → (s.ooo.op r.caller).pc = .done r.body.length) ∧
      es.countP Ev.runs ≤ 16 * es.countP (fun e => !e.runs) + 1 := by
  obtain ⟨stage, got, rest, h⟩ := Machine.run_inv_of
    ⟨_, _, _, init_inv⟩ step_inv hok hrun
  have hm : r ∈ got ++ rest := by
    obtain ⟨l1, l2, hl, -⟩ := harr
    rw [← h.split, hl]
    exact mem_append_right _ mem_cons_self
  refine ⟨fun ret hpc => ?_, fun hi => ?_, run_bound hok hrun⟩
  · have hf := h.stages.2 r.caller
    have hg : r ∈ got := by
      refine (mem_append.1 hm).resolve_right fun hr => ?_
      rcases h.live r hr with hli | hli <;> simp [Ooo.Fits, hpc, hli] at hf
    exact h.returned hg hpc
  · have hg : r ∈ got := (mem_append.1 hm).resolve_right fun hr => h.idle hi hr harr
    obtain ⟨hco, -⟩ := (h.stages.1.collects ..).1 (h.collected r hg)
    have hf := h.stages.2 r.caller
    cases hpc : (s.ooo.op r.caller).pc with
    | woken =>
      have hre := (hi r.caller).2.2.2.2
      simp [step, engine, Ooo.step, hpc] at hre
    | done => rw [h.returned hg hpc]
    | _ => simp [Ooo.Fits, hpc, hco] at hf

/-- No thread can run when all have returned or sleep and the reader waits for a header. -/
lemma idle_of_blocked {s : St}
    (hpc : ∀ t, (s.ooo.op t).pc = .idle ∨ (s.ooo.op t).pc = .asleep ∨ (∃ ret, (s.ooo.op t).pc = .done ret) ∨
      (s.ooo.op t).pc = .completing ∧ s.reading = true ∧ s.delivered < s.consumed + Header.SIZE) : Idle s := by
  intro t
  rcases hpc t with hpc | hpc | ⟨ret, hpc⟩ | ⟨hpc, hr, hle⟩
  · simp [step, engine, headerRead, Ooo.step, hpc]
  · simp [step, engine, headerRead, Ooo.step, hpc]
  · simp [step, engine, headerRead, Ooo.step, hpc]
  · have hn : ¬ s.consumed + Header.SIZE ≤ s.delivered := by omega
    simp [step, engine, Ooo.step, hpc, hr, hn]

def unanswered : List Ev :=
  [.call 1 100, .lock 1, .sent 1, .recv 1, .call 0 10, .lock 0, .sent 0, .tick 10, .timeout 0, .resume 0,
    .reply 1 0 [7], .deliver 41, .header 1, .body 1]

lemma unanswered_undisturbed : machine.Meets Undisturbed unanswered := by
  refine .cons trivial rfl <| .cons ?_ rfl <| .cons trivial rfl <| .cons trivial rfl <| .cons trivial rfl <|
    .cons ?_ rfl <| .cons trivial rfl <| .cons ⟨?_, ?_⟩ rfl <| .cons trivial rfl <| .cons trivial rfl <|
    .cons ?_ rfl <| .cons trivial rfl <| .cons trivial rfl <| .cons trivial rfl trivial
  · exact show (1 : Nat) < 2 ^ 64 by decide
  · exact show (2 : Nat) < 2 ^ 64 by decide
  · refine idle_of_blocked fun t => ?_
    match t with
    | 0 => exact .inr (.inl rfl)
    | 1 => exact .inr (.inr (.inr ⟨rfl, rfl, by decide⟩))
    | t + 2 => exact .inl rfl
  · exact fun r hr => by cases hr
  · exact ⟨show (10 : Nat) < 100 by decide, show (1 : Nat) < 2 ^ 31 by decide⟩

theorem call_returns_reply_unanswered :
    ∃ s, machine.run unanswered = some s ∧ (s.ooo.op 0).pc = .done (-1) ∧ Arrived s ⟨1, 1, 0, [7]⟩ ∧ Idle s ∧
      (s.ooo.op 1).pc = .done 1 := by
  obtain ⟨s, hr, h0, ha, hi⟩ : ∃ s, machine.run unanswered = some s ∧ (s.ooo.op 0).pc = .done (-1) ∧
      Arrived s ⟨1, 1, 0, [7]⟩ ∧ Idle s := by
    refine ⟨_, rfl, rfl, ⟨[], [], rfl, by decide +kernel⟩, idle_of_blocked fun t => ?_⟩
    match t with
    | 0 => exact .inr (.inr (.inl ⟨-1, rfl⟩))
    | 1 => exact .inr (.inr (.inl ⟨1, rfl⟩))
    | t + 2 => exact .inl rfl
  exact ⟨s, hr, h0, ha, hi, (call_returns_reply unanswered_undisturbed hr ha).2.1 hi⟩

/-- Thread 0 times out while thread 1 reads, and then its reply comes. Thread 1 returns with
-2, and its own reply arrives at 10 for a call that expires at 100. -/
theorem late_reply_fails_reader :
    ∃ s, machine.run [.call 1 100, .lock 1, .sent 1, .recv 1, .call 0 10, .lock 0, .sent 0, .tick 10, .timeout 0,
        .resume 0, .reply 0 0 [7], .deliver 41, .header 1, .reply 1 0 [], .deliver 40] = some s ∧
      Arrived s ⟨1, 1, 0, []⟩ ∧ s.now < s.expiration 1 ∧ (s.ooo.op 1).pc = .done (-2) :=
  ⟨_, rfl, ⟨[⟨0, 2, 0, [7]⟩], [], rfl, by decide +kernel⟩, by decide, rfl⟩

end Photon.Rpc.Stub
