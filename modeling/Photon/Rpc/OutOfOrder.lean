import Photon.Lib.Machine
import Photon.Thread.Basic
/-!
# OooEngine

Operations that are issued one after another and complete in any order, by threads of one
vCPU. One of the threads that wait has `m_mutex_r` and reads the completions of all of them;
it removes the operation a completion is of from `m_map`, collects it, marks it and
interrupts its thread. The others sleep on `m_wait`, and whoever returns notifies one of
them.

Control changes in `do_issue`, `do_completion`, `do_collect`, while a thread waits for
`m_mutex_w`, and in `m_wait.wait`, so a step is what a thread does between two of these. The
events carry what the callbacks return. Each thread has one operation.
-/

namespace Photon.Ooo

open Function Option List

inductive Phase where
  | beforeIssue
  | issued
  | waiting
  | collected
  deriving DecidableEq

inductive Pc where
  | idle
  /-- In `m_mutex_w.lock()`; with the tag the user has set, and whether the call is `issue_wait`. -/
  | locking (user : Option Nat) (together : Bool)
  /-- In `do_issue`. -/
  | issuing (together : Bool)
  /-- Between `issue_operation` and `wait_completion`. -/
  | issued
  /-- In `m_wait.wait`. -/
  | asleep
  /-- `m_wait.wait` is to return, -1 when it failed. -/
  | woken (failed : Bool)
  /-- In `do_completion`, with `m_mutex_r`. -/
  | completing
  /-- In `do_collect` of the operation of `u`, with `m_mutex_r`; `do_completion` had stored `tag`. -/
  | collecting (u : Tid) (tag : Nat)
  | done (ret : Int)
  deriving DecidableEq

/-- A thread and the `OutOfOrderContext` of its operation. The tag is the one the operation
was issued with. -/
structure Op where
  pc : Pc := .idle
  tag : Nat := 0
  phase : Phase := .beforeIssue
  ret : Int := -1
  deriving DecidableEq

structure St where
  op : Tid → Op := fun _ => {}
  map : List (Nat × Tid) := []
  mutexW : Option Tid := none
  mutexR : Option Tid := none
  wait : List Tid := []
  mTag : Nat := 0
  /-- The calls of `do_collect`, with the operation and the value returned; not in the code. -/
  collects : List (Tid × Int) := []
  /-- The operations that were given up; not in the code. -/
  failed : List Tid := []

open St

inductive Ev where
  /-- A thread calls `issue_operation` or, `together`, `issue_wait`. -/
  | start (t : Tid) (user : Option Nat) (together : Bool)
  /-- It gets `m_mutex_w`. -/
  | issue (t : Tid)
  /-- `do_issue` returns. -/
  | issued (t : Tid) (ret : Int)
  /-- The thread calls `wait_completion`. -/
  | wait (t : Tid)
  /-- `m_wait.wait` times out. -/
  | timeout (t : Tid)
  /-- A thread that was woken runs. -/
  | resume (t : Tid)
  /-- `do_completion` returns, and has stored `tag`. -/
  | completion (t : Tid) (ret : Int) (tag : Nat)
  /-- `do_collect` returns. -/
  | collected (t : Tid) (ret : Int)
  deriving DecidableEq

@[simps -fullyApplied map mutexR mutexW wait collects failed]
def St.set (s : St) (t : Tid) (o : Op) : St := { s with op := update s.op t o }

def St.goto (s : St) (t : Tid) (pc : Pc) : St := s.set t { s.op t with pc := pc }

def St.find (s : St) (tag : Nat) : Option Tid := s.map.lookup tag

def St.erase (s : St) (tag : Nat) : St := { s with map := s.map.filter (·.1 ≠ tag) }

def St.giveUp (s : St) (t : Tid) : St := { s.erase (s.op t).tag with failed := t :: s.failed }

def St.notifyOne (s : St) : St :=
  match s.wait with
  | [] => s
  | u :: q => { s with wait := q }.goto u (.woken false)

def St.finish (s : St) (t : Tid) (ret : Int) : St := (s.goto t (.done ret)).notifyOne

def St.leave (s : St) (t : Tid) (ret : Int) : St := { s with mutexR := none }.finish t ret

/-- `m_mutex_r.try_lock()`, and what follows. -/
def St.tryLock (s : St) (t : Tid) : St :=
  match s.mutexR with
  | none => { s with mutexR := some t }.goto t .completing
  | some _ => { s with wait := s.wait ++ [t] }.goto t .asleep

/-- `++m_tag` until the tag is not in use. -/
def nextTag (used : List Nat) : Nat → Nat → Nat
  | 0, tag => tag
  | fuel + 1, tag => if tag + 1 ∈ used then nextTag used fuel (tag + 1) else tag + 1

def St.tagFor (s : St) : Option Nat → Nat
  | some tag => tag
  | none => nextTag (s.map.map Prod.fst) (s.map.length + 1) s.mTag

def St.issueOperation (s : St) (t : Tid) (user : Option Nat) (together : Bool) : St :=
  let tag := s.tagFor user
  let s := { s with mTag := if user = none then tag else s.mTag }
  match s.find tag with
  | some _ => { s with failed := t :: s.failed }.set t { pc := .done (-1), tag := tag, ret := 0 }
  | none =>
    { s with map := (tag, t) :: s.map, mutexW := some t }.set t { pc := .issuing together, tag := tag, ret := 0 }

def St.waitCompletion (s : St) (t : Tid) : St :=
  if s.find (s.op t).tag = none then s.goto t (.done (-1))
  else
    match (s.op t).phase with
    | .beforeIssue | .waiting => s.finish t (-1)
    | .collected => s.finish t (s.op t).ret
    | .issued => (s.set t { s.op t with phase := .waiting }).tryLock t

/-- `issue_operation` after `do_issue`. -/
def St.issueDone (s : St) (t : Tid) (ret : Int) (together : Bool) : St :=
  let s := { s with mutexW := none }
  if ret < 0 then (s.giveUp t).goto t (.done (-1))
  else
    let s := s.set t { s.op t with pc := .issued, phase := .issued }
    if together then s.waitCompletion t else s

/-- `wait_completion` after `m_wait.wait`. -/
def St.wake (s : St) (t : Tid) (failed : Bool) : St :=
  if (s.op t).phase = .collected then s.finish t (s.op t).ret
  else if failed then (s.giveUp t).finish t (-1)
  else s.tryLock t

/-- The loop of `wait_completion` from `do_completion` to `do_collect`. -/
def St.complete (s : St) (t : Tid) (ret : Int) (tag : Nat) : St :=
  if ret < 0 then (s.giveUp t).leave t (-1)
  else
    match s.find tag with
    | none => (s.giveUp t).leave t (-2)
    | some u => (s.erase tag).goto t (.collecting u tag)

def St.interrupt (s : St) (u : Tid) : St :=
  if (s.op u).pc = .asleep then { s with wait := s.wait.erase u }.goto u (.woken true) else s

def St.record (s : St) (u : Tid) (ret : Int) : St :=
  { s with collects := s.collects ++ [(u, ret)] }.set u { s.op u with ret := ret, phase := .collected }

def St.collect (s : St) (t u : Tid) (tag : Nat) (ret : Int) : St :=
  let s := s.record u ret
  if tag = (s.op t).tag then s.leave t (if u = t then (s.op t).ret else -1)
  else (s.interrupt u).goto t .completing

def step (s : St) : Ev → Option St
  | .start t user together => if (s.op t).pc = .idle then some (s.goto t (.locking user together)) else none
  | .issue t =>
    match (s.op t).pc with
    | .locking user together => if s.mutexW = none then some (s.issueOperation t user together) else none
    | _ => none
  | .issued t ret =>
    match (s.op t).pc with
    | .issuing together => some (s.issueDone t ret together)
    | _ => none
  | .wait t => if (s.op t).pc = .issued then some (s.waitCompletion t) else none
  | .timeout t =>
    if (s.op t).pc = .asleep then
      some ({ s with wait := s.wait.erase t }.goto t (.woken true))
    else none
  | .resume t =>
    match (s.op t).pc with
    | .woken failed => some (s.wake t failed)
    | _ => none
  | .completion t ret tag => if (s.op t).pc = .completing then some (s.complete t ret tag) else none
  | .collected t ret =>
    match (s.op t).pc with
    | .collecting u tag => some (s.collect t u tag ret)
    | _ => none

def machine : Machine St Ev := ⟨{}, step⟩

/-- Where the thread of an event is before it, and the state after it. -/
def Outcome (s s' : St) : Ev → Prop
  | .start t user together => (s.op t).pc = .idle ∧ s' = s.goto t (.locking user together)
  | .issue t =>
    ∃ user together, (s.op t).pc = .locking user together ∧ s.mutexW = none ∧ s' = s.issueOperation t user together
  | .issued t ret => ∃ together, (s.op t).pc = .issuing together ∧ s' = s.issueDone t ret together
  | .wait t => (s.op t).pc = .issued ∧ s' = s.waitCompletion t
  | .timeout t => (s.op t).pc = .asleep ∧ s' = { s with wait := s.wait.erase t }.goto t (.woken true)
  | .resume t => ∃ failed, (s.op t).pc = .woken failed ∧ s' = s.wake t failed
  | .completion t ret tag => (s.op t).pc = .completing ∧ s' = s.complete t ret tag
  | .collected t ret => ∃ u tag, (s.op t).pc = .collecting u tag ∧ s' = s.collect t u tag ret

/-- What an event that can happen leads to. -/
lemma step_outcome {s s' : St} {e : Ev} (he : step s e = some s') : Outcome s s' e := by
  cases e with
  | start | wait | timeout | completion =>
    obtain ⟨hp, rfl⟩ := ite_some_none_eq_some.1 he
    exact ⟨hp, rfl⟩
  | issue =>
    simp only [step] at he
    split at he
    next user together hp =>
      obtain ⟨hf, rfl⟩ := ite_some_none_eq_some.1 he
      exact ⟨user, together, hp, hf, rfl⟩
    · cases he
  | issued | resume =>
    simp only [step] at he
    split at he
    next b hp => exact ⟨b, hp, (some.inj he).symm⟩
    · cases he
  | collected =>
    simp only [step] at he
    split at he
    next u tag hp => exact ⟨u, tag, hp, (some.inj he).symm⟩
    · cases he

/-! ## The locks and the queue -/

section Fields

variable (s : St) (t u : Tid)

lemma St.set_op (o : Op) : (s.set t o).op u = if u = t then o else s.op u := update_apply ..

@[simp] lemma St.set_op_self (o : Op) : (s.set t o).op t = o := update_self ..

@[simp] lemma St.goto_op_self (p : Pc) : (s.goto t p).op t = { s.op t with pc := p } := update_self ..

lemma St.set_op_of_ne {u t : Tid} (h : u ≠ t) (o : Op) : (s.set t o).op u = s.op u := update_of_ne h ..

lemma St.goto_op_of_ne {u t : Tid} (h : u ≠ t) (p : Pc) : (s.goto t p).op u = s.op u := update_of_ne h ..

end Fields

/-- What a place means for the locks and the queue. -/
inductive Kind where
  | plain
  | reader
  | writer
  | sleeper
  deriving DecidableEq

def Pc.kind : Pc → Kind
  | .issuing _ => .writer
  | .asleep => .sleeper
  | .completing | .collecting _ _ => .reader
  | _ => .plain

structure Ctl (s : St) : Prop where
  reader : ∀ t, s.mutexR = some t ↔ (s.op t).pc.kind = .reader
  writer : ∀ t, s.mutexW = some t ↔ (s.op t).pc.kind = .writer
  nodup : s.wait.Nodup
  queue : ∀ t, t ∈ s.wait ↔ (s.op t).pc.kind = .sleeper

/-- As long as a thread sleeps, another one has the lock or is to run. -/
def Awake (s : St) : Prop := s.wait ≠ [] → s.mutexR ≠ none ∨ ∃ t f, (s.op t).pc = .woken f

variable {s s' : St} {t : Tid}

/-- What a thread of a kind has. -/
def St.Has (s : St) (t : Tid) : Kind → Prop
  | .reader => s.mutexR = some t
  | .writer => s.mutexW = some t
  | .sleeper => t ∈ s.wait
  | .plain => (s.op t).pc.kind = .plain

section Moves

variable (h : Ctl s)
include h

/-- A thread has what the place in its code says: a lock, a slot in the queue, or nothing. -/
lemma Ctl.has (t : Tid) (k : Kind) : s.Has t k ↔ (s.op t).pc.kind = k := by
  cases k with
  | reader => exact h.reader t
  | writer => exact h.writer t
  | sleeper => exact h.queue t
  | plain => rfl

variable {o : Op}

/-- One thread moves; the others have what they had. -/
lemma Ctl.move (ho : s'.op = s.op) (hot : ∀ u ≠ t, ∀ k, s'.Has u k ↔ s.Has u k)
    (hse : ∀ k ≠ .plain, s'.Has t k ↔ o.pc.kind = k) (hn : s'.wait.Nodup) : Ctl (s'.set t o) := by
  have ha : ∀ u, ∀ k ≠ .plain, s'.Has u k ↔ ((s'.set t o).op u).pc.kind = k := by
    intro u k hk
    rcases eq_or_ne u t with rfl | hu
    · rw [set_op_self, hse k hk]
    · rw [set_op_of_ne _ hu, ho, hot u hu, h.has]
  exact ⟨fun u => ha u .reader nofun, fun u => ha u .writer nofun, hn, fun u => ha u .sleeper nofun⟩

lemma Ctl.set (hk : o.pc.kind = (s.op t).pc.kind) : Ctl (s.set t o) := by
  refine h.move rfl (fun _ _ _ => Iff.rfl) (fun k _ => ?_) h.nodup
  rw [hk, h.has]

/-- Only a thread that sleeps is in the queue. -/
lemma Ctl.not_mem {u : Tid} (hk : (s.op u).pc.kind ≠ .sleeper) : u ∉ s.wait := fun hm => hk ((h.queue u).1 hm)

/-- A thread that has nothing takes the lock of the readers. -/
lemma Ctl.lockR (hk : (s.op t).pc.kind = .plain) (hf : s.mutexR = none) (ho : o.pc.kind = .reader) :
    Ctl ({ s with mutexR := some t }.set t o) := by
  refine h.move rfl (fun u hu k => ?_) (fun k _ => ?_) h.nodup
  · cases k <;> simp [St.Has, hf, hu.symm]
  · have := h.has t k
    cases k <;> simp_all [St.Has]

lemma Ctl.unlockR (hk : (s.op t).pc.kind = .reader) (ho : o.pc.kind = .plain) :
    Ctl ({ s with mutexR := none }.set t o) := by
  have hR := (h.reader t).2 hk
  refine h.move rfl (fun u hu k => ?_) (fun k _ => ?_) h.nodup
  · cases k <;> simp [St.Has, hR, hu.symm]
  · have := h.has t k
    cases k <;> simp_all [St.Has]

lemma Ctl.lockW (hk : (s.op t).pc.kind = .plain) (hf : s.mutexW = none) (ho : o.pc.kind = .writer) :
    Ctl ({ s with mutexW := some t }.set t o) := by
  refine h.move rfl (fun u hu k => ?_) (fun k _ => ?_) h.nodup
  · cases k <;> simp [St.Has, hf, hu.symm]
  · have := h.has t k
    cases k <;> simp_all [St.Has]

lemma Ctl.unlockW (hk : (s.op t).pc.kind = .writer) (ho : o.pc.kind = .plain) :
    Ctl ({ s with mutexW := none }.set t o) := by
  have hW := (h.writer t).2 hk
  refine h.move rfl (fun u hu k => ?_) (fun k _ => ?_) h.nodup
  · cases k <;> simp [St.Has, hW, hu.symm]
  · have := h.has t k
    cases k <;> simp_all [St.Has]

/-- A thread that has nothing goes to sleep at the end of the queue. -/
lemma Ctl.sleep (hk : (s.op t).pc.kind = .plain) (ho : o.pc.kind = .sleeper) :
    Ctl ({ s with wait := s.wait ++ [t] }.set t o) := by
  have hn := h.not_mem (u := t) (by simp [hk])
  refine h.move rfl (fun u hu k => ?_) (fun k _ => ?_) (nodup_append.2 ⟨h.nodup, by simp, ?_⟩)
  · cases k <;> simp [St.Has, hu]
  · have := h.has t k
    cases k <;> simp_all [St.Has]
  · intro a ha b hb hab
    rw [mem_singleton.1 hb] at hab
    exact hn (hab ▸ ha)

lemma Ctl.unsleep (hk : (s.op t).pc.kind = .sleeper) (ho : o.pc.kind = .plain) :
    Ctl ({ s with wait := s.wait.erase t }.set t o) := by
  refine h.move rfl (fun u hu k => ?_) (fun k _ => ?_) (h.nodup.erase t)
  · cases k <;> simp [St.Has, mem_erase_of_ne hu]
  · have := h.has t k
    cases k <;> simp_all [St.Has, h.nodup.mem_erase_iff]

/-- `notify_one` wakes the first sleeper, so that somebody is awake afterwards. -/
lemma Ctl.notifyOne : Ctl s.notifyOne ∧ Awake s.notifyOne := by
  unfold St.notifyOne
  split
  next hn => exact ⟨h, fun hne => absurd hn hne⟩
  rename_i u q hq
  have hu : (s.op u).pc.kind = .sleeper := (h.queue u).1 (by simp [hq])
  have he : s.wait.erase u = q := by simp [hq]
  refine ⟨?_, fun _ => .inr ⟨u, false, by simp⟩⟩
  rw [← he]
  exact h.unsleep hu rfl

/-- `wait_completion` returns, and notifies. -/
lemma Ctl.finish {r : Int} (hk : (s.op t).pc.kind = .plain) : Ctl (s.finish t r) ∧ Awake (s.finish t r) :=
  (h.set (o := { s.op t with pc := .done r }) hk.symm).notifyOne

/-- The reader unlocks before it notifies. -/
lemma Ctl.leave {r : Int} (hk : (s.op t).pc.kind = .reader) : Ctl (s.leave t r) ∧ Awake (s.leave t r) :=
  (h.unlockR hk rfl).notifyOne

/-- `try_lock` takes the lock, or the thread sleeps while somebody else has it. -/
lemma Ctl.tryLock (hk : (s.op t).pc.kind = .plain) : Ctl (s.tryLock t) ∧ Awake (s.tryLock t) := by
  unfold St.tryLock
  split
  next hf => exact ⟨h.lockR hk hf rfl, fun _ => .inl (by simp [goto])⟩
  next r hr => exact ⟨h.sleep hk rfl, fun _ => .inl (by simp [goto, hr])⟩

end Moves

lemma Ctl.congr (h : Ctl s) {m k c f} : Ctl { s with map := m, mTag := k, collects := c, failed := f } :=
  ⟨h.1, h.2, h.3, h.4⟩

lemma Ctl.erase (h : Ctl s) (tag : Nat) : Ctl (s.erase tag) := h.congr

lemma Ctl.giveUp (h : Ctl s) (t : Tid) : Ctl (s.giveUp t) := h.congr

/-- Whoever has the lock will notify. -/
lemma Awake.of_locked (h : Ctl s) (hk : (s.op t).pc.kind = .reader) : Awake s := fun _ =>
  .inl (by rw [(h.reader t).2 hk]; exact some_ne_none t)

/-- A thread that was not woken may move on. -/
lemma Awake.set {o : Op} (h : Awake s) (hpc : ∀ f, (s.op t).pc ≠ .woken f) : Awake (s.set t o) := by
  intro hn
  rcases h hn with hR | ⟨u, f, hu⟩
  · exact .inl hR
  refine .inr ⟨u, f, ?_⟩
  have hut : u ≠ t := by
    rintro rfl
    exact hpc f hu
  rw [set_op_of_ne s hut]
  exact hu

/-- All ways through the start of `wait_completion`. -/
lemma Ctl.waitCompletion (h : Ctl s) (ha : Awake s) (hpc : (s.op t).pc = .issued) :
    Ctl (s.waitCompletion t) ∧ Awake (s.waitCompletion t) := by
  have hk : (s.op t).pc.kind = .plain := by rw [hpc]; rfl
  unfold St.waitCompletion
  split
  · exact ⟨h.set hk.symm, ha.set fun f => hpc ▸ Pc.noConfusion⟩
  split
  · exact h.finish hk
  · exact h.finish hk
  · exact h.finish hk
  · exact (h.set (o := { s.op t with phase := .waiting }) rfl).tryLock (by rw [set_op_self]; exact hk)

lemma Ctl.interrupt (h : Ctl s) (u : Tid) : Ctl (s.interrupt u) := by
  unfold St.interrupt
  split
  next hpc => exact h.unsleep (hpc ▸ rfl) rfl
  · exact h

lemma St.interrupt_op_of_ne {u : Tid} (h : t ≠ u) : (s.interrupt u).op t = s.op t := by
  unfold St.interrupt
  split
  · exact goto_op_of_ne _ h _
  · rfl

/-- An interrupt only reaches a thread that sleeps. -/
lemma St.interrupt_op_of_awake (u : Tid) (h : (s.op t).pc ≠ .asleep) : (s.interrupt u).op t = s.op t := by
  rcases eq_or_ne t u with rfl | ht
  · rw [St.interrupt, if_neg h]
  · exact interrupt_op_of_ne ht

lemma St.record_pc {u : Tid} {ret : Int} : ((s.record u ret).op t).pc = (s.op t).pc := by
  rw [record, set_op]
  split
  next h => rw [h]
  · rfl

lemma Ctl.record (h : Ctl s) (u : Tid) (ret : Int) : Ctl (s.record u ret) :=
  (h.set (t := u) (o := { s.op u with ret := ret, phase := .collected }) rfl).congr

/-- The reader returns if it was its own operation, and goes on reading otherwise. -/
lemma Ctl.collect {u : Tid} {tag : Nat} {ret : Int} (h : Ctl s) (hk : (s.op t).pc.kind = .reader) :
    Ctl (s.collect t u tag ret) ∧ Awake (s.collect t u tag ret) := by
  have h1 := h.record u ret
  have hk1 : ((s.record u ret).op t).pc.kind = .reader := by rw [St.record_pc, hk]
  unfold St.collect
  dsimp only
  split
  · exact h1.leave hk1
  have h2 : Ctl (((s.record u ret).interrupt u).goto t .completing) := by
    have ha : ((s.record u ret).op t).pc ≠ .asleep := fun hpc => by rw [hpc] at hk1; cases hk1
    refine (h1.interrupt u).set ?_
    rw [interrupt_op_of_awake u ha, hk1]
    rfl
  exact ⟨h2, .of_locked h2 (by rw [goto_op_self]; rfl)⟩

lemma init_ctl : Ctl {} ∧ Awake {} :=
  ⟨⟨fun t => by simp [Pc.kind], fun t => by simp [Pc.kind], nodup_nil, fun t => by simp [Pc.kind]⟩,
    fun h => absurd rfl h⟩

/-- No step leaves sleepers behind with nobody to wake them. -/
lemma step_ctl {e : Ev} (hs : Ctl s ∧ Awake s) (he : step s e = some s') : Ctl s' ∧ Awake s' := by
  obtain ⟨h, ha⟩ := hs
  replace he := step_outcome he
  cases e with
  | start =>
    obtain ⟨hpc, rfl⟩ := he
    exact ⟨h.set (hpc ▸ rfl), ha.set fun f => hpc ▸ Pc.noConfusion⟩
  | issue t =>
    obtain ⟨user, together, hpc, hf, rfl⟩ := he
    have hk : (s.op t).pc.kind = .plain := by rw [hpc]; rfl
    have hn : ∀ f, (s.op t).pc ≠ .woken f := fun f => hpc ▸ Pc.noConfusion
    simp only [issueOperation]
    split
    · refine ⟨Ctl.congr (h.set ?_), ha.set hn⟩
      exact hk.symm
    · exact ⟨(h.lockW hk hf rfl).congr, ha.set hn⟩
  | issued t =>
    obtain ⟨together, hpc, rfl⟩ := he
    have hk : (s.op t).pc.kind = .writer := by rw [hpc]; rfl
    have hn : ∀ f, (s.op t).pc ≠ .woken f := fun f => hpc ▸ Pc.noConfusion
    simp only [issueDone]
    split
    · exact ⟨(h.unlockW hk rfl).congr, ha.set hn⟩
    have h1 := h.unlockW (o := { s.op t with pc := .issued, phase := .issued }) hk rfl
    split
    · exact h1.waitCompletion (ha.set hn) (by rw [set_op_self])
    · exact ⟨h1, ha.set hn⟩
  | wait =>
    obtain ⟨hpc, rfl⟩ := he
    exact h.waitCompletion ha hpc
  | timeout t =>
    obtain ⟨hpc, rfl⟩ := he
    refine ⟨h.unsleep (hpc ▸ rfl) rfl, fun _ => .inr ⟨t, true, ?_⟩⟩
    rw [goto_op_self]
  | resume t =>
    obtain ⟨failed, hpc, rfl⟩ := he
    have hk : (s.op t).pc.kind = .plain := by rw [hpc]; rfl
    unfold wake
    split
    · exact h.finish hk
    · split
      · exact (h.giveUp t).finish hk
      · exact h.tryLock hk
  | completion t ret tag =>
    obtain ⟨hpc, rfl⟩ := he
    have hk : (s.op t).pc.kind = .reader := by rw [hpc]; rfl
    unfold complete
    split
    · exact (h.giveUp t).leave hk
    split
    · exact (h.giveUp t).leave hk
    next u hu =>
      have h1 : Ctl ((s.erase tag).goto t (.collecting u tag)) := (h.erase tag).set hk.symm
      exact ⟨h1, .of_locked h1 (by rw [goto_op_self]; rfl)⟩
  | collected t =>
    obtain ⟨u, tag, hpc, rfl⟩ := he
    have hk : (s.op t).pc.kind = .reader := by rw [hpc]; rfl
    exact h.collect hk

/-! ## Moves -/

/-- Each of the moves that an event of thread `t` is made of keeps `P`. -/
structure Moves (P : St → Prop) (t : Tid) : Prop where
  frame : ∀ {s s'}, P s → s'.op = s.op → s'.collects = s.collects → s'.wait ⊆ t :: s.wait → P s'
  goto : ∀ {s u} p, P s → u = t ∨ u ∈ s.wait ∨ (s.op u).pc = .asleep → P (s.goto u p)
  renew : ∀ {s} o, P s → o.phase ≠ .collected → P (s.set t o)
  record : ∀ {s} u ret, P s → P (s.record u ret)

section
variable {P : St → Prop}

section
variable (hm : Moves P t) (h : P s)
include hm h

/-- A property that is kept by the moves of one thread is kept when it returns. -/
lemma Moves.finish (r : Int) : P (s.finish t r) := by
  have hg := hm.goto (.done r) h (.inl rfl)
  unfold St.finish St.notifyOne
  split
  · exact hg
  rename_i u q hq
  have hs : u :: q ⊆ t :: s.wait := hq ▸ subset_cons_self ..
  exact hm.frame (hm.goto (.woken false) hg (.inr (.inl (by simp [hq])))) rfl rfl (cons_subset.1 hs).2

lemma Moves.leave (r : Int) : P (s.leave t r) :=
  hm.finish (s := { s with mutexR := none }) (hm.frame h rfl rfl (subset_cons_self ..)) r

lemma Moves.giveUp : P (s.giveUp t) := hm.frame h rfl rfl (subset_cons_self ..)

lemma Moves.tryLock : P (s.tryLock t) := by
  unfold St.tryLock
  split
  · exact hm.frame (hm.goto .completing h (.inl rfl)) rfl rfl (subset_cons_self ..)
  · exact hm.frame (hm.goto .asleep h (.inl rfl)) rfl rfl (perm_append_singleton t s.wait).subset

/-- It is kept by the start of `wait_completion`. -/
lemma Moves.waitCompletion : P (s.waitCompletion t) := by
  unfold St.waitCompletion
  split
  · exact hm.goto _ h (.inl rfl)
  split
  · exact hm.finish h _
  · exact hm.finish h _
  · exact hm.finish h _
  · exact hm.tryLock (hm.renew _ h Phase.noConfusion)

lemma Moves.interrupt {u : Tid} (hp : (s.op u).pc = .asleep) :
    P ({ s with wait := s.wait.erase u }.goto u (.woken true)) :=
  hm.frame (hm.goto _ h (.inr (.inr hp))) rfl rfl fun _ hv => mem_cons_of_mem t (mem_of_mem_erase hv)

end

/-- What the moves of the threads keep, every step keeps. -/
lemma step_moves {e : Ev} (hm : ∀ t, (s.op t).pc ≠ .idle ∨ (∃ user g, e = .start t user g) → Moves P t) (h : P s)
    (he : step s e = some s') : P s' := by
  replace he := step_outcome he
  have hn : ∀ t p, (s.op t).pc = p → p ≠ .idle → Moves P t := fun t p hp hi => hm t (.inl (hp ▸ hi))
  cases e with
  | start t user g =>
    obtain ⟨-, rfl⟩ := he
    exact (hm t (.inr ⟨user, g, rfl⟩)).goto _ h (.inl rfl)
  | issue t =>
    obtain ⟨user, g, hpc, -, rfl⟩ := he
    have hm := hn t _ hpc Pc.noConfusion
    simp only [St.issueOperation]
    split
    · exact hm.frame (hm.renew { pc := .done (-1), tag := s.tagFor user, ret := 0 } h Phase.noConfusion) rfl rfl
        (subset_cons_self ..)
    · exact hm.frame (hm.renew { pc := .issuing g, tag := s.tagFor user, ret := 0 } h Phase.noConfusion) rfl rfl
        (subset_cons_self ..)
  | issued t =>
    obtain ⟨g, hpc, rfl⟩ := he
    have hm := hn t _ hpc Pc.noConfusion
    simp only [St.issueDone]
    split
    · exact hm.frame (hm.goto (.done (-1)) h (.inl rfl)) rfl rfl (subset_cons_self ..)
    have hi : P ({ s with mutexW := none }.set t { s.op t with pc := .issued, phase := .issued }) :=
      hm.renew _ (hm.frame h rfl rfl (subset_cons_self ..)) Phase.noConfusion
    split
    · exact hm.waitCompletion hi
    · exact hi
  | wait t =>
    obtain ⟨hpc, rfl⟩ := he
    exact (hn t _ hpc Pc.noConfusion).waitCompletion h
  | timeout t =>
    obtain ⟨hpc, rfl⟩ := he
    exact (hn t _ hpc Pc.noConfusion).interrupt h hpc
  | resume t =>
    obtain ⟨f, hpc, rfl⟩ := he
    have hm := hn t _ hpc Pc.noConfusion
    unfold St.wake
    split
    · exact hm.finish h _
    · split
      · exact hm.finish (hm.giveUp h) _
      · exact hm.tryLock h
  | completion t =>
    obtain ⟨hpc, rfl⟩ := he
    have hm := hn t _ hpc Pc.noConfusion
    unfold St.complete
    split
    · exact hm.leave (hm.giveUp h) _
    · split
      · exact hm.leave (hm.giveUp h) _
      · exact hm.goto _ (hm.frame h rfl rfl (subset_cons_self ..)) (.inl rfl)
  | collected t ret =>
    obtain ⟨u, tag, hpc, rfl⟩ := he
    have hm := hn t _ hpc Pc.noConfusion
    have hr := hm.record u ret h
    simp only [St.collect]
    split
    · exact hm.leave hr _
    · refine hm.goto _ ?_ (.inl rfl)
      unfold St.interrupt
      split
      next hpc => exact hm.interrupt hr hpc
      · exact hr

end

end Photon.Ooo
