import Photon.Lib.Machine
import Photon.Thread.Basic
/-!
# Interrupting one thread

One thread executes `thread_yield`, `thread_usleep`, `mutex::lock` and the waits,
in any order; other threads of its vCPU call `thread_interrupt` on it while it
is switched out. On one vCPU the thread runs from one switch to the next without
interruption, so a step is what it does in between; `prepare_usleep` is a step
of its own.

Each `thread_interrupt` call has a number, and a report is written down whenever
a yield or a sleep returns the error of one: its number, and how many calls had
been made when that yield or sleep began.
-/

namespace Photon.Interrupt

open Option Prod

/-- The caller of a `mutex::lock`: the thread itself, or a `cvar_do_wait` that will
return `r`, on a mutex with that many retries. -/
inductive Caller where
  | user
  | cvarDoWait (retries : Nat) (r : Ret)
  deriving DecidableEq

inductive YieldFor where
  /-- The thread itself, or `yield_as_sleep` in `thread_usleep`. -/
  | user
  /-- `yield_as_sleep` in `waitq::wait`. -/
  | wait
  /-- A retry of `mutex::lock`, with `re` retries left after it. -/
  | lock (c : Caller) (re : Nat)
  deriving DecidableEq

inductive SleepFor where
  | usleep
  /-- `waitq::wait` or `wait_defer`. -/
  | wait
  | lock (c : Caller)
  /-- `cvar_do_wait`, which locks a mutex with `retries` again afterwards. -/
  | cvar (retries : Nat)
  /-- `thread_usleep(1000)` of a `cvar_do_wait` that failed to lock. -/
  | relock (retries : Nat) (r : Ret)
  deriving DecidableEq

inductive Pc where
  | idle
  | yielding (k : YieldFor)
  /-- Before `prepare_usleep`. -/
  | toSleep (k : SleepFor)
  | asleep (k : SleepFor)
  /-- The operation returns `r`. -/
  | ret (r : Ret)
  deriving DecidableEq

/-- The thread. `origin` is the call that set the error number, `calls` counts the
calls, `since` is their number when the current yield or sleep began, and `log`
has the reports, the last one first. -/
structure St where
  th : Thread := {}
  pc : Pc := .idle
  origin : Option Nat := none
  calls : Nat := 0
  since : Nat := 0
  log : List (Option Nat × Nat) := []
  deriving DecidableEq

open St

/-- The outcomes the other threads and the clock decide: of the two `try_lock`s,
and of `timeout.expired()`. -/
structure Luck where
  tryLock : Bool := false
  tryLockAgain : Bool := false
  expired : Bool := false
  deriving DecidableEq

inductive Ev where
  | thYield
  | usleep (luck : Luck)
  | wait (luck : Luck)
  | waitDefer
  | cvarWait (retries : Nat)
  | lock (retries : Nat) (luck : Luck)
  /-- The thread goes on to its next switch. -/
  | step (luck : Luck)
  | ret
  /-- The sleep ends by itself. -/
  | timeout
  /-- Another thread resumes it in a queue, with error number -1. -/
  | resume
  | interrupt (errorNumber : Int)
  deriving DecidableEq

def St.goto (s : St) (p : Pc) : St := { s with pc := p }

def St.thYield (s : St) (k : YieldFor) : St :=
  { s with th := { s.th with errorNumber := 0, state := .ready }, origin := none, since := s.calls, pc := .yielding k }

def St.prepareUsleep (s : St) (k : SleepFor) : St :=
  { s with th := { s.th with state := .sleeping }, since := s.calls, pc := .asleep k }

/-- A yield or a sleep returns its error number; in a wait, -1 is no error. -/
def St.report (s : St) (waits : Bool) : St :=
  if s.th.errorNumber = 0 ∨ (waits = true ∧ s.th.errorNumber = -1) then s
  else { s with log := (s.origin, s.since) :: s.log }

def St.setErrorNumber (s : St) (waits : Bool) : Ret × St :=
  let s' := s.report waits
  let (r, th) := s'.th.setErrorNumber
  (r, { s' with th := th, origin := none })

/-- What a `thread_yield` that is over returns; the error number stays. -/
def St.yieldRet (s : St) : Ret := if s.th.errorNumber ≠ 0 then some s.th.errorNumber else none

def lockDone : Caller → Ret → Pc
  | .user, r => .ret r
  | .cvarDoWait _ r, none => .ret r
  | .cvarDoWait retries r, some _ => .toSleep (.relock retries r)

/-- `mutex::lock` at a `try_lock`, with `re` retries left. -/
def St.tryLock (s : St) (c : Caller) (re : Nat) (luck : Luck) : St :=
  if luck.tryLock then s.goto (lockDone c none)
  else match re with
    | re + 1 => s.thYield (.lock c re)
    | 0 =>
      if luck.tryLockAgain then s.goto (lockDone c none)
      else if luck.expired then s.goto (lockDone c (some ETIMEDOUT))
      else s.goto (.toSleep (.lock c))

/-- What the thread does when it is switched to, up to the next switch. -/
def St.resumed (s : St) (luck : Luck) : Option St :=
  match s.pc with
  | .yielding .user => some ((s.report false).goto (.ret s.yieldRet))
  | .yielding .wait => some ((s.report true).goto (.ret (waitqTranslateErrno s.yieldRet)))
  | .yielding (.lock c re) =>
    if s.th.errorNumber ≠ 0 then some ((s.report false).goto (lockDone c s.yieldRet)) else some (s.tryLock c re luck)
  | .asleep .usleep =>
    let (r, s') := s.setErrorNumber false
    some (s'.goto (.ret r))
  | .asleep .wait =>
    let (r, s') := s.setErrorNumber true
    some (s'.goto (.ret (waitqTranslateErrno r)))
  | .asleep (.lock c) =>
    let (r, s') := s.setErrorNumber true
    some (s'.goto (lockDone c (waitqTranslateErrno r)))
  | .asleep (.cvar retries) =>
    let (r, s') := s.setErrorNumber true
    some (s'.tryLock (.cvarDoWait retries (waitqTranslateErrno r)) retries luck)
  | .asleep (.relock retries r) =>
    let (_, s') := s.setErrorNumber false
    some (s'.tryLock (.cvarDoWait retries r) retries luck)
  | .idle | .toSleep _ | .ret _ => none

def SleepFor.queued : SleepFor → Bool
  | .wait | .lock _ | .cvar _ => true
  | .usleep | .relock _ _ => false

/-- A `thread_interrupt` that sets the error number; the thread is ready then. -/
def St.setBy (s : St) (e : Int) : St := { s with
    th := { s.th with errorNumber := e, state := .ready }
    origin := if e ≠ 0 then some s.calls else none
    calls := s.calls + 1 }

def St.threadInterrupt (s : St) (e : Int) : St :=
  match s.th.state with
  | .sleeping => s.setBy e
  | .ready => if s.th.errorNumber = 0 then s.setBy e else { s with calls := s.calls + 1 }
  | _ => { s with calls := s.calls + 1 }

def step (s : St) : Ev → Option St
  | .thYield => if s.pc = .idle then some (s.thYield .user) else none
  | .usleep luck =>
    if s.pc = .idle then some (if luck.expired then s.thYield .user else s.goto (.toSleep .usleep)) else none
  | .wait luck =>
    if s.pc = .idle then some (if luck.expired then s.thYield .wait else s.goto (.toSleep .wait)) else none
  | .waitDefer => if s.pc = .idle then some (s.goto (.toSleep .wait)) else none
  | .cvarWait retries => if s.pc = .idle then some (s.goto (.toSleep (.cvar retries))) else none
  | .lock retries luck => if s.pc = .idle then some (s.tryLock .user retries luck) else none
  | .step luck =>
    match s.pc with
    | .toSleep k => some (s.prepareUsleep k)
    | _ =>
      if s.th.state = .ready then resumed { s with th := { s.th with state := .running } } luck else none
  | .ret =>
    match s.pc with
    | .ret _ => some (s.goto .idle)
    | _ => none
  | .timeout => if s.th.state = .sleeping then some { s with th := { s.th with state := .ready } } else none
  | .resume =>
    match s.pc with
    | .asleep k =>
      if s.th.state = .sleeping ∧ k.queued then
        some { s with th := { s.th with errorNumber := -1, state := .ready }, origin := none }
      else none
    | _ => none
  | .interrupt e => some (s.threadInterrupt e)

def machine : Machine St Ev := ⟨{}, step⟩

/-! ## One report for each call -/

/-- What has to be true before a step: a sleep begins with error number 0, that is,
not with the one a `thread_yield` has already returned. -/
def CleanSleep (s : St) : Ev → Prop
  | .step _ =>
    match s.pc with
    | .toSleep _ => s.th.errorNumber = 0
    | _ => True
  | _ => True

instance (s : St) (e : Ev) : Decidable (CleanSleep s e) := by
  unfold CleanSleep
  split
  · split <;> infer_instance
  · infer_instance

def Pc.out : Pc → Bool
  | .yielding _ | .asleep _ => true
  | _ => false

def Pc.queued : Pc → Bool
  | .asleep k => k.queued
  | _ => false

/-- Every report is of a call made during the yield or sleep that reports it, and
no call is reported twice. -/
structure LogOk (log : List (Option Nat × Nat)) (calls : Nat) : Prop where
  during : ∀ x ∈ log, ∃ i, x.1 = some i ∧ x.2 ≤ i ∧ i < calls
  once : (log.map fst).Nodup

structure Base (s : St) : Prop where
  log : LogOk s.log s.calls
  origin : ∀ i, s.origin = some i → i < s.calls ∧ s.th.errorNumber ≠ 0

/-- While the thread is switched out: what was reported came before, what is in the
error number came since, from a call or from a resumer of the queue. -/
structure Out (s : St) : Prop where
  before : ∀ i, some i ∈ s.log.map fst → i < s.since
  since : ∀ i, s.origin = some i → s.since ≤ i
  since_le : s.since ≤ s.calls
  source : s.th.errorNumber ≠ 0 → s.origin ≠ none ∨ (s.th.errorNumber = -1 ∧ s.pc.queued = true)

structure Inv (s : St) : Prop where
  base : Base s
  out : s.pc.out = true → Out s

lemma inv_init : Inv {} := by
  refine ⟨⟨⟨?_, ?_⟩, ?_⟩, ?_⟩ <;> simp [Pc.out]

variable {log : List (Option Nat × Nat)} {s : St}

lemma LogOk.mono {n m : Nat} (h : LogOk log n) (hm : n ≤ m) : LogOk log m where
  during x hx := by
    obtain ⟨i, hi, hs, hn⟩ := h.during x hx
    exact ⟨i, hi, hs, lt_of_lt_of_le hn hm⟩
  once := h.once

lemma LogOk.lt {n i : Nat} (h : LogOk log n) (hi : some i ∈ log.map fst) : i < n := by
  obtain ⟨x, hx, hxi⟩ := List.mem_map.1 hi
  obtain ⟨j, hj, -, hlt⟩ := h.during x hx
  obtain rfl : j = i := some.inj (hj.symm.trans hxi)
  exact hlt

section
variable (hb : Base s) (ho : Out s) (waits : Bool) (hq : waits = false → s.pc.queued = false)
include hb ho waits hq

lemma base_report : Base (s.report waits) := by
  unfold report
  split
  · exact hb
  rename_i he
  have he0 : s.th.errorNumber ≠ 0 := fun h0 => he (.inl h0)
  have hn : s.origin ≠ none := by
    rcases ho.source he0 with hs | ⟨hm, hqd⟩
    · exact hs
    · cases waits with
      | true => exact absurd (.inr ⟨rfl, hm⟩) he
      | false => rw [hq rfl] at hqd; cases hqd
  obtain ⟨i, hi⟩ := ne_none_iff_exists'.1 hn
  refine ⟨⟨fun x hx => ?_, ?_⟩, hb.origin⟩
  · rcases List.mem_cons.1 hx with rfl | hx
    · exact ⟨i, hi, ho.since i hi, (hb.origin i hi).1⟩
    · exact hb.log.during x hx
  refine List.nodup_cons.2 ⟨fun hme => ?_, hb.log.once⟩
  have hlt := ho.before i (by rwa [← hi])
  have hg := ho.since i hi
  omega

lemma base_setErrorNumber : Base (s.setErrorNumber waits).2 := by
  have hr := base_report hb ho waits hq
  exact ⟨hr.log, fun i hi => by cases hi⟩

end

lemma inv_goto (hb : Base s) {p : Pc} (hp : p.out = false) : Inv (s.goto p) :=
  ⟨⟨hb.log, hb.origin⟩, fun h => by rw [goto, hp] at h; cases h⟩

lemma inv_thYield (hb : Base s) (k : YieldFor) : Inv (s.thYield k) := by
  have hn : ∀ i, (s.thYield k).origin ≠ some i := by simp [thYield]
  refine ⟨⟨hb.log, fun i hi => absurd hi (hn i)⟩, fun _ => ?_⟩
  exact ⟨fun i => hb.log.lt, fun i hi => absurd hi (hn i), le_rfl, fun h => absurd rfl h⟩

lemma lockDone_out (c : Caller) (r : Ret) : (lockDone c r).out = false := by
  cases c <;> cases r <;> rfl

lemma inv_tryLock (hb : Base s) (c : Caller) (re : Nat) (luck : Luck) : Inv (s.tryLock c re luck) := by
  unfold tryLock
  split
  · exact inv_goto hb (lockDone_out c none)
  split
  · exact inv_thYield hb _
  split
  · exact inv_goto hb (lockDone_out c none)
  · split
    · exact inv_goto hb (lockDone_out c _)
    · exact inv_goto hb rfl

lemma inv_resumed {s' : St} (hi : Inv s) {luck : Luck} (h : s.resumed luck = some s') : Inv s' := by
  have hb := hi.base
  unfold resumed at h
  cases hp : s.pc with
  | idle | toSleep k | ret r => simp [hp] at h
  | yielding k =>
    have ho := hi.out (hp ▸ rfl)
    have hq : s.pc.queued = false := by rw [hp]; rfl
    cases k with simp only [hp] at h
    | user =>
      cases h
      exact inv_goto (base_report hb ho false fun _ => hq) rfl
    | wait =>
      cases h
      exact inv_goto (base_report hb ho true (by simp)) rfl
    | lock c re =>
      split at h <;> cases h
      · exact inv_goto (base_report hb ho false fun _ => hq) (lockDone_out c _)
      · exact inv_tryLock hb c re luck
  | asleep k =>
    have ho := hi.out (hp ▸ rfl)
    cases k with simp only [hp] at h
    | usleep =>
      cases h
      exact inv_goto (base_setErrorNumber hb ho false fun _ => by rw [hp]; rfl) rfl
    | wait =>
      cases h
      exact inv_goto (base_setErrorNumber hb ho true (by simp)) rfl
    | lock c =>
      cases h
      exact inv_goto (base_setErrorNumber hb ho true (by simp)) (lockDone_out c _)
    | cvar =>
      cases h
      exact inv_tryLock (base_setErrorNumber hb ho true (by simp)) _ _ luck
    | relock =>
      cases h
      exact inv_tryLock (base_setErrorNumber hb ho false fun _ => by rw [hp]; rfl) _ _ luck

lemma inv_prepareUsleep (hb : Base s) (k : SleepFor) (h0 : s.th.errorNumber = 0) : Inv (s.prepareUsleep k) := by
  have hn : ∀ i, s.origin ≠ some i := fun i hi => (hb.origin i hi).2 h0
  refine ⟨⟨hb.log, fun i hi => absurd hi (hn i)⟩, fun _ => ?_⟩
  exact ⟨fun i => hb.log.lt, fun i hi => absurd hi (hn i), le_rfl, fun h => absurd h0 h⟩

lemma inv_interrupt (hi : Inv s) (e : Int) : Inv (s.threadInterrupt e) := by
  have hb := hi.base
  have hlo := hb.log.mono (Nat.le_succ s.calls)
  -- the call changes nothing but the count
  have hsa : Inv { s with calls := s.calls + 1 } := by
    refine ⟨⟨hlo, fun i h => ⟨Nat.lt_succ_of_lt (hb.origin i h).1, (hb.origin i h).2⟩⟩, fun hou => ?_⟩
    have ho := hi.out hou
    exact { ho with since_le := Nat.le_succ_of_le ho.since_le }
  have hse : Inv (s.setBy e) := by
    have hor : ∀ i, (s.setBy e).origin = some i → i = s.calls ∧ e ≠ 0 := by
      intro i h
      simp only [setBy] at h
      obtain ⟨he, h⟩ := ite_none_right_eq_some.1 h
      exact ⟨(some.inj h).symm, he⟩
    refine ⟨⟨hlo, fun i h => ?_⟩, fun hou => ?_⟩
    · obtain ⟨rfl, he⟩ := hor i h
      exact ⟨Nat.lt_succ_self _, he⟩
    have ho := hi.out hou
    refine ⟨ho.before, fun i h => ?_, Nat.le_succ_of_le ho.since_le, fun he => .inl ?_⟩
    · obtain ⟨rfl, -⟩ := hor i h
      exact ho.since_le
    · have he' : e ≠ 0 := he
      simp [setBy, he']
  unfold threadInterrupt
  split
  · exact hse
  · split
    · exact hse
    · exact hsa
  · exact hsa

lemma inv_state (hi : Inv s) (st : States) : Inv { s with th := { s.th with state := st } } := by
  refine ⟨⟨hi.base.log, hi.base.origin⟩, fun hou => ?_⟩
  have ho := hi.out hou
  exact { ho with }

lemma inv_step {s' : St} (hi : Inv s) {e : Ev} (hc : CleanSleep s e) (h : step s e = some s') : Inv s' := by
  have hb := hi.base
  cases e with simp only [step] at h
  | thYield =>
    split at h <;> cases h
    exact inv_thYield hb _
  | usleep luck | wait luck =>
    split at h <;> cases h
    split
    · exact inv_thYield hb _
    · exact inv_goto hb rfl
  | waitDefer | cvarWait retries | ret =>
    split at h <;> cases h
    exact inv_goto hb rfl
  | lock retries luck =>
    split at h <;> cases h
    exact inv_tryLock hb _ _ luck
  | step =>
    split at h
    next k hp =>
      cases h
      simp only [CleanSleep, hp] at hc
      exact inv_prepareUsleep hb k hc
    · split at h
      · exact inv_resumed (inv_state hi .running) h
      · cases h
  | timeout =>
    split at h <;> cases h
    exact inv_state hi .ready
  | resume =>
    split at h
    next k hp =>
      split at h <;> cases h
      rename_i hq
      refine ⟨⟨hb.log, fun i hi => by cases hi⟩, fun hou => ?_⟩
      have ho := hi.out hou
      exact ⟨ho.before, fun i hi => absurd hi (by simp), ho.since_le, fun _ => .inr ⟨rfl, by rw [hp]; exact hq.2⟩⟩
    · cases h
  | interrupt e =>
    cases h
    exact inv_interrupt hi e

lemma inv_run {es : List Ev} (hm : machine.Meets CleanSleep es) (h : machine.run es = some s) : Inv s :=
  Machine.run_inv_of (I := Inv) inv_init (inv_step ·) hm h

/-- In every run whose steps meet `CleanSleep`: no `thread_interrupt` call is
reported twice; every report is of a call made during the yield or sleep that
reports it; and a `thread_usleep` that no call came upon returns 0. -/
theorem interrupt_reported_once {es : List Ev} {s : St} (hm : machine.Meets CleanSleep es)
    (h : machine.run es = some s) :
    (s.log.map fst).Nodup ∧ (∀ x ∈ s.log, ∃ i, x.1 = some i ∧ x.2 ≤ i ∧ i < s.calls) ∧
    ∀ luck s', s.pc = .asleep .usleep → s.calls = s.since → step s (.step luck) = some s' → s'.pc = .ret none := by
  have hi := inv_run hm h
  refine ⟨hi.base.log.once, hi.base.log.during, fun luck s' hp hc hs => ?_⟩
  have ho := hi.out (hp ▸ rfl)
  have hno : s.origin = none := by
    by_contra hn
    obtain ⟨i, hso⟩ := ne_none_iff_exists'.1 hn
    have hlt := (hi.base.origin i hso).1
    have hg := ho.since i hso
    omega
  have h0 : s.th.errorNumber = 0 := by
    by_contra hn
    rcases ho.source hn with hs' | ⟨-, hq⟩
    · exact hs' hno
    · rw [hp] at hq
      cases hq
  simp only [step, hp] at hs
  split at hs
  · simp only [resumed] at hs
    cases hs
    simp [goto, setErrorNumber, report, Thread.setErrorNumber, h0]
  · cases hs

def sleepTwice : List Ev := [.usleep {}, .step {}, .interrupt EINTR, .step {}, .ret, .usleep {}, .step {}, .timeout]

theorem interrupt_reported_once_sleepTwice :
    ∃ s, machine.run sleepTwice = some s ∧ (s.log.map fst).Nodup ∧ s.log = [(some 0, 0)] ∧
      ∀ luck s', step s (.step luck) = some s' → s'.pc = .ret none := by
  have hr : machine.run sleepTwice = some _ := rfl
  have ha := interrupt_reported_once (by decide) hr
  exact ⟨_, hr, ha.1, by decide, fun luck s' => ha.2.2 luck s' (by decide) (by decide)⟩

/-- A `thread_yield` is interrupted and returns the error. The sleep after it is
not interrupted and returns the same error again. -/
theorem interrupt_reported_twice :
    ∃ s, machine.run [.thYield, .interrupt EINTR, .step {}, .ret, .usleep {}, .step {}, .timeout, .step {}] = some s ∧
      s.calls = 1 ∧ s.pc = .ret (some EINTR) ∧ s.log = [(some 0, 1), (some 0, 0)] := by
  refine ⟨_, rfl, ?_, ?_, ?_⟩ <;> decide

end Photon.Interrupt
