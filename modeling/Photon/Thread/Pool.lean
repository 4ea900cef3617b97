import Photon.Lib.Machine
import Photon.Thread.Basic
/-!
# ThreadPoolBase

`thread_create_ex` and `join` of any number of threads with the workers of a
pool, for `m_capacity > 0` and without bypass. The fields of a `TPControl` are
read and written under its spinlock `m_mtx` only (the worker's call of
`ctrl.start` apart, which is a step of its own), so a step is a critical section,
up to the release of the lock or to the sleep on `cvar`, which releases it.
Without timeouts and interrupts a thread sleeps on `cvar` as long as it is in the
queue.

A task is one call of `thread_create_ex`.
-/

namespace Photon.Pool

open Function

abbrev Cid := Nat

abbrev TaskId := Nat

inductive Who where
  | worker
  | caller (t : Tid)
  deriving DecidableEq

/-- `start`: null, `&stub`, or the entry (and argument) of a task. -/
inductive Start where
  | null
  | stub
  | entry (τ : TaskId)
  deriving DecidableEq

inductive WorkerPc where
  /-- Before `wait_for_work`. -/
  | toWait
  /-- `wait_for_work`: in `cvar.wait`. -/
  | waitWork
  /-- Before `ctrl.start(ctrl.arg)`. -/
  | call
  /-- In the task. -/
  | running (τ : TaskId)
  /-- Before `after_work_done`. -/
  | afterWork (τ : TaskId)
  /-- `after_work_done`: in `cvar.wait`. -/
  | waitJoin (τ : TaskId)
  /-- Before `ctrl.pool->put(&ctrl)`. -/
  | putting (τ : TaskId)
  /-- `put` of a full pool: before `dtor`. -/
  | dtor
  | exited
  deriving DecidableEq

structure TPControl where
  start : Start := .null
  joinable : Bool := false
  joining : Bool := false
  cvar : List Who := []
  worker : WorkerPc := .toWait
  deriving DecidableEq

inductive CallerPc where
  | idle
  /-- `thread_create_ex`: before `B::get()`. -/
  | createGet (τ : TaskId)
  /-- `thread_create_ex`: before the critical section. -/
  | createSet (c : Cid) (τ : TaskId)
  /-- `join`: before `do_thread_join`. -/
  | joinStart (c : Cid) (τ : TaskId)
  /-- `do_thread_join`: in `cvar.wait`. -/
  | joinWait (c : Cid) (τ : TaskId)
  /-- `join`: before `put`. -/
  | joinPut (c : Cid) (τ : TaskId)
  /-- `put` of a full pool: before `dtor`. -/
  | joinDtor (c : Cid) (τ : TaskId)
  /-- `join` returns; whether `do_thread_join` refused. -/
  | joinRet (τ : TaskId) (refused : Bool)
  deriving DecidableEq

/-- What is to be known of a task, none of it in the code: how often its entry was
called and its control block put back, who created it and who joins it. -/
structure Task where
  creator : Option Tid := none
  joinable : Bool := false
  ctrl : Option Cid := none
  submitted : Bool := false
  runs : Nat := 0
  finished : Bool := false
  joiner : Option Tid := none
  joined : Bool := false
  puts : Nat := 0
  deriving DecidableEq

/-- What a control block is used for; not in the code. -/
inductive Phase where
  | unused
  /-- In `m_items`. -/
  | pooled
  /-- Handed out to the `thread_create_ex` of `t`. -/
  | taken (t : Tid) (τ : TaskId)
  | assigned (τ : TaskId)
  /-- The task is over, and the worker will put the block back. -/
  | byWorker (τ : TaskId)
  /-- The task is over, and the joiner `t` will put the block back. -/
  | byJoiner (t : Tid) (τ : TaskId)
  /-- Put back into a full pool by the worker, before `dtor`. -/
  | dtorWorker
  /-- Put back into a full pool by the joiner `t`, before `dtor`. -/
  | dtorJoiner (t : Tid) (τ : TaskId)
  | dead
  deriving DecidableEq

structure St where
  items : List Cid := []
  ctrl : Cid → TPControl := fun _ => {}
  nextCtrl : Cid := 0
  caller : Tid → CallerPc := fun _ => .idle
  task : TaskId → Task := fun _ => {}
  nextTask : TaskId := 0
  phase : Cid → Phase := fun _ => .unused

inductive Ev where
  | create (t : Tid) (joinable : Bool)
  | join (t : Tid) (τ : TaskId)
  /-- The next step of the call thread `t` is in. -/
  | step (t : Tid)
  /-- The next step of the worker of `c`. -/
  | work (c : Cid)
  deriving DecidableEq

@[simps -fullyApplied ctrl task phase items nextCtrl nextTask]
def St.goto (s : St) (t : Tid) (p : CallerPc) : St := { s with caller := update s.caller t p }

@[simps -fullyApplied caller task phase items nextCtrl nextTask]
def St.setCtrl (s : St) (c : Cid) (x : TPControl) : St := { s with ctrl := update s.ctrl c x }

@[simps -fullyApplied caller ctrl phase items nextCtrl nextTask]
def St.setTask (s : St) (τ : TaskId) (k : Task) : St := { s with task := update s.task τ k }

@[simps -fullyApplied caller ctrl task items nextCtrl nextTask]
def St.setPhase (s : St) (c : Cid) (p : Phase) : St := { s with phase := update s.phase c p }

section Fields

variable (s : St)

@[simp] lemma St.goto_caller (t u : Tid) (p : CallerPc) :
    (s.goto t p).caller u = if u = t then p else s.caller u := update_apply ..

@[simp] lemma St.setCtrl_ctrl (c d : Cid) (x : TPControl) :
    (s.setCtrl c x).ctrl d = if d = c then x else s.ctrl d := update_apply ..

@[simp] lemma St.setTask_task (τ σ : TaskId) (k : Task) :
    (s.setTask τ k).task σ = if σ = τ then k else s.task σ := update_apply ..

@[simp] lemma St.setPhase_phase (c d : Cid) (p : Phase) :
    (s.setPhase c p).phase d = if d = c then p else s.phase d := update_apply ..

end Fields

/-- `IdentityPoolBase::get`: the last block of `m_items`, or a new one from `ctor`. -/
def St.get (s : St) : Cid × St :=
  match s.items with
  | c :: items => (c, { s with items := items })
  | [] => (s.nextCtrl, { s.setCtrl s.nextCtrl {} with nextCtrl := s.nextCtrl + 1 })

/-- `after_work_done`, when it does not wait: the block is ready for another task. -/
def TPControl.reset (x : TPControl) : TPControl := { x with joinable := false, joining := false, start := .null }

/-- The critical section of `thread_create_ex`, with its `notify_one`. -/
def TPControl.create (x : TPControl) (τ : TaskId) (joinable : Bool) : TPControl :=
  { x with joinable := joinable, joining := false, start := .entry τ, cvar := x.cvar.tail }

def TPControl.waitForWork (x : TPControl) : TPControl :=
  match x.start with
  | .null => { x with cvar := x.cvar ++ [.worker], worker := .waitWork }
  | .stub => { x with worker := .exited }
  | .entry _ => { x with worker := .call }

/-- The critical section of `dtor`; `none` for a block whose task is running. -/
def TPControl.dtor (x : TPControl) : Option TPControl :=
  match x.start with
  | .null => some { x with start := .stub, cvar := [] }
  | _ => none

/-- `IdentityPoolBase::put`, up to the call of `dtor` for a block that finds no room. -/
def St.put (s : St) (capacity : Nat) (c : Cid) (τ : TaskId) (full : Phase) : Bool × St :=
  let s' := s.setTask τ { s.task τ with puts := (s.task τ).puts + 1 }
  if s.items.length < capacity then (true, { s'.setPhase c .pooled with items := c :: s.items })
  else (false, s'.setPhase c full)

def St.advance (s : St) (capacity : Nat) (t : Tid) : Option St :=
  match s.caller t with
  | .createGet τ =>
    let (c, s') := s.get
    some (((s'.setPhase c (.taken t τ)).setTask τ { s.task τ with ctrl := some c }).goto t (.createSet c τ))
  | .createSet c τ =>
    some ((((s.setCtrl c ((s.ctrl c).create τ (s.task τ).joinable)).setPhase c (.assigned τ)).setTask τ
      { s.task τ with submitted := true }).goto t .idle)
  | .joinStart c τ =>
    let x := s.ctrl c
    if ¬ x.joinable ∨ x.start = .null ∨ x.start = .stub then some (s.goto t (.joinRet τ true))
    else if x.joining then
      some (((s.setCtrl c { x with cvar := x.cvar.tail }).setTask τ { s.task τ with joined := true }).goto t
        (.joinRet τ false))
    else some ((s.setCtrl c { x with joining := true, cvar := x.cvar ++ [.caller t] }).goto t (.joinWait c τ))
  | .joinWait c τ =>
    if .caller t ∈ (s.ctrl c).cvar then none
    else some ((s.setTask τ { s.task τ with joined := true }).goto t (.joinPut c τ))
  | .joinPut c τ =>
    let (room, s') := s.put capacity c τ (.dtorJoiner t τ)
    some (s'.goto t (if room then .joinRet τ false else .joinDtor c τ))
  | .joinDtor c τ => (s.ctrl c).dtor.map fun x => ((s.setCtrl c x).setPhase c .dead).goto t (.joinRet τ false)
  | .joinRet _ _ => some (s.goto t .idle)
  | .idle => none

def St.work (s : St) (capacity : Nat) (c : Cid) : Option St :=
  let x := s.ctrl c
  match x.worker with
  | .toWait => some (s.setCtrl c x.waitForWork)
  | .waitWork => if .worker ∈ x.cvar then none else some (s.setCtrl c x.waitForWork)
  | .call =>
    match x.start with
    | .entry τ =>
      some ((s.setTask τ { s.task τ with runs := (s.task τ).runs + 1 }).setCtrl c { x with worker := .running τ })
    | _ => none
  | .running τ => some ((s.setTask τ { s.task τ with finished := true }).setCtrl c { x with worker := .afterWork τ })
  | .afterWork τ =>
    if x.joining then
      let s' := s.setCtrl c { x.reset with cvar := [], worker := .toWait }
      some (match (s.task τ).joiner with
        | some t => s'.setPhase c (.byJoiner t τ)
        | none => s')
    else if x.joinable then
      some (s.setCtrl c { x with joining := true, cvar := x.cvar ++ [.worker], worker := .waitJoin τ })
    else some ((s.setCtrl c { x.reset with worker := .putting τ }).setPhase c (.byWorker τ))
  | .waitJoin τ =>
    if .worker ∈ x.cvar then none
    else some ((s.setCtrl c { x.reset with worker := .putting τ }).setPhase c (.byWorker τ))
  | .putting τ =>
    let (room, s') := s.put capacity c τ .dtorWorker
    some (s'.setCtrl c { x with worker := if room then .toWait else .dtor })
  | .dtor => x.dtor.map fun y => (s.setCtrl c { y with worker := .toWait }).setPhase c .dead
  | .exited => none

def step (capacity : Nat) (s : St) : Ev → Option St
  | .create t joinable =>
    if s.caller t = .idle then
      some { (s.setTask s.nextTask { creator := some t, joinable := joinable }).goto t (.createGet s.nextTask) with
        nextTask := s.nextTask + 1 }
    else none
  | .join t τ =>
    -- each joinable task is joined once, with what `thread_create_ex` returned for it
    match (s.task τ).ctrl with
    | some c =>
      if s.caller t = .idle ∧ (s.task τ).submitted ∧ (s.task τ).joinable ∧ (s.task τ).joiner = none then
        some ((s.setTask τ { s.task τ with joiner := some t }).goto t (.joinStart c τ))
      else none
    | none => none
  | .step t => s.advance capacity t
  | .work c => if c < s.nextCtrl then s.work capacity c else none

def machine (capacity : Nat) : Machine St Ev := ⟨{}, step capacity⟩

end Photon.Pool
