import Photon.Thread.PoolInv
/-!
# A task of the pool is run once

- `pool_task_once`: a submitted task is run once; `join` returns when it is over; its control block
  is put back once, when the task is over and, if it can be, joined. The worker and the joiner of the
  task do not stop before that, and can bring it there whatever the other threads have done.
-/

namespace Photon.Pool

open Phase

def WorkerPc.left : WorkerPc → Nat
  | .toWait | .waitWork => 6
  | .call => 5
  | .running _ => 4
  | .afterWork _ => 3
  | .waitJoin _ => 2
  | .putting _ => 1
  | .dtor | .exited => 0

open WorkerPc

/-- The steps of a `join` up to `put`. -/
def CallerPc.left : CallerPc → Nat
  | .joinStart _ _ => 3
  | .joinWait _ _ => 2
  | .joinPut _ _ => 1
  | .idle | .createGet _ | .createSet _ _ | .joinDtor _ _ | .joinRet _ _ => 0

def Task.joinLeft (k : Task) (f : Tid → CallerPc) : Nat :=
  match k.joiner with
  | some t => if k.joined then 0 else (f t).left
  | none => 0

def St.left (s : St) (τ : TaskId) : Nat :=
  match (s.task τ).ctrl with
  | none => 0
  | some c =>
    match s.phase c with
    | .assigned _ => (s.ctrl c).worker.left + (s.task τ).joinLeft s.caller
    | .byWorker _ => 1
    | .byJoiner t _ => (s.caller t).left
    | _ => 0

/-- The task has been run, and its block is back in the pool unless nobody has joined it yet. -/
structure Task.Settled (k : Task) : Prop where
  runs : k.runs = 1
  finished : k.finished = true
  back : (k.puts = 1 ∧ (k.joinable = true → k.joined = true)) ∨ (k.joinable = true ∧ k.joiner = none)

def Task.Own (k : Task) (e : Ev) : Prop := (∃ c, k.ctrl = some c ∧ e = .work c) ∨ ∃ t, k.joiner = some t ∧ e = .step t

def Nearer (capacity : Nat) (s : St) (τ : TaskId) : Prop :=
  ∃ e s', (s.task τ).Own e ∧ step capacity s e = some s' ∧ s'.left τ < s.left τ ∧
    (s'.task τ).submitted = true ∧ (s'.task τ).ctrl = (s.task τ).ctrl ∧ (s'.task τ).joiner = (s.task τ).joiner

section Progress

variable {capacity : Nat} {s : St} {c : Cid} {τ : TaskId}

lemma St.left_assigned {σ : TaskId} (hk : (s.task τ).ctrl = some c) (hp : s.phase c = .assigned σ) :
    s.left τ = (s.ctrl c).worker.left + (s.task τ).joinLeft s.caller := by
  simp [St.left, hk, hp]

lemma nearer_work {s' : St} (hp : s.phase c = .assigned τ) (hon : (s.task τ).On c)
    (hst : step capacity s (.work c) = some s') (hp' : s'.phase c = .assigned τ) (hca : s'.caller = s.caller)
    (hk : ∃ n b, s'.task τ = { s.task τ with runs := n, finished := b })
    (hlt : (s'.ctrl c).worker.left < (s.ctrl c).worker.left) : Nearer capacity s τ := by
  obtain ⟨n, b, hk⟩ := hk
  have hct : (s'.task τ).ctrl = some c := by rw [hk]; exact hon.ctrl
  have hj : (s'.task τ).joinLeft s'.caller = (s.task τ).joinLeft s.caller := by rw [hk, hca]; rfl
  refine ⟨.work c, s', .inl ⟨c, hon.ctrl, rfl⟩, hst, ?_, ?_, ?_, ?_⟩
  · rw [St.left_assigned hct hp', St.left_assigned hon.ctrl hp, hj]
    omega
  · rw [hk]; exact hon.submitted
  · rw [hk]
  · rw [hk]

section
variable (hc : c < s.nextCtrl) (hp : s.phase c = .assigned τ) (hon : (s.task τ).On c)
include hc hp hon

lemma nearer_afterWork (ho : (s.task τ).Over) (hw : (s.ctrl c).worker = .afterWork τ)
    (hj : JoinSide (s.ctrl c) s.caller (s.task τ) c τ) : Nearer capacity s τ ∨ (s.task τ).Settled := by
  have hle := St.left_assigned hon.ctrl hp
  rw [hw] at hle
  have hlt : 2 < s.left τ := by
    rw [hle]
    exact lt_of_lt_of_le (by decide : 2 < 3) (Nat.le_add_right 3 _)
  cases hj with
  | awaited t h1 h2 h3 h4 h5 h6 =>
    -- the worker wakes the joiner and leaves the block to it
    have hst : step capacity s (.work c) = some
        ((s.setCtrl c { (s.ctrl c).reset with cvar := [], worker := .toWait }).setPhase c (.byJoiner t τ)) := by
      simp only [step, if_pos hc, St.work, hw, h2, h4, if_true]
    refine .inl ⟨.work c, _, .inl ⟨c, hon.ctrl, rfl⟩, hst, ?_, hon.submitted, rfl, rfl⟩
    have hl' : ((s.setCtrl c { (s.ctrl c).reset with cvar := [], worker := .toWait }).setPhase c
        (.byJoiner t τ)).left τ = 2 := by simp [St.left, hon.ctrl, h6.at_, CallerPc.left]
    omega
  | unjoined h1 h2 =>
    by_cases hjo : (s.ctrl c).joinable = true
    · by_cases hn : (s.task τ).joiner = none
      · exact .inr ⟨ho.runs, ho.finished, .inr ⟨h1 ▸ hjo, hn⟩⟩
      have hst : step capacity s (.work c) = some (s.setCtrl c
          { s.ctrl c with joining := true, cvar := (s.ctrl c).cvar ++ [.worker], worker := .waitJoin τ }) := by
        simp [step, hc, St.work, hw, h2, hjo]
      refine .inl (nearer_work hp hon hst hp rfl ⟨_, _, rfl⟩ ?_)
      simp [hw, left]
    · have hst : step capacity s (.work c) = some
          ((s.setCtrl c { (s.ctrl c).reset with worker := .putting τ }).setPhase c (.byWorker τ)) := by
        simp [step, hc, St.work, hw, h2, hjo]
      refine .inl ⟨.work c, _, .inl ⟨c, hon.ctrl, rfl⟩, hst, ?_, hon.submitted, rfl, rfl⟩
      have hl' : ((s.setCtrl c { (s.ctrl c).reset with worker := .putting τ }).setPhase c (.byWorker τ)).left τ =
          1 := by simp [St.left, hon.ctrl]
      omega

lemma nearer_assigned (hs : (s.ctrl c).start = .entry τ) (hw : Working (s.task τ) τ (s.ctrl c).worker)
    (hj : JoinSide (s.ctrl c) s.caller (s.task τ) c τ) : Nearer capacity s τ ∨ (s.task τ).Settled := by
  generalize hpc : (s.ctrl c).worker = w at hw
  cases hw with
  | toWait =>
    have hst : step capacity s (.work c) = some (s.setCtrl c { s.ctrl c with worker := .call }) := by
      simp [step, hc, St.work, hpc, TPControl.waitForWork, hs]
    refine .inl (nearer_work hp hon hst hp rfl ⟨_, _, rfl⟩ ?_)
    simp [hpc, left]
  | waitWork =>
    have hcv : .worker ∉ (s.ctrl c).cvar := by
      cases hj with
      | unjoined _ _ h | awaited t _ _ h => simp [h]
    have hst : step capacity s (.work c) = some (s.setCtrl c { s.ctrl c with worker := .call }) := by
      simp [step, hc, St.work, hpc, hcv, TPControl.waitForWork, hs]
    refine .inl (nearer_work hp hon hst hp rfl ⟨_, _, rfl⟩ ?_)
    simp [hpc, left]
  | call =>
    have hst : step capacity s (.work c) = some
        ((s.setTask τ { s.task τ with runs := (s.task τ).runs + 1 }).setCtrl c
          { s.ctrl c with worker := .running τ }) := by
      simp [step, hc, St.work, hpc, hs]
    refine .inl (nearer_work hp hon hst hp rfl ⟨(s.task τ).runs + 1, (s.task τ).finished, by simp⟩ ?_)
    simp [hpc, left]
  | running =>
    have hst : step capacity s (.work c) = some
        ((s.setTask τ { s.task τ with finished := true }).setCtrl c { s.ctrl c with worker := .afterWork τ }) := by
      simp [step, hc, St.work, hpc]
    refine .inl (nearer_work hp hon hst hp rfl ⟨(s.task τ).runs, true, by simp⟩ ?_)
    simp [hpc, left]
  | afterWork h1 h2 => exact nearer_afterWork hc hp hon ⟨h1, h2⟩ hpc hj

end

variable {t : Tid}

lemma nearer_awaits (hp : s.phase c = .assigned τ) (hon : (s.task τ).On c) (hs : (s.ctrl c).start = .entry τ)
    (hjo : (s.ctrl c).joinable = true) (hj : (s.ctrl c).joining = true) (hjd : (s.task τ).joined = false)
    (ht : (s.task τ).joiner = some t) (hat : s.caller t = .joinStart c τ) : Nearer capacity s τ := by
  have hst : step capacity s (.step t) = some
      (((s.setCtrl c { s.ctrl c with cvar := (s.ctrl c).cvar.tail }).setTask τ
        { s.task τ with joined := true }).goto t (.joinRet τ false)) := by
    simp [step, St.advance, hat, hs, hjo, hj]
  refine ⟨.step t, _, .inr ⟨t, ht, rfl⟩, hst, ?_, by simpa using hon.submitted, by simp, by simp⟩
  simp [St.left, hon.ctrl, hp, Task.joinLeft, ht, hjd, hat, CallerPc.left]

lemma nearer_met (hc : c < s.nextCtrl) (hp : s.phase c = .assigned τ) (hon : (s.task τ).On c)
    (hw : (s.ctrl c).worker = .waitJoin τ) (hcv : (s.ctrl c).cvar = []) : Nearer capacity s τ := by
  have hst : step capacity s (.work c) = some
      ((s.setCtrl c { (s.ctrl c).reset with worker := .putting τ }).setPhase c (.byWorker τ)) := by
    simp [step, hc, St.work, hw, hcv]
  refine ⟨.work c, _, .inl ⟨c, hon.ctrl, rfl⟩, hst, ?_, hon.submitted, rfl, rfl⟩
  simp [St.left, hon.ctrl, hp, hw, left]
  omega

lemma St.left_eq_zero (hk : (s.task τ).ctrl = some c) (hp : (s.phase c).task = none) : s.left τ = 0 := by
  unfold St.left
  rw [hk]
  cases h : s.phase c <;> simp_all [Phase.task]

lemma St.put_phase {full : Phase} (hf : full.task = none) : ((s.put capacity c τ full).2.phase c).task = none := by
  rcases s.put_cases capacity c τ full with ⟨-, -, h⟩ | ⟨-, -, h⟩
  · rw [h]; rfl
  · rw [h]; exact hf

lemma nearer_putting (hc : c < s.nextCtrl) (hp : s.phase c = .byWorker τ) (hon : (s.task τ).On c)
    (hw : (s.ctrl c).worker = .putting τ) : Nearer capacity s τ := by
  have hst : step capacity s (.work c) = some ((s.put capacity c τ .dtorWorker).2.setCtrl c
      { s.ctrl c with worker := if (s.put capacity c τ .dtorWorker).1 then .toWait else .dtor }) := by
    simp only [step, if_pos hc, St.work, hw]
  refine ⟨.work c, _, .inl ⟨c, hon.ctrl, rfl⟩, hst, ?_, by simpa using hon.submitted, by simp, by simp⟩
  rw [St.left_eq_zero (by simpa using hon.ctrl) (by exact St.put_phase rfl)]
  simp [St.left, hon.ctrl, hp]

section
variable (hp : s.phase c = .byJoiner t τ) (hon : (s.task τ).On c) (ht : (s.task τ).joiner = some t)
include hp hon ht

lemma nearer_joinWoken (hx : (s.ctrl c).Free) (hat : s.caller t = .joinWait c τ) : Nearer capacity s τ := by
  have hcv : .caller t ∉ (s.ctrl c).cvar := by
    rcases hx.2 with ⟨-, h⟩ | ⟨-, h⟩ <;> simp [h]
  have hst : step capacity s (.step t) =
      some ((s.setTask τ { s.task τ with joined := true }).goto t (.joinPut c τ)) := by
    simp [step, St.advance, hat, hcv]
  refine ⟨.step t, _, .inr ⟨t, ht, rfl⟩, hst, ?_, by simpa using hon.submitted, by simp, by simp⟩
  simp [St.left, hon.ctrl, hp, hat, CallerPc.left]

lemma nearer_joinPut (hat : s.caller t = .joinPut c τ) : Nearer capacity s τ := by
  have hst : step capacity s (.step t) = some ((s.put capacity c τ (.dtorJoiner t τ)).2.goto t
      (if (s.put capacity c τ (.dtorJoiner t τ)).1 then .joinRet τ false else .joinDtor c τ)) := by
    simp only [step, St.advance, hat]
  refine ⟨.step t, _, .inr ⟨t, ht, rfl⟩, hst, ?_, by simpa using hon.submitted, by simp, by simp⟩
  rw [St.left_eq_zero (by simpa using hon.ctrl) (by exact St.put_phase rfl)]
  simp [St.left, hon.ctrl, hp, hat, CallerPc.left]

end

lemma nearer_or_settled (capacity : Nat) (hi : Inv s) (hsu : (s.task τ).submitted = true) :
    Nearer capacity s τ ∨ (s.task τ).Settled := by
  cases hi.task τ with
  | waiting h1 h2 => simp [h2.submitted] at hsu
  | done c h1 h2 h3 h4 h5 => exact .inr ⟨h3.runs, h3.finished, .inl ⟨h4, fun h => (h5 h).1⟩⟩
  | on c hk hpt =>
    cases hi.block c with
    | unused h1 | pooled h1 | dtorWorker h1 | dtorJoiner _ _ h1 | dead h1 => simp [h1, task] at hpt
    | taken t σ h1 h2 h3 h4 h5 =>
      obtain rfl := task_unique hpt h1 rfl
      simp [h5.submitted] at hsu
    | assigned σ h1 h2 h3 h4 h5 h6 =>
      obtain rfl := task_unique hpt h1 rfl
      exact nearer_assigned h2 h1 h3 h4 h5 h6
    | awaits σ h1 h2 h3 h4 h5 h6 h7 h8 h9 h10 h11 =>
      obtain rfl := task_unique hpt h1 rfl
      obtain ⟨hj, ⟨hn, -⟩ | ⟨t, ht, -, hon⟩⟩ := h11
      · exact .inr ⟨h4.runs, h4.finished, .inr ⟨h5, hn⟩⟩
      · exact .inl (nearer_awaits h1 h3 h6 h7 h8 hj ht hon.at_)
    | met σ h1 h2 h3 h4 h5 h6 h7 h8 =>
      obtain rfl := task_unique hpt h1 rfl
      exact .inl (nearer_met h2 h1 h3 h8 h7)
    | byWorker σ h1 h2 h3 h4 h5 h6 h7 h8 =>
      obtain rfl := task_unique hpt h1 rfl
      exact .inl (nearer_putting h2 h1 h3 h8)
    | byJoiner t σ h1 h2 h3 h4 h5 h6 h7 =>
      obtain rfl := task_unique hpt h1 rfl
      rcases h7 with h7 | ⟨-, h7⟩
      · exact .inl (nearer_joinWoken h1 h3 h5 h6 h7.at_)
      · exact .inl (nearer_joinPut h1 h3 h5 h7.at_)

lemma settles (capacity : Nat) (hi : Inv s) (hsu : (s.task τ).submitted = true) : ∃ es s', es.length ≤ s.left τ ∧
    (∀ e ∈ es, (s.task τ).Own e) ∧ (machine capacity).runFrom s es = some s' ∧ (s'.task τ).Settled := by
  -- by induction on the steps that are left
  induction hn : s.left τ using Nat.strongRecOn generalizing s with
  | ind n ih =>
    rcases nearer_or_settled capacity hi hsu with ⟨e, s1, he, hst, hlt, hs', hct, hj⟩ | h
    · obtain ⟨es, s', hle, ho, hr, hse⟩ := ih (s1.left τ) (hn ▸ hlt) (inv_step hi hst) hs' rfl
      refine ⟨e :: es, s', ?_, ?_, Machine.runFrom_cons.2 ⟨s1, hst, hr⟩, hse⟩
      · simp only [List.length_cons]
        omega
      intro e' he'
      rcases List.mem_cons.1 he' with rfl | h
      · exact he
      · have := ho e' h
        simpa only [Task.Own, hct, hj] using this
    · exact ⟨[], s, Nat.zero_le _, by simp, rfl, h⟩

end Progress

/-! ## Every run -/

/-- What a task has had, whatever its situation. -/
structure Task.Once (k : Task) : Prop where
  runs : k.runs ≤ 1
  finished : k.finished = true → k.runs = 1
  puts : k.puts ≤ 1
  back : k.puts = 1 → k.finished = true ∧ (k.joinable = true → k.joined = true)

variable {k : Task}

lemma Working.once {τ : TaskId} {w : WorkerPc} (h : Working k τ w) (hp : k.puts = 0) : k.Once := by
  cases h with
  | toWait h1 h2 | waitWork h1 h2 | call h1 h2 | running h1 h2 | afterWork h1 h2 =>
    exact ⟨by omega, by simp [h1, h2], by omega, by omega⟩

lemma Task.Over.once (h : k.Over) (hp : k.puts = 0) : k.Once :=
  ⟨le_of_eq h.runs, fun _ => h.runs, by omega, by omega⟩

lemma Task.New.once (h : k.New) : k.Once :=
  ⟨by simp [h.runs], by simp [h.finished], by simp [h.puts], by simp [h.puts]⟩

lemma Inv.once {s : St} (hi : Inv s) (τ : TaskId) : (s.task τ).Once := by
  cases hi.task τ with
  | waiting h1 h2 => exact h2.once
  | done c h1 h2 h3 h4 h5 =>
    exact ⟨le_of_eq h3.runs, fun _ => h3.runs, le_of_eq h4, fun _ => ⟨h3.finished, fun h => (h5 h).1⟩⟩
  | on c hk hpt =>
    cases hi.block c with
    | unused h1 | pooled h1 | dtorWorker h1 | dtorJoiner _ _ h1 | dead h1 => simp [h1, Phase.task] at hpt
    | taken t σ h1 h2 h3 h4 h5 =>
      obtain rfl := task_unique hpt h1 rfl
      exact h5.once
    | assigned σ h1 h2 h3 h4 h5 =>
      obtain rfl := task_unique hpt h1 rfl
      exact h5.once h3.puts
    | awaits σ h1 h2 h3 h4 | met σ h1 h2 h3 h4 | byWorker σ h1 h2 h3 h4 | byJoiner t σ h1 h2 h3 h4 =>
      obtain rfl := task_unique hpt h1 rfl
      exact h4.once h3.puts

/-- No task is run or put back twice; it is put back when it is over and, if it can be, joined. `join` is never
refused and returns when its task is over. The worker and the joiner of a submitted task do not stop before it is put
back, and can bring it there whatever the other threads have done. -/
theorem pool_task_once {capacity : Nat} {es : List Ev} {s : St} (h : (machine capacity).run es = some s) :
    (∀ τ, (s.task τ).Once) ∧
    (∀ t τ refused, s.caller t = .joinRet τ refused → refused = false ∧ (s.task τ).finished = true) ∧
    ∀ τ, (s.task τ).submitted = true → ((∀ e, (s.task τ).Own e → step capacity s e = none) → (s.task τ).Settled) ∧
      ∃ es' s', (∀ e ∈ es', (s.task τ).Own e) ∧ (machine capacity).run (es ++ es') = some s' ∧
        (s'.task τ).Settled := by
  have hi := inv_run h
  refine ⟨hi.once, fun t τ refused ht => ?_, fun τ hτ => ⟨fun hstu => ?_, ?_⟩⟩
  · have := hi.caller t
    simpa only [CallerOk, ht] using this
  · rcases nearer_or_settled capacity hi hτ with ⟨e, s', ho, hst, -⟩ | hse
    · rw [hstu e ho] at hst
      cases hst
    · exact hse
  · obtain ⟨es', s', -, ho, hr, hse⟩ := settles capacity hi hτ
    exact ⟨es', s', ho, Machine.runFrom_append.2 ⟨s, h, hr⟩, hse⟩

def twoTasks : List Ev :=
  [.create 0 true, .step 0, .step 0, .work 0, .work 0, .join 1 0, .step 1, .work 0, .work 0, .step 1, .step 1,
    .create 0 false, .step 0, .step 0, .work 0, .work 0, .work 0, .work 0, .work 0]

theorem pool_task_once_twoTasks : ∃ s, (machine 1).run twoTasks = some s ∧ s.caller 1 = .joinRet 0 false ∧
    (s.task 0).runs = 1 ∧ (s.task 0).finished = true ∧ (s.task 1).Once ∧ (s.task 1).puts = 1 := by
  have hr : (machine 1).run twoTasks = some _ := rfl
  have ha := pool_task_once hr
  have hj := ha.2.1 1 0 false rfl
  exact ⟨_, hr, rfl, (ha.1 0).finished hj.2, hj.2, ha.1 1, rfl⟩

end Photon.Pool
