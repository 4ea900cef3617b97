import Photon.Thread.Pool
/-!
# The invariant of the thread pool

`BlockOk` lists the situations a control block can be in: what its fields are,
where its worker is, which thread is at work on it, and what holds of its task.
A step changes one block, one task and one thread, so `inv_touch` leaves the
situation of that block to be shown; the other blocks, tasks and threads keep
theirs because nothing of them refers to what changed.
-/

namespace Photon.Pool

open Option Phase List

def CallerPc.block : CallerPc → Option Cid
  | .createSet c _ | .joinStart c _ | .joinWait c _ | .joinPut c _ | .joinDtor c _ => some c
  | .idle | .createGet _ | .joinRet _ _ => none

open CallerPc

def Phase.task : Phase → Option TaskId
  | .taken _ τ | .assigned τ | .byWorker τ | .byJoiner _ τ => some τ
  | .unused | .pooled | .dtorWorker | .dtorJoiner _ _ | .dead => none

open Phase

variable {p : Phase}

lemma Phase.task_unique {q : Phase} {σ τ : TaskId} (hp : p.task = some τ) (h : p = q) (hq : q.task = some σ) :
    τ = σ := by
  rw [h, hq] at hp
  exact (some.inj hp).symm

def NoRef (f : Tid → CallerPc) (c : Cid) : Prop := ∀ u, (f u).block ≠ some c

structure OnlyRef (f : Tid → CallerPc) (c : Cid) (t : Tid) (p : CallerPc) : Prop where
  at_ : f t = p
  only : ∀ u, (f u).block = some c → u = t

/-- The block has no task, and its worker has none or is about to find out. -/
def TPControl.Free (x : TPControl) : Prop :=
  x.start = .null ∧ ((x.worker = .toWait ∧ x.cvar = []) ∨ (x.worker = .waitWork ∧ x.cvar = [.worker]))

open TPControl

inductive Working (k : Task) (τ : TaskId) : WorkerPc → Prop
  | toWait : k.runs = 0 → k.finished = false → Working k τ .toWait
  | waitWork : k.runs = 0 → k.finished = false → Working k τ .waitWork
  | call : k.runs = 0 → k.finished = false → Working k τ .call
  | running : k.runs = 1 → k.finished = false → Working k τ (.running τ)
  | afterWork : k.runs = 1 → k.finished = true → Working k τ (.afterWork τ)

/-- The task has not begun: it is only known to the `thread_create_ex` that made it. -/
structure Task.New (k : Task) : Prop where
  submitted : k.submitted = false
  runs : k.runs = 0
  finished : k.finished = false
  joiner : k.joiner = none
  joined : k.joined = false
  puts : k.puts = 0

/-- The task has its block. -/
structure Task.On (k : Task) (c : Cid) : Prop where
  ctrl : k.ctrl = some c
  submitted : k.submitted = true
  puts : k.puts = 0

/-- The task is over, and joined if it can be. -/
structure Task.Over (k : Task) : Prop where
  runs : k.runs = 1
  finished : k.finished = true

/-- Nobody has joined the task yet: nobody has called `join`, or the call has not
reached its critical section. -/
def Unjoined (f : Tid → CallerPc) (k : Task) (c : Cid) (τ : TaskId) : Prop := k.joined = false ∧
    ((k.joiner = none ∧ NoRef f c) ∨ ∃ t, k.joiner = some t ∧ k.joinable = true ∧ OnlyRef f c t (.joinStart c τ))

/-- How far the join of a task is whose worker has not come to `after_work_done`. -/
inductive JoinSide (x : TPControl) (f : Tid → CallerPc) (k : Task) (c : Cid) (τ : TaskId) : Prop
  | unjoined : x.joinable = k.joinable → x.joining = false → x.cvar = [] → Unjoined f k c τ → JoinSide x f k c τ
  | awaited (t : Tid) : x.joinable = true → x.joining = true → x.cvar = [.caller t] → k.joiner = some t →
      k.joined = false → OnlyRef f c t (.joinWait c τ) → JoinSide x f k c τ

inductive BlockOk (s : St) (c : Cid) : Prop
  | unused : s.phase c = .unused → s.nextCtrl ≤ c → NoRef s.caller c → BlockOk s c
  | pooled : s.phase c = .pooled → c < s.nextCtrl → (s.ctrl c).Free → NoRef s.caller c → BlockOk s c
  | taken (t : Tid) (τ : TaskId) : s.phase c = .taken t τ → c < s.nextCtrl → (s.ctrl c).Free →
      OnlyRef s.caller c t (.createSet c τ) → (s.task τ).New → (s.task τ).ctrl = some c → BlockOk s c
  /-- The task is to be run, or running, or just over. -/
  | assigned (τ : TaskId) : s.phase c = .assigned τ → c < s.nextCtrl → (s.task τ).On c →
      (s.ctrl c).start = .entry τ → Working (s.task τ) τ (s.ctrl c).worker →
      JoinSide (s.ctrl c) s.caller (s.task τ) c τ → BlockOk s c
  /-- The task is over, and the worker waits for the joiner. -/
  | awaits (τ : TaskId) : s.phase c = .assigned τ → c < s.nextCtrl → (s.task τ).On c → (s.task τ).Over →
      (s.task τ).joinable = true → (s.ctrl c).start = .entry τ → (s.ctrl c).joinable = true →
      (s.ctrl c).joining = true → (s.ctrl c).cvar = [.worker] → (s.ctrl c).worker = .waitJoin τ →
      Unjoined s.caller (s.task τ) c τ → BlockOk s c
  /-- The joiner has come, and the worker is about to go on. -/
  | met (τ : TaskId) : s.phase c = .assigned τ → c < s.nextCtrl → (s.task τ).On c → (s.task τ).Over →
      (s.task τ).joined = true → (s.task τ).joiner ≠ none → (s.ctrl c).cvar = [] →
      (s.ctrl c).worker = .waitJoin τ → NoRef s.caller c → BlockOk s c
  | byWorker (τ : TaskId) : s.phase c = .byWorker τ → c < s.nextCtrl → (s.task τ).On c → (s.task τ).Over →
      ((s.task τ).joinable = true → (s.task τ).joined = true ∧ (s.task τ).joiner ≠ none) → (s.ctrl c).start = .null →
      (s.ctrl c).cvar = [] → (s.ctrl c).worker = .putting τ → NoRef s.caller c → BlockOk s c
  | byJoiner (t : Tid) (τ : TaskId) : s.phase c = .byJoiner t τ → c < s.nextCtrl → (s.task τ).On c →
      (s.task τ).Over → (s.task τ).joiner = some t → (s.ctrl c).Free →
      (OnlyRef s.caller c t (.joinWait c τ) ∨ ((s.task τ).joined = true ∧ OnlyRef s.caller c t (.joinPut c τ))) → BlockOk s c
  | dtorWorker : s.phase c = .dtorWorker → c < s.nextCtrl → (s.ctrl c).start = .null → (s.ctrl c).cvar = [] →
      (s.ctrl c).worker = .dtor → NoRef s.caller c → BlockOk s c
  | dtorJoiner (t : Tid) (τ : TaskId) : s.phase c = .dtorJoiner t τ → c < s.nextCtrl → (s.ctrl c).Free →
      OnlyRef s.caller c t (.joinDtor c τ) → (s.task τ).finished = true → (s.task τ).ctrl = some c → BlockOk s c
  | dead : s.phase c = .dead → c < s.nextCtrl → (s.ctrl c).start = .stub → (s.ctrl c).cvar = [] →
      (s.ctrl c).worker = .toWait ∨ (s.ctrl c).worker = .waitWork ∨ (s.ctrl c).worker = .exited → NoRef s.caller c →
      BlockOk s c

/-- A task has not got its block, or is on it, or is over and has given it back. -/
inductive TaskOk (s : St) (τ : TaskId) : Prop
  | waiting : (s.task τ).ctrl = none → (s.task τ).New → TaskOk s τ
  | on (c : Cid) : (s.task τ).ctrl = some c → (s.phase c).task = some τ → TaskOk s τ
  | done (c : Cid) : (s.task τ).ctrl = some c → (s.task τ).submitted = true → (s.task τ).Over → (s.task τ).puts = 1 →
      ((s.task τ).joinable = true → (s.task τ).joined = true ∧ (s.task τ).joiner ≠ none) → TaskOk s τ

def CallerOk (s : St) (t : Tid) : Prop :=
  match s.caller t with
  | .createGet τ => (s.task τ).ctrl = none ∧ (s.task τ).creator = some t ∧ τ < s.nextTask
  | .joinRet τ refused => refused = false ∧ (s.task τ).finished = true
  | _ => True

structure Inv (s : St) : Prop where
  items_nodup : s.items.Nodup
  items : ∀ c, c ∈ s.items ↔ s.phase c = .pooled
  block : ∀ c, BlockOk s c
  task : ∀ τ, TaskOk s τ
  caller : ∀ t, CallerOk s t
  fresh : ∀ τ, s.nextTask ≤ τ → (s.task τ).ctrl = none

lemma inv_init : Inv {} where
  items_nodup := nodup_nil
  items c := by simp
  block c := .unused rfl (Nat.zero_le c) (fun u => by simp [block])
  task τ := .waiting rfl ⟨rfl, rfl, rfl, rfl, rfl, rfl⟩
  caller t := trivial
  fresh τ _ := rfl

/-! ## What a step leaves alone -/

section Frame

variable {s s' : St} {c d : Cid} {τ : TaskId} {t u : Tid} {x : TPControl} {k : Task}

/-- The join does not depend on how far the worker is. -/
lemma JoinSide.worker {f : Tid → CallerPc} (h : JoinSide x f k c τ) (w : WorkerPc) (n : Nat) (b : Bool) :
    JoinSide { x with worker := w } f { k with runs := n, finished := b } c τ := by
  cases h with
  | unjoined h1 h2 h3 h4 => exact .unjoined h1 h2 h3 h4
  | awaited t h1 h2 h3 h4 h5 h6 => exact .awaited t h1 h2 h3 h4 h5 h6

lemma Working.joiner {w : WorkerPc} (h : Working k τ w) (t : Tid) : Working { k with joiner := some t } τ w := by
  cases h with
  | toWait h1 h2 => exact .toWait h1 h2
  | waitWork h1 h2 => exact .waitWork h1 h2
  | call h1 h2 => exact .call h1 h2
  | running h1 h2 => exact .running h1 h2
  | afterWork h1 h2 => exact .afterWork h1 h2

section
variable (hr : ∀ u, (s.caller u).block = some d ∨ (s'.caller u).block = some d → s'.caller u = s.caller u)
include hr

lemma NoRef.frame (h : NoRef s.caller d) : NoRef s'.caller d := by
  intro u hu
  exact h u (hr u (.inr hu) ▸ hu)

/-- The one thread at work on a block that is not touched stays where it is. -/
lemma OnlyRef.frame {p : CallerPc} (h : OnlyRef s.caller d t p) (hp : p.block = some d) : OnlyRef s'.caller d t p := by
  have ht : (s.caller t).block = some d := by rw [h.at_, hp]
  refine ⟨(hr t (.inl ht)).trans h.at_, fun u hu => ?_⟩
  exact h.only u (hr u (.inr hu) ▸ hu)

lemma Unjoined.frame (h : Unjoined s.caller (s.task τ) d τ) (hk : s'.task τ = s.task τ) :
    Unjoined s'.caller (s'.task τ) d τ := by
  rw [hk]
  refine ⟨h.1, ?_⟩
  rcases h.2 with ⟨hj, hn⟩ | ⟨t, hj, hk, ho⟩
  · exact .inl ⟨hj, hn.frame hr⟩
  · exact .inr ⟨t, hj, hk, ho.frame hr rfl⟩

lemma JoinSide.frame (h : JoinSide (s.ctrl d) s.caller (s.task τ) d τ)
    (hx : s'.ctrl d = s.ctrl d) (hk : s'.task τ = s.task τ) : JoinSide (s'.ctrl d) s'.caller (s'.task τ) d τ := by
  cases h with
  | unjoined h1 h2 h3 h4 =>
    refine .unjoined ?_ (hx ▸ h2) (hx ▸ h3) (h4.frame hr hk)
    rw [hx, hk, h1]
  | awaited t h1 h2 h3 h4 h5 h6 =>
    exact .awaited t (hx ▸ h1) (hx ▸ h2) (hx ▸ h3) (hk ▸ h4) (hk ▸ h5) (h6.frame hr rfl)

/-- A block that is not touched keeps its situation. -/
lemma BlockOk.frame (h : BlockOk s d) (hx : s'.ctrl d = s.ctrl d) (hp : s'.phase d = s.phase d)
    (hn : d < s'.nextCtrl ↔ d < s.nextCtrl) (hk : ∀ σ, (s.task σ).ctrl = some d → s'.task σ = s.task σ) :
    BlockOk s' d := by
  have hno := NoRef.frame hr
  cases h with
  | unused h1 h2 h3 => exact .unused (hp ▸ h1) (not_lt.1 fun h => not_lt.2 h2 (hn.1 h)) (hno h3)
  | pooled h1 h2 h3 h4 => exact .pooled (hp ▸ h1) (hn.2 h2) (hx ▸ h3) (hno h4)
  | taken t τ h1 h2 h3 h4 h5 h6 =>
    have := hk τ h6
    exact .taken t τ (hp ▸ h1) (hn.2 h2) (hx ▸ h3) (h4.frame hr rfl) (this ▸ h5) (this ▸ h6)
  | assigned τ h1 h2 h3 h4 h5 h6 =>
    have := hk τ h3.ctrl
    refine .assigned τ (hp ▸ h1) (hn.2 h2) (this ▸ h3) (hx ▸ h4) ?_ (h6.frame hr hx this)
    rw [hx, this]
    exact h5
  | awaits τ h1 h2 h3 h4 h5 h6 h7 h8 h9 h10 h11 =>
    have := hk τ h3.ctrl
    exact .awaits τ (hp ▸ h1) (hn.2 h2) (this ▸ h3) (this ▸ h4) (this ▸ h5) (hx ▸ h6) (hx ▸ h7) (hx ▸ h8) (hx ▸ h9)
      (hx ▸ h10) (h11.frame hr this)
  | met τ h1 h2 h3 h4 h5 h6 h7 h8 h9 =>
    have := hk τ h3.ctrl
    exact .met τ (hp ▸ h1) (hn.2 h2) (this ▸ h3) (this ▸ h4) (this ▸ h5) (this ▸ h6) (hx ▸ h7) (hx ▸ h8) (hno h9)
  | byWorker τ h1 h2 h3 h4 h5 h6 h7 h8 h9 =>
    have := hk τ h3.ctrl
    exact .byWorker τ (hp ▸ h1) (hn.2 h2) (this ▸ h3) (this ▸ h4) (this ▸ h5) (hx ▸ h6) (hx ▸ h7) (hx ▸ h8) (hno h9)
  | byJoiner t τ h1 h2 h3 h4 h5 h6 h7 =>
    have := hk τ h3.ctrl
    refine .byJoiner t τ (hp ▸ h1) (hn.2 h2) (this ▸ h3) (this ▸ h4) (this ▸ h5) (hx ▸ h6) ?_
    exact h7.imp (·.frame hr rfl) fun h => ⟨this ▸ h.1, h.2.frame hr rfl⟩
  | dtorWorker h1 h2 h3 h4 h5 h6 => exact .dtorWorker (hp ▸ h1) (hn.2 h2) (hx ▸ h3) (hx ▸ h4) (hx ▸ h5) (hno h6)
  | dtorJoiner t τ h1 h2 h3 h4 h5 h6 =>
    have := hk τ h6
    exact .dtorJoiner t τ (hp ▸ h1) (hn.2 h2) (hx ▸ h3) (h4.frame hr rfl) (this ▸ h5) (this ▸ h6)
  | dead h1 h2 h3 h4 h5 h6 => exact .dead (hp ▸ h1) (hn.2 h2) (hx ▸ h3) (hx ▸ h4) (hx ▸ h5) (hno h6)

end

/-- So does a task, as long as its block remains with it. -/
lemma TaskOk.frame (h : TaskOk s τ) (hk : s'.task τ = s.task τ)
    (hp : ∀ c, (s.task τ).ctrl = some c → (s.phase c).task = some τ → (s'.phase c).task = some τ) : TaskOk s' τ := by
  cases h with
  | waiting h1 h2 => exact .waiting (hk ▸ h1) (hk ▸ h2)
  | on c h1 h2 => exact .on c (hk ▸ h1) (hp c h1 h2)
  | done c h1 h2 h3 h4 h5 => exact .done c (hk ▸ h1) (hk ▸ h2) (hk ▸ h3) (hk ▸ h4) (hk ▸ h5)

end Frame

/-- The step from `s` to `s'` changes no block but `c`, no task but `τ`, which is on no
other block, and no thread that is at work on another block. -/
structure Touch (s s' : St) (c : Cid) (τ : TaskId) : Prop where
  ctrl : ∀ d, d ≠ c → s'.ctrl d = s.ctrl d
  phase : ∀ d, d ≠ c → s'.phase d = s.phase d
  nextCtrl : ∀ d, d ≠ c → (d < s'.nextCtrl ↔ d < s.nextCtrl)
  nextTask : s'.nextTask = s.nextTask
  task : ∀ σ, σ ≠ τ → s'.task σ = s.task σ
  on : ∀ d, (s.task τ).ctrl = some d → d = c
  finished : (s.task τ).finished = true → (s'.task τ).finished = true
  caller : ∀ u, s'.caller u = s.caller u ∨ ((s.caller u).block = none ∨ (s.caller u).block = some c) ∧
      ((s'.caller u).block = none ∨ (s'.caller u).block = some c) ∧ CallerOk s' u
  /-- No other task loses the block. -/
  keeps : ∀ σ, σ ≠ τ → (s.phase c).task = some σ → (s'.phase c).task = some σ
  getting : ∀ u, s'.caller u = .createGet τ → s'.task τ = s.task τ

/-- So does a caller that does not move. -/
lemma CallerOk.frame (h : CallerOk s u) (hu : s'.caller u = s.caller u) (hn : s'.nextTask = s.nextTask)
    (hk : ∀ σ, σ ≠ τ → s'.task σ = s.task σ) (hf : (s.task τ).finished = true → (s'.task τ).finished = true)
    (hg : s'.caller u = .createGet τ → s'.task τ = s.task τ) : CallerOk s' u := by
  unfold CallerOk at h ⊢
  rw [hu] at hg ⊢
  split at h
  next σ hσ =>
    rcases eq_or_ne σ τ with rfl | hστ
    · rw [hg hσ, hn]
      exact h
    · rw [hk σ hστ, hn]
      exact h
  next σ r hσ =>
    refine ⟨h.1, ?_⟩
    rcases eq_or_ne σ τ with rfl | hστ
    · exact hf h.2
    · rw [hk σ hστ]
      exact h.2
  · trivial

/-- A step need only show the situations of the block and the task it touches. -/
lemma inv_touch (hi : Inv s) (ht : Touch s s' c τ)
    (hn : s'.items.Nodup) (hit : ∀ d, d ∈ s'.items ↔ s'.phase d = .pooled)
    (hb : BlockOk s' c) (hτ : TaskOk s' τ) (hf : s.nextTask ≤ τ → (s'.task τ).ctrl = none) : Inv s' where
  items_nodup := hn
  items := hit
  block d := by
    by_cases hd : d = c
    · exact hd ▸ hb
    refine (hi.block d).frame ?_ (ht.ctrl d hd) (ht.phase d hd) (ht.nextCtrl d hd) fun σ hσ =>
      ht.task σ fun h => hd (ht.on d (h ▸ hσ))
    intro u hu
    rcases ht.caller u with h | ⟨h1, h2, -⟩
    · exact h
    rcases hu with hu | hu
    · rw [hu] at h1
      simp [hd] at h1
    · rw [hu] at h2
      simp [hd] at h2
  task σ := by
    by_cases hσ : σ = τ
    · exact hσ ▸ hτ
    refine (hi.task σ).frame (ht.task σ hσ) fun d _ hp => ?_
    rcases eq_or_ne d c with rfl | hd
    · exact ht.keeps σ hσ hp
    · rw [ht.phase d hd]
      exact hp
  caller u := by
    rcases ht.caller u with h | ⟨-, -, h⟩
    · exact (hi.caller u).frame h ht.nextTask ht.task ht.finished (ht.getting u)
    · exact h
  fresh σ hσ := by
    rcases eq_or_ne σ τ with rfl | h
    · exact hf (ht.nextTask ▸ hσ)
    · rw [ht.task σ h]
      exact hi.fresh σ (ht.nextTask ▸ hσ)

/-! ## Steps -/

section Steps

variable {s s' : St} {c : Cid} {τ : TaskId} {t : Tid} {x : TPControl} {k : Task}

/-- A step that changes a block and its phase, and no task. -/
lemma inv_block (hi : Inv s) (ht : p.task = (s.phase c).task) (hp : p = .pooled ↔ s.phase c = .pooled)
    (hb : BlockOk ((s.setCtrl c x).setPhase c p) c) : Inv ((s.setCtrl c x).setPhase c p) := by
  have hk : (s.task s.nextTask).ctrl = none := hi.fresh _ le_rfl
  refine inv_touch hi ?_ hi.items_nodup ?_ hb ?_ fun _ => hk
  · refine ⟨?_, ?_, ?_, rfl, ?_, ?_, id, fun u => .inl rfl, ?_, fun _ _ => rfl⟩
    · intro d hd; simp [hd]
    · intro d hd; simp [hd]
    · intro d hd; rfl
    · intro σ hσ; rfl
    · intro d hd; simp [hk] at hd
    · intro σ _ hσ
      simpa [ht] using hσ
  · intro d
    rcases eq_or_ne d c with rfl | hd
    · simpa [hp] using hi.items d
    · simpa [hd] using hi.items d
  · refine (hi.task _).frame rfl fun d hd _ => ?_
    simp [hk] at hd

lemma St.setPhase_self (s : St) (c : Cid) : s.setPhase c (s.phase c) = s := by
  simp [St.setPhase]

lemma inv_setCtrl (hi : Inv s) (hb : BlockOk (s.setCtrl c x) c) : Inv (s.setCtrl c x) := by
  have h : (s.setCtrl c x).setPhase c (s.phase c) = s.setCtrl c x := St.setPhase_self (s.setCtrl c x) c
  rw [← h] at hb ⊢
  exact inv_block hi rfl Iff.rfl hb

def TPControl.AtTest (x : TPControl) : Prop := x.worker = .toWait ∨ (x.worker = .waitWork ∧ .worker ∉ x.cvar)

lemma TPControl.Free.waitForWork (h : x.Free) (hw : x.AtTest) : x.waitForWork.Free := by
  obtain ⟨hs, ⟨h1, h2⟩ | ⟨h1, h2⟩⟩ := h
  · simp [TPControl.waitForWork, Free, hs, h2]
  · simp [AtTest, h1, h2] at hw

lemma Working.waitForWork (h : Working k τ x.worker) (hs : x.start = .entry τ)
    (hw : x.AtTest) : Working k τ x.waitForWork.worker := by
  simp only [TPControl.waitForWork, hs]
  rcases hw with hw | ⟨hw, -⟩
  · rw [hw] at h
    cases h with
    | toWait h1 h2 => exact .call h1 h2
  · rw [hw] at h
    cases h with
    | waitWork h1 h2 => exact .call h1 h2

/-- The test of `start` at the head of the worker loop, in every situation. -/
lemma block_waitForWork (hb : BlockOk s c) (hc : c < s.nextCtrl) (hw : (s.ctrl c).AtTest) :
    BlockOk (s.setCtrl c (s.ctrl c).waitForWork) c := by
  cases hb with
  | unused h1 h2 => exact absurd hc (not_lt.2 h2)
  | pooled h1 h2 h3 h4 => exact .pooled h1 h2 (by simpa using h3.waitForWork hw) h4
  | taken t τ h1 h2 h3 h4 h5 h6 => exact .taken t τ h1 h2 (by simpa using h3.waitForWork hw) h4 h5 h6
  | assigned τ h1 h2 h3 h4 h5 h6 =>
    refine .assigned τ h1 h2 h3 ?_ (by simpa using h5.waitForWork h4 hw) ?_
    · simp [TPControl.waitForWork, h4]
    have hx : (s.ctrl c).waitForWork = { s.ctrl c with worker := .call } := by
      simp only [TPControl.waitForWork, h4]
    rw [St.setCtrl_ctrl, if_pos rfl, hx]
    exact h6.worker .call ..
  | awaits τ h1 h2 h3 h4 h5 h6 h7 h8 h9 h10 => simp [AtTest, h10] at hw
  | met τ h1 h2 h3 h4 h5 h6 h7 h8 | byWorker τ h1 h2 h3 h4 h5 h6 h7 h8 => simp [AtTest, h8] at hw
  | byJoiner t τ h1 h2 h3 h4 h5 h6 h7 => exact .byJoiner t τ h1 h2 h3 h4 h5 (by simpa using h6.waitForWork hw) h7
  | dtorWorker h1 h2 h3 h4 h5 => simp [AtTest, h5] at hw
  | dtorJoiner t τ h1 h2 h3 h4 h5 h6 => exact .dtorJoiner t τ h1 h2 (by simpa using h3.waitForWork hw) h4 h5 h6
  | dead h1 h2 h3 h4 h5 h6 =>
    refine .dead h1 h2 ?_ ?_ ?_ h6
    all_goals simp [TPControl.waitForWork, h3, h4]

def WorkerPc.busy : WorkerPc → Bool
  | .call | .running _ | .afterWork _ => true
  | _ => false

/-- A worker that calls, runs or has run a task is on an assigned block. -/
lemma BlockOk.of_busy {w : WorkerPc} (hb : BlockOk s c) (hc : c < s.nextCtrl) (hw : (s.ctrl c).worker = w)
    (h : w.busy = true) : ∃ τ, s.phase c = .assigned τ ∧ (s.task τ).On c ∧ (s.ctrl c).start = .entry τ ∧
      Working (s.task τ) τ w ∧ JoinSide (s.ctrl c) s.caller (s.task τ) c τ := by
  cases hb with
  | assigned τ h1 h2 h3 h4 h5 h6 => exact ⟨τ, h1, h3, h4, hw ▸ h5, h6⟩
  | unused h1 h2 => exact absurd hc (not_lt.2 h2)
  | _ => cases w <;> simp_all [WorkerPc.busy, Free]

lemma BlockOk.of_afterWork (hb : BlockOk s c) (hc : c < s.nextCtrl) (hw : (s.ctrl c).worker = .afterWork τ) :
    s.phase c = .assigned τ ∧ (s.task τ).On c ∧ (s.ctrl c).start = .entry τ ∧ (s.task τ).Over ∧
      JoinSide (s.ctrl c) s.caller (s.task τ) c τ := by
  obtain ⟨σ, hp, ho, hs, hwo, hj⟩ := hb.of_busy hc hw rfl
  cases hwo with
  | afterWork h1 h2 => exact ⟨hp, ho, hs, ⟨h1, h2⟩, hj⟩

section
variable (hi : Inv s)
include hi

/-- A task that has a block is not waiting to get one. -/
lemma Inv.not_createGet (hτ : (s.task τ).ctrl = some c) (u : Tid) : s.caller u ≠ .createGet τ := by
  intro hu
  have := hi.caller u
  simp only [CallerOk, hu, hτ] at this
  exact absurd this.1 nofun

/-- A step that changes an assigned block and its task. -/
lemma inv_assigned (hp : s.phase c = .assigned τ) (hτ : (s.task τ).ctrl = some c) (hk : k.ctrl = some c)
    (hf : (s.task τ).finished = true → k.finished = true)
    (hb : BlockOk ((s.setTask τ k).setCtrl c x) c) : Inv ((s.setTask τ k).setCtrl c x) := by
  refine inv_touch (τ := τ) hi ?_ hi.items_nodup hi.items hb ?_ ?_
  · refine ⟨?_, fun _ _ => rfl, fun _ _ => Iff.rfl, rfl, ?_, ?_, ?_, fun u => .inl rfl, fun _ _ h => h, ?_⟩
    · intro d hd; simp [hd]
    · intro σ hσ; simp [hσ]
    · intro d hd; exact some.inj (hd.symm.trans hτ)
    · simpa using hf
    · intro u hu; exact absurd hu (hi.not_createGet hτ u)
  · refine .on c (by simpa using hk) ?_
    simp [hp, task]
  · intro h
    rw [hi.fresh τ h] at hτ
    cases hτ

section
variable (hc : c < s.nextCtrl)
include hc

/-- The worker calls the entry, and the task runs once more. -/
lemma inv_call (hw : (s.ctrl c).worker = .call) (hs : (s.ctrl c).start = .entry τ) :
    Inv ((s.setTask τ { s.task τ with runs := (s.task τ).runs + 1 }).setCtrl c
      { s.ctrl c with worker := .running τ }) := by
  obtain ⟨σ, hp, ho, hs', hwk, hj⟩ := (hi.block c).of_busy hc hw rfl
  obtain _ | _ | ⟨hr, hf⟩ := hwk
  obtain rfl : τ = σ := by rw [hs] at hs'; injection hs'
  refine inv_assigned hi hp ho.ctrl ho.ctrl id ?_
  refine .assigned τ hp hc ?_ ?_ ?_ ?_
  · simpa using ⟨ho.ctrl, ho.submitted, ho.puts⟩
  · simpa using hs
  · have h : Working { s.task τ with runs := (s.task τ).runs + 1 } τ (.running τ) := .running (by simp [hr]) hf
    simpa using h
  · simpa using hj.worker (.running τ) _ (s.task τ).finished

/-- The entry returns, and the task is finished. -/
lemma inv_running (hw : (s.ctrl c).worker = .running τ) :
    Inv ((s.setTask τ { s.task τ with finished := true }).setCtrl c { s.ctrl c with worker := .afterWork τ }) := by
  obtain ⟨_, hp, ho, hs, _ | _ | _ | hr, hj⟩ := (hi.block c).of_busy hc hw rfl
  refine inv_assigned hi hp ho.ctrl ho.ctrl (fun _ => rfl) ?_
  refine .assigned τ hp hc ?_ ?_ ?_ ?_
  · simpa using ⟨ho.ctrl, ho.submitted, ho.puts⟩
  · simpa using hs
  · have h : Working { s.task τ with finished := true } τ (.afterWork τ) := .afterWork hr rfl
    simpa using h
  · simpa using hj.worker (.afterWork τ) (s.task τ).runs true

section
variable (hw : (s.ctrl c).worker = .afterWork τ)
include hw

/-- `after_work_done` with a joiner that waits: the joiner gets the block. -/
lemma inv_notifyJoiner (hj : (s.ctrl c).joining = true) (ht : (s.task τ).joiner = some t) :
    Inv ((s.setCtrl c { (s.ctrl c).reset with cvar := [], worker := .toWait }).setPhase c (.byJoiner t τ)) := by
  obtain ⟨hp, ho, -, hov, hsi⟩ := (hi.block c).of_afterWork hc hw
  refine inv_block hi (by simp [hp, task]) (by simp [hp]) ?_
  cases hsi with
  | unjoined h1 h2 => simp [h2] at hj
  | awaited u h1 h2 h3 h4 h5 h6 =>
    obtain rfl : t = u := some.inj (ht.symm.trans h4)
    refine .byJoiner t τ (by simp) hc ho hov ht ?_ (.inl h6)
    simp [Free, reset]

/-- `after_work_done` before the joiner has come: the worker waits. -/
lemma inv_waitJoiner (hj : (s.ctrl c).joining = false) (hjo : (s.ctrl c).joinable = true) :
    Inv (s.setCtrl c
      { s.ctrl c with joining := true, cvar := (s.ctrl c).cvar ++ [.worker], worker := .waitJoin τ }) := by
  obtain ⟨hp, ho, hs, hov, hsi⟩ := (hi.block c).of_afterWork hc hw
  refine inv_setCtrl hi ?_
  cases hsi with
  | awaited u h1 h2 => simp [h2] at hj
  | unjoined h1 h2 h3 h4 =>
    refine .awaits τ hp hc ho hov (h1 ▸ hjo) ?_ ?_ ?_ ?_ ?_ h4
    all_goals simp [hs, hjo, h3]

/-- `after_work_done` of a detached task: the worker puts the block back itself. -/
lemma inv_notJoinable (hj : (s.ctrl c).joining = false) (hjo : (s.ctrl c).joinable = false) :
    Inv ((s.setCtrl c { (s.ctrl c).reset with worker := .putting τ }).setPhase c (.byWorker τ)) := by
  obtain ⟨hp, ho, -, hov, hsi⟩ := (hi.block c).of_afterWork hc hw
  refine inv_block hi (by simp [hp, task]) (by simp [hp]) ?_
  cases hsi with
  | awaited u h1 h2 => simp [h2] at hj
  | unjoined h1 h2 h3 h4 =>
    have hk : (s.task τ).joinable = false := h1 ▸ hjo
    have hn : NoRef s.caller c := by
      rcases h4.2 with h | ⟨u, -, h, -⟩
      · exact h.2
      · simp [hk] at h
    refine .byWorker τ (by simp) hc ho hov (fun h => ?_) ?_ ?_ ?_ hn
    · simp [hk] at h
    all_goals simp [reset, h3]

end

/-- The joiner has come and notified the worker. -/
lemma inv_joinerCame (hw : (s.ctrl c).worker = .waitJoin τ) (hcv : .worker ∉ (s.ctrl c).cvar) :
    Inv ((s.setCtrl c { (s.ctrl c).reset with worker := .putting τ }).setPhase c (.byWorker τ)) := by
  have hb := hi.block c
  cases hb with
  | met σ h1 h2 h3 h4 h5 h6 h7 h8 h9 =>
    obtain rfl : τ = σ := by rw [hw] at h8; injection h8
    refine inv_block hi (by simp [h1, task]) (by simp [h1]) ?_
    refine .byWorker τ (by simp) hc h3 h4 (fun _ => ⟨h5, h6⟩) ?_ ?_ ?_ h9
    all_goals simp [reset, h7]
  | assigned σ h1 h2 h3 h4 h5 =>
    rw [hw] at h5
    cases h5
  | unused h1 h2 => exact absurd hc (not_lt.2 h2)
  | _ => simp_all [Free]

/-- The pool was full, and the worker destroys its block. -/
lemma inv_workerDtor (hw : (s.ctrl c).worker = .dtor) {y : TPControl} (hy : (s.ctrl c).dtor = some y) :
    Inv ((s.setCtrl c { y with worker := .toWait }).setPhase c .dead) := by
  have hb := hi.block c
  cases hb with
  | dtorWorker h1 h2 h3 h4 h5 h6 =>
    simp only [dtor, h3] at hy
    cases hy
    refine inv_block hi (by simp [h1, task]) (by simp [h1]) ?_
    refine .dead (by simp) hc ?_ ?_ ?_ h6
    all_goals simp
  | assigned σ h1 h2 h3 h4 h5 =>
    rw [hw] at h5
    cases h5
  | unused h1 h2 => exact absurd hc (not_lt.2 h2)
  | _ => simp_all [Free]

end

end

section Put

variable {cap : Nat} {full : Phase}

@[simp] lemma St.put_frame : (s.put cap c τ full).2.ctrl = s.ctrl ∧ (s.put cap c τ full).2.caller = s.caller ∧
    (s.put cap c τ full).2.nextCtrl = s.nextCtrl ∧ (s.put cap c τ full).2.nextTask = s.nextTask := by
  unfold St.put
  split <;> exact ⟨rfl, rfl, rfl, rfl⟩

@[simp] lemma St.put_task (σ : TaskId) : (s.put cap c τ full).2.task σ =
    if σ = τ then { s.task τ with puts := (s.task τ).puts + 1 } else s.task σ := by
  unfold St.put
  split <;> simp

lemma St.put_phase_ne {d : Cid} (hd : d ≠ c) : (s.put cap c τ full).2.phase d = s.phase d := by
  unfold St.put
  split <;> simp [hd]

/-- `put` keeps the block when the pool has room. -/
lemma St.put_cases (s : St) (cap : Nat) (c : Cid) (τ : TaskId) (full : Phase) :
    ((s.put cap c τ full).1 = true ∧ (s.put cap c τ full).2.items = c :: s.items ∧
      (s.put cap c τ full).2.phase c = .pooled) ∨
    ((s.put cap c τ full).1 = false ∧ (s.put cap c τ full).2.items = s.items ∧
      (s.put cap c τ full).2.phase c = full) := by
  unfold St.put
  split <;> simp

end Put

/-- Giving a block back is the one put of its task. -/
lemma inv_put (hi : Inv s) (hp : (s.phase c).task = some τ) (ho : (s.task τ).On c) (hov : (s.task τ).Over)
    (hj : (s.task τ).joinable = true → (s.task τ).joined = true ∧ (s.task τ).joiner ≠ none)
    (ht : Touch s s' c τ) (hk : s'.task τ = { s.task τ with puts := (s.task τ).puts + 1 })
    (hit : (s'.items = c :: s.items ∧ s'.phase c = .pooled) ∨ (s'.items = s.items ∧ s'.phase c ≠ .pooled))
    (hb : BlockOk s' c) : Inv s' := by
  have hc : c ∉ s.items := fun h => by simp [(hi.items c).1 h, task] at hp
  refine inv_touch hi ht ?_ (fun d => ?_) hb ?_ ?_
  · rcases hit with ⟨h, -⟩ | ⟨h, -⟩
    · rw [h]
      exact nodup_cons.2 ⟨hc, hi.items_nodup⟩
    · rw [h]
      exact hi.items_nodup
  · rcases eq_or_ne d c with rfl | hd
    · rcases hit with ⟨h, hq⟩ | ⟨h, hq⟩
      · simp [h, hq]
      · simp [h, hq, hc]
    have := hi.items d
    rw [ht.phase d hd, ← this]
    rcases hit with ⟨h, -⟩ | ⟨h, -⟩
    · simp [h, hd]
    · rw [h]
  · refine .done c ?_ ?_ ?_ ?_ ?_
    · rw [hk]; exact ho.ctrl
    · rw [hk]; exact ho.submitted
    · rw [hk]; exact ⟨hov.runs, hov.finished⟩
    · rw [hk]; exact congrArg (· + 1) ho.puts
    · rw [hk]; exact hj
  · intro h
    have := ho.ctrl
    rw [hi.fresh τ h] at this
    cases this

/-- A worker that puts its block back has a task that is over, and joined if it can be. -/
lemma BlockOk.of_putting (hb : BlockOk s c) (hc : c < s.nextCtrl) (hw : (s.ctrl c).worker = .putting τ) :
    s.phase c = .byWorker τ ∧ (s.task τ).On c ∧ (s.task τ).Over ∧
      ((s.task τ).joinable = true → (s.task τ).joined = true ∧ (s.task τ).joiner ≠ none) ∧
      (s.ctrl c).start = .null ∧ (s.ctrl c).cvar = [] ∧ NoRef s.caller c := by
  cases hb with
  | byWorker σ h1 h2 h3 h4 h5 h6 h7 h8 h9 =>
    obtain rfl : τ = σ := by rw [hw] at h8; injection h8
    exact ⟨h1, h3, h4, h5, h6, h7, h9⟩
  | assigned σ h1 h2 h3 h4 h5 =>
    rw [hw] at h5
    cases h5
  | unused h1 h2 => exact absurd hc (not_lt.2 h2)
  | _ => simp_all [Free]

lemma inv_putting (hi : Inv s) (hc : c < s.nextCtrl) (hw : (s.ctrl c).worker = .putting τ) (cap : Nat) :
    Inv ((s.put cap c τ .dtorWorker).2.setCtrl c
      { s.ctrl c with worker := if (s.put cap c τ .dtorWorker).1 then .toWait else .dtor }) := by
  obtain ⟨hp, ho, hov, hj, hs, hcv, hn⟩ := (hi.block c).of_putting hc hw
  have hpt : (s.phase c).task = some τ := by rw [hp]; rfl
  refine inv_put hi hpt ho hov hj ⟨?_, ?_, ?_, ?_, ?_, ?_, ?_, ?_, ?_, ?_⟩ (by simp) ?_ ?_
  · intro d hd; simp [hd]
  · intro d hd; exact St.put_phase_ne hd
  · intro d _; simp
  · simp
  · intro σ hσ; simp [hσ]
  · intro d hd; exact some.inj (hd.symm.trans ho.ctrl)
  · simp
  · intro u; exact .inl (by simp)
  · intro σ hσ h; exact absurd (some.inj (h.symm.trans hpt)) hσ
  · intro u hu
    exact absurd (by simpa using hu) (hi.not_createGet ho.ctrl u)
  · rcases s.put_cases cap c τ .dtorWorker with ⟨-, h⟩ | ⟨-, h, hp⟩
    · exact .inl h
    · exact .inr ⟨h, by simp [hp]⟩
  · rcases s.put_cases cap c τ .dtorWorker with ⟨h1, -, h3⟩ | ⟨h1, -, h3⟩
    · exact .pooled h3 (by simpa using hc) (by simp [Free, h1, hs, hcv]) (by simpa using hn)
    · exact .dtorWorker h3 (by simpa using hc) (by simpa using hs) (by simpa using hcv) (by simp [h1])
        (by simpa using hn)

/-- A step of the thread that is at work on the block. -/
lemma touch_caller (hi : Inv s) (hτ : (s.task τ).ctrl = some c) (hx : ∀ d, d ≠ c → s'.ctrl d = s.ctrl d)
    (hp : ∀ d, d ≠ c → s'.phase d = s.phase d) (hn : s'.nextCtrl = s.nextCtrl) (hnt : s'.nextTask = s.nextTask)
    (hk : ∀ σ, σ ≠ τ → s'.task σ = s.task σ) (hf : (s.task τ).finished = true → (s'.task τ).finished = true)
    (hu : ∀ u, u ≠ t → s'.caller u = s.caller u) (ht : (s.caller t).block = none ∨ (s.caller t).block = some c)
    (ht' : (s'.caller t).block = none ∨ (s'.caller t).block = some c) (hg : s'.caller t ≠ .createGet τ)
    (ho : CallerOk s' t) (hke : (s.phase c).task = none ∨ (s.phase c).task = some τ) : Touch s s' c τ where
  ctrl := hx
  phase := hp
  nextCtrl d _ := by rw [hn]
  nextTask := hnt
  task := hk
  on d hd := some.inj (hd.symm.trans hτ)
  finished := hf
  caller u := by
    by_cases h : u = t
    · exact .inr (h ▸ ⟨ht, ht', ho⟩)
    · exact .inl (hu u h)
  keeps σ hσ h := by
    rcases hke with hq | hq
    · simp [hq] at h
    · simp [hq, hσ.symm] at h
  getting u h := by
    by_cases hut : u = t
    · exact absurd (hut ▸ h) hg
    · exact absurd (hu u hut ▸ h) (hi.not_createGet hτ u)

variable {q : CallerPc}

lemma OnlyRef.goto_noRef {p : CallerPc} (h : OnlyRef s.caller c t p) (hq : q.block ≠ some c) :
    NoRef (s.goto t q).caller c := by
  intro u hu
  by_cases hut : u = t
  · simp only [hut, St.goto_caller, if_true] at hu
    exact hq hu
  · simp only [St.goto_caller, if_neg hut] at hu
    exact hut (h.only u hu)

lemma OnlyRef.goto {p : CallerPc} (h : OnlyRef s.caller c t p) : OnlyRef (s.goto t q).caller c t q := by
  refine ⟨by simp, fun u hu => ?_⟩
  by_contra hut
  simp only [St.goto_caller, if_neg hut] at hu
  exact hut (h.only u hu)

lemma NoRef.goto (h : NoRef s.caller c) : OnlyRef (s.goto t q).caller c t q := by
  refine ⟨by simp, fun u hu => ?_⟩
  by_contra hut
  simp only [St.goto_caller, if_neg hut] at hu
  exact h u hu

/-- Where a thread at work on block `c` can be, and what it finds there. -/
inductive AtBlock (s : St) (c : Cid) (t : Tid) : CallerPc → Prop
  | createSet (τ : TaskId) : s.phase c = .taken t τ → (s.ctrl c).Free → (s.task τ).New → (s.task τ).ctrl = some c →
      AtBlock s c t (.createSet c τ)
  | joinFirst (τ : TaskId) : s.phase c = .assigned τ → (s.task τ).On c → (s.task τ).joiner = some t →
      (s.task τ).joined = false → (s.ctrl c).start = .entry τ → (s.ctrl c).joinable = true →
      (s.ctrl c).joining = false → (s.ctrl c).cvar = [] → Working (s.task τ) τ (s.ctrl c).worker →
      AtBlock s c t (.joinStart c τ)
  | joinSecond (τ : TaskId) : s.phase c = .assigned τ → (s.task τ).On c → (s.task τ).Over →
      (s.task τ).joiner = some t → (s.ctrl c).start = .entry τ → (s.ctrl c).joinable = true →
      (s.ctrl c).joining = true → (s.ctrl c).cvar = [.worker] → (s.ctrl c).worker = .waitJoin τ →
      AtBlock s c t (.joinStart c τ)
  | joinAsleep (τ : TaskId) : (s.ctrl c).cvar = [.caller t] → AtBlock s c t (.joinWait c τ)
  | joinWoken (τ : TaskId) : s.phase c = .byJoiner t τ → (s.task τ).On c → (s.task τ).Over →
      (s.task τ).joiner = some t → (s.ctrl c).Free → AtBlock s c t (.joinWait c τ)
  | joinPut (τ : TaskId) : s.phase c = .byJoiner t τ → (s.task τ).On c → (s.task τ).Over →
      (s.task τ).joiner = some t → (s.task τ).joined = true → (s.ctrl c).Free → AtBlock s c t (.joinPut c τ)
  | joinDtor (τ : TaskId) : s.phase c = .dtorJoiner t τ → (s.ctrl c).Free → (s.task τ).finished = true →
      (s.task τ).ctrl = some c → AtBlock s c t (.joinDtor c τ)

lemma OnlyRef.atBlock {u : Tid} {p : CallerPc} (h : OnlyRef s.caller c u p) (ht : (s.caller t).block = some c)
    (hc : c < s.nextCtrl) (hat : AtBlock s c u p) :
    c < s.nextCtrl ∧ OnlyRef s.caller c t (s.caller t) ∧ AtBlock s c t (s.caller t) := by
  obtain rfl := h.only t ht
  rw [h.at_]
  exact ⟨hc, h, hat⟩

/-- Which situations have a thread at work on the block, and what it does there. -/
lemma BlockOk.atBlock (hb : BlockOk s c) (ht : (s.caller t).block = some c) :
    c < s.nextCtrl ∧ OnlyRef s.caller c t (s.caller t) ∧ AtBlock s c t (s.caller t) := by
  cases hb with
  | taken u τ h1 h2 h3 h4 h5 h6 => exact h4.atBlock ht h2 (.createSet τ h1 h3 h5 h6)
  | assigned τ h1 h2 h3 h4 h5 h6 =>
    cases h6 with
    | unjoined h6 h7 h8 h9 =>
      obtain ⟨hj, ⟨-, hn⟩ | ⟨u, hu, hk, ho⟩⟩ := h9
      · exact absurd ht (hn t)
      · exact ho.atBlock ht h2 (.joinFirst τ h1 h3 hu hj h4 (h6.trans hk) h7 h8 h5)
    | awaited u h6 h7 h8 h9 h10 h11 => exact h11.atBlock ht h2 (.joinAsleep τ h8)
  | awaits τ h1 h2 h3 h4 h5 h6 h7 h8 h9 h10 h11 =>
    obtain ⟨-, ⟨-, hn⟩ | ⟨u, hu, -, ho⟩⟩ := h11
    · exact absurd ht (hn t)
    · exact ho.atBlock ht h2 (.joinSecond τ h1 h3 h4 hu h6 h7 h8 h9 h10)
  | byJoiner u τ h1 h2 h3 h4 h5 h6 h7 =>
    rcases h7 with h7 | ⟨hj, h7⟩
    · exact h7.atBlock ht h2 (.joinWoken τ h1 h3 h4 h5 h6)
    · exact h7.atBlock ht h2 (.joinPut τ h1 h3 h4 h5 hj h6)
  | dtorJoiner u τ h1 h2 h3 h4 h5 h6 => exact h4.atBlock ht h2 (.joinDtor τ h1 h3 h5 h6)
  | unused | pooled | met | byWorker | dtorWorker | dead => exact absurd ht (‹NoRef _ _› t)

section
variable {cap : Nat} (hi : Inv s)
include hi

lemma Inv.atBlock {p : CallerPc} (ht : s.caller t = p) (hp : p.block = some c) :
    (s.caller t).block = some c ∧ c < s.nextCtrl ∧ OnlyRef s.caller c t p ∧ AtBlock s c t p := by
  subst ht
  exact ⟨hp, (hi.block c).atBlock hp⟩

lemma inv_caller {k : Task}
    (hτ : (s.task τ).ctrl = some c) (hk : k.ctrl = some c) (hf : (s.task τ).finished = true → k.finished = true)
    (ht : (s.caller t).block = none ∨ (s.caller t).block = some c) (hq : q.block = none ∨ q.block = some c)
    (hg : ∀ σ, q ≠ .createGet σ) (hr : ∀ σ r, q = .joinRet σ r → σ = τ ∧ r = false ∧ k.finished = true)
    (hp : (s.phase c).task = some τ ∧ p.task = some τ)
    (hb : BlockOk ((((s.setCtrl c x).setPhase c p).setTask τ k).goto t q) c) :
    Inv ((((s.setCtrl c x).setPhase c p).setTask τ k).goto t q) := by
  have hn : s.phase c ≠ .pooled := fun h => by simp [h, task] at hp
  have hn' : p ≠ .pooled := fun h => by simp [h, task] at hp
  refine inv_touch hi (touch_caller hi hτ ?_ ?_ rfl rfl ?_ ?_ ?_ ht ?_ ?_ ?_ (.inr hp.1))
    hi.items_nodup ?_ hb ?_ ?_
  · intro d hd; simp [hd]
  · intro d hd; simp [hd]
  · intro σ hσ; simp [hσ]
  · simpa using hf
  · intro u hu; simp [hu]
  · simpa using hq
  · simpa using hg τ
  · unfold CallerOk
    simp only [St.goto_caller, if_true]
    split
    · exact absurd rfl (hg _)
    next σ r =>
      obtain ⟨rfl, h1, h2⟩ := hr σ r rfl
      simp [h1, h2]
    · trivial
  · intro d
    rcases eq_or_ne d c with rfl | hd
    · simpa [hn'] using mt (hi.items d).1 hn
    · simpa [hd] using hi.items d
  · refine .on c (by simpa using hk) ?_
    simpa using hp.2
  · intro h
    rw [hi.fresh τ h] at hτ
    cases hτ

/-- `thread_create_ex` sets the task and notifies the worker. -/
lemma inv_createSet (ht : s.caller t = .createSet c τ) :
    Inv ((((s.setCtrl c ((s.ctrl c).create τ (s.task τ).joinable)).setPhase c (.assigned τ)).setTask τ
      { s.task τ with submitted := true }).goto t .idle) := by
  obtain ⟨hbl, hc, ho, hat⟩ := hi.atBlock ht rfl
  cases hat with
  | createSet _ h1 h2 h3 h4 =>
    have hcv : ((s.ctrl c).create τ (s.task τ).joinable).cvar = [] := by
      rcases h2.2 with ⟨-, h⟩ | ⟨-, h⟩ <;> simp [create, h]
    refine inv_caller hi h4 h4 id (.inr hbl) (.inl rfl) nofun nofun ⟨by simp [h1, task], rfl⟩ ?_
    refine .assigned τ (by simp) hc ?_ ?_ ?_ ?_
    · simpa using ⟨h4, rfl, h3.puts⟩
    · simp [create]
    · have hw : Working { s.task τ with submitted := true } τ (s.ctrl c).worker := by
        rcases h2.2 with ⟨h, -⟩ | ⟨h, -⟩
        · rw [h]; exact .toWait h3.runs h3.finished
        · rw [h]; exact .waitWork h3.runs h3.finished
      simpa [create] using hw
    · refine .unjoined ?_ ?_ (by simpa using hcv) ⟨?_, .inl ⟨?_, ?_⟩⟩
      · simp [create]
      · simp [create]
      · simpa using h3.joined
      · simpa using h3.joiner
      · exact ho.goto_noRef nofun

/-- The joiner comes first, and waits. -/
lemma inv_joinFirst (ht : s.caller t = .joinStart c τ) (hj : (s.ctrl c).joining = false) :
    Inv ((s.setCtrl c { s.ctrl c with joining := true, cvar := (s.ctrl c).cvar ++ [.caller t] }).goto t
      (.joinWait c τ)) := by
  obtain ⟨hbl, hc, ho, hat⟩ := hi.atBlock ht rfl
  cases hat with
  | joinSecond _ h1 h2 h3 h4 h5 h6 h7 => simp [h7] at hj
  | joinFirst _ h1 h2 h3 h4 h5 h6 h7 h8 h9 =>
    set x : TPControl := { s.ctrl c with joining := true, cvar := (s.ctrl c).cvar ++ [.caller t] } with hx
    have hs : s.setCtrl c x = ((s.setCtrl c x).setPhase c (s.phase c)).setTask τ (s.task τ) := by
      simp [St.setPhase, St.setTask, St.setCtrl]
    rw [hs]
    have hpt := congrArg task h1
    refine inv_caller hi h2.ctrl h2.ctrl id (.inr hbl) (.inr rfl) nofun nofun ⟨hpt, hpt⟩ ?_
    refine .assigned τ (by simpa using h1) hc ?_ ?_ ?_ ?_
    · simpa using h2
    · simpa [hx] using h5
    · simpa [hx] using h9
    · refine .awaited t ?_ ?_ ?_ ?_ ?_ ho.goto
      · simpa [hx] using h6
      · simp [hx]
      · simp [hx, h8]
      · simpa using h3
      · simpa using h4

/-- The joiner finds the worker waiting, and lets it go on. -/
lemma inv_joinSecond (ht : s.caller t = .joinStart c τ) (hj : (s.ctrl c).joining = true) :
    Inv (((s.setCtrl c { s.ctrl c with cvar := (s.ctrl c).cvar.tail }).setTask τ
      { s.task τ with joined := true }).goto t (.joinRet τ false)) := by
  obtain ⟨hbl, hc, ho, hat⟩ := hi.atBlock ht rfl
  cases hat with
  | joinFirst _ h1 h2 h3 h4 h5 h6 h7 => simp [h7] at hj
  | joinSecond _ h1 h2 h3 h4 h5 h6 h7 h8 h9 =>
    have hs := St.setPhase_self (s.setCtrl c { s.ctrl c with cvar := (s.ctrl c).cvar.tail }) c
    rw [← hs]
    have hpt := congrArg task h1
    refine inv_caller hi h2.ctrl h2.ctrl id (.inr hbl) (.inl rfl) nofun ?_ ⟨hpt, hpt⟩ ?_
    · intro σ r hq
      cases hq
      exact ⟨rfl, rfl, h3.finished⟩
    refine .met τ (by simpa using h1) hc ?_ ?_ ?_ ?_ ?_ ?_ (ho.goto_noRef nofun)
    · simpa using ⟨h2.ctrl, h2.submitted, h2.puts⟩
    · simpa using ⟨h3.runs, h3.finished⟩
    · simp
    · simp [h4]
    · simp [h8]
    · simpa using h9

/-- The joiner is woken by the worker. -/
lemma inv_joinWoken (ht : s.caller t = .joinWait c τ) (hcv : .caller t ∉ (s.ctrl c).cvar) :
    Inv ((s.setTask τ { s.task τ with joined := true }).goto t (.joinPut c τ)) := by
  obtain ⟨hbl, hc, ho, hat⟩ := hi.atBlock ht rfl
  cases hat with
  | joinAsleep _ h => simp [h] at hcv
  | joinWoken _ h1 h2 h3 h4 h5 =>
    have hs : s = (s.setCtrl c (s.ctrl c)).setPhase c (s.phase c) := by simp [St.setPhase, St.setCtrl]
    have hpt := congrArg task h1
    have := inv_caller (k := { s.task τ with joined := true }) (q := .joinPut c τ) (x := s.ctrl c) (p := s.phase c)
      (t := t) hi h2.ctrl h2.ctrl id (.inr hbl) (.inr rfl) nofun nofun ⟨hpt, hpt⟩
    rw [← hs] at this
    refine this (.byJoiner t τ h1 hc ?_ ?_ ?_ h5 (.inr ⟨?_, ho.goto⟩))
    · simpa using ⟨h2.ctrl, h2.submitted, h2.puts⟩
    · simpa using ⟨h3.runs, h3.finished⟩
    · simpa using h4
    · simp

/-- The joiner puts the block back. -/
lemma inv_joinPut (ht : s.caller t = .joinPut c τ) (cap : Nat) :
    Inv ((s.put cap c τ (.dtorJoiner t τ)).2.goto t
      (if (s.put cap c τ (.dtorJoiner t τ)).1 then .joinRet τ false else .joinDtor c τ)) := by
  obtain ⟨hbl, hc, ho, hat⟩ := hi.atBlock ht rfl
  cases hat with
  | joinPut _ h1 h2 h3 h4 h5 h6 =>
    have hpt := congrArg task h1
    have hj : (s.task τ).joinable = true → (s.task τ).joined = true ∧ (s.task τ).joiner ≠ none :=
      fun _ => ⟨h5, by simp [h4]⟩
    have hpu := s.put_cases cap c τ (.dtorJoiner t τ)
    have ho' : OnlyRef (s.put cap c τ (.dtorJoiner t τ)).2.caller c t (.joinPut c τ) := by
      simpa using ho
    refine inv_put hi hpt h2 h3 hj (touch_caller hi h2.ctrl ?_ ?_ ?_ ?_ ?_ ?_ ?_ (.inr hbl) ?_ ?_ ?_
      (.inr hpt)) (by simp) ?_ ?_
    · intro d _; simp
    · intro d hd; exact St.put_phase_ne hd
    · simp
    · simp
    · intro σ hσ; simp [hσ]
    · simp
    · intro u hu; simp [hu]
    · rcases hpu with ⟨h, -⟩ | ⟨h, -⟩ <;> simp [h, block]
    · rcases hpu with ⟨h, -⟩ | ⟨h, -⟩ <;> simp [h]
    · rcases hpu with ⟨h, -⟩ | ⟨h, -⟩ <;> simp [h, CallerOk, h3.finished]
    · rcases hpu with ⟨-, h⟩ | ⟨-, h, hp⟩
      · exact .inl h
      · exact .inr ⟨h, by simp [hp]⟩
    · rcases hpu with ⟨h, -, hp⟩ | ⟨h, -, hp⟩
      · rw [h]
        exact .pooled hp (by simpa using hc) (by simpa using h6) (ho'.goto_noRef nofun)
      rw [h]
      refine .dtorJoiner t τ hp (by simpa using hc) (by simpa using h6) ho'.goto ?_ ?_
      · simpa using h3.finished
      · simpa using h2.ctrl

/-- The pool was full, and the joiner destroys the block. -/
lemma inv_joinDtor (ht : s.caller t = .joinDtor c τ) (hx : (s.ctrl c).dtor = some x) :
    Inv (((s.setCtrl c x).setPhase c .dead).goto t (.joinRet τ false)) := by
  obtain ⟨hbl, hc, ho, hat⟩ := hi.atBlock ht rfl
  cases hat with
  | joinDtor _ h1 h2 h3 h4 =>
    simp only [dtor, h2.1] at hx
    cases hx
    have hpt : (s.phase c).task = none := by rw [h1]; rfl
    refine inv_touch hi (touch_caller hi h4 ?_ ?_ rfl rfl (fun _ _ => rfl) id ?_ (.inr hbl) ?_ ?_ ?_
      (.inl hpt)) hi.items_nodup ?_ ?_ ?_ ?_
    · intro d hd; simp [hd]
    · intro d hd; simp [hd]
    · intro u hu; simp [hu]
    · simp [block]
    · simp
    · simp [CallerOk, h3]
    · intro d
      rcases eq_or_ne d c with rfl | hd
      · simpa [h1] using hi.items d
      · simpa [hd] using hi.items d
    · refine .dead (by simp) hc ?_ ?_ ?_ (ho.goto_noRef (by simp [block]))
      · simp
      · simp
      · rcases h2.2 with ⟨h, -⟩ | ⟨h, -⟩ <;> simp [h]
    · refine (hi.task τ).frame rfl fun d hd hp => ?_
      obtain rfl : c = d := some.inj (h4.symm.trans hd)
      rw [hpt] at hp
      cases hp
    · intro h
      rw [hi.fresh τ h] at h4
      cases h4

lemma inv_joinRet (ht : (s.caller t).block = none) : Inv (s.goto t .idle) where
  __ := hi
  block d := by
    refine (hi.block d).frame (fun u hu => ?_) rfl rfl Iff.rfl fun _ _ => rfl
    rcases eq_or_ne u t with rfl | h
    · rcases hu with hu | hu
      · rw [ht] at hu
        cases hu
      · simp [block] at hu
    · simp [h]
  task τ := (hi.task τ).frame rfl fun _ _ h => h
  caller u := by
    by_cases h : u = t
    · simp [CallerOk, h]
    · have := hi.caller u
      simpa [CallerOk, h] using this

/-- A call of `join`, on a task that nobody else joins. -/
lemma inv_join (hτ : (s.task τ).ctrl = some c) (ht : s.caller t = .idle)
    (hsu : (s.task τ).submitted = true) (hjo : (s.task τ).joinable = true) (hno : (s.task τ).joiner = none) :
    Inv ((s.setTask τ { s.task τ with joiner := some t }).goto t (.joinStart c τ)) := by
  have hpt : (s.phase c).task = some τ := by
    cases hi.task τ with
    | waiting h1 => simp [h1] at hτ
    | on d h1 h2 =>
      obtain rfl : c = d := some.inj (hτ.symm.trans h1)
      exact h2
    | done d h1 h2 h3 h4 h5 => exact absurd hno (h5 hjo).2
  have hs : s = (s.setCtrl c (s.ctrl c)).setPhase c (s.phase c) := by simp [St.setPhase, St.setCtrl]
  have hinv := inv_caller (k := { s.task τ with joiner := some t }) (q := .joinStart c τ) (x := s.ctrl c)
    (p := s.phase c) (t := t) hi hτ hτ id (.inl (ht ▸ rfl)) (.inr rfl) nofun nofun ⟨hpt, hpt⟩
  rw [← hs] at hinv
  apply hinv
  cases hi.block c with
  | assigned σ h1 h2 h3 h4 h5 h6 =>
    obtain rfl := task_unique hpt h1 rfl
    refine .assigned τ h1 h2 ?_ h4 ?_ ?_
    · simpa using ⟨h3.ctrl, h3.submitted, h3.puts⟩
    · simpa using h5.joiner t
    · cases h6 with
      | awaited u h6 h7 h8 h9 => simp [hno] at h9
      | unjoined h6 h7 h8 h9 =>
        obtain ⟨hj, ⟨-, hn⟩ | ⟨u, hu, -⟩⟩ := h9
        · refine .unjoined ?_ h7 h8 ⟨?_, .inr ⟨t, ?_, ?_, hn.goto⟩⟩
          · simpa using h6
          · simpa using hj
          · simp
          · simpa using hjo
        · simp [hno] at hu
  | awaits σ h1 h2 h3 h4 h5 h6 h7 h8 h9 h10 h11 =>
    obtain rfl := task_unique hpt h1 rfl
    obtain ⟨hj, ⟨-, hn⟩ | ⟨u, hu, -⟩⟩ := h11
    · refine .awaits τ h1 h2 ?_ ?_ ?_ h6 h7 h8 h9 h10 ⟨?_, .inr ⟨t, ?_, ?_, hn.goto⟩⟩
      · simpa using ⟨h3.ctrl, h3.submitted, h3.puts⟩
      · simpa using ⟨h4.runs, h4.finished⟩
      · simpa using hjo
      · simpa using hj
      · simp
      · simpa using hjo
    · simp [hno] at hu
  | taken u σ h1 h2 h3 h4 h5 =>
    obtain rfl := task_unique hpt h1 rfl
    simp [h5.submitted] at hsu
  | met σ h1 h2 h3 h4 h5 h6 =>
    obtain rfl := task_unique hpt h1 rfl
    exact absurd hno h6
  | byWorker σ h1 h2 h3 h4 h5 =>
    obtain rfl := task_unique hpt h1 rfl
    exact absurd hno (h5 hjo).2
  | byJoiner u σ h1 h2 h3 h4 h5 =>
    obtain rfl := task_unique hpt h1 rfl
    simp [hno] at h5
  | unused h1 | pooled h1 | dtorWorker h1 | dtorJoiner _ _ h1 | dead h1 => simp [h1, task] at hpt

/-- A block is taken from the pool, or made. -/
lemma inv_take {l : List Cid} {n : Cid} (ht : s.caller t = .createGet τ)
    (hnd : l.Nodup) (hl : ∀ d, d ∈ l ↔ s.phase d = .pooled ∧ d ≠ c) (hn : ∀ d, d ≠ c → (d < n ↔ d < s.nextCtrl))
    (hc : c < n) (hx : x.Free) (hp : (s.phase c).task = none) (hno : NoRef s.caller c) :
    Inv (((({ s.setCtrl c x with items := l, nextCtrl := n } : St).setPhase c (.taken t τ)).setTask τ
      { s.task τ with ctrl := some c }).goto t (.createSet c τ)) := by
  have hca := hi.caller t
  simp only [CallerOk, ht] at hca
  obtain ⟨hk, hcr, hlt⟩ := hca
  have hne : (s.task τ).New := by
    cases hi.task τ with
    | waiting h1 h2 => exact h2
    | on d h1 | done d h1 => simp [hk] at h1
  refine inv_touch (τ := τ) hi ⟨?_, ?_, hn, rfl, ?_, ?_, ?_, ?_, ?_, ?_⟩ hnd ?_ ?_ ?_ ?_
  · intro d hd; simp [hd]
  · intro d hd; simp [hd]
  · intro σ hσ; simp [hσ]
  · intro d hd; simp [hk] at hd
  · simp
  · intro u
    rcases eq_or_ne u t with rfl | hu
    · exact .inr ⟨.inl (ht ▸ rfl), .inr (by simp [block]), by simp [CallerOk]⟩
    · exact .inl (by simp [hu])
  · intro σ _ h
    rw [hp] at h
    cases h
  · intro u hu
    by_cases hut : u = t
    · simp [hut] at hu
    simp only [St.goto_caller, if_neg hut] at hu
    have := hi.caller u
    simp only [CallerOk, show s.caller u = _ from hu, hcr] at this
    exact absurd (some.inj this.2.1).symm hut
  · intro d
    by_cases hd : d = c <;> simp [hd, hl]
  · refine .taken t τ (by simp) hc (by simpa using hx) hno.goto ?_ (by simp)
    simpa using ⟨hne.submitted, hne.runs, hne.finished, hne.joiner, hne.joined, hne.puts⟩
  · exact .on c (by simp) (by simp [task])
  · intro h
    exact absurd hlt (not_lt.2 h)

lemma inv_createGet (ht : s.caller t = .createGet τ) :
    Inv (((s.get.2.setPhase s.get.1 (.taken t τ)).setTask τ { s.task τ with ctrl := some s.get.1 }).goto t
      (.createSet s.get.1 τ)) := by
  unfold St.get
  split
  next c items hite =>
    have hp : s.phase c = .pooled := (hi.items c).1 (by simp [hite])
    have hn := hi.items_nodup
    rw [hite, nodup_cons] at hn
    have hl : ∀ d, d ∈ items ↔ s.phase d = .pooled ∧ d ≠ c := by
      intro d
      rw [← hi.items d, hite, mem_cons]
      constructor
      · intro h
        exact ⟨.inr h, fun hd => hn.1 (hd ▸ h)⟩
      · rintro ⟨rfl | h, hd⟩
        · exact absurd rfl hd
        · exact h
    cases hi.block c with
    | pooled h1 h2 h3 h4 =>
      have := inv_take hi ht hn.2 hl (fun _ _ => Iff.rfl) h2 h3 (hp ▸ rfl) h4
      simpa [St.setCtrl, St.setPhase, St.setTask, St.goto] using this
    | _ => simp_all
  next hite =>
    cases hi.block s.nextCtrl with
    | unused h1 h2 h3 =>
      refine inv_take hi ht ?_ ?_ ?_ (Nat.lt_succ_self _) ?_ (h1 ▸ rfl) h3
      · simp [hite]
      · intro d
        simp [← hi.items d, hite]
      · intro d hd
        exact ⟨fun h => lt_of_le_of_ne (Nat.le_of_lt_succ h) hd, Nat.lt_succ_of_lt⟩
      · simp [Free]
    | _ => simp_all

/-- A call of `thread_create_ex`: a new task. -/
lemma inv_create (ht : s.caller t = .idle) (joinable : Bool) :
    Inv { (s.setTask s.nextTask { creator := some t, joinable := joinable }).goto t (.createGet s.nextTask) with
      nextTask := s.nextTask + 1 } := by
  have hk : (s.task s.nextTask).ctrl = none := hi.fresh _ le_rfl
  have hn : (s.task s.nextTask).finished = false := by
    cases hi.task s.nextTask with
    | waiting h1 h2 => exact h2.finished
    | on d h1 | done d h1 => simp [hk] at h1
  refine ⟨hi.items_nodup, hi.items, fun d => ?_, fun σ => ?_, fun u => ?_, fun σ hσ => ?_⟩
  · refine (hi.block d).frame (fun u hu => ?_) rfl rfl Iff.rfl fun σ hσ => ?_
    · rcases eq_or_ne u t with rfl | h
      · rcases hu with hu | hu <;> simp [ht, block] at hu
      · simp [h]
    · have : σ ≠ s.nextTask := fun h => by simp [h, hk] at hσ
      simp [this]
  · rcases eq_or_ne σ s.nextTask with rfl | h
    · refine .waiting (by simp) ?_
      constructor <;> simp
    · exact (hi.task σ).frame (by simp [h]) fun _ _ h => h
  · rcases eq_or_ne u t with rfl | h
    · simp [CallerOk]
    have hu := hi.caller u
    simp only [CallerOk, St.goto_caller, if_neg h, St.setTask_caller] at hu ⊢
    split at hu
    next σ _ =>
      have : σ ≠ s.nextTask := ne_of_lt hu.2.2
      simp only [St.goto_task, St.setTask_task, if_neg this]
      exact ⟨hu.1, hu.2.1, Nat.lt_succ_of_lt hu.2.2⟩
    next σ r _ =>
      have : σ ≠ s.nextTask := fun h => by simp [h, hn] at hu
      simpa [this] using hu
    · trivial
  · have h : σ ≠ s.nextTask := ne_of_gt hσ
    simpa [h] using hi.fresh σ (Nat.le_of_succ_le hσ)

lemma inv_advance (h : s.advance cap t = some s') : Inv s' := by
  unfold St.advance at h
  split at h
  next τ ht =>
    cases h
    exact inv_createGet hi ht
  next c τ ht =>
    cases h
    exact inv_createSet hi ht
  next c τ ht =>
    -- the calls of `do_thread_join` that it refuses do not occur
    have ho : (s.ctrl c).joinable = true ∧ (s.ctrl c).start = .entry τ := by
      obtain ⟨-, -, -, hat⟩ := hi.atBlock ht rfl
      cases hat with
      | joinFirst _ h1 h2 h3 h4 h5 h6 | joinSecond _ h1 h2 h3 h4 h5 h6 => exact ⟨h6, h5⟩
    have hg : ¬(¬(s.ctrl c).joinable = true ∨ (s.ctrl c).start = .null ∨ (s.ctrl c).start = .stub) := by
      simp [ho.1, ho.2]
    simp only [if_neg hg] at h
    split at h
    · cases h
      exact inv_joinSecond hi ht ‹_›
    · rename_i hj
      cases h
      exact inv_joinFirst hi ht (by simpa using hj)
  next c τ ht =>
    split at h <;> cases h
    exact inv_joinWoken hi ht ‹_›
  next c τ ht =>
    cases h
    exact inv_joinPut hi ht cap
  next c τ ht =>
    obtain ⟨x, hx, rfl⟩ := map_eq_some_iff.1 h
    exact inv_joinDtor hi ht hx
  next τ r ht =>
    cases h
    exact inv_joinRet hi (ht ▸ rfl)
  · cases h

lemma inv_work (hc : c < s.nextCtrl) (h : s.work cap c = some s') : Inv s' := by
  unfold St.work at h
  simp only at h
  split at h
  next hw =>
    cases h
    exact inv_setCtrl hi (block_waitForWork (hi.block c) hc (.inl hw))
  next hw =>
    split at h <;> cases h
    exact inv_setCtrl hi (block_waitForWork (hi.block c) hc (.inr ⟨hw, ‹_›⟩))
  next hw =>
    split at h <;> cases h
    rename_i τ hs
    exact inv_call hi hc hw hs
  next τ hw =>
    cases h
    exact inv_running hi hc hw
  next τ hw =>
    split at h
    · rename_i hj
      -- a worker that finds `joining` set finds the joiner waiting
      obtain ⟨-, -, -, -, hsi⟩ := (hi.block c).of_afterWork hc hw
      cases hsi with
      | unjoined h1 h2 => simp [h2] at hj
      | awaited t h1 h2 h3 h4 =>
        rw [h4] at h
        cases h
        exact inv_notifyJoiner hi hc hw hj h4
    · rename_i hj
      split at h
      · cases h
        exact inv_waitJoiner hi hc hw (by simpa using hj) ‹_›
      · rename_i hjo
        cases h
        exact inv_notJoinable hi hc hw (by simpa using hj) (by simpa using hjo)
  next τ hw =>
    split at h <;> cases h
    exact inv_joinerCame hi hc hw ‹_›
  next τ hw =>
    cases h
    exact inv_putting hi hc hw cap
  next hw =>
    obtain ⟨y, hy, rfl⟩ := map_eq_some_iff.1 h
    exact inv_workerDtor hi hc hw hy
  · cases h

/-- Every step keeps the invariant. -/
lemma inv_step {e : Ev} (h : step cap s e = some s') : Inv s' := by
  cases e with simp only [step] at h
  | create t joinable =>
    split at h <;> cases h
    exact inv_create hi ‹_› joinable
  | join =>
    split at h
    next c hτ =>
      split at h <;> cases h
      rename_i hg
      exact inv_join hi hτ hg.1 hg.2.1 hg.2.2.1 hg.2.2.2
    · cases h
  | step => exact inv_advance hi h
  | work =>
    split at h
    · exact inv_work hi ‹_› h
    · cases h

end

lemma inv_run {cap : Nat} {es : List Ev} (h : (machine cap).run es = some s) : Inv s :=
  Machine.run_inv inv_init (inv_step ·) h

end Steps

end Photon.Pool
