import Photon.Lib.Machine
import Photon.Thread.Waitq
import Mathlib.Algebra.BigOperators.Group.List.Basic
/-!
# semaphore

`wait_interruptible` and `signal` of any number of threads, in the in-order
mode. Both work under `splock`; a sleeper leaves its release to the function
that runs after the switch. `semaphore::wait` calls `wait_interruptible` again
until it succeeds or times out, so its runs are among these.

What a state owes to the head of the queue is `Served`: a waiter that left by
timeout or interrupt will look at the queue again, or what the resumed waiters
are about to take leaves too little for the head.
-/

namespace Photon.Semaphore

open List Function Guard Waitq

inductive Pc where
  | idle
  /-- Before `splock` is taken. -/
  | waitLock (n : Nat)
  /-- Before `try_subtract`; whether the thread was resumed for it. -/
  | waitTest (n : Nat) (resumed : Bool)
  /-- Before `wait_defer`. -/
  | waitSleep (n : Nat)
  /-- In `wait_defer`. -/
  | asleep (n : Nat)
  /-- Before `splock` is taken again; `wait_defer` returned `r`. -/
  | relock (n : Nat) (r : Ret)
  /-- The wait failed, before `m_count.load()`. -/
  | waitCount (e : Int)
  /-- Before the count of the thread is reset and `splock` released. -/
  | waitExit (r : Ret)
  /-- Before `splock` is taken. -/
  | signalLock (n : Nat)
  /-- Before `m_count.fetch_add`. -/
  | signalAdd (n : Nat)
  /-- Before `splock` is released. -/
  | signalExit
  /-- `try_resume`: before the head of the queue is locked, with `cnt` left; called by a
  failed wait with error `e`, or by `signal`. -/
  | tryResume (cnt : Nat) (e : Option Int)
  deriving DecidableEq

open Pc

/-- The semaphore and the threads, and the waiters that were taken out of the
queue and have still to run: `resumed` by `try_resume`, `quitting` by a timeout
or an interrupt. -/
structure St where
  count : Nat := 0
  splock : Guard := .free
  wq : Waitq := {}
  semaphoreCount : Tid → Nat := fun _ => 0
  pc : Tid → Pc := fun _ => .idle
  resumed : List Tid := []
  quitting : List Tid := []

open St

variable {n : Nat} {s : St} {t : Tid} {e : Int} {wq : Waitq} {p : Pc}

inductive Ev where
  | env (e : Waitq.Env)
  /-- What a thread did elsewhere left an error number in it, and a value in the union. -/
  | elsewhere (t : Tid) (errorNumber : Int) (semaphoreCount : Nat)
  | wait (t : Tid) (n : Nat)
  | signal (t : Tid) (n : Nat)
  /-- The next step of the call thread `t` is in. -/
  | step (t : Tid) (same : Bool)
  | deferred
  deriving DecidableEq

@[simps -fullyApplied count splock wq semaphoreCount resumed quitting]
def St.goto (s : St) (t : Tid) (p : Pc) : St := { s with pc := update s.pc t p }

@[simp] lemma St.goto_pc (s : St) (t u : Tid) (p : Pc) :
    (s.goto t p).pc u = if u = t then p else s.pc u := update_apply ..

def afterResume : Option Int → Pc
  | some e => .waitExit (some e)
  | none => .signalExit

def St.advance (s : St) (t : Tid) (same : Bool) : Option St :=
  match s.pc t with
  | .waitLock n =>
    if s.splock = .free then
      some { s.goto t (.waitTest n false) with
        splock := .held t, semaphoreCount := update s.semaphoreCount t n }
    else none
  | .waitTest n _ =>
    let s' := { s with resumed := s.resumed.erase t }
    if s.count < n then some (s'.goto t (.waitSleep n))
    else some { s'.goto t (.waitExit none) with count := s.count - n }
  | .waitSleep n => some { s.goto t (.asleep n) with wq := s.wq.prepareUsleep t, splock := .deferred }
  | .asleep n =>
    let (ret, th) := (s.wq.th t).setErrorNumber
    some { s.goto t (.relock n (waitqTranslateErrno ret)) with wq := s.wq.setTh t th }
  | .relock n r =>
    if s.splock = .free then
      let p := match r with
        | none => waitTest n true
        | some e => waitCount e
      some { s.goto t p with splock := .held t }
    else none
  | .waitCount e =>
    let s' := { s with quitting := s.quitting.erase t }
    if s.count = 0 then some (s'.goto t (.waitExit (some e))) else some (s'.goto t (.tryResume s.count (some e)))
  | .waitExit _ =>
    some { s.goto t .idle with splock := .free, semaphoreCount := update s.semaphoreCount t 0 }
  | .signalLock n => if s.splock = .free then some { s.goto t (.signalAdd n) with splock := .held t } else none
  | .signalAdd n =>
    let cnt := (s.count + n) % 2 ^ 64
    some { s.goto t (.tryResume cnt none) with count := cnt }
  | .signalExit => some { s.goto t .idle with splock := .free }
  | .tryResume cnt e =>
    match s.wq.q with
    | [] => some (s.goto t (afterResume e))
    | h :: _ =>
      if s.semaphoreCount h > cnt then some (s.goto t (afterResume e))
      else some { s.goto t (.tryResume (cnt - s.semaphoreCount h) e) with
        wq := s.wq.prelockedThreadInterrupt h (-1) same, resumed := h :: s.resumed }
  | .idle => none

def step (s : St) : Ev → Option St
  | .env e => (s.wq.env e).map fun wq =>
      { s with wq := wq, quitting := s.wq.q.filter (fun t => t ∉ wq.q) ++ s.quitting }
  | .elsewhere t e c =>
    if s.pc t = .idle ∧ e ≠ -1 then
      some { s with
        wq := s.wq.setTh t { s.wq.th t with errorNumber := e }
        semaphoreCount := update s.semaphoreCount t c }
    else none
  | .wait t n => if s.pc t = .idle then some (if n = 0 then s else s.goto t (.waitLock n)) else none
  | .signal t n => if s.pc t = .idle then some (if n = 0 then s else s.goto t (.signalLock n)) else none
  | .step t same => if (s.wq.th t).state = .running then s.advance t same else none
  | .deferred => if s.splock = .deferred then some { s with splock := .free } else none

def machine (count : Nat) : Machine St Ev := ⟨{ count := count }, step⟩

/-! ## The invariant -/

def Pc.locked : Pc → Bool
  | .waitTest _ _ | .waitSleep _ | .waitCount _ | .waitExit _ | .signalAdd _ | .signalExit | .tryResume _ _ => true
  | _ => false

/-- What the thread asks for, from when it is written down to when it is reset. -/
def Pc.request : Pc → Option Nat
  | .waitTest n _ | .waitSleep n | .asleep n | .relock n _ => some n
  | _ => none

def Pc.isAsleep : Pc → Bool
  | .asleep _ => true
  | _ => false

def Pc.signalled : Pc → Bool
  | .relock _ none | .waitTest _ true => true
  | _ => false

/-- The thread's wait failed, and it has not looked at the queue since. -/
def Pc.failed : Pc → Bool
  | .relock _ (some _) | .waitCount _ => true
  | _ => false

def claimed (need : Tid → Nat) (l : List Tid) : Nat := (l.map need).sum

structure Inv (s : St) : Prop where
  wq : s.wq.Ok
  queued : ∀ t, (s.wq.th t).waitq = true → (s.pc t).isAsleep = true
  err : ∀ t, (s.wq.th t).errorNumber = -1 → (s.pc t).isAsleep = true ∧ (s.wq.th t).waitq = false
  locked : ∀ t, (s.pc t).locked = true → s.splock = .held t
  request : ∀ t n, (s.pc t).request = some n → s.semaphoreCount t = n ∧ 0 < n
  waitLock : ∀ t n, s.pc t = .waitLock n → 0 < n
  resumed : ∀ t ∈ s.resumed, (s.pc t).signalled = true ∨
    ((s.pc t).isAsleep = true ∧ (s.wq.th t).waitq = false ∧ (s.wq.th t).errorNumber = -1)
  quitting : ∀ t ∈ s.quitting, (s.pc t).failed = true ∨
    ((s.pc t).isAsleep = true ∧ (s.wq.th t).waitq = false ∧ (s.wq.th t).errorNumber ≠ -1)
  resumed_nodup : s.resumed.Nodup
  quitting_nodup : s.quitting.Nodup
  short : ∀ t n, s.pc t = .waitSleep n → s.count < n
  left : ∀ t cnt e, s.pc t = .tryResume cnt e → s.count ≤ cnt + claimed s.semaphoreCount s.resumed

lemma inv_init (count : Nat) : Inv { count := count } := by
  constructor <;> simp [ok_init, locked, request]

lemma claimed_update {need : Tid → Nat} {l : List Tid} (ht : t ∉ l) (n : Nat) :
    claimed (update need t n) l = claimed need l := by
  unfold claimed
  congr 1
  refine map_congr_left fun u hu => update_of_ne ?_ _ _
  rintro rfl
  exact ht hu

/-! ## One thread at a time -/

/-- The thread is not in the queue, and was not resumed in its sleep. -/
def St.Quiet (s : St) (t : Tid) : Prop := (s.wq.th t).waitq = false ∧ (s.wq.th t).errorNumber ≠ -1

def St.Out (s : St) (t : Tid) : Prop := t ∉ s.resumed ∧ t ∉ s.quitting

def St.Asks (s : St) (t : Tid) (n : Nat) : Prop := s.semaphoreCount t = n ∧ 0 < n

def Fits (s : St) (t : Tid) : Pc → Prop
  | .idle | .signalLock _ | .waitExit _ | .signalAdd _ | .signalExit => s.Quiet t ∧ s.Out t
  | .waitLock n => s.Quiet t ∧ s.Out t ∧ 0 < n
  | .waitTest n b => s.Quiet t ∧ s.Asks t n ∧ t ∉ s.quitting ∧ (b = false → t ∉ s.resumed)
  | .waitSleep n => s.Quiet t ∧ s.Asks t n ∧ s.Out t ∧ s.count < n
  | .asleep n => s.Asks t n ∧ ((s.wq.th t).errorNumber = -1 → (s.wq.th t).waitq = false) ∧
    (t ∈ s.resumed → (s.wq.th t).waitq = false ∧ (s.wq.th t).errorNumber = -1) ∧
    (t ∈ s.quitting → (s.wq.th t).waitq = false ∧ (s.wq.th t).errorNumber ≠ -1)
  | .relock n none => s.Quiet t ∧ s.Asks t n ∧ t ∉ s.quitting
  | .relock n (some _) => s.Quiet t ∧ s.Asks t n ∧ t ∉ s.resumed
  | .waitCount _ => s.Quiet t ∧ t ∉ s.resumed
  | .tryResume cnt _ => s.Quiet t ∧ s.Out t ∧ s.count ≤ cnt + claimed s.semaphoreCount s.resumed

section Steps

variable {s s' : St} {t u : Tid} {p : Pc}

lemma Inv.quiet (hi : Inv s) (ha : (s.pc t).isAsleep = false) : s.Quiet t := by
  refine ⟨?_, fun he => ?_⟩
  · by_contra hw
    rw [hi.queued t (by simpa using hw)] at ha
    cases ha
  · rw [(hi.err t he).1] at ha
    cases ha

lemma Inv.fits (hi : Inv s) (hp : s.pc t = p) : Fits s t p := by
  have hq : p.isAsleep = false → s.Quiet t := fun ha => hi.quiet (hp ▸ ha)
  have hr : p.signalled = false → p.isAsleep = false → t ∉ s.resumed := by
    intro hs ha ht
    rcases hi.resumed t ht with h | ⟨h, -⟩
    · rw [hp, hs] at h
      cases h
    · rw [hp, ha] at h
      cases h
  have hf : p.failed = false → p.isAsleep = false → t ∉ s.quitting := by
    intro hs ha ht
    rcases hi.quitting t ht with h | ⟨h, -⟩
    · rw [hp, hs] at h
      cases h
    · rw [hp, ha] at h
      cases h
  have hre : ∀ n, p.request = some n → s.Asks t n := fun n hn => hi.request t n (hp ▸ hn)
  cases p with
  | waitLock n => exact ⟨hq rfl, ⟨hr rfl rfl, hf rfl rfl⟩, hi.waitLock t n hp⟩
  | waitTest n =>
    refine ⟨hq rfl, hre n rfl, hf rfl rfl, ?_⟩
    rintro rfl
    exact hr rfl rfl
  | waitSleep n => exact ⟨hq rfl, hre n rfl, ⟨hr rfl rfl, hf rfl rfl⟩, hi.short t n hp⟩
  | asleep n =>
    refine ⟨hre n rfl, fun he => (hi.err t he).2, fun ht => ?_, fun ht => ?_⟩
    · rcases hi.resumed t ht with h | ⟨-, h⟩
      · rw [hp] at h
        cases h
      · exact h
    · rcases hi.quitting t ht with h | ⟨-, h⟩
      · rw [hp] at h
        cases h
      · exact h
  | relock n r =>
    cases r with
    | none => exact ⟨hq rfl, hre n rfl, hf rfl rfl⟩
    | some => exact ⟨hq rfl, hre n rfl, hr rfl rfl⟩
  | waitCount => exact ⟨hq rfl, hr rfl rfl⟩
  | tryResume cnt e => exact ⟨hq rfl, ⟨hr rfl rfl, hf rfl rfl⟩, hi.left t cnt e hp⟩
  | _ => exact ⟨hq rfl, hr rfl rfl, hf rfl rfl⟩

lemma Fits.quiet (hf : Fits s t p) (ha : p.isAsleep = false) : s.Quiet t := by
  cases p with
  | asleep => cases ha
  | relock n r => cases r <;> exact hf.1
  | _ => exact hf.1

lemma Fits.asks (hf : Fits s t p) (hn : p.request = some n) : s.Asks t n := by
  cases p with
  | waitTest | waitSleep => cases hn; exact hf.2.1
  | asleep => cases hn; exact hf.1
  | relock m r => cases hn; cases r <;> exact hf.2.1
  | _ => cases hn

lemma Fits.resumed (hf : Fits s t p) (ht : t ∈ s.resumed) :
    p.signalled = true ∨ p.isAsleep = true ∧ (s.wq.th t).waitq = false ∧ (s.wq.th t).errorNumber = -1 := by
  cases p with
  | waitTest n b =>
    cases b with
    | false => exact absurd ht (hf.2.2.2 rfl)
    | true => exact .inl rfl
  | asleep => exact .inr ⟨rfl, hf.2.2.1 ht⟩
  | relock n r =>
    cases r with
    | none => exact .inl rfl
    | some => exact absurd ht hf.2.2
  | waitLock | tryResume => exact absurd ht hf.2.1.1
  | waitSleep => exact absurd ht hf.2.2.1.1
  | waitCount => exact absurd ht hf.2
  | _ => exact absurd ht hf.2.1

lemma Fits.quitting (hf : Fits s t p) (ht : t ∈ s.quitting) :
    p.failed = true ∨ p.isAsleep = true ∧ (s.wq.th t).waitq = false ∧ (s.wq.th t).errorNumber ≠ -1 := by
  cases p with
  | waitTest => exact absurd ht hf.2.2.1
  | asleep => exact .inr ⟨rfl, hf.2.2.2 ht⟩
  | relock n r =>
    cases r with
    | none => exact absurd ht hf.2.2
    | some => exact .inl rfl
  | waitLock | tryResume => exact absurd ht hf.2.1.2
  | waitSleep => exact absurd ht hf.2.2.1.2
  | waitCount => exact .inl rfl
  | _ => exact absurd ht hf.2.2

lemma Inv.of_fits (ho : s.wq.Ok) (hl : ∀ t, (s.pc t).locked = true → s.splock = .held t) (hr : s.resumed.Nodup)
    (hq : s.quitting.Nodup) (hf : ∀ t, Fits s t (s.pc t)) : Inv s where
  wq := ho
  queued := by
    intro t hw
    by_contra ha
    rw [((hf t).quiet (by simpa using ha)).1] at hw
    cases hw
  err := by
    intro t he
    have hft := hf t
    cases hp : s.pc t with
    | asleep =>
      rw [hp] at hft
      exact ⟨rfl, hft.2.1 he⟩
    | _ => exact absurd he (hft.quiet (hp ▸ rfl)).2
  locked := hl
  request := fun t n => (hf t).asks
  waitLock := by
    intro t n hp
    have hft := hf t
    rw [hp] at hft
    exact hft.2.2
  resumed := fun t => (hf t).resumed
  quitting := fun t => (hf t).quitting
  resumed_nodup := hr
  quitting_nodup := hq
  short := by
    intro t n hp
    have hft := hf t
    rw [hp] at hft
    exact hft.2.2.2
  left := by
    intro t cnt e hp
    have hft := hf t
    rw [hp] at hft
    exact hft.2.2

lemma Fits.frame (hf : Fits s u p) (hw : (s'.wq.th u).waitq = (s.wq.th u).waitq)
    (he : (s'.wq.th u).errorNumber = -1 ↔ (s.wq.th u).errorNumber = -1) (hn : s'.semaphoreCount u = s.semaphoreCount u)
    (hr : u ∈ s'.resumed → u ∈ s.resumed) (hq : u ∈ s'.quitting → u ∈ s.quitting)
    (hc : p.locked = true → s'.count = s.count ∧
      claimed s'.semaphoreCount s'.resumed = claimed s.semaphoreCount s.resumed) : Fits s' u p := by
  have hqt : s.Quiet u → s'.Quiet u := fun h => ⟨hw.trans h.1, fun h' => h.2 (he.1 h')⟩
  have ho : s.Out u → s'.Out u := fun h => ⟨mt hr h.1, mt hq h.2⟩
  have ha : ∀ n, s.Asks u n → s'.Asks u n := fun n h => ⟨hn.trans h.1, h.2⟩
  cases p with
  | waitLock => exact ⟨hqt hf.1, ho hf.2.1, hf.2.2⟩
  | waitTest n => exact ⟨hqt hf.1, ha n hf.2.1, mt hq hf.2.2.1, fun hb => mt hr (hf.2.2.2 hb)⟩
  | waitSleep n =>
    refine ⟨hqt hf.1, ha n hf.2.1, ho hf.2.2.1, ?_⟩
    rw [(hc rfl).1]
    exact hf.2.2.2
  | asleep n =>
    obtain ⟨f1, f2, f3, f4⟩ := hf
    refine ⟨ha n f1, fun h => hw.trans (f2 (he.1 h)), fun h => ?_, fun h => ?_⟩
    · exact ⟨hw.trans (f3 (hr h)).1, he.2 (f3 (hr h)).2⟩
    · exact ⟨hw.trans (f4 (hq h)).1, fun h' => (f4 (hq h)).2 (he.1 h')⟩
  | relock n r =>
    cases r with
    | none => exact ⟨hqt hf.1, ha n hf.2.1, mt hq hf.2.2⟩
    | some => exact ⟨hqt hf.1, ha n hf.2.1, mt hr hf.2.2⟩
  | waitCount => exact ⟨hqt hf.1, mt hr hf.2⟩
  | tryResume =>
    refine ⟨hqt hf.1, ho hf.2.1, ?_⟩
    rw [(hc rfl).1, (hc rfl).2]
    exact hf.2.2
  | _ => exact ⟨hqt hf.1, ho hf.2⟩

lemma Inv.step_self (hi : Inv s) (ho : s'.wq.Ok) (hpc : s'.pc = update s.pc t p)
    (hu : ∀ u, u ≠ t → s'.wq.th u = s.wq.th u ∧ s'.semaphoreCount u = s.semaphoreCount u ∧
      (u ∈ s'.quitting → u ∈ s.quitting)) (hr : s'.resumed <+ s.resumed) (hqn : s'.quitting.Nodup)
    (hc : ∀ u, u ≠ t → (s.pc u).locked = true → s'.splock = .held u ∧ s'.count = s.count ∧
      claimed s'.semaphoreCount s'.resumed = claimed s.semaphoreCount s.resumed)
    (hl : p.locked = true → s'.splock = .held t) (hf : Fits s' t p) : Inv s' := by
  have hpct : s'.pc t = p := hpc ▸ update_self ..
  have hpcu : ∀ u, u ≠ t → s'.pc u = s.pc u := fun u hu => hpc ▸ update_of_ne hu ..
  refine Inv.of_fits ho (fun u hk => ?_) (hi.resumed_nodup.sublist hr) hqn (fun u => ?_)
  · rcases eq_or_ne u t with rfl | hut
    · exact hl (hpct ▸ hk)
    · exact (hc u hut (hpcu u hut ▸ hk)).1
  rcases eq_or_ne u t with rfl | hut
  · rw [hpct]
    exact hf
  rw [hpcu u hut]
  obtain ⟨ht, hn, hq⟩ := hu u hut
  refine (hi.fits rfl).frame ?_ ?_ hn (hr.subset ·) hq (fun hlk => (hc u hut hlk).2)
  all_goals rw [ht]

lemma Inv.asleep_of_queued (hi : Inv s) (hw : (s.wq.th t).waitq = true) : ∃ n, s.pc t = .asleep n := by
  have ha := hi.queued t hw
  cases hp : s.pc t with
  | asleep n => exact ⟨n, rfl⟩
  | _ => rw [hp] at ha; cases ha

lemma Inv.out_of_queued (hi : Inv s) (hw : (s.wq.th t).waitq = true) : s.Out t := by
  obtain ⟨n, hp⟩ := hi.asleep_of_queued hw
  obtain ⟨-, -, f3, f4⟩ := hi.fits hp
  refine ⟨fun ht => ?_, fun ht => ?_⟩
  · cases hw.symm.trans (f3 ht).1
  · cases hw.symm.trans (f4 ht).1

end Steps

/-! ## What a step keeps -/

lemma inv_moved (hi : Inv s) (h : Waitq.Moved s.wq wq) :
    Inv { s with wq := wq, quitting := s.wq.q.filter (fun t => t ∉ wq.q) ++ s.quitting } := by
  have hok := hi.wq.moved h
  have hn : s.wq.q.filter (fun t => t ∉ s.wq.q) = [] := by simp
  cases h with
  | same =>
    rw [hn]
    exact hi
  | woken t st e hw hl hst he =>
    have ho := hi.out_of_queued hw
    have hf : ∀ u, u ∈ s.wq.q.filter (fun t' => t' ∉ s.wq.q.erase t) ↔ u = t := by
      intro u
      have hm : t ∈ s.wq.q := (hi.wq.mem_iff t).2 hw
      by_cases hu : u = t
      · simp [hu, hm, hi.wq.nodup.mem_erase_iff]
      · simp [hu, mem_erase_of_ne hu]
    refine hi.step_self hok (update_eq_self ..).symm (fun u hu => ⟨update_of_ne hu .., rfl, fun hm => ?_⟩)
      (.refl _) ?_ (fun u _ hlk => ⟨hi.locked u hlk, rfl, rfl⟩) (hi.locked t) ?_
    · rcases mem_append.1 hm with hm | hm
      · exact absurd ((hf u).1 hm) hu
      · exact hm
    · refine nodup_append.2 ⟨hi.wq.nodup.filter _, hi.quitting_nodup, ?_⟩
      rintro u hu v hv rfl
      rw [(hf u).1 hu] at hv
      exact ho.2 hv
    · obtain ⟨n, hp⟩ := hi.asleep_of_queued hw
      obtain ⟨f1, f2, -, -⟩ := hi.fits hp
      rw [hp]
      refine ⟨f1, fun _ => by simp, fun hr => absurd hr ho.1, fun _ => ⟨by simp, fun her => ?_⟩⟩
      -- an error number -1 was there before, and then the thread was not in the queue
      simp only [update_self] at her
      rcases he with rfl | he
      · cases hw.symm.trans (f2 her)
      · exact absurd her he
  | kept t st e hw hs hst he =>
    have her : e = -1 ↔ (s.wq.th t).errorNumber = -1 := by
      rcases he with rfl | ⟨h0, he⟩
      · exact Iff.rfl
      · exact ⟨fun h => absurd h he, fun h => absurd (h0.symm.trans h) (by decide)⟩
    rw [setTh_q, hn]
    refine hi.step_self hok (update_eq_self ..).symm (fun _ hu => ⟨update_of_ne hu .., rfl, id⟩) (.refl _)
      hi.quitting_nodup (fun u _ hlk => ⟨hi.locked u hlk, rfl, rfl⟩) (hi.locked t) ?_
    exact (hi.fits rfl).frame (by simp) (by simpa using her) rfl id id (fun _ => ⟨rfl, rfl⟩)

lemma inv_goto (hi : Inv s) {g : Guard} (hf : Fits s t p) (hp : p.locked = true → g = .held t)
    (hg : ∀ u, u ≠ t → (s.pc u).locked = true → g = .held u) : Inv { s.goto t p with splock := g } := by
  refine hi.step_self hi.wq rfl (fun _ _ => ⟨rfl, rfl, id⟩) (.refl _) hi.quitting_nodup
    (fun u hu hlk => ⟨hg u hu hlk, rfl, rfl⟩) hp ?_
  exact hf.frame rfl Iff.rfl rfl id id (fun _ => ⟨rfl, rfl⟩)

lemma inv_waitLock (hi : Inv s) (hp : s.pc t = .waitLock n) (hf : s.splock = .free) :
    Inv { s.goto t (.waitTest n false) with splock := .held t, semaphoreCount := update s.semaphoreCount t n } := by
  obtain ⟨hq, ho, hn⟩ := hi.fits hp
  exact hi.step_self hi.wq rfl (fun _ hu => ⟨rfl, update_of_ne hu .., id⟩) (.refl _) hi.quitting_nodup
    (nobody hi.locked hf) (fun _ => rfl) ⟨hq, ⟨update_self .., hn⟩, ho.2, fun _ => ho.1⟩

variable {b : Bool} {same : Bool}

section
variable {n cnt : Nat} {t : Tid} {s s' : St} (hi : Inv s)
include hi

lemma inv_testFail (hp : s.pc t = .waitTest n b)
    (hc : s.count < n) : Inv ({ s with resumed := s.resumed.erase t }.goto t (.waitSleep n)) := by
  obtain ⟨hq, ha, hn, -⟩ := hi.fits hp
  exact hi.step_self hi.wq rfl (fun _ _ => ⟨rfl, rfl, id⟩) erase_sublist hi.quitting_nodup
    (alone hi.locked hp rfl) (fun _ => mine hi.locked hp rfl) ⟨hq, ha, ⟨hi.resumed_nodup.not_mem_erase, hn⟩, hc⟩

lemma inv_testOk (hp : s.pc t = .waitTest n b) :
    Inv { { s with resumed := s.resumed.erase t }.goto t (.waitExit none) with count := s.count - n } := by
  obtain ⟨hq, -, hn, -⟩ := hi.fits hp
  exact hi.step_self hi.wq rfl (fun _ _ => ⟨rfl, rfl, id⟩) erase_sublist hi.quitting_nodup
    (alone hi.locked hp rfl) (fun _ => mine hi.locked hp rfl) ⟨hq, hi.resumed_nodup.not_mem_erase, hn⟩

lemma inv_waitSleep (hp : s.pc t = .waitSleep n) (hn : (s.wq.th t).waitq = false) :
    Inv { s.goto t (.asleep n) with wq := s.wq.prepareUsleep t, splock := .deferred } := by
  obtain ⟨hq, ha, ho, -⟩ := hi.fits hp
  refine hi.step_self (hi.wq.prepareUsleep hn) rfl (fun _ hu => ⟨update_of_ne hu .., rfl, id⟩) (.refl _)
    hi.quitting_nodup (alone hi.locked hp rfl) nofun
    ⟨ha, fun he => absurd ?_ hq.2, fun h => absurd h ho.1, fun h => absurd h ho.2⟩
  simpa using he

lemma inv_wake (hp : s.pc t = .asleep n) (hru : (s.wq.th t).state = .running) (hn : (s.wq.th t).waitq = false) :
    Inv { s.goto t (.relock n (waitqTranslateErrno (s.wq.th t).setErrorNumber.1)) with
      wq := s.wq.setTh t (s.wq.th t).setErrorNumber.2 } := by
  have ho : (s.wq.setTh t (s.wq.th t).setErrorNumber.2).Ok := hi.wq.setTh t _ (by simp) (by simp [hn, hru])
  have hr := wait_success_iff (s.wq.th t)
  have hq : St.Quiet { s with wq := s.wq.setTh t (s.wq.th t).setErrorNumber.2 } t := by simp [St.Quiet, hn]
  obtain ⟨ha, -, f3, f4⟩ := hi.fits hp
  refine hi.step_self ho rfl (fun _ hu => ⟨update_of_ne hu .., rfl, id⟩) (.refl _) hi.quitting_nodup
    (fun u _ hlk => ⟨hi.locked u hlk, rfl, rfl⟩) nofun ?_
  cases hre : waitqTranslateErrno (s.wq.th t).setErrorNumber.1 with
  | none => exact ⟨hq, ha, fun h => (f4 h).2 (hr.1 hre)⟩
  | some =>
    refine ⟨hq, ha, fun h => ?_⟩
    cases hre.symm.trans (hr.2 (f3 h).2)

lemma inv_waitCount (hp : s.pc t = .waitCount e) (hpp : p = .waitExit (some e) ∨ p = .tryResume s.count (some e)) :
    Inv ({ s with quitting := s.quitting.erase t }.goto t p) := by
  obtain ⟨hq, hn⟩ := hi.fits hp
  have ho : St.Out { s with quitting := s.quitting.erase t } t := ⟨hn, hi.quitting_nodup.not_mem_erase⟩
  refine hi.step_self hi.wq rfl (fun _ _ => ⟨rfl, rfl, mem_of_mem_erase⟩) (.refl _)
    (hi.quitting_nodup.erase t) (alone hi.locked hp rfl) (fun _ => mine hi.locked hp rfl) ?_
  rcases hpp with rfl | rfl
  · exact ⟨hq, ho⟩
  · exact ⟨hq, ho, Nat.le_add_right ..⟩

lemma inv_waitExit {r : Ret} (hp : s.pc t = .waitExit r) :
    Inv { s.goto t .idle with splock := .free, semaphoreCount := update s.semaphoreCount t 0 } := by
  exact hi.step_self hi.wq rfl (fun _ hu => ⟨rfl, update_of_ne hu .., id⟩) (.refl _) hi.quitting_nodup
    (alone hi.locked hp rfl) nofun (hi.fits hp)

lemma inv_signalAdd (hp : s.pc t = .signalAdd n) : Inv { s.goto t (.tryResume cnt none) with count := cnt } := by
  obtain ⟨hq, ho⟩ := hi.fits hp
  exact hi.step_self hi.wq rfl (fun _ _ => ⟨rfl, rfl, id⟩) (.refl _) hi.quitting_nodup (alone hi.locked hp rfl)
    (fun _ => mine hi.locked hp rfl) ⟨hq, ho, Nat.le_add_right ..⟩

lemma inv_resume {h : Tid} {tl : List Tid} {e : Option Int}
    (hp : s.pc t = .tryResume cnt e) (hqs : s.wq.q = h :: tl) (same : Bool) :
    Inv { s.goto t (.tryResume (cnt - s.semaphoreCount h) e) with
      wq := s.wq.prelockedThreadInterrupt h (-1) same, resumed := h :: s.resumed } := by
  have hh : (s.wq.th h).waitq = true := (hi.wq.mem_iff h).1 (by simp [hqs])
  have hok := hi.wq.prelocked hh (-1) same
  have ho := hi.out_of_queued hh
  obtain ⟨hq, hou, hle⟩ := hi.fits hp
  have hn : t ≠ h := by
    rintro rfl
    cases hq.1.symm.trans hh
  have hsu : claimed s.semaphoreCount (h :: s.resumed) = s.semaphoreCount h + claimed s.semaphoreCount s.resumed :=
    sum_cons
  rw [prelocked_eq hh] at hok ⊢
  have hpc : ∀ u, u ≠ t → (s.goto t (.tryResume (cnt - s.semaphoreCount h) e)).pc u = s.pc u := fun u hu =>
    update_of_ne hu ..
  refine Inv.of_fits hok (fun u hu => ?_) (nodup_cons.2 ⟨ho.1, hi.resumed_nodup⟩) hi.quitting_nodup (fun u => ?_)
  · rcases eq_or_ne u t with rfl | hut
    · exact mine hi.locked hp rfl
    · rw [hpc u hut] at hu
      exact hi.locked u hu
  · rcases eq_or_ne u t with rfl | hut
    · rw [show (s.goto u (.tryResume (cnt - s.semaphoreCount h) e)).pc u = .tryResume (cnt - s.semaphoreCount h) e from
        update_self ..]
      refine ⟨?_, ⟨fun hm => ?_, hou.2⟩, ?_⟩
      · simpa [St.Quiet, hn] using hq
      · rcases mem_cons.1 hm with hm | hm
        · exact hn hm
        · exact hou.1 hm
      · simp only [goto_count, goto_semaphoreCount, hsu]
        omega
    · rw [hpc u hut]
      rcases eq_or_ne u h with rfl | huh
      · obtain ⟨n, hpu⟩ := hi.asleep_of_queued hh
        rw [hpu]
        refine ⟨(hi.fits hpu).1, fun _ => by simp, fun _ => by simp, fun hm => absurd hm ho.2⟩
      · refine (hi.fits rfl).frame (by simp [huh]) (by simp [huh]) rfl (fun hm => ?_) id
          (alone (P := fun _ => _) hi.locked hp rfl u hut)
        exact (mem_cons.1 hm).resolve_left huh

lemma inv_elsewhere {c : Nat} (hp : s.pc t = .idle) (he : e ≠ -1) : Inv { s with
      wq := s.wq.setTh t { s.wq.th t with errorNumber := e }
      semaphoreCount := update s.semaphoreCount t c } := by
  have hok : (s.wq.setTh t { s.wq.th t with errorNumber := e }).Ok := hi.wq.setTh t _ rfl (hi.wq.sleeping_iff t)
  obtain ⟨hq, ho⟩ := hi.fits hp
  refine hi.step_self hok (update_eq_self ..).symm (fun _ hu => ⟨update_of_ne hu .., update_of_ne hu .., id⟩)
    (.refl _) hi.quitting_nodup (fun u _ hlk => ⟨hi.locked u hlk, rfl, claimed_update ho.1 c⟩) (hi.locked t) ?_
  rw [hp]
  refine ⟨⟨?_, ?_⟩, ho⟩
  · simpa using hq.1
  · simpa using he

lemma inv_advance (hr : (s.wq.th t).state = .running) (h : s.advance t same = some s') : Inv s' := by
  have hn : (s.wq.th t).waitq = false := by simpa [hr] using mt (hi.wq.sleeping_iff t).2
  have hk : ∀ u, u ≠ t → (s.pc u).locked = true → s.splock = .held u := fun u _ => hi.locked u
  unfold advance at h
  cases hp : s.pc t with simp only [hp] at h
  | idle => cases h
  | waitLock =>
    split at h <;> cases h
    rename_i hf
    exact inv_waitLock hi hp hf
  | waitTest =>
    split at h <;> cases h
    next hc => exact inv_testFail hi hp hc
    · exact inv_testOk hi hp
  | waitSleep =>
    cases h
    exact inv_waitSleep hi hp hn
  | asleep =>
    cases h
    exact inv_wake hi hp hr hn
  | relock n r =>
    split at h <;> cases h
    rename_i hf
    have hft := hi.fits hp
    cases r with
    | none =>
      exact inv_goto hi ⟨hft.1, hft.2.1, hft.2.2, nofun⟩ (fun _ => rfl) (nobody hi.locked hf)
    | some => exact inv_goto hi ⟨hft.1, hft.2.2⟩ (fun _ => rfl) (nobody hi.locked hf)
  | waitCount =>
    split at h <;> cases h
    · exact inv_waitCount hi hp (.inl rfl)
    · exact inv_waitCount hi hp (.inr rfl)
  | waitExit =>
    cases h
    exact inv_waitExit hi hp
  | signalLock =>
    split at h <;> cases h
    rename_i hf
    have hft : s.Quiet t ∧ s.Out t := hi.fits hp
    exact inv_goto hi hft (fun _ => rfl) (nobody hi.locked hf)
  | signalAdd =>
    cases h
    exact inv_signalAdd hi hp
  | signalExit =>
    cases h
    have hft : s.Quiet t ∧ s.Out t := hi.fits hp
    exact inv_goto hi hft nofun (alone hi.locked hp rfl)
  | tryResume cnt e =>
    have hl := mine hi.locked hp rfl
    have hd : Inv (s.goto t (afterResume e)) := by
      obtain ⟨hq, ho, -⟩ := hi.fits hp
      cases e with
      | none | some e => exact inv_goto hi ⟨hq, ho⟩ (fun _ => hl) hk
    split at h
    · cases h
      exact hd
    rename_i x tl hqs
    split at h <;> cases h
    · exact hd
    · exact inv_resume hi hp hqs same

lemma inv_step {e : Ev} (h : step s e = some s') : Inv s' := by
  have hk : ∀ t u, u ≠ t → (s.pc u).locked = true → s.splock = .held u := fun _ u _ => hi.locked u
  cases e with simp only [step] at h
  | env =>
    obtain ⟨wq, hw, rfl⟩ := Option.map_eq_some_iff.1 h
    exact inv_moved hi (env_moved hi.wq hw)
  | elsewhere =>
    split at h <;> cases h
    rename_i hp
    exact inv_elsewhere hi hp.1 hp.2
  | wait t =>
    split at h <;> cases h
    rename_i hp
    split
    · exact hi
    next hn =>
      obtain ⟨hq, ho⟩ := hi.fits hp
      exact inv_goto hi ⟨hq, ho, Nat.pos_of_ne_zero hn⟩ nofun (hk t)
  | signal t =>
    split at h <;> cases h
    rename_i hp
    split
    · exact hi
    · have hf : s.Quiet t ∧ s.Out t := hi.fits hp
      exact inv_goto hi hf nofun (hk t)
  | step =>
    split at h
    next hr => exact inv_advance hi hr h
    · cases h
  | deferred =>
    split at h <;> cases h
    rename_i hd
    exact { hi with locked := fun t ht => absurd ((hi.locked t ht).symm.trans hd) nofun }

end

/-! ## Serving the head of the queue -/

def Pc.resuming : Pc → Bool
  | .tryResume _ _ => true
  | _ => false

/-- Thread `t` was taken out of the queue and has still to run: to try again, or
to leave. -/
def St.toRun (s : St) (t : Tid) : Bool :=
  (s.pc t).signalled || (s.pc t).failed || ((s.pc t).isAsleep && !(s.wq.th t).waitq)

/-- A waiter that left has still to look at the queue, or the head asks for more
than the resumed waiters leave. -/
def St.Served (s : St) : Prop :=
  s.quitting ≠ [] ∨ ∀ h ∈ s.wq.q.head?, s.count < s.semaphoreCount h + claimed s.semaphoreCount s.resumed

instance (s : St) : Decidable s.Served := inferInstanceAs (Decidable (_ ∨ _))

/-- What has to be true before a step: when a resumed waiter finds the count too
small and goes back to the tail, the queue it leaves behind is served. -/
def RetryServed (s : St) : Ev → Prop
  | .step t _ =>
    match s.pc t with
    | .waitTest n true => s.count < n → St.Served { s with resumed := s.resumed.erase t }
    | _ => True
  | _ => True

instance (s : St) (e : Ev) : Decidable (RetryServed s e) := by
  unfold RetryServed
  split
  · split <;> infer_instance
  · infer_instance

/-- `Served`, unless a `try_resume` is at work. -/
def St.Fair (s : St) : Prop := (∃ t, (s.pc t).resuming = true) ∨ s.Served

lemma fair_congr (hf : s.Fair) {c r p g th} (hn : ∀ h ∈ s.wq.q.head?, c h = s.semaphoreCount h)
    (hcl : claimed c r = claimed s.semaphoreCount s.resumed) (hr : ∀ u, (s.pc u).resuming = true → (p u).resuming = true) :
    St.Fair { s with splock := g, wq := ⟨s.wq.q, th⟩, semaphoreCount := c, pc := p, resumed := r } := by
  rcases hf with ⟨u, hu⟩ | hqn | hh
  · exact .inl ⟨u, hr u hu⟩
  · exact .inr (.inl hqn)
  · refine .inr (.inr fun h hm => ?_)
    dsimp only
    rw [hn h hm, hcl]
    exact hh h hm

section
variable {t : Tid} {s s' : St} (hi : Inv s)
include hi

lemma fair_moved (hf : s.Fair) (h : Waitq.Moved s.wq wq) :
    St.Fair { s with wq := wq, quitting := s.wq.q.filter (fun t => t ∉ wq.q) ++ s.quitting } := by
  have hn : s.wq.q.filter (fun t => t ∉ s.wq.q) = [] := by simp
  cases h with
  | same =>
    rw [hn]
    exact hf
  | kept =>
    rw [setTh_q, hn]
    exact fair_congr hf (fun _ _ => rfl) rfl (fun _ hu => hu)
  | woken t st e hw =>
    -- a waiter that leaves the queue will look at it again
    have hm : t ∈ s.wq.q := (hi.wq.mem_iff t).2 hw
    refine .inr (.inl (ne_nil_of_mem (mem_append_left _ (mem_filter.2 ⟨hm, ?_⟩))))
    simp [hi.wq.nodup.mem_erase_iff]

lemma Inv.request_pos (ht : (s.wq.th t).waitq = true) : 0 < s.semaphoreCount t := by
  have ha := hi.queued t ht
  cases hp : s.pc t with
  | asleep n =>
    obtain ⟨hn, hpo⟩ := hi.request t n (hp ▸ rfl)
    rwa [hn]
  | _ => simp [hp, isAsleep] at ha

lemma fair_testOk (hf : s.Fair) (hp : s.pc t = .waitTest n b) (hc : n ≤ s.count) :
    St.Fair { { s with resumed := s.resumed.erase t }.goto t (.waitExit none) with count := s.count - n } := by
  have hr := (hi.request t n (hp ▸ rfl)).1
  have hcl : claimed s.semaphoreCount s.resumed ≤ n + claimed s.semaphoreCount (s.resumed.erase t) := by
    by_cases ht : t ∈ s.resumed
    · rw [← hr]
      exact le_of_eq (sum_map_erase s.semaphoreCount ht).symm
    · rw [erase_of_not_mem ht]
      exact Nat.le_add_left ..
  rcases hf with ⟨u, hu⟩ | hq | hh
  · have hut : u ≠ t := by
      rintro rfl
      simp [hp, resuming] at hu
    exact .inl ⟨u, by simpa [hut] using hu⟩
  · exact .inr (.inl hq)
  · refine .inr (.inr fun h hm => ?_)
    have hlt := hh h hm
    simp only [goto_semaphoreCount, goto_resumed]
    omega

lemma fair_waitSleep (hf : s.Fair) (hp : s.pc t = .waitSleep n) :
    St.Fair { s.goto t (.asleep n) with wq := s.wq.prepareUsleep t, splock := .deferred } := by
  have hr := (hi.request t n (hp ▸ rfl)).1
  have hsh := hi.short t n hp
  rcases hf with ⟨u, hu⟩ | hqn | hh
  · have hut : u ≠ t := by
      rintro rfl
      simp [hp, resuming] at hu
    exact .inl ⟨u, by simpa [hut] using hu⟩
  · exact .inr (.inl hqn)
  · refine .inr (.inr fun h hm => ?_)
    simp only [goto_count, goto_semaphoreCount, goto_resumed]
    cases hq : s.wq.q with
    | nil =>
      obtain rfl : t = h := by simpa [hq] using hm
      omega
    | cons => exact hh h (by simpa [hq] using hm)

lemma fair_advance (hf : s.Fair) (hr : (s.wq.th t).state = .running) (ho : RetryServed s (.step t same))
    (h : s.advance t same = some s') : s'.Fair := by
  have hnw : (s.wq.th t).waitq = false := by simpa [hr] using mt (hi.wq.sleeping_iff t).2
  have hhe : ∀ h ∈ s.wq.q.head?, (s.wq.th h).waitq = true := fun h hh =>
    (hi.wq.mem_iff h).1 (mem_of_mem_head? hh)
  -- a move of `t` that keeps everything else
  have hpc : ∀ p, (s.pc t).resuming = false → ∀ u, (s.pc u).resuming = true → ((s.goto t p).pc u).resuming = true := by
    intro p ht u hu
    have hut : u ≠ t := by
      rintro rfl
      rw [ht] at hu
      cases hu
    simpa [hut] using hu
  -- a new request of `t`, which is neither queued nor resumed
  have hse : ∀ p n g, (s.pc t).resuming = false → t ∉ s.resumed →
      St.Fair { s.goto t p with splock := g, semaphoreCount := update s.semaphoreCount t n } := by
    intro p n g ht hn
    refine fair_congr hf (fun u hu => update_of_ne ?_ _ _) (claimed_update hn n) (hpc p ht)
    rintro rfl
    have hw := hhe u hu
    rw [hnw] at hw
    cases hw
  unfold advance at h
  cases hp : s.pc t with simp only [hp] at h
  | idle => cases h
  | waitLock n =>
    split at h <;> cases h
    exact hse _ n _ (hp ▸ rfl)
      (fun ht => by simpa [hp, signalled, isAsleep] using hi.resumed t ht)
  | waitTest n b =>
    split at h <;> cases h
    next hc =>
      cases b with
      | true =>
        simp only [RetryServed, hp] at ho
        exact .inr (ho hc)
      | false =>
        have hn : t ∉ s.resumed := fun ht => by simpa [hp, signalled, isAsleep] using hi.resumed t ht
        rw [erase_of_not_mem hn]
        exact fair_congr hf (fun _ _ => rfl) rfl (hpc _ (hp ▸ rfl))
    next hc => exact fair_testOk hi hf hp (Nat.le_of_not_lt hc)
  | waitSleep =>
    cases h
    exact fair_waitSleep hi hf hp
  | asleep n | signalExit =>
    cases h
    exact fair_congr hf (fun _ _ => rfl) rfl (hpc _ (hp ▸ rfl))
  | relock n r | signalLock n =>
    split at h <;> cases h
    exact fair_congr hf (fun _ _ => rfl) rfl (hpc _ (hp ▸ rfl))
  | waitCount =>
    split at h <;> cases h
    next h0 =>
      refine .inr (.inr fun x hx => ?_)
      have hpo := hi.request_pos (hhe x hx)
      simp only [goto_count, goto_semaphoreCount]
      omega
    · exact .inl ⟨t, by simp [resuming]⟩
  | waitExit =>
    cases h
    exact hse _ 0 _ (hp ▸ rfl)
      (fun ht => by simpa [hp, signalled, isAsleep] using hi.resumed t ht)
  | signalAdd =>
    cases h
    exact .inl ⟨t, by simp [resuming]⟩
  | tryResume cnt e =>
    split at h
    next hq =>
      cases h
      exact .inr (.inr (by simp [hq]))
    rename_i x tl hq
    split at h <;> cases h
    next hx =>
      have hle := hi.left t cnt e hp
      refine .inr (.inr fun y hy => ?_)
      obtain rfl : x = y := by simpa [hq] using hy
      simp only [goto_count, goto_semaphoreCount, goto_resumed]
      omega
    · exact .inl ⟨t, by simp [resuming]⟩

lemma fair_step (hf : s.Fair) {e : Ev} (ho : RetryServed s e) (h : step s e = some s') : s'.Fair := by
  have hpc : ∀ t p, s.pc t = .idle → ∀ u, (s.pc u).resuming = true → ((s.goto t p).pc u).resuming = true := by
    intro t p hp u hu
    have hut : u ≠ t := by
      rintro rfl
      simp [hp, resuming] at hu
    simpa [hut] using hu
  cases e with simp only [step] at h
  | env =>
    obtain ⟨wq, hw, rfl⟩ := Option.map_eq_some_iff.1 h
    exact fair_moved hi hf (env_moved hi.wq hw)
  | elsewhere t e c =>
    split at h <;> cases h
    rename_i hp
    have hn : t ∉ s.resumed := fun ht => by simpa [hp.1, signalled, isAsleep] using hi.resumed t ht
    refine fair_congr hf (fun u hu => update_of_ne ?_ _ _) (claimed_update hn c) (fun _ hu => hu)
    rintro rfl
    have ha := hi.queued u ((hi.wq.mem_iff u).1 (mem_of_mem_head? hu))
    simp [hp.1, isAsleep] at ha
  | wait t n | signal t n =>
    split at h <;> cases h
    rename_i hp
    split
    · exact hf
    · exact fair_congr hf (fun _ _ => rfl) rfl (hpc t _ hp)
  | step =>
    split at h
    next hr => exact fair_advance hi hf hr ho h
    · cases h
  | deferred =>
    split at h <;> cases h
    exact fair_congr hf (fun _ _ => rfl) rfl (fun _ hu => hu)

end

lemma fair_run {cnt : Nat} {es : List Ev} (hm : (machine cnt).Meets RetryServed es)
    (h : (machine cnt).run es = some s) : Inv s ∧ s.Fair :=
  Machine.run_inv_of (I := fun s => Inv s ∧ s.Fair) ⟨inv_init cnt, .inr (.inr (by simp [machine]))⟩
    (fun hi ho hs => ⟨inv_step hi.1 hs, fair_step hi.1 hi.2 ho hs⟩) hm h

/-- In every run whose steps meet `RetryServed`, whenever no `try_resume` is at
work and the head of the queue needs no more than the count, a waiter that was
taken out of the queue has still to run. -/
theorem semaphore_head_served {count : Nat} {es : List Ev} {s : St} (hm : (machine count).Meets RetryServed es)
    (h : (machine count).run es = some s) (hidle : ∀ t, (s.pc t).resuming = false) {t : Tid}
    (ht : s.wq.q.head? = some t) (hc : s.semaphoreCount t ≤ s.count) : ∃ u, s.toRun u = true := by
  obtain ⟨hi, hf⟩ := fair_run hm h
  rcases hf with ⟨u, hu⟩ | hq | hh
  · rw [hidle u] at hu
    cases hu
  · obtain ⟨u, hu⟩ := exists_mem_of_ne_nil _ hq
    refine ⟨u, ?_⟩
    rcases hi.quitting u hu with hp | ⟨hp, hw, -⟩
    · simp [toRun, hp]
    · simp [toRun, hp, hw]
  · have hlt := hh t ht
    have hne : s.resumed ≠ [] := by
      intro hn
      rw [hn, claimed, map_nil, sum_nil] at hlt
      omega
    obtain ⟨u, hu⟩ := exists_mem_of_ne_nil _ hne
    refine ⟨u, ?_⟩
    rcases hi.resumed u hu with hp | ⟨hp, hw, -⟩
    · simp [toRun, hp]
    · simp [toRun, hp, hw]

def steps (t : Tid) (n : Nat) : List Ev := replicate n (.step t true)

/-- Thread 1 waits for 5 and is resumed by a `signal(5)`, thread 3 takes 1 before
it runs, and thread 1 goes back to the queue, alone. Then thread 2 waits for 6
and a `signal(4)` resumes thread 1 again. -/
def retryAlone : List Ev :=
  [.wait 1 5] ++ steps 1 3 ++ [.deferred, .signal 0 5] ++ steps 0 5 ++ [.wait 3 1] ++ steps 3 3 ++
    [.env (.run 1)] ++ steps 1 4 ++ [.deferred, .wait 2 6] ++ steps 2 3 ++ [.deferred, .signal 0 4] ++ steps 0 5

theorem semaphore_head_served_retryAlone :
    ∃ s, (machine 0).run retryAlone = some s ∧ s.wq.q.head? = some 2 ∧ s.semaphoreCount 2 ≤ s.count ∧
      ∃ u, s.toRun u = true := by
  have hr : (machine 0).run retryAlone = some _ := rfl
  refine ⟨_, hr, by decide, by decide, ?_⟩
  refine semaphore_head_served (t := 2) (by decide) hr ?_ (by decide) (by decide)
  rintro (_ | _ | _ | _ | t) <;> rfl

/-- Thread 2 waits for 1 behind thread 1, which waits for 5 and is resumed by a
`signal(5)`. Thread 3 takes 1 first; thread 1 finds 4 and goes back to the tail.
Thread 2 is now the head, 4 are left, and nobody is about to look at it. -/
theorem head_forgotten :
    ∃ s, (machine 0).run ([.wait 1 5] ++ steps 1 3 ++ [.deferred, .wait 2 1] ++ steps 2 3 ++
        [.deferred, .signal 0 5] ++ steps 0 5 ++ [.wait 3 1] ++ steps 3 3 ++ [.env (.run 1)] ++ steps 1 4 ++
        [.deferred]) = some s ∧
      s.wq.q = [2, 1] ∧ s.semaphoreCount 2 = 1 ∧ s.count = 4 ∧ (∀ t, (s.pc t).resuming = false) ∧
      ∀ t, s.toRun t = false := by
  refine ⟨_, rfl, by decide, by decide, by decide, ?_, ?_⟩ <;> rintro (_ | _ | _ | _ | t) <;> rfl

end Photon.Semaphore
