import Photon.Lib.Machine
import Photon.Thread.Waitq
/-!
# mutex

`mutex::lock`, `try_lock` and `unlock` of any number of threads on one mutex,
each atomic access a step of its own. Between two steps the scheduler runs,
sleepers time out and `thread_interrupt` arrives (`Waitq.Env`). The invariant
follows the owner through the hand-over: the unlocker stores the new owner
while it holds the lock of that waiter, and wakes it with error number -1,
which nothing overwrites until the waiter returns.
-/

namespace Photon.Mutex

open Function Option Guard

/-- Where a thread is in the functions of the mutex. `own` records whether the
thread was the owner when it called `lock`. -/
inductive Pc where
  | idle
  /-- Before a `try_lock`, with `re` retries left. -/
  | lockTry (own : Bool) (re : Nat)
  /-- Before the `thread_yield` of a retry. -/
  | lockYield (own : Bool) (re : Nat)
  /-- In the `thread_yield` of a retry. -/
  | yielding (own : Bool) (re : Nat)
  /-- Before `splock.lock()`. -/
  | lockSplock (own : Bool)
  /-- Before the `try_lock` made under `splock`. -/
  | lockTryLocked (own : Bool)
  /-- Before `timeout.expired()`. -/
  | lockExpired (own : Bool)
  /-- Before `thread_usleep_defer`. -/
  | lockSleep (own : Bool)
  /-- In `thread_usleep_defer`. -/
  | asleep (own : Bool)
  /-- `lock` returns `r`. -/
  | lockRet (own : Bool) (r : Ret)
  /-- Before `splock.lock()`. -/
  | unlockSplock
  /-- Before the head of the queue is locked. -/
  | unlockHead
  /-- Before `owner.store(h)`. -/
  | unlockStore (h : Option Tid)
  /-- Before `prelocked_thread_interrupt(h, -1)`. -/
  | unlockResume (h : Tid)
  /-- Before the lock of `h` and `splock` are released. -/
  | unlockRelease (h : Option Tid)
  deriving DecidableEq

/-- The mutex, the threads, and for each thread whether it holds the mutex: a
`lock` or `try_lock` of it returned 0 and it has not begun to release since. -/
structure St where
  owner : Option Tid := none
  splock : Guard := .free
  wq : Waitq := {}
  pc : Tid → Pc := fun _ => .idle
  holds : Tid → Bool := fun _ => false

inductive Ev where
  | env (e : Waitq.Env)
  /-- What a thread did elsewhere left an error number in it. -/
  | elsewhere (t : Tid) (errorNumber : Int)
  | lock (t : Tid)
  | tryLock (t : Tid)
  | unlock (t : Tid)
  /-- The next step of the call thread `t` is in. -/
  | step (t : Tid) (expired same : Bool)
  | deferred
  | ret (t : Tid)
  deriving DecidableEq

@[simps -fullyApplied owner splock wq holds]
def St.goto (s : St) (t : Tid) (p : Pc) : St := { s with pc := update s.pc t p }

@[simp] lemma St.goto_pc (s : St) (t u : Tid) (p : Pc) :
    (s.goto t p).pc u = if u = t then p else s.pc u := update_apply ..

/-- `try_lock`: the compare and exchange, and what follows on success and on
failure. -/
def St.tryLock (s : St) (t : Tid) (yes no : Pc) : St :=
  if s.owner = none then
    { s with owner := some t, holds := update s.holds t true, pc := update s.pc t yes }
  else s.goto t no

/-- The loop of `lock` after a failed `try_lock`. -/
def afterTry (own : Bool) : Nat → Pc
  | 0 => .lockSplock own
  | re + 1 => .lockYield own re

def St.advance (s : St) (t : Tid) (expired same : Bool) : Option St :=
  match s.pc t with
  | .lockTry own re => some (s.tryLock t (.lockRet own none) (afterTry own re))
  | .lockYield own re => some { s.goto t (.yielding own re) with wq := s.wq.yieldStart t }
  | .yielding own re =>
    if (s.wq.th t).errorNumber ≠ 0 then some (s.goto t (.lockRet own (some (s.wq.th t).errorNumber)))
    else some (s.goto t (.lockTry own re))
  | .lockSplock own =>
    if s.splock = .free then some { s.goto t (.lockTryLocked own) with splock := .held t } else none
  | .lockTryLocked own =>
    -- `splock` stays taken when the exchange fails
    let s' := s.tryLock t (.lockRet own none) (.lockExpired own)
    if s.owner = none then some { s' with splock := .free } else some s'
  | .lockExpired own =>
    if expired then some { s.goto t (.lockRet own (some ETIMEDOUT)) with splock := .free }
    else some (s.goto t (.lockSleep own))
  | .lockSleep own =>
    -- `prepare_usleep` takes the lock of the thread
    if (s.wq.th t).lock then none
    else some { s.goto t (.asleep own) with wq := s.wq.prepareUsleep t, splock := .deferred }
  | .asleep own =>
    let (ret, th) := (s.wq.th t).setErrorNumber
    let r := waitqTranslateErrno ret
    some { s.goto t (.lockRet own r) with
      wq := s.wq.setTh t th
      holds := if r = none then update s.holds t true else s.holds }
  | .unlockSplock => if s.splock = .free then some { s.goto t .unlockHead with splock := .held t } else none
  | .unlockHead =>
    match s.wq.q with
    | [] => some (s.goto t (.unlockStore none))
    | h :: _ =>
      if (s.wq.th h).lock then none
      else some { s.goto t (.unlockStore (some h)) with wq := s.wq.setTh h { s.wq.th h with lock := true } }
  | .unlockStore none => some { s.goto t (.unlockRelease none) with owner := none }
  | .unlockStore (some h) => some { s.goto t (.unlockResume h) with owner := some h }
  | .unlockResume h =>
    some { s.goto t (.unlockRelease (some h)) with wq := s.wq.prelockedThreadInterrupt h (-1) same }
  | .unlockRelease none => some { s.goto t .idle with splock := .free }
  | .unlockRelease (some h) =>
    some { s.goto t .idle with wq := s.wq.setTh h { s.wq.th h with lock := false }, splock := .free }
  | .idle | .lockRet _ _ => none

def step (retries : Nat) (s : St) : Ev → Option St
  | .env e => (s.wq.env e).map fun wq => { s with wq := wq }
  | .elsewhere t e =>
    if s.pc t = .idle ∧ e ≠ -1 then some { s with wq := s.wq.setTh t { s.wq.th t with errorNumber := e } }
    else none
  | .lock t => if s.pc t = .idle then some (s.goto t (.lockTry (s.owner = some t) retries)) else none
  | .tryLock t => if s.pc t = .idle then some (s.tryLock t .idle .idle) else none
  | .unlock t =>
    if s.pc t = .idle then
      -- the checks of `unlock`: a mutex that the caller does not own is left as it is
      if s.owner = some t then some { s.goto t .unlockSplock with holds := update s.holds t false }
      else some s
    else none
  | .step t expired same => if (s.wq.th t).state = .running then s.advance t expired same else none
  | .deferred => if s.splock = .deferred then some { s with splock := .free } else none
  | .ret t =>
    match s.pc t with
    | .lockRet _ _ => some (s.goto t .idle)
    | _ => none

def machine (retries : Nat) : Machine St Ev := ⟨{}, step retries⟩

/-! ## The invariant -/

/-- The thread is inside a `lock` that it called as the owner or not. -/
def Pc.inLock : Pc → Option Bool
  | .lockTry own _ | .lockYield own _ | .yielding own _ | .lockSplock own | .lockTryLocked own
  | .lockExpired own | .lockSleep own | .asleep own => some own
  | _ => none

/-- The thread is in `do_mutex_unlock` and has not stored the next owner. -/
def Pc.releasing : Pc → Bool
  | .unlockSplock | .unlockHead | .unlockStore _ => true
  | _ => false

def Pc.splocked : Pc → Bool
  | .lockTryLocked _ | .lockExpired _ | .lockSleep _ | .unlockHead | .unlockStore _ | .unlockResume _
  | .unlockRelease _ => true
  | _ => false

def Pc.isAsleep : Pc → Bool
  | .asleep _ => true
  | _ => false

/-- The thread is at no point that the invariant says more about. -/
def Pc.plain : Pc → Bool
  | .asleep _ | .lockRet _ _ | .unlockStore (some _) | .unlockResume _ | .unlockRelease (some _) => false
  | _ => true

/-- The mutex was handed over to `t`, whose `lock` has not returned: either the
unlocker holds the lock of `t` to wake it, or `t` woke with error number -1. -/
def St.HandedOver (s : St) (t : Tid) : Prop :=
  s.pc t = .asleep false ∧ ((s.wq.th t).waitq = true → (s.wq.th t).lock = true) ∧
    ((s.wq.th t).waitq = false → (s.wq.th t).errorNumber = -1)

structure Inv (s : St) : Prop where
  wq : s.wq.Ok
  queued : ∀ t, (s.wq.th t).waitq = true → (s.pc t).isAsleep = true
  err : ∀ t, (s.wq.th t).errorNumber = -1 → s.pc t = .asleep false ∧ (s.wq.th t).waitq = false ∧ s.owner = some t
  holds : ∀ t, s.holds t = true → s.owner = some t
  inLock : ∀ t own, (s.pc t).inLock = some own → s.holds t = own
  ret : ∀ t own r, s.pc t = .lockRet own r → s.holds t = (own || r.isNone) ∧ (own = true → r ≠ none)
  releasing : ∀ t, (s.pc t).releasing = true → s.owner = some t ∧ s.holds t = false
  splocked : ∀ t, (s.pc t).splocked = true → s.splock = .held t
  store : ∀ u h, s.pc u = .unlockStore (some h) → (s.wq.th h).waitq = true ∧ (s.wq.th h).lock = true
  resume : ∀ u h, s.pc u = .unlockResume h →
    s.owner = some h ∧ s.pc h = .asleep false ∧ (s.wq.th h).waitq = true ∧ (s.wq.th h).lock = true
  release : ∀ u h, s.pc u = .unlockRelease (some h) → (s.wq.th h).waitq = false ∧ (s.wq.th h).lock = true
  owner : ∀ t, s.owner = some t → s.holds t = true ∨ (s.pc t).releasing = true ∨ s.HandedOver t

lemma inv_init : Inv {} := by
  constructor <;> simp [Waitq.ok_init, Pc.inLock, Pc.releasing, Pc.splocked]

/-! ## One thread at a time -/

/-- The thread is not in the queue, and was not handed the mutex in its sleep. -/
def St.Quiet (s : St) (t : Tid) : Prop := (s.wq.th t).waitq = false ∧ (s.wq.th t).errorNumber ≠ -1

def Fits (s : St) (t : Tid) : Pc → Prop
  | .idle | .unlockRelease none => s.Quiet t ∧ (s.owner = some t → s.holds t = true)
  | .lockTry own _ | .lockYield own _ | .yielding own _ | .lockSplock own | .lockTryLocked own | .lockExpired own
  | .lockSleep own => s.Quiet t ∧ (s.owner = some t → s.holds t = true) ∧ s.holds t = own
  | .asleep own => s.holds t = own ∧
    ((s.wq.th t).errorNumber = -1 → own = false ∧ (s.wq.th t).waitq = false ∧ s.owner = some t) ∧
    (s.owner = some t → own = true ∨ own = false ∧ ((s.wq.th t).waitq = true → (s.wq.th t).lock = true) ∧
      ((s.wq.th t).waitq = false → (s.wq.th t).errorNumber = -1))
  | .lockRet own r => s.Quiet t ∧ (s.owner = some t → s.holds t = true) ∧ s.holds t = (own || r.isNone) ∧
    (own = true → r ≠ none)
  | .unlockSplock | .unlockHead | .unlockStore none => s.Quiet t ∧ s.owner = some t ∧ s.holds t = false
  | .unlockStore (some h) => s.Quiet t ∧ (s.owner = some t ∧ s.holds t = false) ∧ (s.wq.th h).waitq = true ∧
    (s.wq.th h).lock = true
  | .unlockResume h => s.Quiet t ∧ (s.owner = some t → s.holds t = true) ∧ s.owner = some h ∧ s.pc h = .asleep false ∧
    (s.wq.th h).waitq = true ∧ (s.wq.th h).lock = true
  | .unlockRelease (some h) => s.Quiet t ∧ (s.owner = some t → s.holds t = true) ∧ (s.wq.th h).waitq = false ∧
    (s.wq.th h).lock = true

structure Local (s : St) (t : Tid) : Prop where
  holds : s.holds t = true → s.owner = some t
  splocked : (s.pc t).splocked = true → s.splock = .held t
  fits : Fits s t (s.pc t)

def Pc.wakes : Pc → Option Tid
  | .unlockStore (some h) | .unlockResume h | .unlockRelease (some h) => some h
  | _ => none

section Steps

variable {s s' : St} {t u h : Tid} {p : Pc}

lemma Pc.splocked_of_wakes (hw : p.wakes = some h) : p.splocked = true := by
  cases p with
  | unlockStore | unlockResume | unlockRelease => rfl
  | _ => cases hw

lemma Fits.lock (hf : Fits s t p) (hw : p.wakes = some h) : (s.wq.th h).lock = true := by
  cases p with
  | unlockStore o | unlockRelease o =>
    cases o with
    | none => cases hw
    | some => cases hw; exact hf.2.2.2
  | unlockResume => cases hw; exact hf.2.2.2.2.2
  | _ => cases hw

lemma Inv.quiet (hi : Inv s) (ha : (s.pc t).isAsleep = false) : s.Quiet t := by
  refine ⟨?_, fun he => ?_⟩
  · by_contra hw
    rw [hi.queued t (by simpa using hw)] at ha
    cases ha
  · rw [(hi.err t he).1] at ha
    cases ha

lemma Inv.owner_holds (hi : Inv s) (ha : (s.pc t).isAsleep = false) (hr : (s.pc t).releasing = false)
    (ho : s.owner = some t) : s.holds t = true := by
  rcases hi.owner t ho with h | h | h
  · exact h
  · rw [hr] at h
    cases h
  · rw [h.1] at ha
    cases ha

lemma Inv.fits (hi : Inv s) (hp : s.pc t = p) : Fits s t p := by
  have hq : p.isAsleep = false → s.Quiet t := fun ha => hi.quiet (hp ▸ ha)
  have ho : p.isAsleep = false → p.releasing = false → s.owner = some t → s.holds t = true :=
    fun ha hr => hi.owner_holds (hp ▸ ha) (hp ▸ hr)
  have hl : ∀ own, p.inLock = some own → s.holds t = own := fun own hl => hi.inLock t own (hp ▸ hl)
  have hr : p.releasing = true → s.owner = some t ∧ s.holds t = false := fun hr => hi.releasing t (hp ▸ hr)
  cases p with
  | idle => exact ⟨hq rfl, ho rfl rfl⟩
  | asleep own =>
    refine ⟨hl own rfl, fun he => ?_, fun ht => ?_⟩
    · obtain ⟨h1, h2, h3⟩ := hi.err t he
      exact ⟨Pc.asleep.inj (hp.symm.trans h1), h2, h3⟩
    rcases hi.owner t ht with h | h | h
    · exact .inl ((hl own rfl).symm.trans h)
    · rw [hp] at h
      cases h
    · exact .inr ⟨Pc.asleep.inj (hp.symm.trans h.1), h.2⟩
  | lockRet own r => exact ⟨hq rfl, ho rfl rfl, hi.ret t own r hp⟩
  | unlockSplock | unlockHead => exact ⟨hq rfl, hr rfl⟩
  | unlockStore o =>
    cases o with
    | none => exact ⟨hq rfl, hr rfl⟩
    | some h => exact ⟨hq rfl, hr rfl, hi.store t h hp⟩
  | unlockResume h => exact ⟨hq rfl, ho rfl rfl, hi.resume t h hp⟩
  | unlockRelease o =>
    cases o with
    | none => exact ⟨hq rfl, ho rfl rfl⟩
    | some h => exact ⟨hq rfl, ho rfl rfl, hi.release t h hp⟩
  | _ => exact ⟨hq rfl, ho rfl rfl, hl _ rfl⟩

lemma Fits.quiet (hf : Fits s t p) (ha : p.isAsleep = false) : s.Quiet t := by
  cases p with
  | asleep => cases ha
  | unlockStore o | unlockRelease o => cases o <;> exact hf.1
  | _ => exact hf.1

lemma Fits.inLock {own : Bool} (hf : Fits s t p) (hl : p.inLock = some own) : s.holds t = own := by
  cases p with
  | asleep => cases hl; exact hf.1
  | lockTry | lockYield | yielding | lockSplock | lockTryLocked | lockExpired | lockSleep => cases hl; exact hf.2.2
  | _ => cases hl

lemma Fits.releasing (hf : Fits s t p) (hr : p.releasing = true) : s.owner = some t ∧ s.holds t = false := by
  cases p with
  | unlockSplock | unlockHead => exact hf.2
  | unlockStore o =>
    cases o with
    | none => exact hf.2
    | some => exact hf.2.1
  | _ => cases hr

lemma Fits.owner (hf : Fits s t p) (hp : s.pc t = p) (ho : s.owner = some t) :
    s.holds t = true ∨ p.releasing = true ∨ s.HandedOver t := by
  cases p with
  | asleep =>
    rcases hf.2.2 ho with h | ⟨rfl, h⟩
    · exact .inl (hf.1.trans h)
    · exact .inr (.inr ⟨hp, h⟩)
  | idle => exact .inl (hf.2 ho)
  | unlockSplock | unlockHead | unlockStore => exact .inr (.inl rfl)
  | unlockRelease o =>
    cases o with
    | none => exact .inl (hf.2 ho)
    | some => exact .inl (hf.2.1 ho)
  | _ => exact .inl (hf.2.1 ho)

lemma Local.at (hl : Local s t) (hp : s.pc t = p) : Fits s t p := hp ▸ hl.fits

lemma Inv.of_local (ho : s.wq.Ok) (hl : ∀ t, Local s t) : Inv s where
  wq := ho
  queued := by
    intro t hw
    by_contra ha
    rw [((hl t).fits.quiet (by simpa using ha)).1] at hw
    cases hw
  err := by
    intro t he
    cases hp : s.pc t with
    | asleep =>
      obtain ⟨rfl, h2, h3⟩ := ((hl t).at hp).2.1 he
      exact ⟨rfl, h2, h3⟩
    | _ => exact absurd he (((hl t).at hp).quiet rfl).2
  holds := fun t => (hl t).holds
  inLock := fun t own => (hl t).fits.inLock
  ret := fun t own r hp => ((hl t).at hp).2.2
  releasing := fun t => (hl t).fits.releasing
  splocked := fun t => (hl t).splocked
  store := fun u h hp => ((hl u).at hp).2.2
  resume := fun u h hp => ((hl u).at hp).2.2
  release := fun u h hp => ((hl u).at hp).2.2
  owner := fun t => (hl t).fits.owner rfl

/-- Two records of a thread that `Fits` does not tell apart. -/
def Alike (x y : Thread) : Prop :=
  x.waitq = y.waitq ∧ (y.waitq = true → x.lock = y.lock) ∧ (x.errorNumber = -1 ↔ y.errorNumber = -1)

lemma Alike.refl (x : Thread) : Alike x x := ⟨rfl, fun _ => rfl, Iff.rfl⟩

lemma Fits.frame (hf : Fits s u p) (hth : Alike (s'.wq.th u) (s.wq.th u)) (hh : s'.holds u = s.holds u)
    (ho : s'.owner = some u ↔ s.owner = some u)
    (hw : ∀ h, p.wakes = some h → (s.owner = some h → s'.owner = some h) ∧ ((s.wq.th h).waitq = true → s'.pc h = s.pc h) ∧
      (s'.wq.th h).waitq = (s.wq.th h).waitq ∧ (s'.wq.th h).lock = (s.wq.th h).lock) : Fits s' u p := by
  obtain ⟨h1, h2, h3⟩ := hth
  have hq : s.Quiet u → s'.Quiet u := fun hq => ⟨h1.trans hq.1, fun he => hq.2 (h3.1 he)⟩
  have how : (s.owner = some u → s.holds u = true) → s'.owner = some u → s'.holds u = true :=
    fun h ht => hh.trans (h (ho.1 ht))
  have hr : s.owner = some u ∧ s.holds u = false → s'.owner = some u ∧ s'.holds u = false :=
    fun h => ⟨ho.2 h.1, hh.trans h.2⟩
  cases p with
  | idle => exact ⟨hq hf.1, how hf.2⟩
  | asleep =>
    obtain ⟨f1, f2, f3⟩ := hf
    refine ⟨hh.trans f1, fun he => ?_, fun ht => ?_⟩
    · obtain ⟨g1, g2, g3⟩ := f2 (h3.1 he)
      exact ⟨g1, h1.trans g2, ho.2 g3⟩
    rcases f3 (ho.1 ht) with g | ⟨g1, g2, g3⟩
    · exact .inl g
    · rw [h1, h3]
      exact .inr ⟨g1, fun hw => (h2 hw).trans (g2 hw), g3⟩
  | lockRet => exact ⟨hq hf.1, how hf.2.1, hh.trans hf.2.2.1, hf.2.2.2⟩
  | unlockSplock | unlockHead => exact ⟨hq hf.1, hr hf.2⟩
  | unlockStore o =>
    cases o with
    | none => exact ⟨hq hf.1, hr hf.2⟩
    | some h =>
      obtain ⟨-, -, w1, w2⟩ := hw h rfl
      exact ⟨hq hf.1, hr hf.2.1, w1.trans hf.2.2.1, w2.trans hf.2.2.2⟩
  | unlockResume h =>
    obtain ⟨f1, f2, f3, f4, f5, f6⟩ := hf
    obtain ⟨w1, w2, w3, w4⟩ := hw h rfl
    exact ⟨hq f1, how f2, w1 f3, (w2 f5).trans f4, w3.trans f5, w4.trans f6⟩
  | unlockRelease o =>
    cases o with
    | none => exact ⟨hq hf.1, how hf.2⟩
    | some h =>
      obtain ⟨-, -, w1, w2⟩ := hw h rfl
      exact ⟨hq hf.1, how hf.2.1, w1.trans hf.2.2.1, w2.trans hf.2.2.2⟩
  | _ => exact ⟨hq hf.1, how hf.2.1, hh.trans hf.2.2⟩

lemma Inv.step_self (hi : Inv s) (hok : s'.wq.Ok) (hpc : s'.pc = update s.pc t p)
    (ht : ∀ u, u ≠ t → s'.wq.th u = s.wq.th u ∧ s'.holds u = s.holds u ∧ (s'.owner = some u ↔ s.owner = some u))
    (hsp : ∀ u, u ≠ t → (s.pc u).splocked = true → s'.splock = .held u)
    (hw : ∀ u, u ≠ t → (s.pc u).wakes = some t → (s.owner = some t → s'.owner = some t) ∧
      ((s.wq.th t).waitq = true → p = s.pc t) ∧ (s'.wq.th t).waitq = (s.wq.th t).waitq ∧
      (s'.wq.th t).lock = (s.wq.th t).lock)
    (hse : s'.holds t = true → s'.owner = some t) (hspt : p.splocked = true → s'.splock = .held t) (hf : Fits s' t p) :
    Inv s' := by
  have hpct : s'.pc t = p := hpc ▸ update_self ..
  have hpcu : ∀ u, u ≠ t → s'.pc u = s.pc u := fun u hu => hpc ▸ update_of_ne hu ..
  refine Inv.of_local hok fun u => ?_
  rcases eq_or_ne u t with rfl | hu
  · exact ⟨hse, fun h => hspt (hpct ▸ h), hpct.symm ▸ hf⟩
  obtain ⟨htu, hho, ho⟩ := ht u hu
  refine ⟨fun h => ?_, fun h => ?_, ?_⟩
  · rw [hho] at h
    exact ho.2 (hi.holds u h)
  · rw [hpcu u hu] at h
    exact hsp u hu h
  · rw [hpcu u hu]
    refine (hi.fits rfl).frame (htu ▸ Alike.refl _) hho ho fun h hwk => ?_
    rcases eq_or_ne h t with rfl | hh
    · obtain ⟨h1, h2, h3⟩ := hw u hu hwk
      exact ⟨h1, fun hw => hpct.trans (h2 hw), h3⟩
    · exact ⟨(ht h hh).2.2.2, fun _ => hpcu h hh, by rw [(ht h hh).1], by rw [(ht h hh).1]⟩

lemma Inv.move {sp : Guard} (hi : Inv s) (hq : s.Quiet t)
    (hso : ∀ u, u ≠ t → (s.pc u).splocked = true → sp = .held u) (hsp : p.splocked = true → sp = .held t)
    (hf : Fits { s.goto t p with splock := sp } t p) : Inv { s.goto t p with splock := sp } := by
  refine hi.step_self hi.wq rfl (fun _ _ => ⟨rfl, rfl, .rfl⟩) hso (fun u _ _ => ⟨id, fun hw => ?_, rfl, rfl⟩)
    (hi.holds t) hsp hf
  cases hq.1.symm.trans hw

lemma Inv.step_other {q : Pc} (hi : Inv s) (hp : s.pc t = q) (hsp : q.splocked = true) (hok : s'.wq.Ok)
    (hpc : s'.pc = update s.pc t p) (hh : s'.holds = s.holds)
    (ht : ∀ u, u ≠ t → u ≠ h → s'.wq.th u = s.wq.th u ∧ (s'.owner = some u ↔ s.owner = some u))
    (hse : s'.holds t = true → s'.owner = some t) (hspt : p.splocked = true → s'.splock = .held t) (hf : Fits s' t p)
    (hot : h ≠ t → (s'.holds h = true → s'.owner = some h) ∧ Fits s' h (s.pc h)) : Inv s' := by
  have hpct : s'.pc t = p := hpc ▸ update_self ..
  refine Inv.of_local hok fun u => ?_
  rcases eq_or_ne u t with rfl | hu
  · exact ⟨hse, fun hs => hspt (hpct ▸ hs), hpct.symm ▸ hf⟩
  -- no other thread has `splock`, so none is about to wake a waiter
  have hpcu : s'.pc u = s.pc u := hpc ▸ update_of_ne hu ..
  have hn : (s.pc u).splocked = false := held_unique hi.splocked hp hsp hu
  have hsu : (s'.pc u).splocked = true → s'.splock = .held u := fun hs => by
    rw [hpcu, hn] at hs
    cases hs
  rcases eq_or_ne u h with rfl | huh
  · obtain ⟨h1, h2⟩ := hot hu
    exact ⟨h1, hsu, hpcu.symm ▸ h2⟩
  obtain ⟨htu, ho⟩ := ht u hu huh
  refine ⟨fun hs => ?_, hsu, ?_⟩
  · rw [hh] at hs
    exact ho.2 (hi.holds u hs)
  rw [hpcu]
  refine (hi.fits rfl).frame (htu ▸ Alike.refl _) (by rw [hh]) ho fun v hw => ?_
  rw [Pc.splocked_of_wakes hw] at hn
  cases hn

lemma Inv.not_wakes (hi : Inv s) (hl : (s.wq.th t).lock = false) (u : Tid) : (s.pc u).wakes ≠ some t := by
  intro hw
  rw [(hi.fits rfl).lock hw] at hl
  cases hl

lemma Inv.asleep_of_queued (hi : Inv s) (hw : (s.wq.th t).waitq = true) : ∃ own, s.pc t = .asleep own := by
  have ha := hi.queued t hw
  cases hp : s.pc t with
  | asleep own => exact ⟨own, rfl⟩
  | _ => rw [hp] at ha; cases ha

lemma St.Quiet.unseen (hq : s.Quiet t) {P : Prop} (hw : (s.wq.th t).waitq = true) : P := by
  rw [hq.1] at hw
  cases hw

end Steps

/-! ## What a step keeps -/

lemma inv_moved {s : St} (hi : Inv s) {wq : Waitq} (h : Waitq.Moved s.wq wq) : Inv { s with wq := wq } := by
  have ho := hi.wq.moved h
  cases h with
  | same => exact hi
  | woken t st e ht hl hst he =>
    refine hi.step_self ho (update_eq_self ..).symm (fun _ hu => ⟨update_of_ne hu .., rfl, .rfl⟩)
      (fun u _ => hi.splocked u) (fun u _ hw => absurd hw (hi.not_wakes hl u)) (hi.holds t) (hi.splocked t) ?_
    obtain ⟨own, hp⟩ := hi.asleep_of_queued ht
    obtain ⟨f1, f2, f3⟩ := hi.fits hp
    rw [hp]
    refine ⟨f1, fun her => ?_, fun how => ?_⟩
    · -- an error number -1 was there before, and then the thread was not in the queue
      simp only [update_self] at her
      rcases he with rfl | he
      · have hw := (f2 her).2.1
        rw [ht] at hw
        cases hw
      · exact absurd her he
    · rcases f3 how with g | ⟨-, g, -⟩
      · exact .inl g
      · rw [g ht] at hl
        cases hl
  | kept t st e hw hs hst he =>
    have hli : Alike { s.wq.th t with errorNumber := e, state := st } (s.wq.th t) := by
      refine ⟨rfl, fun _ => rfl, ?_⟩
      rcases he with rfl | ⟨h0, he⟩
      · exact Iff.rfl
      · exact ⟨fun h => absurd h he, fun h => absurd (h0.symm.trans h) (by decide)⟩
    refine hi.step_self ho (update_eq_self ..).symm (fun _ hu => ⟨update_of_ne hu .., rfl, .rfl⟩)
      (fun u _ => hi.splocked u) (fun u _ _ => ⟨id, fun _ => rfl, by simp, by simp⟩) (hi.holds t) (hi.splocked t) ?_
    refine (hi.fits rfl).frame (by simpa using hli) rfl Iff.rfl fun h _ => ⟨id, fun _ => rfl, ?_, ?_⟩
    all_goals by_cases hh : h = t <;> simp [hh]

variable {sp : Guard} {same expired : Bool} {retries : Nat} {re : Nat} {e : Int}

section
variable {own : Bool} {t h : Tid} {s s' : St} (hi : Inv s)
include hi

lemma inv_goto {p q : Pc} (hpc : s.pc t = q) (hl : p.inLock = q.inLock) (hr : p.releasing = q.releasing)
    (hp : p.plain = true) (ha : q.isAsleep = false) (hsp : p.splocked = true → sp = .held t)
    (hso : ∀ u, u ≠ t → (s.pc u).splocked = true → sp = .held u) : Inv { s.goto t p with splock := sp } := by
  subst hpc
  have hq := hi.quiet ha
  have ho : p.releasing = false → s.owner = some t → s.holds t = true := fun h => hi.owner_holds ha (hr ▸ h)
  have hin : ∀ own, p.inLock = some own → s.holds t = own := fun own h => hi.inLock t own (hl ▸ h)
  have hre : p.releasing = true → s.owner = some t ∧ s.holds t = false := fun h => hi.releasing t (hr ▸ h)
  refine hi.move hq hso hsp ?_
  cases p with
  | idle => exact ⟨hq, ho rfl⟩
  | asleep | lockRet | unlockResume => cases hp
  | unlockSplock | unlockHead => exact ⟨hq, hre rfl⟩
  | unlockStore o =>
    cases o with
    | none => exact ⟨hq, hre rfl⟩
    | some => cases hp
  | unlockRelease o =>
    cases o with
    | none => exact ⟨hq, ho rfl⟩
    | some => cases hp
  | _ => exact ⟨hq, ho rfl, hin _ rfl⟩

lemma inv_acquire {p : Pc} (ho : s.owner = none) (ha : (s.pc t).isAsleep = false)
    (hp : p = .idle ∨ p = .lockRet false none) (hso : ∀ u, u ≠ t → (s.pc u).splocked = true → sp = .held u) :
    Inv { s with owner := some t, holds := update s.holds t true, pc := update s.pc t p, splock := sp } := by
  have hq := hi.quiet ha
  have hh : update s.holds t true t = true := update_self ..
  refine hi.step_self hi.wq rfl (fun u hu => ⟨rfl, update_of_ne hu .., ?_⟩) hso
    (fun u _ _ => ⟨fun _ => rfl, hq.unseen, rfl, rfl⟩) (fun _ => rfl) (fun h => ?_) ?_
  · rw [ho]
    exact ⟨fun h => absurd (some.inj h).symm hu, nofun⟩
  · rcases hp with rfl | rfl <;> cases h
  · rcases hp with rfl | rfl
    · exact ⟨hq, fun _ => hh⟩
    · exact ⟨hq, fun _ => hh, hh, nofun⟩

lemma inv_lockFail {q : Pc} (hpc : s.pc t = q) (hl : q.inLock = some own) (ha : q.isAsleep = false)
    (hso : ∀ u, u ≠ t → (s.pc u).splocked = true → sp = .held u) :
    Inv { s.goto t (.lockRet own (some e)) with splock := sp } := by
  have hr : q.releasing = false := by
    cases q with
    | unlockSplock | unlockHead | unlockStore => cases hl
    | _ => rfl
  subst hpc
  have hq := hi.quiet ha
  refine hi.move hq hso nofun ?_
  exact ⟨hq, hi.owner_holds ha hr, (hi.inLock t own hl).trans (Bool.or_false own).symm, nofun⟩

lemma inv_yield (hp : s.pc t = .lockYield own re) (hn : (s.wq.th t).waitq = false) :
    Inv { s.goto t (.yielding own re) with wq := s.wq.yieldStart t } := by
  have hok : (s.wq.yieldStart t).Ok := hi.wq.setTh t _ rfl (by simp [hn])
  obtain ⟨hq, ho, hh⟩ := hi.fits hp
  have ht : (s.wq.yieldStart t).th t = { s.wq.th t with errorNumber := 0, state := .ready } := update_self ..
  refine hi.step_self hok rfl (fun _ hu => ⟨update_of_ne hu .., rfl, .rfl⟩) (fun u _ => hi.splocked u)
    (fun u _ _ => ⟨id, hq.unseen, by rw [ht], by rw [ht]⟩) (hi.holds t) nofun ⟨⟨?_, ?_⟩, ho, hh⟩
  · rw [ht]
    exact hn
  · rw [ht]
    exact (by decide : (0 : Int) ≠ -1)

lemma inv_asleep (hp : s.pc t = .lockSleep own) (hn : (s.wq.th t).waitq = false) (hl : (s.wq.th t).lock = false) :
    Inv { s.goto t (.asleep own) with wq := s.wq.prepareUsleep t, splock := .deferred } := by
  obtain ⟨hq, ho, hh⟩ := hi.fits hp
  refine hi.step_self (hi.wq.prepareUsleep hn) rfl (fun _ hu => ⟨update_of_ne hu .., rfl, .rfl⟩)
    (alone hi.splocked hp rfl) (fun u _ hw => absurd hw (hi.not_wakes hl u)) (hi.holds t) nofun
    ⟨hh, fun he => absurd ?_ hq.2, fun how => .inl (hh.symm.trans (ho how))⟩
  simpa using he

/-- A sleeper runs again. It returns 0 exactly when it woke with error number
-1, which is when the mutex was handed over to it. -/
lemma inv_wake (hp : s.pc t = .asleep own) (hru : (s.wq.th t).state = .running) (hn : (s.wq.th t).waitq = false) :
    let r := waitqTranslateErrno (s.wq.th t).setErrorNumber.1
    Inv { s.goto t (.lockRet own r) with
      wq := s.wq.setTh t (s.wq.th t).setErrorNumber.2
      holds := if r = none then update s.holds t true else s.holds } := by
  intro r
  have hr : r = none ↔ (s.wq.th t).errorNumber = -1 := wait_success_iff _
  have hok : (s.wq.setTh t (s.wq.th t).setErrorNumber.2).Ok := hi.wq.setTh t _ (by simp) (by simp [hru, hn])
  have hq : St.Quiet { s with wq := s.wq.setTh t (s.wq.th t).setErrorNumber.2 } t := by
    simp [St.Quiet, hn]
  clear_value r
  obtain ⟨hh, he, ho⟩ := hi.fits hp
  refine hi.step_self hok rfl (fun u hu => ⟨update_of_ne hu .., ?_, .rfl⟩) (fun u _ => hi.splocked u)
    (fun u _ _ => ⟨id, fun hw => ?_, by simp, by simp⟩) (fun h => ?_) nofun ?_
  · dsimp only
    split
    · exact update_of_ne hu ..
    · rfl
  · rw [hn] at hw
    cases hw
  · by_cases hrn : r = none
    · exact (he (hr.1 hrn)).2.2
    · rw [if_neg hrn] at h
      exact hi.holds t h
  · cases r with
    | none =>
      obtain ⟨rfl, -⟩ := he (hr.1 rfl)
      have hht : update s.holds t true t = true := update_self ..
      rw [if_pos rfl]
      exact ⟨hq, fun _ => hht, hht, nofun⟩
    | some =>
      have hne : (s.wq.th t).errorNumber ≠ -1 := fun h => by cases hr.2 h
      rw [if_neg nofun]
      refine ⟨hq, fun how => ?_, hh.trans (Bool.or_false own).symm, nofun⟩
      rcases ho how with h | ⟨-, -, h⟩
      · exact hh.trans h
      · exact absurd (h hn) hne

lemma inv_head {q : List Tid} (hp : s.pc t = .unlockHead) (hq : s.wq.q = h :: q) :
    Inv { s.goto t (.unlockStore (some h)) with wq := s.wq.setTh h { s.wq.th h with lock := true } } := by
  have hw : (s.wq.th h).waitq = true := (hi.wq.mem_iff h).1 (by simp [hq])
  have ho : (s.wq.setTh h { s.wq.th h with lock := true }).Ok := hi.wq.setTh h _ rfl (hi.wq.sleeping_iff h)
  obtain ⟨hqt, hr⟩ := hi.fits hp
  have hn : h ≠ t := fun he => hqt.unseen (he ▸ hw)
  have hth : (s.wq.setTh h { s.wq.th h with lock := true }).th t = s.wq.th t := update_of_ne (Ne.symm hn) _ _
  have ht : (s.wq.setTh h { s.wq.th h with lock := true }).th h = { s.wq.th h with lock := true } := update_self ..
  refine hi.step_other hp rfl ho rfl rfl (fun _ _ hu => ⟨update_of_ne hu .., .rfl⟩) (hi.holds t)
    (fun _ => mine hi.splocked hp rfl) ⟨?_, hr, ?_, ?_⟩ (fun _ => ⟨hi.holds h, ?_⟩)
  · rw [St.Quiet, hth]
    exact hqt
  · rw [ht]
    exact hw
  · rw [ht]
  · obtain ⟨own, hph⟩ := hi.asleep_of_queued hw
    obtain ⟨f1, f2, f3⟩ := hi.fits hph
    rw [hph, Fits, ht]
    refine ⟨f1, f2, fun how => ?_⟩
    rcases f3 how with g | ⟨g, -, g'⟩
    · exact .inl g
    · exact .inr ⟨g, fun _ => rfl, g'⟩

/-- `owner.store(h)`: the unlocker was the only thread that could hold the
mutex, and `h` called `lock` without owning it. -/
lemma inv_store (hp : s.pc t = .unlockStore (some h)) : Inv { s.goto t (.unlockResume h) with owner := some h } := by
  obtain ⟨hq, ⟨how, hnh⟩, hw, hl⟩ := hi.fits hp
  have hne : h ≠ t := fun heq => hq.unseen (heq ▸ hw)
  obtain ⟨own, hph⟩ := hi.asleep_of_queued hw
  obtain ⟨f1, f2, -⟩ := hi.fits hph
  have hn : s.owner ≠ some h := fun ho => hne (some.inj (ho.symm.trans how))
  obtain rfl : own = false := by
    cases own with
    | false => rfl
    | true => exact absurd (hi.holds h f1) hn
  refine hi.step_other hp rfl hi.wq rfl rfl (fun u hu huh => ⟨rfl, ?_⟩) (fun hs => ?_)
    (fun _ => mine hi.splocked hp rfl) ⟨hq, fun ho => absurd (some.inj ho) hne, rfl, ?_, hw, hl⟩
    (fun _ => ⟨fun _ => rfl, ?_⟩)
  · rw [how]
    exact ⟨fun ho => absurd (some.inj ho).symm huh, fun ho => absurd (some.inj ho).symm hu⟩
  · cases hnh.symm.trans hs
  · exact (update_of_ne hne ..).trans hph
  · rw [hph]
    refine ⟨f1, fun he => absurd (f2 he).2.2 hn, fun _ => .inr ⟨rfl, fun _ => hl, fun hw' => ?_⟩⟩
    cases hw.symm.trans hw'

lemma inv_store_none (hp : s.pc t = .unlockStore none) : Inv { s.goto t (.unlockRelease none) with owner := none } := by
  obtain ⟨hq, how, hn⟩ := hi.fits hp
  refine hi.step_other hp rfl hi.wq rfl rfl (fun u hu _ => ⟨rfl, ?_⟩) (fun hs => ?_)
    (fun _ => mine hi.splocked hp rfl) ⟨hq, nofun⟩ (fun hne => absurd rfl hne)
  · rw [how]
    exact ⟨nofun, fun ho => absurd (some.inj ho).symm hu⟩
  · cases hn.symm.trans hs

lemma inv_resume (hp : s.pc t = .unlockResume h) :
    Inv { s.goto t (.unlockRelease (some h)) with wq := s.wq.prelockedThreadInterrupt h (-1) same } := by
  obtain ⟨hq, hot, how, hpf, hw, hl⟩ := hi.fits hp
  have ho := hi.wq.prelocked hw (-1) same
  rw [Waitq.prelocked_eq hw] at ho ⊢
  have hn : h ≠ t := fun he => hq.unseen (he ▸ hw)
  refine hi.step_other hp rfl ho rfl rfl (fun _ _ hu => ⟨update_of_ne hu .., .rfl⟩) (hi.holds t)
    (fun _ => mine hi.splocked hp rfl) ⟨?_, hot, ?_, ?_⟩ (fun _ => ⟨hi.holds h, ?_⟩)
  · simpa [St.Quiet, Ne.symm hn] using hq
  · simp
  · simpa using hl
  · rw [hpf]
    refine ⟨(hi.fits hpf).1, fun _ => ⟨rfl, ?_, how⟩, fun _ => .inr ⟨rfl, fun hf => ?_, fun _ => ?_⟩⟩
    · simp
    · simp at hf
    · simp

lemma inv_release (hp : s.pc t = .unlockRelease (some h)) :
    Inv { s.goto t .idle with wq := s.wq.setTh h { s.wq.th h with lock := false }, splock := .free } := by
  have ho : (s.wq.setTh h { s.wq.th h with lock := false }).Ok := hi.wq.setTh h _ rfl (hi.wq.sleeping_iff h)
  obtain ⟨hq, hot, hw, -⟩ := hi.fits hp
  -- the lock of a thread that is not in the queue matters to nobody
  have hli : ∀ u, Alike ((s.wq.setTh h { s.wq.th h with lock := false }).th u) (s.wq.th u) := by
    intro u
    rcases eq_or_ne u h with rfl | hu
    · refine ⟨by simp, fun hw' => ?_, by simp⟩
      cases hw.symm.trans hw'
    · rw [Waitq.setTh_th, if_neg hu]
      exact Alike.refl _
  refine hi.step_other hp rfl ho rfl rfl (fun _ _ hu => ⟨update_of_ne hu .., .rfl⟩) (hi.holds t) nofun
    ⟨⟨(hli t).1.trans hq.1, ?_⟩, hot⟩ (fun hne => ⟨hi.holds h, ?_⟩)
  · exact fun he => hq.2 ((hli t).2.2.1 he)
  refine (hi.fits rfl).frame (hli h) rfl Iff.rfl fun v hwk => ?_
  have hn := held_unique hi.splocked hp rfl hne
  rw [Pc.splocked_of_wakes hwk] at hn
  cases hn

lemma Inv.not_own_of_free (hl : (s.pc t).inLock = some own) (ho : s.owner = none) : own = false := by
  have hh := hi.inLock t own hl
  cases own with
  | false => rfl
  | true => rw [hi.holds t hh] at ho; cases ho

lemma inv_tryLock {no q : Pc} (hpc : s.pc t = q) (hl : q.inLock = some own) (ha : q.isAsleep = false)
    (hr : q.releasing = false) (hn : no.inLock = some own ∧ no.releasing = false ∧ no.plain = true)
    (hno : no.splocked = true → s.splock = .held t) : Inv (s.tryLock t (.lockRet own none) no) := by
  subst hpc
  unfold St.tryLock
  split
  next ho =>
    obtain rfl := hi.not_own_of_free hl ho
    exact inv_acquire hi ho ha (.inr rfl) (fun u _ => hi.splocked u)
  · exact inv_goto hi rfl (hn.1.trans hl.symm) (hn.2.1.trans hr.symm) hn.2.2 ha hno (fun u _ => hi.splocked u)

lemma inv_advance (hr : (s.wq.th t).state = .running) (h : s.advance t expired same = some s') : Inv s' := by
  have hn : (s.wq.th t).waitq = false := by
    have := hi.wq.sleeping_iff t
    simp_all
  have hk : ∀ u, u ≠ t → (s.pc u).splocked = true → s.splock = .held u := fun u _ => hi.splocked u
  unfold St.advance at h
  cases hp : s.pc t with simp only [hp] at h
  | idle | lockRet => cases h
  | lockTry own re =>
    cases h
    refine inv_tryLock hi hp rfl rfl rfl ?_ ?_
    · cases re <;> exact ⟨rfl, rfl, rfl⟩
    · cases re <;> simp [afterTry, Pc.splocked]
  | lockYield =>
    cases h
    exact inv_yield hi hp hn
  | yielding =>
    split at h <;> cases h
    · exact inv_lockFail hi hp rfl rfl hk
    · exact inv_goto hi hp rfl rfl rfl rfl nofun hk
  | lockSplock own | unlockSplock =>
    split at h <;> cases h
    rename_i hf
    exact inv_goto hi hp rfl rfl rfl rfl (fun _ => rfl) (nobody hi.splocked hf)
  | lockTryLocked =>
    split at h <;> cases h
    next ho =>
      obtain rfl := hi.not_own_of_free (by rw [hp]; rfl) ho
      simp only [St.tryLock, if_pos ho]
      exact inv_acquire hi ho (hp ▸ rfl) (.inr rfl) (alone hi.splocked hp rfl)
    · exact inv_tryLock hi hp rfl rfl rfl ⟨rfl, rfl, rfl⟩ (fun _ => mine hi.splocked hp rfl)
  | lockExpired =>
    split at h <;> cases h
    · exact inv_lockFail hi hp rfl rfl (alone hi.splocked hp rfl)
    · exact inv_goto hi hp rfl rfl rfl rfl (fun _ => mine hi.splocked hp rfl) hk
  | lockSleep =>
    split at h <;> cases h
    rename_i hl
    exact inv_asleep hi hp hn (by simpa using hl)
  | asleep =>
    cases h
    exact inv_wake hi hp hr hn
  | unlockHead =>
    split at h
    · cases h
      exact inv_goto hi hp rfl rfl rfl rfl (fun _ => mine hi.splocked hp rfl) hk
    next hq =>
      split at h <;> cases h
      exact inv_head hi hp hq
  | unlockStore o =>
    cases o with
    | none =>
      cases h
      exact inv_store_none hi hp
    | some =>
      cases h
      exact inv_store hi hp
  | unlockResume =>
    cases h
    exact inv_resume hi hp
  | unlockRelease o =>
    cases o with
    | none =>
      cases h
      exact inv_goto hi hp rfl rfl rfl rfl nofun (alone hi.splocked hp rfl)
    | some =>
      cases h
      exact inv_release hi hp

section
variable {t : Tid} (hp : s.pc t = .idle)
include hp

lemma inv_elsewhere (he : e ≠ -1) : Inv { s with wq := s.wq.setTh t { s.wq.th t with errorNumber := e } } := by
  have hok : (s.wq.setTh t { s.wq.th t with errorNumber := e }).Ok := hi.wq.setTh t _ rfl (hi.wq.sleeping_iff t)
  obtain ⟨hq, ho⟩ := hi.fits hp
  refine hi.step_self hok (update_eq_self ..).symm (fun _ hu => ⟨update_of_ne hu .., rfl, .rfl⟩)
    (fun u _ => hi.splocked u) (fun u _ _ => ⟨id, fun _ => rfl, by simp, by simp⟩) (hi.holds t) (hi.splocked t) ?_
  rw [hp]
  refine ⟨⟨?_, ?_⟩, ho⟩
  · simpa using hq.1
  · simpa using he

lemma inv_lock : Inv (s.goto t (.lockTry (s.owner = some t) re)) := by
  obtain ⟨hq, ho⟩ := hi.fits hp
  -- an idle owner holds the mutex: it was not handed over, and it is not releasing it
  have hd : s.holds t = decide (s.owner = some t) := by
    by_cases how : s.owner = some t
    · simp [how, ho how]
    · rw [decide_eq_false how]
      exact Bool.eq_false_iff.2 fun hh => how (hi.holds t hh)
  exact hi.move hq (fun u _ => hi.splocked u) nofun ⟨hq, ho, hd⟩

lemma inv_unlock (ho : s.owner = some t) : Inv { s.goto t .unlockSplock with holds := update s.holds t false } := by
  obtain ⟨hq, -⟩ := hi.fits hp
  have hh : update s.holds t false t = false := update_self ..
  exact hi.step_self hi.wq rfl (fun _ hu => ⟨rfl, update_of_ne hu .., .rfl⟩) (fun u _ => hi.splocked u)
    (fun u _ _ => ⟨id, hq.unseen, rfl, rfl⟩) (fun h => by cases hh.symm.trans h) nofun ⟨hq, ho, hh⟩

end

lemma inv_ret {r : Ret} (hp : s.pc t = .lockRet own r) : Inv (s.goto t .idle) := by
  obtain ⟨hq, ho, -⟩ := hi.fits hp
  exact hi.move hq (fun u _ => hi.splocked u) nofun ⟨hq, ho⟩

lemma inv_step {e : Ev} (h : step retries s e = some s') : Inv s' := by
  cases e with simp only [step] at h
  | env =>
    obtain ⟨wq, hw, rfl⟩ := map_eq_some_iff.1 h
    exact inv_moved hi (Waitq.env_moved hi.wq hw)
  | elsewhere =>
    split at h <;> cases h
    rename_i ht
    exact inv_elsewhere hi ht.1 ht.2
  | lock =>
    split at h <;> cases h
    exact inv_lock hi ‹_›
  | tryLock =>
    split at h <;> cases h
    rename_i hp
    unfold St.tryLock
    split
    next ho => exact inv_acquire hi ho (hp ▸ rfl) (.inl rfl) (fun u _ => hi.splocked u)
    · exact inv_goto hi hp rfl rfl rfl rfl nofun (fun u _ => hi.splocked u)
  | unlock =>
    obtain ⟨hp, h⟩ := ite_none_right_eq_some.1 h
    split at h <;> cases h
    · exact inv_unlock hi hp ‹_›
    · exact hi
  | step =>
    split at h
    next hr => exact inv_advance hi hr h
    · cases h
  | deferred =>
    split at h <;> cases h
    rename_i hd
    exact { hi with splocked := fun t ht => absurd ((hi.splocked t ht).symm.trans hd) nofun }
  | ret =>
    split at h <;> cases h
    exact inv_ret hi ‹_›

end

lemma inv_run {es : List Ev} {s : St} (h : (machine retries).run es = some s) : Inv s :=
  Machine.run_inv inv_init (inv_step ·) h

/-! ## Ownership -/

lemma step_of_handedOver {s s' : St} (hi : Inv s) {t : Tid}
    (hh : s.HandedOver t) (h : step retries s (.step t expired same) = some s') : s'.pc t = .lockRet false none := by
  obtain ⟨hp, -, he⟩ := hh
  simp only [step] at h
  split at h
  next hr =>
    have hw : (s.wq.th t).waitq = false := by simpa [hr] using mt (hi.wq.sleeping_iff t).2
    simp only [St.advance, hp] at h
    cases h
    simp [Thread.setErrorNumber, waitqTranslateErrno, he hw]
  · cases h

/-- In every state of every run: two threads never hold the mutex, and a holder
is the owner; a `lock` called by another thread than the owner returns 0
exactly when that thread is the owner now, and one called by the owner fails;
and an owner holds the mutex, or releases it, or has been handed it and its
`lock` is about to return 0. -/
theorem mutex_ownership {retries : Nat} {es : List Ev} {s : St} (h : (machine retries).run es = some s) :
    (∀ t u, s.holds t = true → s.holds u = true → t = u ∧ s.owner = some t) ∧
    (∀ t r, s.pc t = .lockRet false r → (r = none ↔ s.owner = some t)) ∧
    (∀ t r, s.pc t = .lockRet true r → r ≠ none ∧ s.owner = some t) ∧
    ∀ t, s.owner = some t → s.holds t = true ∨ (s.pc t).releasing = true ∨
      (s.pc t = .asleep false ∧ ∀ expired same s', step retries s (.step t expired same) = some s' →
        s'.pc t = .lockRet false none) := by
  have hi := inv_run h
  refine ⟨fun t u ht hu => ?_, fun t r hp => ?_, fun t r hp => ?_, fun t ho => ?_⟩
  · have ho := hi.holds t ht
    exact ⟨some.inj (ho.symm.trans (hi.holds u hu)), ho⟩
  · have hr : s.holds t = r.isNone := by simpa using (hi.ret t false r hp).1
    constructor
    · rintro rfl
      exact hi.holds t hr
    intro ho
    rcases hi.owner t ho with hh | hh | hh
    · exact isNone_iff_eq_none.1 (hr.symm.trans hh)
    · simp [hp, Pc.releasing] at hh
    · simp [hh.1] at hp
  · obtain ⟨hh, hr⟩ := hi.ret t true r hp
    exact ⟨hr rfl, hi.holds t (by simpa using hh)⟩
  · rcases hi.owner t ho with hh | hh | hh
    · exact .inl hh
    · exact .inr (.inl hh)
    · exact .inr (.inr ⟨hh.1, fun _ _ _ => step_of_handedOver hi hh⟩)

/-- Thread 1 sleeps for the mutex that thread 0 holds, and is handed it. -/
def handOver : List Ev := [.lock 0, .step 0 false true, .ret 0,
    .lock 1, .step 1 false true, .step 1 false true, .step 1 false true, .step 1 false true, .step 1 false true,
    .deferred, .unlock 0, .step 0 false true, .step 0 false true, .step 0 false true, .step 0 false true,
    .step 0 false true, .env (.run 1), .step 1 false true]

theorem mutex_ownership_handOver :
    ∃ s, (machine 0).run handOver = some s ∧ s.pc 1 = .lockRet false none ∧ s.owner = some 1 := by
  have h : ((machine 0).run handOver).map (fun s => s.pc 1) = some (.lockRet false none) := by decide
  obtain ⟨s, hs, hp⟩ := map_eq_some_iff.1 h
  exact ⟨s, hs, hp, ((mutex_ownership hs).2.1 1 none hp).1 rfl⟩

/-- An owner that locks again is refused while it is still the owner. -/
theorem relock_fails_while_owner :
    ∃ s, (machine 0).run [.lock 0, .step 0 false true, .ret 0, .lock 0, .step 0 false true, .step 0 false true,
        .step 0 false true, .step 0 true true] = some s ∧
      s.pc 0 = .lockRet true (some ETIMEDOUT) ∧ s.owner = some 0 := by
  refine ⟨_, rfl, ?_, ?_⟩ <;> decide

/-! ## No waiter is forgotten -/

/-- A thread that is to sleep has found an owner, and one that is to store none has found no waiter. -/
def Saw (s : St) : Pc → Prop
  | .lockExpired _ | .lockSleep _ => s.owner ≠ none
  | .unlockStore none => s.wq.q = []
  | _ => True

/-- A free mutex has no waiter. -/
structure Served (s : St) : Prop where
  free : s.owner = none → s.wq.q = []
  saw : ∀ t, Saw s (s.pc t)

section
variable {s s' : St} {t : Tid} {p q : Pc}

lemma Served.move (h : Served s) (hpc : s'.pc = update s.pc t p) (hs : Saw s p)
    (hq : s.wq.q = [] → s'.wq.q = []) (ho : s'.owner = none → s.owner = none) : Served s' := by
  have hk : ∀ p, Saw s p → Saw s' p := fun p hs => by
    cases p with
    | lockExpired | lockSleep => exact mt ho hs
    | unlockStore o => cases o <;> [exact hq hs; trivial]
    | _ => trivial
  refine ⟨fun hn => hq (h.free (ho hn)), fun u => ?_⟩
  rw [hpc, update_apply]
  split
  · exact hk p hs
  · exact hk _ (h.saw u)

lemma Served.locked (hi : Inv s) (hp : s.pc t = q) (hl : q.splocked = true) (hpc : s'.pc = update s.pc t p)
    (hs : Saw s' p) (hf : s'.owner = none → s'.wq.q = []) : Served s' := by
  refine ⟨hf, fun u => ?_⟩
  rw [hpc, update_apply]
  split
  · exact hs
  next hu =>
    have hn := held_unique hi.splocked hp hl hu
    cases hpu : s.pc u with
    | lockExpired | lockSleep | unlockStore =>
      rw [hpu] at hn
      cases hn
    | _ => trivial

lemma served_advance (hi : Inv s) (h : Served s) {expired same : Bool} (ha : s.advance t expired same = some s') :
    Served s' := by
  have hs := h.saw t
  unfold St.advance St.tryLock at ha
  cases hp : s.pc t with simp only [hp] at ha hs
  | idle | lockRet => cases ha
  | lockTry own re =>
    cases ha
    split
    · exact h.move rfl trivial id nofun
    · exact h.move rfl (by cases re <;> trivial) id id
  | lockTryLocked =>
    split at ha <;> cases ha
    · exact h.move rfl trivial id nofun
    next ho => exact h.move rfl ho id id
  | lockExpired =>
    split at ha <;> cases ha
    · exact h.move rfl trivial id id
    · exact h.move rfl hs id id
  | lockSleep =>
    split at ha <;> cases ha
    exact .locked hi hp rfl rfl trivial fun hn => absurd hn hs
  | unlockHead =>
    split at ha
    next hq =>
      cases ha
      exact h.move rfl hq id id
    · split at ha <;> cases ha
      exact h.move rfl trivial id id
  | unlockStore o =>
    cases o <;> cases ha
    · exact .locked hi hp rfl rfl trivial fun _ => hs
    · exact h.move rfl trivial id nofun
  | unlockResume =>
    cases ha
    refine h.move rfl trivial (fun hq => ?_) id
    simp [Waitq.prelocked_eq (hi.resume t _ hp).2.2.1, hq]
  | unlockRelease o => cases o <;> cases ha <;> exact h.move rfl trivial id id
  | lockYield | asleep =>
    cases ha
    exact h.move rfl trivial id id
  | _ =>
    split at ha <;> cases ha
    all_goals exact h.move rfl trivial id id

lemma served_step {retries : Nat} {e : Ev} (hi : Inv s) (h : Served s) (he : step retries s e = some s') : Served s' := by
  cases e with simp only [step, St.tryLock] at he
  | env =>
    obtain ⟨wq, hw, rfl⟩ := map_eq_some_iff.1 he
    refine h.move (t := 0) (update_eq_self ..).symm (h.saw 0) (fun hq => ?_) id
    cases Waitq.env_moved hi.wq hw <;> simp [hq]
  | lock | ret =>
    split at he <;> cases he
    exact h.move rfl trivial id id
  | tryLock =>
    split at he <;> cases he
    split
    · exact h.move rfl trivial id nofun
    · exact h.move rfl trivial id id
  | unlock =>
    obtain ⟨-, he⟩ := ite_none_right_eq_some.1 he
    split at he <;> cases he
    · exact h.move rfl trivial id id
    · exact h
  | step =>
    split at he
    · exact served_advance hi h he
    · cases he
  | elsewhere | deferred =>
    split at he <;> cases he
    exact ⟨h.free, h.saw⟩

end

/-- As long as a thread sleeps for the mutex there is an owner, which holds it, releases it, or was handed it. -/
theorem mutex_waiter_not_forgotten {retries : Nat} {es : List Ev} {s : St} (h : (machine retries).run es = some s)
    {t : Tid} (ht : t ∈ s.wq.q) :
    ∃ u, s.owner = some u ∧ (s.holds u = true ∨ (s.pc u).releasing = true ∨ s.HandedOver u) := by
  have h0 : Served (machine retries).init := ⟨fun _ => rfl, fun _ => trivial⟩
  have hi := Machine.run_inv (I := fun s => Inv s ∧ Served s) ⟨inv_init, h0⟩
    (fun hi he => ⟨inv_step hi.1 he, served_step hi.1 hi.2 he⟩) h
  cases ho : s.owner with
  | none => simp [hi.2.free ho] at ht
  | some u => exact ⟨u, rfl, hi.1.owner u ho⟩

theorem mutex_waiter_not_forgotten_one : ∃ s, (machine 0).run (handOver.take 9) = some s ∧ 1 ∈ s.wq.q ∧
    ∃ u, s.owner = some u ∧ (s.holds u = true ∨ (s.pc u).releasing = true ∨ s.HandedOver u) := by
  have h : ((machine 0).run (handOver.take 9)).map (fun s => s.wq.q) = some [1] := by decide
  obtain ⟨s, hs, hq⟩ := map_eq_some_iff.1 h
  have ht : 1 ∈ s.wq.q := by simp [hq]
  exact ⟨s, hs, ht, mutex_waiter_not_forgotten hs ht⟩

end Photon.Mutex
