import Photon.Lib.Machine
import Photon.Lib.Roster
import Photon.Thread.Basic
/-!
# ObjectCacheV2

A box is in the map until the expiry timer erases it. `rc` counts the `Borrow` objects
that refer to the box and the calls of `borrow` and `update` that work on it. What a
function does under `maplock` is one step, and so is every other access to a box.
`borrow` and `update` build the `Borrow` they return in place.

`Borrow`'s move assignment is the default one, which copies `_box` and leaves it in the
object that is moved from, and the destructor uses `_box` whatever it is. So a `Borrow`
that is moved releases its box twice (`moved_borrow`), one that is assigned to does not
release the box it had, and an empty one faults. The destructor also looks at the box
after it has released it, when the box may be gone.

- `borrow_references`: as long as nobody does the like, `rc` is the number of `Borrow`
  objects and calls that refer to a box, and the box they refer to is there.

`rc` is an integer: the `uint64_t` goes below 0 as far as the code can see, and is
taken not to come round. `_oc` is null just where `_box` is, and is left out.
-/

namespace Photon.ObjectCacheV2

open List Function Option Roster

variable {K V : Type}

/-- `createlock` is the thread that holds it. -/
structure Box (K V : Type) where
  key : K
  ref : Option V := none
  createlock : Option Nat := none
  lastcreate : Nat := 0
  timestamp : Nat := 0
  rc : Int := 0

def Box.update (x : Box K V) (r : Option V) (ts : Nat) : Box K V := { x with ref := r, lastcreate := ts }

def Box.reset (x : Box K V) : Box K V := x.update none 0

def Box.acquire (x : Box K V) (now : Nat) : Box K V := { x with timestamp := now, rc := x.rc + 1 }

def Box.release (x : Box K V) (now : Nat) : Box K V := { x with timestamp := now, rc := x.rc - 1 }

structure Borrow (V : Type) where
  box : Option Nat := none
  reader : Option V := none
  recycle : Bool := false

/-- The boxes by their address, `lru_list`, and the `Borrow` objects, `none` for those destroyed. `fault` says that a
null pointer or a box that is not there was used. -/
structure Data (K V : Type) where
  boxes : Nat → Option (Box K V) := fun _ => none
  next : Nat := 0
  lru : List Nat := []
  now : Nat := 0
  borrows : List (Option (Borrow V)) := []
  fault : Bool := false

open Data

inductive Call where
  | borrow (cooldown : Nat)
  | update

inductive Pc (K V : Type) where
  | idle
  /-- Before `__find_or_create_box`. -/
  | find (key : K) (call : Call)
  /-- Before `createlock.try_lock()`. -/
  | tryLock (b cooldown : Nat)
  | locked (b cooldown : Nat)
  /-- There is an object: `createlock.unlock()`, and then once more round the loop. -/
  | unlockRetry (b cooldown : Nat)
  /-- In `thread_yield()`. -/
  | yield (b cooldown : Nat)
  /-- In `ctor()`; `locked` in `borrow`, under `createlock`. -/
  | create (b : Nat) (locked : Bool)
  /-- Before `Borrow(this, &box, r)`. -/
  | make (b : Nat) (r : Option V) (locked : Bool)
  | unlock (b : Nat)
  /-- Before the deferred `box.release()`. -/
  | release (b : Nat)
  /-- In `~Borrow()`, before `_box->release()`. -/
  | dtor (b : Nat) (recycle : Bool)
  /-- Before `if (_box->rc == 0)`. -/
  | released (b : Nat)
  /-- Before `SCOPED_LOCK(_oc->maplock)`. -/
  | requeue (b : Nat)
  /-- In `__expire()`, before `SCOPED_LOCK(maplock)`. -/
  | expire (before : Nat)

structure St (K V : Type) where
  data : Data K V := {}
  threads : List (Pc K V)

inductive Ev (K V : Type) where
  | call (t : Nat) (key : K) (call : Call)
  | expire (t : Nat)
  | step (t : Nat)
  /-- The constructor that thread `t` runs returns this object. -/
  | constructed (t : Nat) (obj : Option V)
  | defaultConstruct
  | moveConstruct (src : Nat)
  | moveAssign (dst src : Nat)
  | recycle (w : Nat) (x : Bool)
  | destroy (t w : Nat)
  | time (now : Nat)

section Code
variable [DecidableEq K]

def Data.setBox (d : Data K V) (b : Nat) (x : Box K V) : Data K V :=
  { d with boxes := update d.boxes b (some x) }

/-- Code at `p` that goes on with box `b`. -/
def Data.access (d : Data K V) (p : Pc K V) (b : Nat) (f : Box K V → Data K V × Pc K V) : Data K V × Pc K V :=
  match d.boxes b with
  | some x => f x
  | none => ({ d with fault := true }, p)

def Data.find (d : Data K V) (key : K) : Option Nat :=
  (range d.next).find? fun b => (d.boxes b).any fun x => x.key = key

/-- `__find_or_create_box` when there is no box of the key. -/
def Data.insert (d : Data K V) (key : K) : Data K V :=
  { d.setBox d.next (Box.acquire { key := key } d.now) with next := d.next + 1 }

def eraseKey (boxes : Nat → Option (Box K V)) (key : K) : Nat → Option (Box K V) :=
  fun b => (boxes b).filter fun x => x.key ≠ key

/-- The loop of `__expire`; `none` when the list has a box that is not there. The objects it keeps until the lock is
left are destroyed then. -/
def expireLoop (before : Nat) : (Nat → Option (Box K V)) → List Nat → Option ((Nat → Option (Box K V)) × List Nat)
  | boxes, [] => some (boxes, [])
  | boxes, b :: lru =>
    match boxes b with
    | none => none
    | some x =>
      if x.timestamp < before then expireLoop before (if x.rc = 0 then eraseKey boxes x.key else boxes) lru
      else some (boxes, b :: lru)

def Data.expire (d : Data K V) (before : Nat) : Data K V × Nat :=
  match d.lru with
  | [] => (d, 0)
  | b :: _ =>
    match d.boxes b with
    | none => ({ d with fault := true }, 0)
    | some x =>
      if x.timestamp > before then (d, x.timestamp - before)
      else
        match expireLoop before d.boxes d.lru with
        | some (boxes, lru) => ({ d with boxes := boxes, lru := lru }, 0)
        | none => ({ d with fault := true }, 0)

def Call.start (b : Nat) : Call → Pc K V
  | .borrow cooldown => .tryLock b cooldown
  | .update => .create b false

/-- A step of thread `t`; a constructor that runs ends by an event of its own. -/
def advance (d : Data K V) (t : Nat) : Pc K V → Option (Data K V × Pc K V)
  | .idle | .create _ _ => none
  | .find key call =>
    match d.find key with
    | none => some (d.insert key, call.start d.next)
    | some b => some <| d.access (.find key call) b fun x =>
      ({ d.setBox b (x.acquire d.now) with lru := d.lru.erase b }, call.start b)
  | .tryLock b cooldown => some <| d.access (.tryLock b cooldown) b fun x =>
    if x.createlock = none then (d.setBox b { x with createlock := some t }, .locked b cooldown)
    else (d, .yield b cooldown)
  | .locked b cooldown => some <| d.access (.locked b cooldown) b fun x =>
    (d, if x.ref.isSome then .unlockRetry b cooldown
      else if satAdd x.lastcreate cooldown ≤ d.now then .create b true else .make b none true)
  | .unlockRetry b cooldown => some <| d.access (.unlockRetry b cooldown) b fun x =>
    (d.setBox b { x with createlock := none }, .yield b cooldown)
  | .yield b cooldown => some <| d.access (.yield b cooldown) b fun x =>
    (d, if x.ref.isSome then .make b x.ref false else .tryLock b cooldown)
  | .make b r locked => some <| d.access (.make b r locked) b fun x =>
    ({ d.setBox b (x.acquire d.now) with borrows := d.borrows ++ [some { box := some b, reader := r }] },
      if locked then .unlock b else .release b)
  | .unlock b => some <| d.access (.unlock b) b fun x => (d.setBox b { x with createlock := none }, .release b)
  | .release b => some <| d.access (.release b) b fun x => (d.setBox b (x.release d.now), .idle)
  | .dtor b true => some <| d.access (.dtor b true) b fun x => (d.setBox b x.reset, .dtor b false)
  | .dtor b false => some <| d.access (.dtor b false) b fun x => (d.setBox b (x.release d.now), .released b)
  | .released b => some <| d.access (.released b) b fun x => (d, if x.rc = 0 then .requeue b else .idle)
  | .requeue b => some <| d.access (.requeue b) b fun _ => ({ d with lru := d.lru.erase b ++ [b] }, .idle)
  | .expire before => some ((d.expire before).1, .idle)

/-- `*dst = std::move(*src)`, member by member. -/
def Data.moveAssign (d : Data K V) (dst src : Nat) (r : Borrow V) : Data K V :=
  if dst = src then d
  else { d with borrows := (d.borrows.set dst (some r)).set src (some { r with reader := none }) }

def step (lifespan : Nat) (s : St K V) (e : Ev K V) : Option (St K V) :=
  if s.data.fault then none
  else
    match e with
    | .call t key call =>
      match s.threads[t]? with
      | some .idle => some { s with threads := s.threads.set t (.find key call) }
      | _ => none
    | .expire t =>
      match s.threads[t]? with
      | some .idle => some { s with threads := s.threads.set t (.expire (s.data.now - lifespan)) }
      | _ => none
    | .step t => s.threads[t]?.bind fun p => (advance s.data t p).map fun r => ⟨r.1, s.threads.set t r.2⟩
    | .constructed t obj =>
      match s.threads[t]? with
      | some (.create b locked) =>
        let r := s.data.access (.create b locked) b fun x =>
          (s.data.setBox b (x.update obj s.data.now), .make b obj locked)
        some ⟨r.1, s.threads.set t r.2⟩
      | _ => none
    | .defaultConstruct => some { s with data := { s.data with borrows := s.data.borrows ++ [some ({} : Borrow V)] } }
    | .moveConstruct src =>
      match s.data.borrows[src]? with
      | some (some r) =>
        let d := { s.data with borrows := s.data.borrows ++ [some ({} : Borrow V)] }
        some { s with data := d.moveAssign s.data.borrows.length src r }
      | _ => none
    | .moveAssign dst src =>
      match s.data.borrows[dst]?, s.data.borrows[src]? with
      | some (some _), some (some r) => some { s with data := s.data.moveAssign dst src r }
      | _, _ => none
    | .recycle w x =>
      match s.data.borrows[w]? with
      | some (some r) =>
        some { s with data := { s.data with borrows := s.data.borrows.set w (some { r with recycle := x }) } }
      | _ => none
    | .destroy t w =>
      match s.threads[t]?, s.data.borrows[w]? with
      | some .idle, some (some r) =>
        match r.box with
        | some b => some ⟨{ s.data with borrows := s.data.borrows.set w none }, s.threads.set t (.dtor b r.recycle)⟩
        | none => some { s with data := { s.data with fault := true } }
      | _, _ => none
    | .time now => some { s with data := { s.data with now := now } }

def machine (K V : Type) [DecidableEq K] (lifespan n : Nat) : Machine (St K V) (Ev K V) :=
  ⟨{ threads := replicate n .idle }, step lifespan⟩

end Code

/-! ## The boxes -/

def Data.rcOf (d : Data K V) (b : Nat) : Int :=
  match d.boxes b with
  | some x => x.rc
  | none => 0

structure Good (d : Data K V) : Prop where
  fresh : ∀ b, d.next ≤ b → d.boxes b = none
  keys : ∀ b c x y, d.boxes b = some x → d.boxes c = some y → x.key = y.key → b = c
  lru_nodup : d.lru.Nodup
  lru_live : ∀ b ∈ d.lru, (d.boxes b).isSome = true
  sound : d.fault = false

variable {d d' : Data K V} {b : Nat} {x x' : Box K V}

lemma Data.rcOf_eq (h : d.boxes b = some x) : d.rcOf b = x.rc := by rw [rcOf, h]

lemma Data.rcOf_of_none (h : d.boxes b = none) : d.rcOf b = 0 := by rw [rcOf, h]

lemma Data.rcOf_congr (h : d'.boxes b = d.boxes b) : d'.rcOf b = d.rcOf b := by rw [rcOf, h, rcOf]

lemma Data.exists_box (h : d.rcOf b ≠ 0) : ∃ x, d.boxes b = some x := by
  cases hx : d.boxes b with
  | some x => exact ⟨x, rfl⟩
  | none => exact absurd (rcOf_of_none hx) h

variable {key : K} {lru : List Nat} {boxes : Nat → Option (Box K V)} {borrows : List (Option (Borrow V))}

lemma Data.find_some [DecidableEq K] (h : d.find key = some b) : ∃ x, d.boxes b = some x ∧ x.key = key := by
  have := List.find?_some h
  simpa [Option.any_eq_true] using this

lemma Data.find_none [DecidableEq K] (hg : Good d) (h : d.find key = none) (hx : d.boxes b = some x) : x.key ≠ key := by
  have hlt : b < d.next := Nat.lt_of_not_le fun hle => by
    rw [hg.fresh b hle] at hx
    cases hx
  have := find?_eq_none.1 h b (mem_range.2 hlt)
  simpa [hx] using this

lemma Data.setBox_borrows (d : Data K V) (b : Nat) (x : Box K V) : (d.setBox b x).borrows = d.borrows := rfl

lemma Good.setBox (hg : Good d) (hx : d.boxes b = some x) (hk : x'.key = x.key) (hn : lru.Nodup)
    (hl : ∀ c ∈ lru, c ∈ d.lru) (borrows : List (Option (Borrow V))) :
    Good { d.setBox b x' with lru := lru, borrows := borrows } := by
  have hse : update d.boxes b (some x') b = some x' := update_self ..
  have hne : ∀ c, c ≠ b → update d.boxes b (some x') c = d.boxes c := fun c hc => update_of_ne hc ..
  -- each box that is there was there under the same key
  have ho : ∀ c y, update d.boxes b (some x') c = some y → ∃ z, d.boxes c = some z ∧ z.key = y.key := by
    intro c y hy
    rcases eq_or_ne c b with rfl | hc
    · cases hse.symm.trans hy
      exact ⟨x, hx, hk.symm⟩
    · exact ⟨y, (hne c hc).symm.trans hy, rfl⟩
  refine ⟨fun c hc => ?_, fun c e y z hy hz hyz => ?_, hn, fun c hc => ?_, hg.sound⟩
  · have hcb : c ≠ b := by
      rintro rfl
      rw [hg.fresh c hc] at hx
      cases hx
    exact (hne c hcb).trans (hg.fresh c hc)
  · obtain ⟨y', hy', hky⟩ := ho c y hy
    obtain ⟨z', hz', hkz⟩ := ho e z hz
    exact hg.keys c e y' z' hy' hz' (hky.trans (hyz.trans hkz.symm))
  · by_cases hcb : c = b
    · rw [hcb]
      exact congrArg isSome hse
    · exact (congrArg isSome (hne c hcb)).trans (hg.lru_live c (hl c hc))

lemma rcOf_setBox (c : Nat) :
    rcOf { d.setBox b x' with lru := lru, borrows := borrows } c = if c = b then x'.rc else d.rcOf c := by
  rcases eq_or_ne c b with rfl | hc
  · simp [rcOf, setBox]
  · simp [rcOf, setBox, hc]

lemma Good.insert [DecidableEq K] (hg : Good d) (h : d.find key = none) : Good (d.insert key) := by
  have hse : (d.insert key).boxes d.next = some (Box.acquire { key := key } d.now) := update_self ..
  have hn : ∀ c, c ≠ d.next → (d.insert key).boxes c = d.boxes c := fun c hc => update_of_ne hc ..
  refine ⟨fun c hc => ?_, fun c e y z hy hz hyz => ?_, hg.lru_nodup, fun c hc => ?_, hg.sound⟩
  · have hc : d.next < c := hc
    rw [hn c (by omega)]
    exact hg.fresh c (by omega)
  · by_cases hcn : c = d.next
    · by_cases he : e = d.next
      · rw [hcn, he]
      · subst hcn
        cases hse.symm.trans hy
        exact absurd hyz.symm (find_none hg h ((hn e he).symm.trans hz))
    · have hy' := (hn c hcn).symm.trans hy
      rcases eq_or_ne e d.next with rfl | he
      · cases hse.symm.trans hz
        exact absurd hyz (find_none hg h hy')
      · exact hg.keys c e y z hy' ((hn e he).symm.trans hz) hyz
  · have hlive := hg.lru_live c hc
    have hcn : c ≠ d.next := by
      rintro rfl
      rw [hg.fresh _ le_rfl] at hlive
      cases hlive
    rw [hn c hcn]
    exact hlive

lemma eraseKey_eq [DecidableEq K] (hk : ∀ b c x y, boxes b = some x → boxes c = some y → x.key = y.key → b = c)
    (hx : boxes b = some x) : eraseKey boxes x.key = update boxes b none := by
  funext c
  rcases eq_or_ne c b with rfl | hc
  · simp [eraseKey, hx]
  rw [update_of_ne hc, eraseKey]
  cases hy : boxes c with
  | none => rfl
  | some y =>
    have hn : y.key ≠ x.key := fun he => hc (hk c b y x hy hx he)
    simp [hn]

/-- The loop erases boxes of the list that were not used for the lifespan and that nobody refers to. -/
lemma expireLoop_spec [DecidableEq K] (before : Nat)
    (hke : ∀ b c x y, boxes b = some x → boxes c = some y → x.key = y.key → b = c) (hn : lru.Nodup)
    (hli : ∀ b ∈ lru, (boxes b).isSome = true) :
    ∃ boxes' lru', expireLoop before boxes lru = some (boxes', lru') ∧ lru'.Sublist lru ∧
      (∀ b ∈ lru', boxes' b = boxes b) ∧
      ∀ b, boxes' b = boxes b ∨ boxes' b = none ∧ b ∈ lru ∧
        ∃ x, boxes b = some x ∧ x.rc = 0 ∧ x.timestamp < before := by
  induction lru generalizing boxes with
  | nil => exact ⟨boxes, [], rfl, Sublist.refl _, fun _ _ => rfl, fun _ => .inl rfl⟩
  | cons b lru ih =>
    obtain ⟨hb, hn⟩ := nodup_cons.1 hn
    obtain ⟨x, hx⟩ := isSome_iff_exists.1 (hli b mem_cons_self)
    have hl' : ∀ c ∈ lru, (boxes c).isSome = true := fun c hc => hli c (mem_cons_of_mem _ hc)
    simp only [expireLoop, hx]
    split
    next hlt =>
      split
      next h0 =>
        rw [eraseKey_eq hke hx]
        have hne : ∀ c, c ≠ b → update boxes b none c = boxes c := fun c hc => update_of_ne hc ..
        have hbc : ∀ c ∈ lru, c ≠ b := fun c hc he => hb (he ▸ hc)
        -- what is left has the keys it had
        have hk' : ∀ c e y z, update boxes b none c = some y → update boxes b none e = some z →
            y.key = z.key → c = e := by
          intro c e y z hy hz
          have hcb : c ≠ b := by rintro rfl; rw [update_self] at hy; cases hy
          have heb : e ≠ b := by rintro rfl; rw [update_self] at hz; cases hz
          exact hke c e y z ((hne c hcb).symm.trans hy) ((hne e heb).symm.trans hz)
        obtain ⟨boxes', lru', he, hsu, hk, ha⟩ := ih hk' hn (fun c hc => by rw [hne c (hbc c hc)]; exact hl' c hc)
        refine ⟨boxes', lru', he, hsu.trans (sublist_cons_self ..), fun c hc => ?_, fun c => ?_⟩
        · rw [hk c hc, hne c (hbc c (hsu.subset hc))]
        rcases eq_or_ne c b with rfl | hcb
        · refine .inr ⟨?_, mem_cons_self, x, hx, h0, hlt⟩
          rcases ha c with h | ⟨h, -⟩
          · rw [h, update_self]
          · exact h
        · rcases ha c with h | ⟨h, hc, hy⟩
          · exact .inl (h.trans (hne c hcb))
          · rw [hne c hcb] at hy
            exact .inr ⟨h, mem_cons_of_mem _ hc, hy⟩
      · obtain ⟨boxes', lru', he, hsu, hk, ha⟩ := ih hke hn hl'
        refine ⟨boxes', lru', he, hsu.trans (sublist_cons_self ..), hk, fun c => ?_⟩
        rcases ha c with h | ⟨h, hc, hy⟩
        · exact .inl h
        · exact .inr ⟨h, mem_cons_of_mem _ hc, hy⟩
    · exact ⟨boxes, b :: lru, rfl, Sublist.refl _, fun _ _ => rfl, fun _ => .inl rfl⟩

lemma Good.expire_spec [DecidableEq K] (hg : Good d) (before : Nat) :
    ∃ boxes lru, (d.expire before).1 = { d with boxes := boxes, lru := lru } ∧
      Good { d with boxes := boxes, lru := lru } ∧
      ∀ b, boxes b = d.boxes b ∨ boxes b = none ∧ b ∈ d.lru ∧
        ∃ x, d.boxes b = some x ∧ x.rc = 0 ∧ x.timestamp < before := by
  have hsa : ∃ boxes lru, d = { d with boxes := boxes, lru := lru } ∧ Good { d with boxes := boxes, lru := lru } ∧
      ∀ b, boxes b = d.boxes b ∨ boxes b = none ∧ b ∈ d.lru ∧
        ∃ x, d.boxes b = some x ∧ x.rc = 0 ∧ x.timestamp < before :=
    ⟨d.boxes, d.lru, rfl, hg, fun _ => .inl rfl⟩
  cases hl : d.lru with
  | nil => simpa only [expire, hl] using hsa
  | cons b =>
    obtain ⟨x, hx⟩ := isSome_iff_exists.1 (hg.lru_live b (by rw [hl]; exact mem_cons_self))
    by_cases hgt : x.timestamp > before
    · simpa only [expire, hl, hx, if_pos hgt] using hsa
    obtain ⟨boxes, lru', he, hsu, hk, ha⟩ := expireLoop_spec before hg.keys hg.lru_nodup hg.lru_live
    rw [← hl]
    refine ⟨boxes, lru', ?_, ⟨fun c hc => ?_, fun c e y z hy hz => ?_, hg.lru_nodup.sublist hsu, fun c hc => ?_,
      hg.sound⟩,
      ha⟩
    · rw [hl] at he
      simp only [expire, hl, hx, if_neg hgt, he]
    · have ho := hg.fresh c hc
      rcases ha c with h | ⟨h, -⟩
      · exact h.trans ho
      · exact h
    · have ho : ∀ c y, boxes c = some y → d.boxes c = some y := by
        intro c y hy
        rcases ha c with h | ⟨h, -⟩
        · exact h.symm.trans hy
        · cases h.symm.trans hy
      exact hg.keys c e y z (ho c y hy) (ho e z hz)
    · exact (congrArg isSome (hk c hc)).trans (hg.lru_live c (hsu.subset hc))

/-! ## Who refers to a box -/

/-- The box that a call, or a destructor that has not released it yet, works on. -/
def Pc.uses : Pc K V → Option Nat
  | .tryLock b _ | .locked b _ | .unlockRetry b _ | .yield b _ | .create b _ | .make b _ _ | .unlock b | .release b
  | .dtor b _ => some b
  | _ => none

/-- The box that a destructor has released and still looks at. -/
def Pc.leaving : Pc K V → Option Nat
  | .released b | .requeue b => some b
  | _ => none

def Pc.usesBox (b : Nat) (p : Pc K V) : Bool := p.uses = some b

def refersTo (b : Nat) : Option (Borrow V) → Bool
  | some r => r.box = some b
  | none => false

/-- References to box `b` among the `Borrow` objects and in one thread. -/
def refs (borrows : List (Option (Borrow V))) (p : Pc K V) (b : Nat) : Nat :=
  borrows.countP (refersTo b) + if p.usesBox b then 1 else 0

/-- A step of a thread from `p` to `p'`: `rc` follows the references, and only `__expire` erases boxes. -/
structure Keeps (d : Data K V) (p : Pc K V) (d' : Data K V) (p' : Pc K V) : Prop where
  good : Good d'
  balance : ∀ b, d'.rcOf b + refs d.borrows p b = d.rcOf b + refs d'.borrows p' b
  stays : ∀ b x, d.boxes b = some x →
    (d'.boxes b).isSome = true ∨ ∃ before, p = .expire before ∧ b ∈ d.lru ∧ x.timestamp < before
  leaves : ∀ b, p'.leaving = some b → (d'.boxes b).isSome = true

open Keeps

variable {p p' : Pc K V} {t : Nat}

lemma refs_congr (h : p'.uses = p.uses) (borrows : List (Option (Borrow V))) (b : Nat) :
    refs borrows p' b = refs borrows p b := by rw [refs, refs, Pc.usesBox, Pc.usesBox, h]

lemma refs_of_uses (h : p.uses = some b) (c : Nat) :
    refs borrows p c = borrows.countP (refersTo c) + if b = c then 1 else 0 := by
  simp [refs, Pc.usesBox, h]

lemma refs_of_none (h : p.uses = none) (c : Nat) : refs borrows p c = borrows.countP (refersTo c) := by
  simp [refs, Pc.usesBox, h]

section
variable (hg : Good d)
include hg

lemma Keeps.move (hn : lru.Nodup) (hli : ∀ b ∈ lru, (d.boxes b).isSome = true)
    (hu : p'.uses = p.uses) (hl : ∀ b, p'.leaving = some b → (d.boxes b).isSome = true) :
    Keeps d p { d with lru := lru } p' where
  good := ⟨hg.fresh, hg.keys, hn, hli, hg.sound⟩
  balance := fun b => by rw [refs_congr hu]; rfl
  stays := fun b x hx => .inl (hx ▸ rfl)
  leaves := hl

section
variable (hx : d.boxes b = some x)
include hx

lemma Keeps.setBox (hk : x'.key = x.key) (hn : lru.Nodup) (hlr : ∀ c ∈ lru, c ∈ d.lru)
    (ho : ∀ c, c ≠ b → refs borrows p' c = refs d.borrows p c)
    (hse : x'.rc + refs d.borrows p b = x.rc + refs borrows p' b) (hl : ∀ c, p'.leaving = some c → c = b) :
    Keeps d p { d.setBox b x' with lru := lru, borrows := borrows } p' := by
  have hli : ∀ c y, d.boxes c = some y → (update d.boxes b (some x') c).isSome = true := by
    intro c y hy
    by_cases hc : c = b
    · rw [hc, update_self]
      rfl
    · rw [update_of_ne hc, hy]
      rfl
  refine ⟨hg.setBox hx hk hn hlr borrows, fun c => ?_, fun c y hy => .inl (hli c y hy), fun c hc => ?_⟩
  · rw [rcOf_setBox]
    rcases eq_or_ne c b with rfl | hc
    · rw [if_pos rfl, rcOf_eq hx]
      exact hse
    · rw [if_neg hc, ho c hc]
  · rw [hl c hc]
    exact hli b x hx

lemma Keeps.touch {r c l m} (hp' : p'.uses = p.uses) (hl : p'.leaving = none) :
    Keeps d p (d.setBox b ⟨x.key, r, c, l, m, x.rc⟩) p' := by
  refine setBox hg hx rfl hg.lru_nodup (fun _ h => h) (fun c _ => refs_congr hp' _ c) ?_ (fun c hc => ?_)
  · rw [refs_congr hp']
  · rw [hl] at hc
    cases hc

lemma Keeps.release (hp : p.uses = some b) (hp' : p'.uses = none)
    (hl : ∀ c, p'.leaving = some c → c = b) : Keeps d p (d.setBox b (x.release d.now)) p' := by
  refine setBox hg hx (show (x.release d.now).key = x.key from rfl) hg.lru_nodup (fun _ h => h)
    (fun c hc => ?_) ?_ hl
  · rw [refs_of_none hp', refs_of_uses hp, if_neg (Ne.symm hc), add_zero]
  · rw [refs_of_none hp', refs_of_uses hp, if_pos rfl, Box.release]
    dsimp only
    omega

lemma Keeps.acquire (hp : p.uses = none) (hp' : p'.uses = some b)
    (hl : p'.leaving = none) : Keeps d p { d.setBox b (x.acquire d.now) with lru := d.lru.erase b } p' := by
  refine setBox hg hx (show (x.acquire d.now).key = x.key from rfl) (hg.lru_nodup.erase b)
    (fun _ => mem_of_mem_erase) (fun c hc => ?_) ?_ (fun c hc => ?_)
  · rw [refs_of_uses hp', refs_of_none hp, if_neg (Ne.symm hc), add_zero, setBox_borrows]
  · rw [refs_of_uses hp', refs_of_none hp, if_pos rfl, setBox_borrows, Box.acquire]
    dsimp only
    omega
  · rw [hl] at hc
    cases hc

lemma Keeps.make (r : Option V) (hp' : p'.uses = p.uses) (hl : p'.leaving = none) :
    Keeps d p { d.setBox b (x.acquire d.now) with
      borrows := d.borrows ++ [some { box := some b, reader := r }] } p' := by
  refine setBox hg hx (show (x.acquire d.now).key = x.key from rfl) hg.lru_nodup (fun _ h => h) (fun c hc => ?_) ?_
    (fun c hc => ?_)
  · rw [refs_congr hp', refs, refs, countP_append]
    simp [refersTo, Ne.symm hc]
  · rw [refs_congr hp', refs, refs, countP_append, Box.acquire]
    simp only [countP_singleton, refersTo, decide_true, if_true]
    omega
  · rw [hl] at hc
    cases hc

end

lemma Keeps.insert [DecidableEq K] (h : d.find key = none) (hp : p.uses = none)
    (hp' : p'.uses = some d.next) (hl : p'.leaving = none) : Keeps d p (d.insert key) p' := by
  have hno : d.boxes d.next = none := hg.fresh _ le_rfl
  have hse : (d.insert key).boxes d.next = some (Box.acquire { key := key } d.now) := update_self ..
  have hn : ∀ c, c ≠ d.next → (d.insert key).boxes c = d.boxes c := fun c hc => update_of_ne hc ..
  refine ⟨hg.insert h, fun c => ?_, fun c y hy => .inl ?_, fun c hc => ?_⟩
  · have hb : (d.insert key).borrows = d.borrows := rfl
    rw [refs_of_uses hp', refs_of_none hp, hb]
    rcases eq_or_ne d.next c with rfl | hc
    · rw [rcOf_eq hse, rcOf_of_none hno, if_pos rfl, Box.acquire]
      dsimp only
      omega
    · rw [if_neg hc, rcOf_congr (hn c (Ne.symm hc)), add_zero]
  · have hcn : c ≠ d.next := by
      rintro rfl
      rw [hno] at hy
      cases hy
    rw [hn c hcn, hy]
    rfl
  · rw [hl] at hc
    cases hc

lemma keeps_expire [DecidableEq K] (before : Nat) : Keeps d (.expire before) (d.expire before).1 .idle := by
  obtain ⟨boxes, lru, he, hgo, ha⟩ := hg.expire_spec before
  rw [he]
  refine ⟨hgo, fun b => ?_, fun b x hx => ?_, fun b hb => by cases hb⟩
  · -- a box that is erased had no references
    have hr : rcOf { d with boxes := boxes, lru := lru } b = d.rcOf b := by
      rcases ha b with h | ⟨h, -, x, hx, h0, -⟩
      · exact rcOf_congr h
      · rw [rcOf_eq hx, h0]
        exact rcOf_of_none h
    rw [hr]
    rfl
  · rcases ha b with h | ⟨-, hb, y, hy, -, hlt⟩
    · exact .inl (congrArg isSome (h.trans hx))
    · cases hx.symm.trans hy
      exact .inr ⟨before, rfl, hb, hlt⟩

end

lemma Data.access_eq (hx : d.boxes b = some x) (p : Pc K V) (f : Box K V → Data K V × Pc K V) :
    d.access p b f = f x := by rw [access, hx]

lemma advance_keeps [DecidableEq K] (hg : Good d) (hu : ∀ b, p.uses = some b → d.rcOf b ≠ 0)
    (hle : ∀ b, p.leaving = some b → (d.boxes b).isSome = true) (h : advance d t p = some (d', p')) :
    Keeps d p d' p' := by
  have hst : ∀ (call : Call) (b : Nat), (call.start b : Pc K V).uses = some b ∧
    (call.start b : Pc K V).leaving = none :=
    fun call b => by cases call <;> exact ⟨rfl, rfl⟩
  have hm : ∀ {q q' : Pc K V}, q'.uses = q.uses → (∀ b, q'.leaving = some b → (d.boxes b).isSome = true) →
    Keeps d q d q' :=
    Keeps.move hg hg.lru_nodup hg.lru_live
  cases p with
  | idle | create => cases h
  | find key call =>
    simp only [advance] at h
    split at h
    next hf =>
      cases h
      exact insert hg hf rfl (hst call _).1 (hst call _).2
    next b hf =>
    obtain ⟨x, hx, -⟩ := find_some hf
    rw [access_eq hx] at h
    cases h
    exact acquire hg hx rfl (hst call b).1 (hst call b).2
  | tryLock b =>
    obtain ⟨x, hx⟩ := exists_box (hu b rfl)
    rw [advance, access_eq hx] at h
    split at h
    · cases h
      exact touch hg hx rfl rfl
    · cases h
      exact hm rfl nofun
  | locked b =>
    obtain ⟨x, hx⟩ := exists_box (hu b rfl)
    rw [advance, access_eq hx] at h
    cases h
    split
    · exact hm rfl nofun
    · split <;> exact hm rfl nofun
  | unlockRetry b cooldown | unlock b =>
    obtain ⟨x, hx⟩ := exists_box (hu b rfl)
    rw [advance, access_eq hx] at h
    cases h
    exact touch hg hx rfl rfl
  | yield b =>
    obtain ⟨x, hx⟩ := exists_box (hu b rfl)
    rw [advance, access_eq hx] at h
    cases h
    split <;> exact hm rfl nofun
  | make b r locked =>
    obtain ⟨x, hx⟩ := exists_box (hu b rfl)
    rw [advance, access_eq hx] at h
    cases h
    cases locked <;> exact make hg hx r rfl rfl
  | release b =>
    obtain ⟨x, hx⟩ := exists_box (hu b rfl)
    rw [advance, access_eq hx] at h
    cases h
    exact release hg hx rfl rfl nofun
  | dtor b recycle =>
    obtain ⟨x, hx⟩ := exists_box (hu b rfl)
    cases recycle with rw [advance, access_eq hx] at h
    | true =>
      cases h
      exact touch hg hx rfl rfl
    | false =>
      cases h
      exact release hg hx rfl rfl (fun c hc => (some.inj hc).symm)
  | released b =>
    have hb := hle b rfl
    obtain ⟨x, hx⟩ := isSome_iff_exists.1 hb
    rw [advance, access_eq hx] at h
    cases h
    split
    · exact hm rfl (fun c hc => some.inj hc ▸ hb)
    · exact hm rfl nofun
  | requeue b =>
    have hb := hle b rfl
    obtain ⟨x, hx⟩ := isSome_iff_exists.1 hb
    rw [advance, access_eq hx] at h
    cases h
    refine Keeps.move hg ?_ (fun c hc => ?_) rfl nofun
    · refine nodup_append.2 ⟨hg.lru_nodup.erase b, nodup_singleton _, fun c hc e he => ?_⟩
      rw [mem_singleton.1 he]
      rintro rfl
      exact hg.lru_nodup.not_mem_erase hc
    · rcases mem_append.1 hc with hc | hc
      · exact hg.lru_live c (mem_of_mem_erase hc)
      · rw [mem_singleton.1 hc]
        exact hb
  | expire before =>
    cases h
    exact keeps_expire hg before

/-! ## Every run -/

/-- The `Borrow` objects and the calls in progress that refer to box `b`. -/
def St.references (s : St K V) (b : Nat) : Nat := s.data.borrows.countP (refersTo b) + s.threads.countP (Pc.usesBox b)

structure Inv (s : St K V) : Prop where
  good : Good s.data
  count : ∀ b, s.data.rcOf b = s.references b
  tail : ∀ p ∈ s.threads, ∀ b, p.leaving = some b → (s.data.boxes b).isSome = true

def Data.boxOf (d : Data K V) (w : Nat) : Option Nat :=
  match d.borrows[w]? with
  | some (some r) => r.box
  | _ => none

/-- A box on the list that a destructor still looks at was used after `before`. -/
def St.Recent (s : St K V) (before : Nat) : Prop :=
  ∀ p ∈ s.threads, ∀ b ∈ p.leaving, b ∈ s.data.lru → ∀ x ∈ s.data.boxes b, before ≤ x.timestamp

/-- No `Borrow` with a box is moved from, or assigned another box; none without a box is destroyed; and no destructor
takes longer than the lifespan from its `release()` to its end. -/
def Careful (s : St K V) : Ev K V → Prop
  | .moveConstruct src => s.data.boxOf src = none
  | .moveAssign dst src => s.data.boxOf dst = s.data.boxOf src
  | .destroy _ w => s.data.boxOf w ≠ none
  | .step t =>
    match s.threads[t]? with
    | some (.expire before) => s.Recent before
    | _ => True
  | _ => True

instance (s : St K V) (before : Nat) : Decidable (s.Recent before) := by
  unfold St.Recent
  infer_instance

instance (s : St K V) (e : Ev K V) : Decidable (Careful s e) := by
  unfold Careful
  split
  case h_4 => split <;> infer_instance
  all_goals infer_instance

variable {s s' : St K V}

section
variable (hi : Inv s) (hp : s.threads[t]? = some p)
include hi hp

lemma Inv.uses_ne_zero (h : p.uses = some b) : s.data.rcOf b ≠ 0 := by
  have hpo : 0 < s.threads.countP (Pc.usesBox b) := countP_pos hp (by simp [Pc.usesBox, h])
  rw [hi.count b, St.references]
  omega

lemma Inv.keeps (hk : Keeps s.data p d' p')
    (hr : ∀ before, p = .expire before → s.Recent before) : Inv ⟨d', s.threads.set t p'⟩ where
  good := hk.good
  count := by
    intro b
    have h1 := hi.count b
    have h2 := hk.balance b
    have h3 := countP_set_add hp p' (Pc.usesBox b)
    rw [St.references] at h1 ⊢
    rw [refs, refs] at h2
    dsimp only
    omega
  tail := by
    intro q hq b hb
    obtain ⟨u, hu⟩ := getElem?_of_mem hq
    rcases getElem?_set_cases hu with ⟨rfl, rfl⟩ | ⟨-, hu⟩
    · exact hk.leaves b hb
    have hm := mem_of_getElem? hu
    obtain ⟨x, hx⟩ := isSome_iff_exists.1 (hi.tail q hm b hb)
    rcases hk.stays b x hx with h | ⟨before, rfl, hlr, hlt⟩
    · exact h
    · -- `__expire` would erase a box that `q` still looks at
      exact absurd hlt (not_lt.2 (hr before rfl q hm b hb hlr x hx))

lemma Inv.move (hu : p'.uses = p.uses) (hl : p'.leaving = none)
    (hn : ∀ before, p ≠ .expire before) : Inv { s with threads := s.threads.set t p' } := by
  have hk : Keeps s.data p s.data p' := Keeps.move hi.good hi.good.lru_nodup hi.good.lru_live hu fun b hb => by
    rw [hl] at hb
    cases hb
  exact hi.keeps hp hk (fun before h => absurd h (hn before))

end

lemma Inv.setBorrows (hi : Inv s) (h : ∀ b, borrows.countP (refersTo b) = s.data.borrows.countP (refersTo b)) :
    Inv { s with data := { s.data with borrows := borrows } } where
  good := ⟨hi.good.fresh, hi.good.keys, hi.good.lru_nodup, hi.good.lru_live, hi.good.sound⟩
  count := by
    intro b
    rw [St.references, h b]
    exact hi.count b
  tail := hi.tail

variable {r r' : Borrow V} {w : Nat}

lemma countP_set_box (h : borrows[w]? = some (some r)) (hbo : r'.box = r.box) (b : Nat) :
    (borrows.set w (some r')).countP (refersTo b) = borrows.countP (refersTo b) := by
  have ha := countP_set_add h (some r') (refersTo b)
  rw [show refersTo b (some r') = refersTo b (some r) by rw [refersTo, refersTo, hbo]] at ha
  omega

lemma Data.moveAssign_eq (d : Data K V) (dst src : Nat) (r : Borrow V) :
    d.moveAssign dst src r = { d with borrows := (d.moveAssign dst src r).borrows } := by
  unfold moveAssign
  split <;> rfl

lemma countP_moveAssign {dst src : Nat} (hd : d.borrows[dst]? = some (some r'))
    (hsr : d.borrows[src]? = some (some r)) (hbo : r.box = r'.box) (b : Nat) :
    (d.moveAssign dst src r).borrows.countP (refersTo b) = d.borrows.countP (refersTo b) := by
  unfold moveAssign
  split
  · rfl
  next hn =>
  have hs' : (d.borrows.set dst (some r))[src]? = some (some r) := by rw [getElem?_set_ne hn, hsr]
  dsimp only
  rw [countP_set_box hs' (show ({ r with reader := none } : Borrow V).box = r.box from rfl), countP_set_box hd hbo]

lemma keeps_destroy (hg : Good d) (hw : d.borrows[w]? = some (some r)) (hb : r.box = some b) :
    Keeps d .idle { d with borrows := d.borrows.set w none } (.dtor b r.recycle) := by
  refine ⟨{ hg with }, fun c => ?_, fun c x hx => .inl ?_, fun c hc => by cases hc⟩
  · have ha := countP_set_add hw none (refersTo c)
    have hr : rcOf { d with borrows := d.borrows.set w none } c = d.rcOf c := rfl
    rw [refs_of_none rfl, refs_of_uses rfl, hr]
    simp only [refersTo, hb, some.injEq, decide_eq_true_eq, Bool.false_eq_true, if_false] at ha
    dsimp only
    omega
  · rw [show d.boxes c = some x from hx]
    rfl

lemma inv_init [DecidableEq K] (lifespan n : Nat) : Inv (machine K V lifespan n).init where
  good := ⟨fun _ _ => rfl, nofun, nodup_nil, nofun, rfl⟩
  count := by
    intro b
    simp [machine, St.references, rcOf, countP_replicate, Pc.usesBox, Pc.uses]
  tail := by
    intro p hp b hb
    rw [eq_of_mem_replicate hp] at hb
    cases hb

lemma inv_step [DecidableEq K] {lifespan : Nat} {e : Ev K V} (hi : Inv s) (ho : Careful s e)
    (h : step lifespan s e = some s') : Inv s' := by
  unfold step at h
  rw [if_neg (by rw [hi.good.sound]; exact Bool.false_ne_true)] at h
  cases e with dsimp only at h
  | call t key call | expire t =>
    split at h
    next hp =>
      cases h
      exact hi.move hp rfl rfl nofun
    · cases h
  | step =>
    obtain ⟨p, hp, h⟩ := bind_eq_some_iff.1 h
    obtain ⟨⟨d', p'⟩, ha, rfl⟩ := map_eq_some_iff.1 h
    refine hi.keeps hp (advance_keeps hi.good (fun b => hi.uses_ne_zero hp)
      (hi.tail p (mem_of_getElem? hp)) ha) (fun before he => ?_)
    simp only [Careful, hp, he] at ho
    exact ho
  | constructed =>
    split at h
    next b locked hp =>
      obtain ⟨x, hx⟩ := exists_box (hi.uses_ne_zero hp rfl)
      rw [access_eq hx] at h
      cases h
      exact hi.keeps hp (touch hi.good hx rfl rfl) nofun
    · cases h
  | defaultConstruct =>
    cases h
    exact hi.setBorrows (fun b => by simp [countP_append, refersTo])
  | moveConstruct src =>
    split at h
    next r hr =>
      cases h
      have hbo : r.box = none := by simpa only [Careful, boxOf, hr] using ho
      have hlt : src < s.data.borrows.length := (List.getElem?_eq_some_iff.1 hr).1
      rw [moveAssign_eq]
      refine hi.setBorrows (fun b => ?_)
      have hd : (s.data.borrows ++ [some ({} : Borrow V)])[s.data.borrows.length]? = some (some {}) := by simp
      have hsr : (s.data.borrows ++ [some ({} : Borrow V)])[src]? = some (some r) := by
        rw [getElem?_append_left hlt, hr]
      rw [countP_moveAssign hd hsr hbo]
      simp [countP_append, refersTo]
    · cases h
  | moveAssign =>
    split at h
    next r' r hd hsr =>
      cases h
      have hbo : r'.box = r.box := by simpa only [Careful, boxOf, hd, hsr] using ho
      rw [moveAssign_eq]
      exact hi.setBorrows (countP_moveAssign hd hsr hbo.symm)
    · cases h
  | recycle w x =>
    split at h
    next r hr =>
      cases h
      exact hi.setBorrows (fun b =>
        countP_set_box hr (show ({ r with recycle := x } : Borrow V).box = r.box from rfl) b)
    · cases h
  | destroy =>
    split at h
    next r hp hr =>
      split at h
      next b hb =>
        cases h
        exact hi.keeps hp (keeps_destroy hi.good hr hb) nofun
      · next hb => exact absurd hb (by simpa only [Careful, boxOf, hr] using ho)
    · cases h
  | time =>
    cases h
    exact ⟨⟨hi.good.fresh, hi.good.keys, hi.good.lru_nodup, hi.good.lru_live, hi.good.sound⟩, hi.count, hi.tail⟩

/-- A `Borrow` object, a call in progress or a destructor that is not finished refers to the box. -/
def St.Refers (s : St K V) (b : Nat) : Prop :=
  (∃ r, some r ∈ s.data.borrows ∧ r.box = some b) ∨ ∃ p ∈ s.threads, p.uses = some b ∨ p.leaving = some b

lemma Inv.refers_live (hi : Inv s) (h : s.Refers b) : ∃ x, s.data.boxes b = some x := by
  rcases h with ⟨r, hr, hb⟩ | ⟨p, hp, hb | hb⟩
  · refine exists_box ?_
    have hpo : 0 < s.data.borrows.countP (refersTo b) := countP_pos_iff.2 ⟨_, hr, by simp [refersTo, hb]⟩
    rw [hi.count b, St.references]
    omega
  · obtain ⟨t, ht⟩ := getElem?_of_mem hp
    exact exists_box (hi.uses_ne_zero ht hb)
  · exact isSome_iff_exists.1 (hi.tail p hp b hb)

theorem borrow_references [DecidableEq K] {lifespan n : Nat} {es : List (Ev K V)}
    (hm : (machine K V lifespan n).Meets Careful es) (h : (machine K V lifespan n).run es = some s) :
    (∀ b x, s.data.boxes b = some x → x.rc = s.references b) ∧ (∀ b, s.Refers b → ∃ x, s.data.boxes b = some x) ∧
      s.data.fault = false := by
  have hi : Inv s := Machine.run_inv_of (inv_init lifespan n) inv_step hm h
  refine ⟨fun b x hx => ?_, fun b => hi.refers_live, hi.good.sound⟩
  rw [← rcOf_eq hx]
  exact hi.count b

def borrowFive : List (Ev Nat Nat) :=
  [.call 0 5 (.borrow 0), .step 0, .step 0, .step 0, .constructed 0 (some 7), .step 0, .step 0, .step 0]

/-- A second call gets the same box; one `Borrow` is recycled and destroyed, and the timer finds nothing to erase. -/
def borrowTwice : List (Ev Nat Nat) :=
  borrowFive ++ [.defaultConstruct, .moveConstruct 1, .call 1 5 .update, .step 1,
    .recycle 0 true, .destroy 0 0, .step 0,
    .constructed 1 (some 8), .step 0, .step 1, .step 0, .step 1, .time 20, .expire 0, .step 0]

theorem borrow_references_borrowTwice :
    ∃ s x, (machine Nat Nat 10 2).run borrowTwice = some s ∧ s.data.boxes 0 = some x ∧ x.rc = 1 ∧ x.ref = some 8 ∧
      x.rc = s.references 0 ∧ s.data.fault = false := by
  have hr : (machine Nat Nat 10 2).run borrowTwice = some _ := rfl
  obtain ⟨h1, -, h3⟩ := borrow_references (by decide) hr
  exact ⟨_, _, hr, rfl, rfl, rfl, h1 0 _ rfl, h3⟩

/-- A `Borrow` is moved into a new one, and the old one is destroyed. -/
def movedBorrow : List (Ev Nat Nat) := borrowFive ++ [.moveConstruct 0, .destroy 0 0, .step 0, .step 0, .step 0]

/-- The new `Borrow` refers to a box with `rc` 0, which the timer then erases. -/
theorem moved_borrow :
    ∃ s s', (machine Nat Nat 10 2).run movedBorrow = some s ∧ s.data.rcOf 0 = 0 ∧ s.references 0 = 1 ∧
      (machine Nat Nat 10 2).run (movedBorrow ++ [.time 20, .expire 1, .step 1]) = some s' ∧ s'.data.boxes 0 = none ∧
      s'.Refers 0 := by
  refine ⟨_, _, rfl, rfl, rfl, rfl, rfl, .inl ⟨_, mem_cons_of_mem _ mem_cons_self, rfl⟩⟩

end Photon.ObjectCacheV2
