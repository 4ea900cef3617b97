import Photon.Lib.Machine
import Photon.Thread.Basic
/-!
# RCUDomain

Readers announce the epoch they have seen in `ctr`, 0 when they are offline, and
`synchronize` waits for the readers it finds behind. Each load and each store is
a step; `tlock` is held around the scan of `tlist`. The first use of `reader` by
a thread constructs and registers it.
-/

namespace Photon.Rcu

open Function

inductive Pc where
  | idle
  /-- `quiescent`: the epoch `v` was loaded, before `ctr.store(v)`. -/
  | store (v : Nat)
  /-- Before the first `reader->get_gp()`. -/
  | syncGp (ts : Nat)
  /-- Before `tlock` is taken. -/
  | syncLock (ts : Nat)
  /-- Before the `reader->get_gp()` of the `if`. -/
  | syncSelf (ts : Nat)
  /-- Before the load of `reader->quiescent()`. -/
  | syncLoad (ts : Nat)
  /-- Before the store of `reader->quiescent()`. -/
  | syncStore (ts v : Nat)
  /-- In the loop over `tlist`, with `rest` still to look at. -/
  | syncScan (ts : Nat) (rest : List Tid)
  /-- Before `tlock` is released. -/
  | syncUnlock (ts : Nat) (allRelease : Bool)
  /-- `synchronize` returns. -/
  | syncRet
  deriving DecidableEq

/-- The domain and its readers. `online` and `pending` are not in the code: a
reader is online from a `quiescent` to the next `offline`; `pending t r` holds
from the start of the `synchronize` of `t` if `r` is online then, to the next
`quiescent` or `offline` of `r`. -/
structure St where
  ctr : Nat := 0
  tlist : List Tid := []
  tlock : Option Tid := none
  gp : Tid → Nat := fun _ => 0
  pc : Tid → Pc := fun _ => .idle
  online : Tid → Bool := fun _ => false
  pending : Tid → Tid → Bool := fun _ _ => false

inductive Ev where
  | register (t : Tid)
  /-- `online` or `quiescent`, up to the load of the epoch. -/
  | quiescent (t : Tid)
  | offline (t : Tid)
  /-- `synchronize`, up to the `fetch_add`. -/
  | synchronize (t : Tid)
  /-- The next step of the call thread `t` is in. -/
  | step (t : Tid)
  | ret (t : Tid)
  deriving DecidableEq

@[simps -fullyApplied ctr tlist tlock gp online pending]
def St.goto (s : St) (t : Tid) (p : Pc) : St := { s with pc := update s.pc t p }

@[simp] lemma St.goto_pc (s : St) (t u : Tid) (p : Pc) :
    (s.goto t p).pc u = if u = t then p else s.pc u := update_apply ..

/-- The store of `quiescent` (`v` is the epoch) or of `offline` (`v` is 0). -/
def St.announce (s : St) (t : Tid) (v : Nat) (online : Bool) : St := { s with
    gp := update s.gp t v
    online := update s.online t online
    pending := fun c r => s.pending c r && r ≠ t }

@[simp] lemma St.announce_gp (s : St) (t u : Tid) (v : Nat) (b : Bool) :
    (s.announce t v b).gp u = if u = t then v else s.gp u := update_apply ..

@[simp] lemma St.announce_online (s : St) (t u : Tid) (v : Nat) (b : Bool) :
    (s.announce t v b).online u = if u = t then b else s.online u := update_apply ..

@[simp] lemma St.announce_pending (s : St) (t c r : Tid) (v : Nat) (b : Bool) :
    (s.announce t v b).pending c r = (s.pending c r && r ≠ t) := rfl

section
variable (s : St) (t : Tid) (v : Nat) (b : Bool)
include s t v b

@[simp] lemma St.announce_pc : (s.announce t v b).pc = s.pc := rfl

@[simp] lemma St.announce_tlist : (s.announce t v b).tlist = s.tlist := rfl

@[simp] lemma St.announce_tlock : (s.announce t v b).tlock = s.tlock := rfl

end

def St.advance (s : St) (t : Tid) : Option St :=
  match s.pc t with
  | .store v => some ((s.announce t v true).goto t .idle)
  | .syncGp ts => if t ∈ s.tlist then some (s.goto t (.syncLock ts)) else none
  | .syncLock ts => if s.tlock = none then some { s.goto t (.syncSelf ts) with tlock := some t } else none
  | .syncSelf ts => if s.gp t ≠ 0 then some (s.goto t (.syncLoad ts)) else some (s.goto t (.syncScan ts s.tlist))
  | .syncLoad ts => some (s.goto t (.syncStore ts s.ctr))
  | .syncStore ts v => some ((s.announce t v true).goto t (.syncScan ts s.tlist))
  | .syncScan ts [] => some (s.goto t (.syncUnlock ts true))
  | .syncScan ts (r :: rest) =>
    if s.gp r ≠ 0 ∧ s.gp r < ts then some (s.goto t (.syncUnlock ts false)) else some (s.goto t (.syncScan ts rest))
  | .syncUnlock ts allRelease =>
    -- `thread_yield` comes between a scan that failed and the next one
    some { s.goto t (if allRelease then .syncRet else .syncLock ts) with tlock := none }
  | .idle | .syncRet => none

def step (s : St) : Ev → Option St
  | .register t => if s.tlock = none ∧ t ∉ s.tlist then some { s with tlist := s.tlist ++ [t] } else none
  | .quiescent t => if s.pc t = .idle ∧ t ∈ s.tlist then some (s.goto t (.store s.ctr)) else none
  | .offline t => if s.pc t = .idle ∧ t ∈ s.tlist then some (s.announce t 0 false) else none
  | .synchronize t =>
    if s.pc t = .idle then
      some { s.goto t (.syncGp s.ctr) with
        ctr := (s.ctr + 1) % 2 ^ 64, pending := update s.pending t s.online }
    else none
  | .step t => s.advance t
  | .ret t => if s.pc t = .syncRet then some (s.goto t .idle) else none

def machine : Machine St Ev := ⟨{}, step⟩

/-! ## Who is waited for -/

/-- What has to be true before a step: when a `synchronize` begins, every other
online reader has announced an epoch before the current one, and not 0; the
caller, if online, has not announced 0. -/
def Behind (s : St) : Ev → Prop
  | .synchronize t => ∀ r ∈ s.tlist, s.online r = true → s.gp r ≠ 0 ∧ (r ≠ t → s.gp r < s.ctr)
  | _ => True

instance (s : St) (e : Ev) : Decidable (Behind s e) := by
  unfold Behind
  split <;> infer_instance

def Pc.locked : Pc → Bool
  | .syncSelf _ | .syncLoad _ | .syncStore _ _ | .syncScan _ _ | .syncUnlock _ _ => true
  | _ => false

def Pc.usesReader : Pc → Bool
  | .idle | .syncGp _ | .syncRet => false
  | _ => true

/-- The readers that the `synchronize` of thread `t`, at point `p`, still has to
wait for: before and after a scan all of them are behind, in a scan they are
among those it has not looked at. -/
def St.Waiting (s : St) (t : Tid) : Pc → Prop
  | .syncGp ts | .syncLock ts | .syncSelf ts | .syncLoad ts | .syncStore ts _ | .syncUnlock ts false =>
    ∀ r, s.pending t r = true → r ∈ s.tlist ∧ s.gp r ≠ 0 ∧ (r ≠ t → s.gp r < ts)
  | .syncScan ts rest => ∀ r, s.pending t r = true → r ≠ t ∧ r ∈ rest ∧ r ∈ s.tlist ∧ s.gp r ≠ 0 ∧ s.gp r < ts
  | .syncUnlock _ true | .syncRet => ∀ r, s.pending t r = false
  | .idle | .store _ => True

structure Inv (s : St) : Prop where
  locked : ∀ t, (s.pc t).locked = true → s.tlock = some t
  online : ∀ r, s.online r = true → r ∈ s.tlist
  reader : ∀ t, (s.pc t).usesReader = true → t ∈ s.tlist
  waiting : ∀ t, s.Waiting t (s.pc t)

lemma inv_init : Inv {} := by
  constructor <;> simp [Pc.locked, Pc.usesReader, St.Waiting]

variable {t : Tid} {p : Pc} {s s' : St}

lemma St.Waiting.congr (h : s.Waiting t p) (hl : ∀ r ∈ s.tlist, r ∈ s'.tlist)
    (hg : s'.gp = s.gp) (hp : s'.pending t = s.pending t) : s'.Waiting t p := by
  unfold St.Waiting at h ⊢
  rw [hg, hp]
  split
  case h_7 =>
    intro r hr
    obtain ⟨hn, hre, hm, hgp⟩ := h r hr
    exact ⟨hn, hre, hl r hm, hgp⟩
  case h_8 | h_9 => exact h
  case h_10 | h_11 => trivial
  all_goals
    intro r hr
    obtain ⟨hm, hgp⟩ := h r hr
    exact ⟨hl r hm, hgp⟩

lemma waiting_announce {c : Tid} (h : s.Waiting c p) (v : Nat) (b : Bool) : (s.announce t v b).Waiting c p := by
  have hpe : ∀ r, (s.announce t v b).pending c r = true → s.pending c r = true ∧ r ≠ t := by simp
  unfold St.Waiting at h ⊢
  split
  case h_7 =>
    intro r hr
    obtain ⟨hp, hrt⟩ := hpe r hr
    simpa [hrt] using h r hp
  case h_8 | h_9 =>
    intro r
    simp [h r]
  case h_10 | h_11 => trivial
  all_goals
    intro r hr
    obtain ⟨hp, hrt⟩ := hpe r hr
    simpa [hrt] using h r hp

lemma inv_announce (hi : Inv s) (ht : t ∈ s.tlist) (v : Nat) (b : Bool) : Inv (s.announce t v b) := by
  refine ⟨hi.locked, fun r hr => ?_, hi.reader, fun c => waiting_announce (hi.waiting c) v b⟩
  by_cases hrt : r = t
  · exact hrt ▸ ht
  · exact hi.online r (by simpa [hrt] using hr)

lemma inv_goto (hi : Inv s) {g : Option Tid} (hr : p.usesReader = true → t ∈ s.tlist)
    (hw : s.Waiting t p) (hp : p.locked = true → g = some t)
    (hg : ∀ u, u ≠ t → (s.pc u).locked = true → g = some u) : Inv { s.goto t p with tlock := g } := by
  refine ⟨fun u hu => ?_, hi.online, fun u hu => ?_, fun u => ?_⟩
  all_goals by_cases hut : u = t
  · subst hut
    exact hp (by simpa using hu)
  · exact hg u hut (by simpa [hut] using hu)
  · subst hut
    exact hr (by simpa using hu)
  · exact hi.reader u (by simpa [hut] using hu)
  · subst hut
    rw [St.goto_pc, if_pos rfl]
    exact hw.congr (fun _ h => h) rfl rfl
  · rw [St.goto_pc, if_neg hut]
    exact (hi.waiting u).congr (fun _ h => h) rfl rfl

lemma St.Waiting.skip {r : Tid} {ts : Nat} {rest : List Tid} (h : s.Waiting t (.syncScan ts (r :: rest)))
    (hr : ¬ (s.gp r ≠ 0 ∧ s.gp r < ts)) : s.Waiting t (.syncScan ts rest) := by
  intro u hu
  obtain ⟨hn, hme, hl, h0, hlt⟩ := h u hu
  refine ⟨hn, ?_, hl, h0, hlt⟩
  rcases List.mem_cons.1 hme with rfl | hm
  · exact absurd ⟨h0, hlt⟩ hr
  · exact hm

lemma inv_advance (hi : Inv s) (h : s.advance t = some s') : Inv s' := by
  have hk : ∀ u, u ≠ t → (s.pc u).locked = true → s.tlock = some u := fun u _ => hi.locked u
  have hw := hi.waiting t
  have hl := hi.locked t
  have hm := hi.reader t
  unfold St.advance at h
  cases hp : s.pc t with (simp only [hp] at h; rw [hp] at hw hl hm)
  | idle | syncRet => cases h
  | store v =>
    cases h
    have ha := inv_announce hi (hm rfl) v true
    exact inv_goto ha nofun trivial nofun (fun u _ => ha.locked u)
  | syncGp =>
    split at h <;> cases h
    rename_i hm
    exact inv_goto hi (fun _ => hm) hw nofun hk
  | syncLock =>
    split at h <;> cases h
    rename_i hf
    refine inv_goto hi (fun _ => hm rfl) hw (fun _ => rfl) (fun u _ hu => ?_)
    rw [hi.locked u hu] at hf
    cases hf
  | syncSelf =>
    split at h <;> cases h
    · exact inv_goto hi hm hw hl hk
    rename_i h0
    refine inv_goto hi hm (fun r hr => ?_) hl hk
    obtain ⟨hme, hg, hlt⟩ := hw r hr
    -- a caller that announced 0 is not online for this call
    have hn : r ≠ t := by
      rintro rfl
      exact h0 hg
    exact ⟨hn, hme, hme, hg, hlt hn⟩
  | syncLoad =>
    cases h
    exact inv_goto hi hm hw hl hk
  | syncStore ts v =>
    cases h
    have ha := inv_announce hi (hm rfl) v true
    refine inv_goto ha hm (fun r hr => ?_) hl (fun u _ => ha.locked u)
    obtain ⟨hr, hn⟩ : s.pending t r = true ∧ r ≠ t := by simpa using hr
    obtain ⟨hme, hg, hlt⟩ := hw r hr
    exact ⟨hn, hme, hme, by simpa [hn] using hg, by simpa [hn] using hlt hn⟩
  | syncScan ts rest =>
    cases rest with
    | nil =>
      cases h
      refine inv_goto hi hm (fun r => ?_) hl hk
      by_contra hr
      cases (hw r (by simpa using hr)).2.1
    | cons =>
      simp only at h
      split at h <;> cases h
      · refine inv_goto hi hm (fun r hr => ?_) hl hk
        obtain ⟨-, -, hme, hg, hlt⟩ := hw r hr
        exact ⟨hme, hg, fun _ => hlt⟩
      next hx => exact inv_goto hi hm (St.Waiting.skip hw hx) hl hk
  | syncUnlock ts b =>
    cases h
    have ho : ∀ u, u ≠ t → (s.pc u).locked = true → none = some u := fun u hut hu =>
      absurd (Option.some.inj ((hl rfl).symm.trans (hi.locked u hu))).symm hut
    cases b with
    | true => exact inv_goto hi nofun hw nofun ho
    | false => exact inv_goto hi hm hw nofun ho

lemma inv_step (hi : Inv s) {e : Ev} (hb : Behind s e) (h : step s e = some s') : Inv s' := by
  have hk : ∀ t u, u ≠ t → (s.pc u).locked = true → s.tlock = some u := fun _ u _ => hi.locked u
  cases e with simp only [step] at h
  | register t =>
    split at h <;> cases h
    have hm : ∀ r ∈ s.tlist, r ∈ s.tlist ++ [t] := fun r => List.mem_append_left _
    exact ⟨hi.locked, fun r hr => hm r (hi.online r hr), fun u hu => hm u (hi.reader u hu),
      fun u => (hi.waiting u).congr hm rfl rfl⟩
  | quiescent t =>
    split at h <;> cases h
    rename_i hp
    exact inv_goto hi (fun _ => hp.2) trivial nofun (hk t)
  | offline =>
    split at h <;> cases h
    rename_i hp
    exact inv_announce hi hp.2 0 false
  | synchronize t =>
    split at h <;> cases h
    rename_i hp
    refine ⟨fun u hu => ?_, hi.online, fun u hu => ?_, fun u => ?_⟩
    all_goals by_cases hut : u = t
    · subst hut
      simp [Pc.locked] at hu
    · exact hi.locked u (by simpa [hut] using hu)
    · subst hut
      simp [Pc.usesReader] at hu
    · exact hi.reader u (by simpa [hut] using hu)
    · subst hut
      rw [St.goto_pc, if_pos rfl]
      -- the readers that are online now are behind, by the condition
      intro r hr
      have ho : s.online r = true := by simpa using hr
      exact ⟨hi.online r ho, hb r (hi.online r ho) ho⟩
    · rw [St.goto_pc, if_neg hut]
      exact (hi.waiting u).congr (fun _ h => h) rfl (update_of_ne hut ..)
  | step => exact inv_advance hi h
  | ret t =>
    split at h <;> cases h
    exact inv_goto hi nofun trivial nofun (hk t)

/-- In every run whose steps meet `Behind`, a `synchronize` that returns has
waited for every reader that was online when it began: each has made a
`quiescent` or `offline` step since. -/
theorem synchronize_waits_for_readers {es : List Ev} {s : St} (hm : machine.Meets Behind es)
    (h : machine.run es = some s) {t : Tid} (ht : s.pc t = .syncRet) (r : Tid) : s.pending t r = false := by
  have hi := Machine.run_inv_of (I := Inv) inv_init (inv_step ·) hm h
  have hw := hi.waiting t
  rw [ht] at hw
  exact hw r

def steps (t : Tid) (n : Nat) : List Ev := List.replicate n (.step t)

/-- Reader 1 loads epoch 1 and announces it while the epoch is 2; the
`synchronize` of thread 0 finds it behind, waits, and returns after a
`quiescent` of reader 1. -/
def waitsForReader : List Ev :=
  [.register 0, .register 1, .synchronize 0] ++ steps 0 7 ++ [.ret 0, .quiescent 1, .synchronize 0] ++ steps 0 7 ++
    [.ret 0, .step 1, .synchronize 0] ++ steps 0 6 ++ [.quiescent 1, .step 1] ++ steps 0 6

theorem synchronize_waits_for_readers_run :
    ∃ s, machine.run waitsForReader = some s ∧ s.pc 0 = .syncRet ∧ s.pending 0 1 = false := by
  have hr : machine.run waitsForReader = some _ := rfl
  refine ⟨_, hr, by decide, ?_⟩
  exact synchronize_waits_for_readers (by decide) hr (by decide) 1

/-- Reader 1 is online with the current epoch 1. The `synchronize` of thread 0
gets 1 from `fetch_add`, does not count it as behind, and returns. -/
theorem synchronize_skips_current_epoch :
    ∃ s, machine.run ([.register 0, .register 1, .synchronize 0] ++ steps 0 7 ++
        [.ret 0, .quiescent 1, .step 1, .synchronize 0] ++ steps 0 7) = some s ∧
      s.pc 0 = .syncRet ∧ s.online 1 = true ∧ s.pending 0 1 = true := by
  refine ⟨_, rfl, ?_, ?_, ?_⟩ <;> decide

end Photon.Rcu
