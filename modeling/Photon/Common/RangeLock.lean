import Mathlib.Data.List.TakeWhile
import Photon.Lib.Machine
import Photon.Thread.Basic
/-!
# RangeLock

`m_index` is a set of ranges ordered by `r1 < r2` when `r1` ends before `r2` begins,
so ranges that overlap count as equal. It is listed in its order; a node keeps its
identity (the `LockHandle*`) while `adjust_range` edits its range in place. Each
function works under `m_lock`, so what it does up to a wait is one step; a wait for
a range ends when the range is erased, or earlier when the thread is interrupted.

`held` is not in the code: what each thread was given and has not given back.
-/

namespace Photon.RangeLock

open List

structure Range where
  offset : Nat
  length : Nat
  deriving DecidableEq

def Range.end_ (r : Range) : Nat := satAdd r.offset r.length

def Range.lt (r rhs : Range) : Bool := r.end_ ≤ rhs.offset

def Range.contains (r x : Range) : Bool := r.offset ≤ x.offset && x.end_ ≤ r.end_

structure Node where
  id : Nat
  range : Range
  deriving DecidableEq

structure Hold where
  tid : Tid
  node : Node
  deriving DecidableEq

/-- Who waits for a range to be erased; `try_lock_wait` has stored the part of it that is in the way. -/
inductive Call where
  | tryLockWait (conflict : Range)
  | tryLockWait2
  | lock (r : Range)
  deriving DecidableEq

inductive Pc where
  | idle
  /-- `lock`: before `try_lock_wait2`. -/
  | locking (r : Range)
  /-- In `it->cond.wait(m_lock)`. -/
  | waiting (id : Nat) (call : Call)
  deriving DecidableEq

structure St where
  index : List Node := []
  next : Nat := 0
  held : List Hold := []
  pc : Tid → Pc := fun _ => .idle

inductive Ev where
  | tryLockWait (t : Tid) (r : Range)
  | tryLockWait2 (t : Tid) (r : Range)
  | lock (t : Tid) (r : Range)
  /-- The loop of `lock` goes on, or a wait ends. -/
  | step (t : Tid)
  | adjustRange (t : Tid) (id : Nat) (r : Range)
  | unlock (t : Tid) (r : Range)
  | unlockHandle (t : Tid) (id : Nat)
  deriving DecidableEq

def St.goto (s : St) (t : Tid) (p : Pc) : St := { s with pc := Function.update s.pc t p }

/-! ## The set -/

def lowerBound (index : List Node) (r : Range) : List Node := index.dropWhile fun n => n.range.lt r

def below (index : List Node) (r : Range) : List Node := index.takeWhile fun n => n.range.lt r

/-- `m_index.emplace_hint`: the element that is there afterwards, and the set; nothing is inserted beside an equal
element. -/
def emplaceHint (index : List Node) (n : Node) : Node × List Node :=
  match lowerBound index n.range with
  | [] => (n, index ++ [n])
  | it :: rest =>
    if n.range.lt it.range then (n, below index n.range ++ n :: it :: rest) else (it, index)

/-- The element that is in the way of `r`: `it != m_index.end() && it->offset < r.end()`. -/
def conflict (index : List Node) (r : Range) : Option Node :=
  match lowerBound index r with
  | [] => none
  | it :: _ => if it.range.offset < r.end_ then some it else none

def unlockLoop (r : Range) : List Node → List Node
  | [] => []
  | it :: rest =>
    if it.range.offset < r.end_ then
      if r.contains it.range then unlockLoop r rest else it :: unlockLoop r rest
    else it :: rest

def nextOffset : List Node → Nat
  | [] => 2 ^ 64 - 1
  | it :: _ => it.range.offset

/-- `adjust_range` cannot give the node the range `r1` between its neighbours. -/
def Refused (prevEnd : Nat) (r0 r1 : Range) (nextOffset : Nat) : Prop :=
  (r1.offset < r0.offset ∧ r1.offset < prevEnd) ∨ (r1.end_ > r0.end_ ∧ r1.end_ > nextOffset)

instance (prevEnd : Nat) (r0 r1 : Range) (nextOffset : Nat) : Decidable (Refused prevEnd r0 r1 nextOffset) :=
  inferInstanceAs (Decidable (_ ∨ _))

/-- `adjust_range` on the rest of the set, behind an element that ends at `prevEnd`; `none` is -1. -/
def adjustFrom (id : Nat) (r : Range) : Nat → List Node → Option (List Node)
  | _, [] => none
  | prevEnd, it :: rest =>
    if it.id = id then
      if Refused prevEnd it.range r (nextOffset rest) then none else some ({ it with range := r } :: rest)
    else (adjustFrom id r it.range.end_ rest).map (it :: ·)

/-! ## The functions -/

/-- The part of the element that is in the way of `r`, as `try_lock_wait` stores it. -/
def conflictPart (it r : Range) : Range := ⟨it.offset, min it.end_ r.end_ - it.offset⟩

/-- `try_lock_wait` and `try_lock_wait2`, up to the wait. -/
def St.tryLock (s : St) (t : Tid) (r : Range) (call : Range → Call) : St :=
  match conflict s.index r with
  | some it => s.goto t (.waiting it.id (call (conflictPart it.range r)))
  | none =>
    let (n, index) := emplaceHint s.index ⟨s.next, r⟩
    { s.goto t .idle with index := index, next := s.next + 1, held := ⟨t, n⟩ :: s.held }

def step (s : St) : Ev → Option St
  | .tryLockWait t r => if s.pc t = .idle then some (s.tryLock t r .tryLockWait) else none
  | .tryLockWait2 t r => if s.pc t = .idle then some (s.tryLock t r fun _ => .tryLockWait2) else none
  | .lock t r => if s.pc t = .idle then some (s.goto t (.locking r)) else none
  | .step t =>
    match s.pc t with
    | .idle => none
    | .locking r => some (s.tryLock t r fun _ => .lock r)
    | .waiting _ (.lock r) => some (s.goto t (.locking r))
    | .waiting _ _ => some (s.goto t .idle)
  | .adjustRange t id r =>
    match s.held.find? fun h => h.tid = t ∧ h.node.id = id with
    | some h =>
      if s.pc t = .idle then
        match adjustFrom id r 0 s.index with
        | some index => some { s with index := index, held := ⟨t, id, r⟩ :: s.held.erase h }
        | none => some s
      else none
    | none => none
  | .unlock t r =>
    match s.held.find? fun h => h.tid = t ∧ h.node.range = r with
    | some h =>
      if s.pc t = .idle then
        some { s with index := below s.index r ++ unlockLoop r (lowerBound s.index r), held := s.held.erase h }
      else none
    | none => none
  | .unlockHandle t id =>
    match s.held.find? fun h => h.tid = t ∧ h.node.id = id with
    | some h =>
      if s.pc t = .idle then
        some { s with index := s.index.eraseP fun n => n.id = id, held := s.held.erase h }
      else none
    | none => none

def machine : Machine St Ev := ⟨{}, step⟩

def NonEmpty : Ev → Prop
  | .tryLockWait _ r | .tryLockWait2 _ r | .lock _ r | .adjustRange _ _ r | .unlock _ r => r.offset < r.end_
  | .step _ | .unlockHandle _ _ => True

instance : ∀ e, Decidable (NonEmpty e)
  | .tryLockWait _ r | .tryLockWait2 _ r | .lock _ r | .adjustRange _ _ r | .unlock _ r =>
    inferInstanceAs (Decidable (r.offset < r.end_))
  | .step _ | .unlockHandle _ _ => inferInstanceAs (Decidable True)

/-! ## The invariant -/

/-- The ranges have bytes, and each ends before the next begins. -/
structure Ordered (index : List Node) : Prop where
  sorted : index.Pairwise fun a b => a.range.end_ ≤ b.range.offset
  nonEmpty : ∀ n ∈ index, n.range.offset < n.range.end_

open Ordered

structure Inv (s : St) : Prop where
  ordered : Ordered s.index
  nodup : (s.index.map Node.id).Nodup
  fresh : ∀ n ∈ s.index, n.id < s.next
  held : (s.held.map Hold.node).Perm s.index
  locking : ∀ t r, s.pc t = .locking r → r.offset < r.end_
  waiting : ∀ t id r, s.pc t = .waiting id (.lock r) → r.offset < r.end_

lemma inv_init : Inv {} where
  ordered := ⟨.nil, by simp⟩
  nodup := by simp
  fresh := by simp
  held := .refl _
  locking := by simp
  waiting := by simp

lemma below_append (index : List Node) (r : Range) : below index r ++ lowerBound index r = index :=
  takeWhile_append_dropWhile

lemma Ordered.append_iff {l1 l2 : List Node} :
    Ordered (l1 ++ l2) ↔ Ordered l1 ∧ Ordered l2 ∧ ∀ a ∈ l1, ∀ b ∈ l2, a.range.end_ ≤ b.range.offset := by
  constructor
  · intro h
    obtain ⟨h1, h2, h3⟩ := pairwise_append.1 h.sorted
    exact ⟨⟨h1, fun n hn => h.nonEmpty n (mem_append_left _ hn)⟩,
      ⟨h2, fun n hn => h.nonEmpty n (mem_append_right _ hn)⟩, h3⟩
  · rintro ⟨h1, h2, h3⟩
    refine ⟨pairwise_append.2 ⟨h1.sorted, h2.sorted, h3⟩, fun n hn => ?_⟩
    rcases mem_append.1 hn with hn | hn
    · exact h1.nonEmpty n hn
    · exact h2.nonEmpty n hn

variable {n : Node} {pre post : List Node}

lemma Ordered.cons_iff {l : List Node} :
    Ordered (n :: l) ↔ n.range.offset < n.range.end_ ∧ (∀ b ∈ l, n.range.end_ ≤ b.range.offset) ∧ Ordered l := by
  constructor
  · intro h
    obtain ⟨h1, h2⟩ := pairwise_cons.1 h.sorted
    exact ⟨h.nonEmpty n mem_cons_self, h1, h2, fun m hm => h.nonEmpty m (mem_cons_of_mem _ hm)⟩
  rintro ⟨h1, h2, h3⟩
  refine ⟨pairwise_cons.2 ⟨h2, h3.sorted⟩, fun m hm => ?_⟩
  rcases mem_cons.1 hm with rfl | hm
  · exact h1
  · exact h3.nonEmpty m hm

lemma Ordered.insert (h : Ordered (pre ++ post))
    (hn : n.range.offset < n.range.end_) (hpr : ∀ a ∈ pre, a.range.end_ ≤ n.range.offset)
    (hpo : ∀ b ∈ post, n.range.end_ ≤ b.range.offset) : Ordered (pre ++ n :: post) := by
  obtain ⟨h1, h2, h3⟩ := append_iff.1 h
  refine append_iff.2 ⟨h1, cons_iff.2 ⟨hn, hpo, h2⟩, fun a ha b hb => ?_⟩
  rcases mem_cons.1 hb with rfl | hb
  · exact hpr a ha
  · exact h3 a ha b hb

lemma Ordered.remove (h : Ordered (pre ++ n :: post)) : Ordered (pre ++ post) := by
  obtain ⟨h1, h2, h3⟩ := append_iff.1 h
  exact append_iff.2 ⟨h1, (cons_iff.1 h2).2.2, fun a ha b hb => h3 a ha b (mem_cons_of_mem _ hb)⟩

lemma Ordered.lowerBound_of_mem (h : Ordered (pre ++ n :: post)) :
    below (pre ++ n :: post) n.range = pre ∧ lowerBound (pre ++ n :: post) n.range = n :: post := by
  obtain ⟨-, h2, h3⟩ := append_iff.1 h
  have hpr : ∀ a ∈ pre, a.range.lt n.range = true := fun a ha => by
    simpa [Range.lt] using h3 a ha n mem_cons_self
  have hn : ¬n.range.lt n.range = true := by
    simpa [Range.lt] using (cons_iff.1 h2).1
  constructor
  · simp [below, takeWhile_append_of_pos hpr, hn]
  · simp [lowerBound, dropWhile_append_of_pos hpr, hn]

lemma emplaceHint_of_no_conflict {index : List Node} (h : Ordered index) (hc : conflict index n.range = none) :
    emplaceHint index n = (n, below index n.range ++ n :: lowerBound index n.range) ∧
      (∀ a ∈ below index n.range, a.range.end_ ≤ n.range.offset) ∧
      ∀ b ∈ lowerBound index n.range, n.range.end_ ≤ b.range.offset := by
  have hbe : ∀ a ∈ below index n.range, a.range.end_ ≤ n.range.offset := fun a ha => by
    simpa [Range.lt] using mem_takeWhile_imp ha
  have hap := below_append index n.range
  unfold conflict at hc
  unfold emplaceHint
  cases hlb : lowerBound index n.range with
  | nil =>
    rw [hlb, append_nil] at hap
    exact ⟨by simp [hap], hbe, by simp⟩
  | cons it =>
    simp only [hlb, ite_eq_right_iff, reduceCtorEq, imp_false, not_lt] at hc
    rw [hlb] at hap
    have hlt : n.range.lt it.range = true := by simpa [Range.lt] using hc
    refine ⟨by simp [hlt], hbe, fun b hb => ?_⟩
    rw [← hap] at h
    obtain ⟨hit, hr, -⟩ := cons_iff.1 (append_iff.1 h).2.1
    rcases mem_cons.1 hb with rfl | hb
    · exact hc
    · have := hr b hb
      omega

lemma unlock_of_mem (h : Ordered (pre ++ n :: post)) :
    below (pre ++ n :: post) n.range ++ unlockLoop n.range (lowerBound (pre ++ n :: post) n.range) = pre ++ post := by
  obtain ⟨hb, hl⟩ := h.lowerBound_of_mem
  obtain ⟨hn, hpo, -⟩ := cons_iff.1 (append_iff.1 h).2.1
  rw [hb, hl]
  congr 1
  have hse : n.range.contains n.range = true := by simp [Range.contains]
  rw [unlockLoop, if_pos hn, if_pos hse]
  -- the loop stops at the next element
  cases post with
  | nil => rfl
  | cons it =>
    have := hpo it mem_cons_self
    rw [unlockLoop, if_neg (by omega)]

def prevEnd (p : Nat) (pre : List Node) : Nat := pre.foldl (fun _ a => a.range.end_) p

lemma adjustFrom_append {id : Nat} {r : Range} (hn : n.id = id) (hpr : ∀ a ∈ pre, a.id ≠ id) (p : Nat) :
    adjustFrom id r p (pre ++ n :: post) =
      if Refused (prevEnd p pre) n.range r (nextOffset post) then none
      else some (pre ++ { n with range := r } :: post) := by
  induction pre generalizing p with
  | nil => simp [adjustFrom, hn, prevEnd]
  | cons a pre ih =>
    rw [cons_append, adjustFrom, if_neg (hpr a mem_cons_self), ih (fun b hb => hpr b (mem_cons_of_mem _ hb))]
    have hp : prevEnd p (a :: pre) = prevEnd a.range.end_ pre := rfl
    rw [hp]
    split <;> rfl

lemma Ordered.le_prevEnd (h : Ordered pre) (p : Nat) : ∀ a ∈ pre, a.range.end_ ≤ prevEnd p pre := by
  intro a ha
  rcases eq_nil_or_concat pre with rfl | ⟨l, b, rfl⟩
  · cases ha
  rw [concat_eq_append] at h ha ⊢
  have hla : prevEnd p (l ++ [b]) = b.range.end_ := by simp [prevEnd]
  obtain ⟨-, hb, hlb⟩ := append_iff.1 h
  rw [hla]
  rcases mem_append.1 ha with ha | ha
  · have h1 := hlb a ha b (by simp)
    have h2 := hb.nonEmpty b (by simp)
    omega
  · rw [mem_singleton.1 ha]

lemma Ordered.nextOffset_le (h : Ordered post) : ∀ b ∈ post, nextOffset post ≤ b.range.offset := by
  intro b hb
  cases post with
  | nil => cases hb
  | cons =>
    obtain ⟨hc, hcb, -⟩ := cons_iff.1 h
    rcases mem_cons.1 hb with rfl | hb
    · exact le_rfl
    · have := hcb b hb
      exact le_trans (le_of_lt hc) this

lemma Ordered.adjust {r : Range} (h : Ordered (pre ++ n :: post)) (hr : r.offset < r.end_)
    (ho : ¬Refused (prevEnd 0 pre) n.range r (nextOffset post)) : Ordered (pre ++ { n with range := r } :: post) := by
  obtain ⟨h1, h2, h3⟩ := append_iff.1 h
  obtain ⟨-, hpo, h4⟩ := cons_iff.1 h2
  simp only [Refused, not_or, not_and, not_lt] at ho
  obtain ⟨hle, hri⟩ := ho
  refine insert h.remove hr (fun a ha => ?_) fun b hb => ?_
  · have ha1 := h1.le_prevEnd 0 a ha
    have ha2 := h3 a ha n mem_cons_self
    simp only
    by_cases hlt : r.offset < n.range.offset
    · exact ha1.trans (hle hlt)
    · omega
  · have hb1 := h4.nextOffset_le b hb
    have hb2 := hpo b hb
    simp only
    by_cases hg : r.end_ > n.range.end_
    · exact (hri hg).trans hb1
    · omega

/-! ## Steps -/

section Steps

variable {s s' : St} {t : Tid} {r : Range}

lemma inv_goto (hi : Inv s) {p : Pc} (hl : ∀ r, p = .locking r → r.offset < r.end_)
    (hw : ∀ id r, p = .waiting id (.lock r) → r.offset < r.end_) : Inv (s.goto t p) := by
  obtain ⟨h1, h2, h3, h4, h5, h6⟩ := hi
  refine ⟨h1, h2, h3, h4, fun u r hu => ?_, fun u id r hu => ?_⟩
  · rcases eq_or_ne u t with rfl | hut
    · exact hl r (by simpa [St.goto] using hu)
    · exact h5 u r (by simpa [St.goto, hut] using hu)
  · rcases eq_or_ne u t with rfl | hut
    · exact hw id r (by simpa [St.goto] using hu)
    · exact h6 u id r (by simpa [St.goto, hut] using hu)

lemma inv_tryLock (hi : Inv s) {call : Range → Call} (hr : r.offset < r.end_)
    (hca : ∀ x r', call x = .lock r' → r' = r) : Inv (s.tryLock t r call) := by
  unfold St.tryLock
  cases hc : conflict s.index r with
  | some =>
    refine inv_goto hi (by simp) fun id r' h => ?_
    simp only [Pc.waiting.injEq] at h
    rw [hca _ _ h.2]
    exact hr
  | none =>
    obtain ⟨he, hbe, hab⟩ := emplaceHint_of_no_conflict (n := ⟨s.next, r⟩) hi.ordered hc
    have hg : Inv (s.goto t .idle) := inv_goto hi (by simp) (by simp)
    have ha := below_append s.index r
    have hpe : (below s.index r ++ (⟨s.next, r⟩ : Node) :: lowerBound s.index r).Perm (⟨s.next, r⟩ :: s.index) := by
      conv_rhs => rw [← ha]
      exact perm_middle
    simp only [he]
    refine ⟨?_, ?_, ?_, ?_, hg.locking, hg.waiting⟩
    · refine insert ?_ hr hbe hab
      rw [ha]
      exact hi.ordered
    · rw [(hpe.map Node.id).nodup_iff, map_cons, nodup_cons]
      refine ⟨fun hm => ?_, hi.nodup⟩
      obtain ⟨n, hn, hid⟩ := mem_map.1 hm
      exact lt_irrefl _ (hid ▸ hi.fresh n hn)
    · intro n hn
      rcases mem_cons.1 (hpe.subset hn) with rfl | hn
      · exact Nat.lt_succ_self _
      · exact Nat.lt_succ_of_lt (hi.fresh n hn)
    · exact (hi.held.cons _).trans hpe.symm

variable {h : Hold}

lemma Inv.split (hi : Inv s) (hh : h ∈ s.held) : ∃ pre post, s.index = pre ++ h.node :: post ∧
    (∀ a ∈ pre, a.id ≠ h.node.id) ∧ ((s.held.erase h).map Hold.node).Perm (pre ++ post) := by
  have hm : h.node ∈ s.index := hi.held.subset (mem_map_of_mem hh)
  obtain ⟨pre, post, hsp⟩ := append_of_mem hm
  refine ⟨pre, post, hsp, fun a ha hid => ?_, ?_⟩
  · have hn := hi.nodup
    rw [hsp, map_append, map_cons] at hn
    exact (nodup_append.1 hn).2.2 _ (mem_map_of_mem ha) _ mem_cons_self hid
  have h1 : (h.node :: (s.held.erase h).map Hold.node).Perm (h.node :: (pre ++ post)) := by
    refine Perm.trans ?_ (hi.held.trans ?_)
    · exact ((perm_cons_erase hh).map Hold.node).symm
    · rw [hsp]
      exact perm_middle
  exact h1.cons_inv

lemma inv_erase (hi : Inv s) (hsp : s.index = pre ++ h.node :: post)
    (hh : ((s.held.erase h).map Hold.node).Perm (pre ++ post)) :
    Inv { s with index := pre ++ post, held := s.held.erase h } := by
  have hsu : (pre ++ post).Sublist s.index := by
    rw [hsp]
    exact (Sublist.refl pre).append (sublist_cons_self ..)
  refine ⟨?_, hi.nodup.sublist (hsu.map _), fun n hn => hi.fresh n (hsu.subset hn), hh, hi.locking, hi.waiting⟩
  have := hi.ordered
  rw [hsp] at this
  exact this.remove

lemma inv_adjust (hi : Inv s) (hr : r.offset < r.end_)
    (hsp : s.index = pre ++ h.node :: post) (hh : ((s.held.erase h).map Hold.node).Perm (pre ++ post))
    (hok : ¬Refused (prevEnd 0 pre) h.node.range r (nextOffset post)) :
    Inv { s with index := pre ++ { h.node with range := r } :: post, held := ⟨t, h.node.id, r⟩ :: s.held.erase h } := by
  have ho := hi.ordered
  have hnd := hi.nodup
  have hf := hi.fresh
  rw [hsp] at ho hnd hf
  refine ⟨ho.adjust hr hok, ?_, fun n hn => ?_, ?_, hi.locking, hi.waiting⟩
  · simpa using hnd
  · rcases mem_append.1 hn with hn | hn
    · exact hf n (mem_append_left _ hn)
    · rcases mem_cons.1 hn with rfl | hn
      · exact hf h.node (by simp)
      · exact hf n (by simp [hn])
  · exact (hh.cons _).trans perm_middle.symm

lemma inv_step {e : Ev} (hi : Inv s) (hn : NonEmpty e) (h : step s e = some s') : Inv s' := by
  cases e with simp only [step] at h
  | tryLockWait t r | tryLockWait2 t r =>
    split at h <;> cases h
    exact inv_tryLock hi hn (by simp)
  | lock =>
    split at h <;> cases h
    refine inv_goto hi (fun r' hr' => ?_) (by simp)
    cases hr'
    exact hn
  | step t =>
    split at h
    · cases h
    next r hpc =>
      cases h
      refine inv_tryLock hi (hi.locking t r hpc) fun _ r' hr' => ?_
      cases hr'
      rfl
    next id r hpc =>
      cases h
      refine inv_goto hi (fun r' hr' => ?_) (by simp)
      cases hr'
      exact hi.waiting t id r hpc
    · cases h
      exact inv_goto hi (by simp) (by simp)
  | adjustRange t id =>
    split at h
    next hd hf =>
      have hd2 : hd.tid = t ∧ hd.node.id = id := by simpa using find?_some hf
      obtain ⟨pre, post, hsp, hpr, hh⟩ := hi.split (mem_of_find?_eq_some hf)
      rw [← hd2.2, hsp, adjustFrom_append rfl hpr] at h
      split at h
      · split at h
        · rename_i index had
          split at had <;> cases had
          cases h
          exact inv_adjust hi hn hsp hh ‹_›
        · cases h
          exact hi
      · cases h
    · cases h
  | unlock t r =>
    split at h
    next hd hf =>
      have hd2 : hd.tid = t ∧ hd.node.range = r := by simpa using find?_some hf
      obtain ⟨pre, post, hsp, -, hh⟩ := hi.split (mem_of_find?_eq_some hf)
      have ho := hi.ordered
      rw [hsp] at ho
      rw [← hd2.2, hsp, unlock_of_mem ho] at h
      split at h <;> cases h
      exact inv_erase hi hsp hh
    · cases h
  | unlockHandle t id =>
    split at h
    next hd hf =>
      have hd2 : hd.tid = t ∧ hd.node.id = id := by simpa using find?_some hf
      obtain ⟨pre, post, hsp, hpr, hh⟩ := hi.split (mem_of_find?_eq_some hf)
      have he : s.index.eraseP (fun n => n.id = id) = pre ++ post := by
        rw [hsp, eraseP_append_right _ (fun a ha => by simpa [← hd2.2] using hpr a ha),
          eraseP_cons_of_pos (by simpa using hd2.2)]
      rw [he] at h
      split at h <;> cases h
      exact inv_erase hi hsp hh
    · cases h

end Steps

/-! ## Every run -/

def Range.Covers (r : Range) (x : Nat) : Prop := r.offset ≤ x ∧ x < r.end_

def Range.Disjoint (r q : Range) : Prop := ∀ x, ¬(r.Covers x ∧ q.Covers x)

lemma Range.Disjoint.symm {r q : Range} (h : r.Disjoint q) : q.Disjoint r := fun x hx => h x hx.symm

lemma Range.disjoint_of_le {r q : Range} (h : r.end_ ≤ q.offset) : r.Disjoint q := by
  rintro x ⟨⟨-, h1⟩, h2, -⟩
  omega

/-- When every call is about a range that has bytes: the ranges held at any moment are disjoint, and the index lists
exactly them, in increasing order. -/
theorem rangeLock_held {es : List Ev} {s : St} (hm : machine.Meets (fun _ e => NonEmpty e) es)
    (h : machine.run es = some s) :
    s.held.Pairwise (fun a b => a.node.range.Disjoint b.node.range) ∧
    (s.index.map Node.range).Perm (s.held.map fun h => h.node.range) ∧
    s.index.Pairwise fun a b => a.range.end_ ≤ b.range.offset := by
  have hi : Inv s := Machine.run_inv_of inv_init inv_step hm h
  have hd : s.index.Pairwise fun a b => a.range.Disjoint b.range := hi.ordered.sorted.imp Range.disjoint_of_le
  refine ⟨?_, ?_, hi.ordered.sorted⟩
  · rw [← hi.held.pairwise_iff fun ha => ha.symm, pairwise_map] at hd
    exact hd
  · have := (hi.held.map Node.range).symm
    rwa [map_map] at this

/-- Thread 1 waits for a range and locks its own when thread 0 has shrunk that one; thread 2 locks what is between
them, so that the range of thread 0 cannot grow again. -/
def lockInTurn : List Ev :=
  [.lock 0 ⟨10, 20⟩, .step 0, .tryLockWait 1 ⟨25, 10⟩, .adjustRange 0 0 ⟨10, 5⟩, .step 1, .tryLockWait 1 ⟨25, 10⟩,
    .tryLockWait2 2 ⟨15, 10⟩, .adjustRange 0 0 ⟨5, 11⟩, .unlock 1 ⟨25, 10⟩]

theorem rangeLock_held_inTurn : ∃ s, machine.run lockInTurn = some s ∧ s.index.map Node.range = [⟨10, 5⟩, ⟨15, 10⟩] ∧
    s.held.Pairwise fun a b => a.node.range.Disjoint b.node.range := by
  have hr : machine.run lockInTurn = some _ := rfl
  have hm : machine.Meets (fun _ e => NonEmpty e) lockInTurn := by decide
  exact ⟨_, hr, rfl, (rangeLock_held hm hr).1⟩

def lockLastByte : List Ev := [.lock 0 ⟨2 ^ 64 - 1, 1⟩, .step 0, .lock 1 ⟨2 ^ 64 - 1, 1⟩, .step 1]

/-- The range of length 1 at `2 ^ 64 - 1` is held twice, and stays in the index when it is unlocked. -/
theorem last_byte_held_twice : (∃ s, machine.run lockLastByte = some s ∧
      s.held.map (fun h => (h.tid, h.node.range)) = [(1, ⟨2 ^ 64 - 1, 1⟩), (0, ⟨2 ^ 64 - 1, 1⟩)]) ∧
    ∃ s, machine.run (lockLastByte ++ [.unlock 0 ⟨2 ^ 64 - 1, 1⟩]) = some s ∧
      s.held.length = 1 ∧ s.index.length = 2 := by
  exact ⟨⟨_, rfl, rfl⟩, _, rfl, rfl, rfl⟩

/-! ## Waiting -/

lemma conflict_overlaps {index : List Node} {r : Range} {it : Node} (h : Ordered index) (hr : r.offset < r.end_)
    (hc : conflict index r = some it) : it ∈ index ∧ ¬ it.range.Disjoint r := by
  have hn := head?_dropWhile_not (fun n : Node => n.range.lt r) index
  unfold conflict at hc
  cases hb : lowerBound index r with
  | nil => simp [hb] at hc
  | cons n rest =>
    rw [lowerBound] at hb
    rw [hb] at hn
    simp only [lowerBound, hb, Option.ite_none_right_eq_some, Option.some.injEq] at hc
    obtain ⟨hlt, rfl⟩ := hc
    have hmem : n ∈ index := dropWhile_sublist _ |>.subset (hb ▸ mem_cons_self)
    have hle : r.offset < n.range.end_ := by simpa [Range.lt] using hn
    have hne := h.nonEmpty n hmem
    -- the byte where the later one of the two begins
    exact ⟨hmem, fun hd => hd (max n.range.offset r.offset) ⟨⟨by omega, by omega⟩, by omega, by omega⟩⟩

/-- A call gets its range when nobody holds a byte of it, and else it waits for a holder of one. -/
theorem rangeLock_waits_for_holder {es : List Ev} {s : St} (hm : machine.Meets (fun _ e => NonEmpty e) es)
    (h : machine.run es = some s) (t : Tid) {r : Range} (hr : r.offset < r.end_) (call : Range → Call) :
    ((∀ h ∈ s.held, h.node.range.Disjoint r) →
        (s.tryLock t r call).pc t = .idle ∧ (s.tryLock t r call).held = ⟨t, s.next, r⟩ :: s.held) ∧
      ((∃ h ∈ s.held, ¬ h.node.range.Disjoint r) → (s.tryLock t r call).held = s.held ∧
        ∃ h ∈ s.held, ¬ h.node.range.Disjoint r ∧
          (s.tryLock t r call).pc t = .waiting h.node.id (call (conflictPart h.node.range r))) := by
  have hi : Inv s := Machine.run_inv_of inv_init inv_step hm h
  unfold St.tryLock
  cases hc : conflict s.index r with
  | some it =>
    obtain ⟨hit, ho⟩ := conflict_overlaps hi.ordered hr hc
    obtain ⟨h, hh, rfl⟩ := mem_map.1 (hi.held.mem_iff.2 hit)
    exact ⟨fun hd => absurd (hd h hh) ho, fun _ => ⟨rfl, h, hh, ho, Function.update_self ..⟩⟩
  | none =>
    obtain ⟨he, hb, ha⟩ := emplaceHint_of_no_conflict (n := ⟨s.next, r⟩) hi.ordered hc
    refine ⟨fun _ => ⟨Function.update_self .., by rw [he]⟩, fun ⟨h, hh, hn⟩ => absurd ?_ hn⟩
    have hmem := hi.held.mem_iff.1 (mem_map_of_mem hh)
    rw [← below_append s.index r, mem_append] at hmem
    obtain hmem | hmem := hmem
    · exact Range.disjoint_of_le (hb _ hmem)
    · exact (Range.disjoint_of_le (ha _ hmem)).symm

theorem rangeLock_waits_for_holder_one : ∃ s, machine.run [.tryLockWait 0 ⟨10, 20⟩] = some s ∧
    (s.tryLock 1 ⟨25, 10⟩ .tryLockWait).pc 1 = .waiting 0 (.tryLockWait ⟨10, 20⟩) := by
  have hr : machine.run [.tryLockWait 0 ⟨10, 20⟩] = some _ := rfl
  have hm : machine.Meets (fun _ e => NonEmpty e) [.tryLockWait 0 ⟨10, 20⟩] := by decide
  obtain ⟨-, h, hh, -, hp⟩ := (rangeLock_waits_for_holder hm hr 1 (r := ⟨25, 10⟩) (by decide) .tryLockWait).2
    ⟨_, mem_cons_self, fun hd => hd 25 ⟨⟨by decide, by decide⟩, by decide, by decide⟩⟩
  cases mem_singleton.1 hh
  exact ⟨_, hr, hp⟩

end Photon.RangeLock
