import Photon.Common.ObjectCacheInv
/-!
# The cooldown of a failed constructor

`ref_acquire` writes the time of a failure into the item and then gives its reference
back. The release that takes the last reference away clears that time, so it holds a
later call back only as long as somebody else has a reference to the item.
-/

namespace Photon.ObjectCache

open Function Option

variable {K V : Type} {i : Nat} {it it' : Item K V}

/-- The item has its key and object still, and its time of failure unless it has no reference left. -/
structure Same (it it' : Item K V) : Prop where
  key : it'.key = it.key
  obj : it'.obj = it.obj
  failure : 0 < it'.refcnt → it'.failure = it.failure

lemma refRelease_same (d : Data K V) (lifespan i : Nat) (it : Item K V) (recycle : Bool) :
    (d.refRelease lifespan i it recycle).1.now = d.now ∧
      ∃ it', (d.refRelease lifespan i it recycle).1.items = update d.items i (some it') ∧ Same it it' := by
  unfold Data.refRelease
  extract_lets recycle jt kt
  obtain ⟨hk, ho, hf⟩ : jt.key = it.key ∧ jt.obj = it.obj ∧ jt.failure = it.failure := by
    unfold jt
    split <;> exact ⟨rfl, rfl, rfl⟩
  split
  · next h0 => split <;> exact ⟨rfl, _, rfl, hk, ho, fun h => absurd h0 (Nat.ne_of_gt h)⟩
  · exact ⟨rfl, _, rfl, hk, ho, fun _ => hf⟩

variable [DecidableEq K] {d d' : Data K V} {lifespan limit t : Nat} {p p' : Pc K V}

lemma advance_same (hit : d.items i = some it) (hnew : i ≠ d.next) (h : advance lifespan limit d t p = some (d', p')) :
    d'.now = d.now ∧ ∀ it', d'.items i = some it' → Same it it' := by
  have hsa : ∀ it', d.items i = some it' → Same it it' := by
    intro it' h'
    cases hit.symm.trans h'
    exact ⟨rfl, rfl, fun _ => rfl⟩
  have hse {j jt jt'} (hj : d.items j = some jt) (hs : Same jt jt') :
      ∀ it', update d.items j (some jt') i = some it' → Same it it' := by
    intro it' hit'
    rcases eq_or_ne i j with rfl | hne
    · cases hj.symm.trans hit
      rw [update_self, some.injEq] at hit'
      exact hit' ▸ hs
    · exact hsa it' ((update_of_ne hne ..).symm.trans hit')
  have hd {x} : ∀ it', update d.items x none i = some it' → Same it it' := by
    intro it' hit'
    rcases eq_or_ne i x with rfl | hne
    · rw [update_self] at hit'
      cases hit'
    · exact hsa it' ((update_of_ne hne ..).symm.trans hit')
  cases p with
  | idle | ctor => cases h
  | find =>
    simp only [advance] at h
    split at h
    · cases h
      exact ⟨rfl, fun it' hit' => hsa it' ((update_of_ne hnew ..).symm.trans hit')⟩
    · obtain ⟨jt, hj, he⟩ := map_eq_some_iff.1 h
      split at he <;> cases he
      · exact ⟨rfl, hsa⟩
      · exact ⟨rfl, hse hj ⟨rfl, rfl, fun _ => rfl⟩⟩
  | mtxLock =>
    obtain ⟨jt, hj, he⟩ := bind_eq_some_iff.1 h
    obtain ⟨-, he⟩ := ite_some_none_eq_some.1 he
    cases he
    exact ⟨rfl, hse hj ⟨rfl, rfl, fun _ => rfl⟩⟩
  | mtxUnlock =>
    obtain ⟨jt, hj, he⟩ := map_eq_some_iff.1 h
    cases he
    exact ⟨rfl, hse hj ⟨rfl, rfl, fun _ => rfl⟩⟩
  | release j recycle =>
    obtain ⟨jt, hj, he⟩ := map_eq_some_iff.1 h
    cases he
    obtain ⟨hn, jt', hi, hs⟩ := refRelease_same d lifespan j jt recycle
    exact ⟨hn, fun it' hit' => hse hj hs it' (hi ▸ hit')⟩
  | semWait =>
    obtain ⟨jt, hj, he⟩ := bind_eq_some_iff.1 h
    split at he <;> cases he
    exact ⟨rfl, hse hj ⟨rfl, rfl, fun _ => rfl⟩⟩
  | mtxLocked j cooldown | check j =>
    obtain ⟨jt, -, he⟩ := map_eq_some_iff.1 h
    split at he <;> cases he <;> exact ⟨rfl, hsa⟩
  | delete =>
    obtain ⟨jt, -, he⟩ := map_eq_some_iff.1 h
    cases he
    exact ⟨rfl, hd⟩
  | deleteAll xs =>
    cases xs <;> cases h
    · exact ⟨rfl, hsa⟩
    · exact ⟨rfl, hd⟩
  | blocked | erase | expire =>
    cases h
    exact ⟨rfl, hsa⟩

variable {s s' : St K V} {e : Ev K V} {key : K} {τ : Nat}

/-- The clock does not go back. -/
def Onward (s : St K V) : Ev K V → Prop
  | .time now => s.data.now ≤ now
  | _ => True

/-- The constructor of item `i` failed at time `τ`, and the item has had references since. -/
structure Cooling (i : Nat) (key : K) (τ : Nat) (s : St K V) : Prop where
  inv : Inv s
  now : τ ≤ s.data.now
  item : 0 < s.data.refcnt i → ∃ it, s.data.items i = some it ∧ it.key = key ∧ (it.obj = none → τ ≤ it.failure)

lemma Cooling.step (h : Cooling i key τ s) (hpo : 0 < s.data.refcnt i) (hcl : Onward s e)
    (hs : step lifespan limit s e = some s') : Cooling i key τ s' := by
  have hi := inv_step h.inv hs
  obtain ⟨it, hit, hk, hf⟩ := h.item hpo
  cases e with simp only [ObjectCache.step] at hs
  | time =>
    cases hs
    exact ⟨hi, le_trans h.now hcl, h.item⟩
  | step =>
    obtain ⟨p, -, hs⟩ := bind_eq_some_iff.1 hs
    obtain ⟨⟨d', p'⟩, ha, rfl⟩ := map_eq_some_iff.1 hs
    obtain ⟨hn, hsa⟩ := advance_same hit (ne_of_lt (h.inv.good.lt_next hit)) ha
    refine ⟨hi, hn ▸ h.now, fun hp' => ?_⟩
    obtain ⟨it', hit'⟩ := hi.good.set_live i (hi.good.referenced i hp')
    have hsa := hsa it' hit'
    refine ⟨it', hit', hsa.key.trans hk, fun ho => ?_⟩
    rw [hsa.failure (Data.refcnt_eq hit' ▸ hp')]
    exact hf (hsa.obj ▸ ho)
  | constructed t obj =>
    split at hs
    next j hp =>
      obtain ⟨jt, hj, rfl⟩ := map_eq_some_iff.1 hs
      refine ⟨hi, h.now, fun _ => ?_⟩
      rcases eq_or_ne i j with rfl | hne
      · cases hj.symm.trans hit
        refine ⟨_, update_self .., hk, fun ho => ?_⟩
        -- it failed again, later
        simpa [show obj = none from ho] using h.now
      · exact ⟨it, (update_of_ne hne ..).trans hit, hk, hf⟩
    · cases hs
  | refAcquire | refRelease | release | expire =>
    -- they only start a call
    have hd : s'.data.items = s.data.items ∧ s'.data.now = s.data.now := by
      repeat' split at hs
      all_goals cases hs <;> exact ⟨rfl, rfl⟩
    exact ⟨hi, hd.2 ▸ h.now, fun _ => ⟨it, hd.1 ▸ hit, hk, hf⟩⟩

/-- With its next step thread `u`, in a `ref_acquire` with this cooldown, calls the constructor for the key. -/
def Calls (lifespan limit : Nat) (s : St K V) (u cooldown : Nat) (key : K) : Prop :=
  ∃ i s', s.threads[u]? = some (.mtxLocked i cooldown) ∧ s.data.keyOf i = some key ∧
    ObjectCache.step lifespan limit s (.step u) = some s' ∧ s'.threads[u]? = some (.ctor i)

/-- From a failure of the constructor on, as long as there are references to the item. -/
theorem cooldown_while_held {n t u cooldown : Nat} {es : List (Ev K V)} (es' : List (Ev K V)) {s s1 s2 : St K V}
    (hrun : (machine K V lifespan limit n).run es = some s) (ht : s.threads[t]? = some (.ctor i))
    (hkey : s.data.keyOf i = some key) (hnow : 0 < s.data.now) (hfail : step lifespan limit s (.constructed t none) = some s1)
    (hheld : (machine K V lifespan limit n).MeetsFrom (fun s e => 0 < s.data.refcnt i ∧ Onward s e) s1 es')
    (hrun' : (machine K V lifespan limit n).runFrom s1 es' = some s2) (hpos : 0 < s2.data.refcnt i)
    (hcall : Calls lifespan limit s2 u cooldown key) : s.data.now + cooldown ≤ s2.data.now := by
  have hi : Inv s := Machine.run_inv (inv_init lifespan limit n) inv_step hrun
  have h1 : Cooling i key s.data.now s1 := by
    have hinv := inv_step hi hfail
    simp only [step, ht] at hfail
    obtain ⟨it, hit, rfl⟩ := map_eq_some_iff.1 hfail
    rw [Data.keyOf_eq hit, some.injEq] at hkey
    exact ⟨hinv, le_rfl, fun _ => ⟨_, update_self .., hkey, fun _ => le_rfl⟩⟩
  have h2 : Cooling i key s.data.now s2 :=
    Machine.runFrom_inv_of (fun h ho => h.step ho.1 ho.2) h1 hheld hrun'
  obtain ⟨j, s3, hu, hj, hs, hct⟩ := hcall
  obtain ⟨it, hit, hk', hf⟩ := h2.item hpos
  -- the item that is constructed is the one that failed
  obtain rfl : i = j := h2.inv.good.keys i (h2.inv.good.referenced i hpos) j
    (h2.inv.good.referenced j (h2.inv.holds_pos hu rfl)) (by rw [Data.keyOf_eq hit, hk', hj])
  simp only [step, hu, bind_some, advance, hit, map_some, some.injEq] at hs
  subst hs
  simp only [List.getElem?_set, if_pos, (List.getElem?_eq_some_iff.1 hu).1, some.injEq] at hct
  split at hct
  next hc =>
    have := hf (by simpa using hc.1)
    have := hc.2
    omega
  · cases hct

def constructing : List (Ev Nat Nat) := [.time 1000, .refAcquire 0 5 100, .step 0, .step 0, .step 0]

/-- Then it fails while thread 1 waits, and thread 1 comes to its turn when the cooldown is over. -/
def waited : List (Ev Nat Nat) := [.step 0, .step 1, .time 1100]

theorem cooldown_while_held_waited : ∃ s s1 s2 : St Nat Nat, (machine Nat Nat 10 8 2).run
      (constructing ++ [.refAcquire 1 5 100, .step 1]) = some s ∧ step 10 8 s (.constructed 0 none) = some s1 ∧
    (machine Nat Nat 10 8 2).runFrom s1 waited = some s2 ∧ Calls 10 8 s2 1 100 5 ∧ s.data.now + 100 ≤ s2.data.now := by
  have hr : (machine Nat Nat 10 8 2).run (constructing ++ [.refAcquire 1 5 100, .step 1]) = some _ := rfl
  refine ⟨_, _, _, hr, rfl, rfl, ⟨0, _, rfl, rfl, rfl, rfl⟩, ?_⟩
  refine cooldown_while_held waited hr (t := 0) rfl rfl (by decide) rfl ?_ rfl (by decide) (u := 1)
    ⟨0, _, rfl, rfl, rfl, rfl⟩
  refine .cons ⟨by decide, trivial⟩ rfl (.cons ⟨by decide, trivial⟩ rfl (.cons ⟨by decide, ?_⟩ rfl trivial))
  exact Nat.le_add_right 1000 100

/-- The constructor for key 5 fails at time 1000, and the next `ref_acquire` calls it again 1 later. -/
theorem failed_called_again : ∃ s s1 s2 : St Nat Nat, (machine Nat Nat 10 8 1).run constructing = some s ∧
    s.threads[0]? = some (.ctor 0) ∧ s.data.now = 1000 ∧ step 10 8 s (.constructed 0 none) = some s1 ∧
    (machine Nat Nat 10 8 1).runFrom s1 [.step 0, .step 0, .step 0, .step 0, .step 0, .step 0, .step 0, .time 1001,
      .refAcquire 0 5 100, .step 0, .step 0] = some s2 ∧ s2.data.now = 1001 ∧ Calls 10 8 s2 0 100 5 :=
  ⟨_, _, _, rfl, rfl, rfl, rfl, rfl, rfl, 0, _, rfl, rfl, rfl, rfl⟩

end Photon.ObjectCache
