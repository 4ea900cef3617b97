import Mathlib.Logic.Function.Iterate
/-!
# While loops

A loop `while (cond) body` over a state, with fuel for the passes it may make.
`whileFuel_iterate` is the rule for it: the loop ends in the first iterate of
the body at which the condition fails, with any fuel that reaches it.
`whileFuel_inv` is the rule with an invariant and a measure that every pass
decreases.
-/

open Function Nat

/-- At most `fuel` tests of the condition; `none` when they are not enough. -/
def whileFuel {σ : Type} (cond : σ → Bool) (body : σ → σ) : Nat → σ → Option σ
  | 0, _ => none
  | fuel + 1, s => if cond s then whileFuel cond body fuel (body s) else some s

lemma whileFuel_iterate {σ : Type} {cond : σ → Bool} {body : σ → σ} {s : σ} {k : Nat}
    (hbe : ∀ i < k, cond (body^[i] s) = true) (hk : cond (body^[k] s) = false) {fuel : Nat} (hf : k < fuel) :
    whileFuel cond body fuel s = some (body^[k] s) := by
  induction k generalizing s fuel with
  | zero =>
    obtain ⟨n, rfl⟩ := exists_eq_succ_of_ne_zero (Nat.ne_of_gt hf)
    have hk0 : cond s = false := hk
    simp [whileFuel, hk0]
  | succ k ih =>
    obtain ⟨n, rfl⟩ := exists_eq_succ_of_ne_zero (Nat.ne_of_gt (Nat.lt_of_le_of_lt (zero_le _) hf))
    have h0 : cond s = true := hbe 0 (succ_pos k)
    rw [whileFuel, if_pos h0, iterate_succ_apply]
    refine ih (fun i hi => ?_) ?_ (lt_of_succ_lt_succ hf)
    · rw [← iterate_succ_apply]
      exact hbe (i + 1) (succ_lt_succ hi)
    · rw [← iterate_succ_apply]
      exact hk

lemma whileFuel_inv {σ : Type} {cond : σ → Bool} {body : σ → σ} {I : σ → Prop} {μ : σ → Nat}
    (hbo : ∀ s, I s → cond s = true → I (body s) ∧ μ (body s) < μ s) {s : σ} {fuel : Nat} (hs : I s)
    (hf : μ s < fuel) : ∃ s', whileFuel cond body fuel s = some s' ∧ I s' ∧ cond s' = false := by
  induction fuel generalizing s with
  | zero => exact absurd hf (not_lt_zero _)
  | succ fuel ih =>
    cases hc : cond s with
    | false => exact ⟨s, by simp [whileFuel, hc], hs, hc⟩
    | true =>
      obtain ⟨hi, hlt⟩ := hbo s hs hc
      obtain ⟨s', hr, h⟩ := ih hi (Nat.lt_of_lt_of_le hlt (le_of_lt_succ hf))
      exact ⟨s', by simp [whileFuel, hc, hr], h⟩
