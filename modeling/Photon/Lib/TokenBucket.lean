import Mathlib.Algebra.Ring.Nat
import Mathlib.Logic.Relation
/-!
# Token buckets

A bucket of `cap` tokens that is refilled now and then: a refill needs `w` units of
time since the last one and gives at most `r` tokens for each `w` of them, the rest of
the time is forfeit. Two bounds on what is taken in a span of time, both by a balance:
the tokens taken and those still in the bucket never exceed what a refill up to now
could have brought.
-/

/-- What is in the bucket, when it was refilled last, and what was taken at what time,
last first. -/
structure Bucket where
  now : Nat := 0
  count : Nat
  last : Nat := 0
  taken : List (Nat × Nat) := []

namespace Bucket

open Nat

inductive Step (cap r w : Nat) : Bucket → Bucket → Prop
  | tick (b : Bucket) (d : Nat) : Step cap r w b { b with now := b.now + d }
  | refill (b : Bucket) (free : Nat) (hw : w ≤ b.now - b.last) (hf : free ≤ r * ((b.now - b.last) / w))
      (hc : b.count + free ≤ cap) : Step cap r w b { b with count := b.count + free, last := b.now }
  | take (b : Bucket) (n : Nat) (hn : n ≤ b.count) :
      Step cap r w b { b with count := b.count - n, taken := (b.now, n) :: b.taken }

def Steps (cap r w : Nat) : Bucket → Bucket → Prop := Relation.ReflTransGen (Step cap r w)

/-- The tokens taken from time `a` to time `e`. -/
def takenIn (a e : Nat) (taken : List (Nat × Nat)) : Nat := ((taken.filter fun x => a ≤ x.1 ∧ x.1 ≤ e).map (·.2)).sum

lemma takenIn_cons (a e t n : Nat) (taken : List (Nat × Nat)) :
    takenIn a e ((t, n) :: taken) = (if a ≤ t ∧ t ≤ e then n else 0) + takenIn a e taken := by
  by_cases h : a ≤ t ∧ t ≤ e <;> simp [takenIn, h]

lemma takenIn_eq_zero {a e t : Nat} {taken : List (Nat × Nat)} (h : ∀ x ∈ taken, x.1 ≤ t) (ht : t < a) :
    takenIn a e taken = 0 := by
  rw [takenIn, List.filter_eq_nil_iff.2]
  · rfl
  intro x hx
  have := h x hx
  simp only [decide_eq_true_eq]
  omega

structure Ok (cap : Nat) (b : Bucket) : Prop where
  count : b.count ≤ cap
  last : b.last ≤ b.now
  taken : ∀ x ∈ b.taken, x.1 ≤ b.now

variable {cap r w : Nat} {b b' b0 : Bucket}

lemma Ok.step (ho : Ok cap b) (h : Step cap r w b b') : Ok cap b' := by
  obtain ⟨hc, hl, ht⟩ := ho
  cases h with
  | tick => exact ⟨hc, le_add_right_of_le hl, fun x hx => le_add_right_of_le (ht x hx)⟩
  | refill free hw hf hca => exact ⟨hca, le_rfl, ht⟩
  | take =>
    refine ⟨le_trans (sub_le ..) hc, hl, fun x hx => ?_⟩
    rcases List.mem_cons.1 hx with rfl | hx
    · exact le_rfl
    · exact ht x hx

lemma earned_add (r w x y : Nat) : r * (x / w) + r * (y / w) ≤ r * ((x + y) / w) := by
  rw [← mul_add]
  exact mul_le_mul_left r div_add_div_le_add_div

/-- What is taken comes out of what the bucket holds, so no bound is passed. -/
lemma take_within {a e n bound total : Nat} (hle : b.now ≤ e → bound ≤ total)
    (hba : b.now ≤ e → takenIn a e b.taken + b.count ≤ bound) (ht : takenIn a e b.taken ≤ total) (hn : n ≤ b.count) :
    (b.now ≤ e → takenIn a e ((b.now, n) :: b.taken) + (b.count - n) ≤ bound) ∧
      takenIn a e ((b.now, n) :: b.taken) ≤ total := by
  rw [takenIn_cons]
  constructor
  · intro he
    have := hba he
    split <;> omega
  split
  next h =>
    have := hba h.2
    have := hle h.2
    omega
  · omega

/-! ## Any span -/

/-- What can be taken from `a` on until the next refill, when the last one was at `last`. -/
def spanBound (cap r w a last : Nat) : Nat := if a ≤ last then 2 * cap + r * ((last - a) / w) else cap

structure SpanInv (cap r w a e : Nat) (b : Bucket) : Prop where
  ok : Ok cap b
  balance : b.now ≤ e → takenIn a e b.taken + b.count ≤ spanBound cap r w a b.last
  total : takenIn a e b.taken ≤ 2 * cap + r * ((e - a) / w)

lemma spanBound_le (cap r w : Nat) {a e last : Nat} (h : last ≤ e) :
    spanBound cap r w a last ≤ 2 * cap + r * ((e - a) / w) := by
  unfold spanBound
  split
  · exact Nat.add_le_add_left (Nat.mul_le_mul_left r (Nat.div_le_div_right (by omega))) _
  · omega

lemma SpanInv.step {a e : Nat} (hi : SpanInv cap r w a e b) (h : Step cap r w b b') : SpanInv cap r w a e b' := by
  have ho := hi.ok.step h
  cases h with
  | tick => exact ⟨ho, fun he => hi.balance (by dsimp only at he; omega), hi.total⟩
  | refill =>
    refine ⟨ho, fun he => ?_, hi.total⟩
    have hba := hi.balance he
    have hla := hi.ok.last
    dsimp only at he ⊢
    by_cases ha : a ≤ b.now
    · by_cases hal : a ≤ b.last
      · -- not the first refill of the span
        have had := earned_add r w (b.last - a) (b.now - b.last)
        rw [show b.last - a + (b.now - b.last) = b.now - a by omega] at had
        rw [spanBound, if_pos hal] at hba
        rw [spanBound, if_pos ha]
        omega
      · rw [spanBound, if_neg hal] at hba
        rw [spanBound, if_pos ha]
        omega
    · have hz := takenIn_eq_zero (e := e) hi.ok.taken (show b.now < a by omega)
      rw [spanBound, if_neg ha]
      omega
  | take n hn =>
    obtain ⟨hba, ht⟩ := take_within (fun he => spanBound_le cap r w (le_trans hi.ok.last he)) hi.balance hi.total hn
    exact ⟨ho, hba, ht⟩

lemma takenIn_le (hc : b0.count ≤ cap) (hl : b0.last ≤ b0.now) (ht : b0.taken = []) (h : Steps cap r w b0 b)
    (a d : Nat) : takenIn a (a + d) b.taken ≤ 2 * cap + r * (d / w) := by
  have hz : takenIn a (a + d) b0.taken = 0 := by rw [ht]; rfl
  have h0 : SpanInv cap r w a (a + d) b0 := by
    refine ⟨⟨hc, hl, by simp [ht]⟩, fun _ => ?_, by omega⟩
    rw [hz, spanBound]
    split <;> omega
  have hi : SpanInv cap r w a (a + d) b := by
    induction h with
    | refl => exact h0
    | tail _ hs ih => exact ih.step hs
  have hto := hi.total
  rwa [Nat.add_sub_cancel_left] at hto

/-! ## A span that begins with a look at the clock -/

structure PolledInv (cap r w a e g : Nat) (b : Bucket) : Prop where
  ok : Ok cap b
  polled : a < b.last + w
  balance : b.now ≤ e → takenIn a e b.taken + b.count ≤ g + cap + r * ((b.last + w - 1 - a) / w)
  total : takenIn a e b.taken ≤ g + cap + r * ((e + w - 1 - a) / w)

lemma PolledInv.step {a e g : Nat} (hi : PolledInv cap r w a e g b) (h : Step cap r w b b') :
    PolledInv cap r w a e g b' := by
  have ho := hi.ok.step h
  have hp := hi.polled
  cases h with
  | tick => exact ⟨ho, hp, fun he => hi.balance (by dsimp only at he; omega), hi.total⟩
  | refill =>
    have hla := hi.ok.last
    refine ⟨ho, by dsimp only; omega, fun he => ?_, hi.total⟩
    have hba := hi.balance he
    have ha := earned_add r w (b.last + w - 1 - a) (b.now - b.last)
    rw [show b.last + w - 1 - a + (b.now - b.last) = b.now + w - 1 - a by omega] at ha
    dsimp only
    omega
  | take n hn =>
    have hla := hi.ok.last
    obtain ⟨hba, ht⟩ := take_within (fun _ => Nat.add_le_add_left
      (Nat.mul_le_mul_left r (Nat.div_le_div_right (by omega))) _) hi.balance hi.total hn
    exact ⟨ho, hp, hba, ht⟩

/-- When the bucket was refilled less than `w` before `b0`, at most one full bucket is
taken after it in a span that begins no later, and what the span itself earns. -/
lemma takenIn_le_of_polled (ho : Ok cap b0) (hp : b0.now < b0.last + w) (h : Steps cap r w b0 b) {a : Nat}
    (ha : a ≤ b0.now) (d : Nat) : takenIn a (a + d) b.taken ≤ takenIn a (a + d) b0.taken + cap + r * (d / w + 1) := by
  have h0 : PolledInv cap r w a (a + d) (takenIn a (a + d) b0.taken) b0 := by
    refine ⟨ho, by omega, fun _ => ?_, by omega⟩
    have hc := ho.count
    omega
  have hi : PolledInv cap r w a (a + d) (takenIn a (a + d) b0.taken) b := by
    induction h with
    | refl => exact h0
    | tail _ hs ih => exact ih.step hs
  have hw : 0 < w := by
    have := ho.last
    omega
  have hd : (a + d + w - 1 - a) / w ≤ d / w + 1 := by
    rw [← add_div_right d hw]
    exact Nat.div_le_div_right (by omega)
  exact le_trans hi.total (Nat.add_le_add_left (Nat.mul_le_mul_left r hd) _)

end Bucket
