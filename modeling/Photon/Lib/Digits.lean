import Mathlib.Data.Nat.Digits.Lemmas
/-!
# Printing numbers

`digitsTo` finds the digits of a number from the last one on, and puts each of them before
those it has. They are the digits of the library, the other way round; 0 has one digit.
-/

open List Nat

variable {α : Type}

/-- The digits of `n` in base `b`, at most `k` of them, before `acc`. -/
def digitsTo (b : Nat) (char : Nat → α) : Nat → Nat → List α → List α
  | 0, _, acc => acc
  | k + 1, n, acc => if n < b then char n :: acc else digitsTo b char k (n / b) (char (n % b) :: acc)

section Any

variable {b : Nat} {char : Nat → α}

lemma digitsTo_length_le (k n : Nat) (acc : List α) : (digitsTo b char k n acc).length ≤ k + acc.length := by
  induction k generalizing n acc with rw [digitsTo]
  | zero =>
    omega
  | succ k ih =>
    split
    · rw [length_cons]
      omega
    · have := ih (n / b) (char (n % b) :: acc)
      rw [length_cons] at this
      omega

lemma suffix_digitsTo (k n : Nat) (acc : List α) : acc <:+ digitsTo b char k n acc := by
  induction k generalizing n acc with
  | zero => exact suffix_rfl
  | succ k ih =>
    rw [digitsTo]
    split
    · exact suffix_cons ..
    · exact (suffix_cons ..).trans (ih ..)

lemma digitsTo_ne_nil (k n : Nat) (acc : List α) : digitsTo b char (k + 1) n acc ≠ [] := by
  rw [digitsTo]
  split
  · exact cons_ne_nil _ _
  intro hn
  have hsu : char (n % b) :: acc <:+ digitsTo b char k (n / b) (char (n % b) :: acc) := suffix_digitsTo k _ _
  rw [hn] at hsu
  exact cons_ne_nil _ _ (suffix_nil.1 hsu)

lemma forall_mem_digitsTo (P : α → Prop) (hb : 0 < b) (hch : ∀ d < b, P (char d)) (k n : Nat) {acc : List α}
    (ha : ∀ c ∈ acc, P c) : ∀ c ∈ digitsTo b char k n acc, P c := by
  induction k generalizing n acc with
  | zero => exact ha
  | succ k ih =>
    have hco : ∀ d < b, ∀ c ∈ char d :: acc, P c := by
      intro d hd c hc
      rcases mem_cons.1 hc with rfl | hc
      · exact hch d hd
      · exact ha c hc
    rw [digitsTo]
    split
    next hlt => exact hco n hlt
    · exact ih (n / b) (hco _ (mod_lt n hb))

end Any

section Enough

variable {b : Nat} {char : Nat → α} {k n : Nat}

lemma digitsTo_eq (hb : 1 < b) (hn : n ≠ 0) (hk : n < b ^ k) (acc : List α) :
    digitsTo b char k n acc = (b.digits n).reverse.map char ++ acc := by
  induction k generalizing n acc with
  | zero => exact absurd (Nat.lt_one_iff.1 hk) hn
  | succ k ih =>
    rw [digitsTo]
    split
    next hlt =>
      rw [digits_of_lt b n hn hlt]
      rfl
    rename_i hg
    have hd : n / b < b ^ k := by
      rw [div_lt_iff_lt_mul (by omega), ← pow_succ]
      exact hk
    have hne : n / b ≠ 0 := ne_of_gt (div_pos (not_lt.1 hg) (by omega))
    rw [ih hne hd, digits_def' hb (pos_of_ne_zero hn), reverse_cons, map_append, append_assoc]
    rfl

lemma digitsTo_length_le_of_lt (hb : 1 < b) (hk : n < b ^ k) {j : Nat} (hj : n < b ^ (j + 1)) :
    (digitsTo b char k n []).length ≤ j + 1 := by
  rcases eq_or_ne n 0 with rfl | hn
  · cases k with
    | zero => exact zero_le _
    | succ =>
      rw [digitsTo, if_pos (by omega)]
      exact succ_le_succ (zero_le j)
  · rw [digitsTo_eq hb hn hk, append_nil, length_map, length_reverse]
    exact (digits_length_le_iff hb n).2 hj

lemma lt_digitsTo_length (hb : 1 < b) (hk : n < b ^ k) {j : Nat} (hj : b ^ j ≤ n) : j < (digitsTo b char k n []).length := by
  have hn : n ≠ 0 := by
    have := one_le_pow j b (by omega)
    omega
  rw [digitsTo_eq hb hn hk, append_nil, length_map, length_reverse]
  exact (lt_digits_length_iff hb n).2 hj

lemma foldl_digitsTo (hb : 1 < b) {val : α → Nat} (hv : ∀ d < b, val (char d) = d) (hk : n < b ^ k) :
    (digitsTo b char k n []).foldl (fun v c => v * b + val c) 0 = n := by
  rcases eq_or_ne n 0 with rfl | hn
  · cases k with
    | zero => rfl
    | succ =>
      rw [digitsTo, if_pos (by omega), foldl_cons, hv 0 (by omega), zero_mul]
      rfl
  · have hdi : ∀ l : List Nat, (∀ d ∈ l, d < b) → l.foldr (fun d v => v * b + val (char d)) 0 = ofDigits b l := by
      intro l hl
      induction l with
      | nil => rfl
      | cons d l ih =>
        rw [foldr_cons, ih fun e he => hl e (mem_cons_of_mem d he), hv d (hl d mem_cons_self),
          ofDigits_cons, mul_comm, add_comm]
    rw [digitsTo_eq hb hn hk, append_nil, foldl_map, foldl_reverse,
      hdi _ fun d hd => digits_lt_base hb hd, ofDigits_digits]

end Enough
