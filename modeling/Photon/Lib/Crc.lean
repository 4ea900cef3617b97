import Mathlib.Data.BitVec
import Photon.Lib.LittleEndian
/-!
# Cyclic redundancy checks

A remainder of `w` bits with the lowest bit first, as in the reflected checksums. `shift`
is the step of one bit, and `crc` feeds bytes one after another. All of it is linear in
exclusive or, and injective when the polynomial has its highest bit.

- `crc_ne`: two byte strings of which exactly one byte differs have different remainders.
- `crc_self`: a remainder followed by its own bytes is zero.
-/

namespace Crc

open List Function BitVec

variable {w : Nat} (poly : BitVec w)

/-- One bit. -/
def shift (c : BitVec w) : BitVec w := (if c.getLsbD 0 then poly else 0#w) ^^^ (c >>> 1)

/-- Eight bits. -/
def shift8 (c : BitVec w) : BitVec w := (shift poly)^[8] c

def step (c : BitVec w) (b : BitVec 8) : BitVec w := shift8 poly (c ^^^ b.setWidth w)

/-- The remainder after the bytes. -/
def crc (c : BitVec w) (bs : List (BitVec 8)) : BitVec w := bs.foldl (step poly) c

/-- The lowest eight bits. -/
def low (c : BitVec w) : BitVec w := (c.setWidth 8).setWidth w

/-! ## Linearity -/

lemma shift_xor (a b : BitVec w) : shift poly (a ^^^ b) = shift poly a ^^^ shift poly b := by
  unfold shift
  rw [getLsbD_xor, ushiftRight_xor_distrib]
  ext i hi
  cases a.getLsbD 0 <;> cases b.getLsbD 0 <;> simp <;> grind

lemma shift_zero : shift poly 0#w = 0#w := by simp [shift]

lemma iterate_shift_xor (n : Nat) (a b : BitVec w) :
    (shift poly)^[n] (a ^^^ b) = (shift poly)^[n] a ^^^ (shift poly)^[n] b := by
  induction n generalizing a b with
  | zero => rfl
  | succ n ih => rw [iterate_succ_apply, shift_xor, ih]; rfl

lemma shift8_xor (a b : BitVec w) : shift8 poly (a ^^^ b) = shift8 poly a ^^^ shift8 poly b :=
  iterate_shift_xor poly 8 a b

lemma shift8_zero : shift8 poly 0#w = 0#w := iterate_fixed (shift_zero poly) 8

/-! ## Injectivity -/

lemma shift_injective (hp : poly.msb = true) : Injective (shift poly) := by
  intro a b h
  have hz : shift poly (a ^^^ b) = 0#w := by rw [shift_xor, h, BitVec.xor_self]
  refine BitVec.xor_eq_zero_iff.1 ?_
  generalize a ^^^ b = c at hz
  unfold shift at hz
  cases h0 : c.getLsbD 0 with
  | true =>
    -- the polynomial cannot be a number shifted down
    rw [h0, if_pos rfl, xor_eq_zero_iff] at hz
    rw [hz, msb_ushiftRight] at hp
    simp at hp
  | false =>
    rw [h0, if_neg Bool.false_ne_true, zero_xor] at hz
    refine eq_of_getLsbD_eq fun i hi => ?_
    cases i with
    | zero => simpa using h0
    | succ i =>
      have := congrArg (getLsbD · i) hz
      simpa [add_comm 1] using this

lemma shift8_injective (hp : poly.msb = true) : Injective (shift8 poly) := (shift_injective poly hp).iterate 8

lemma crc_injective (hp : poly.msb = true) (bs : List (BitVec 8)) : Injective (crc poly · bs) := by
  induction bs with
  | nil => exact fun _ _ h => h
  | cons b bs ih =>
    intro c d h
    have h8 := shift8_injective poly hp (ih h)
    exact (xor_left_inj _).1 h8

lemma crc_append (c : BitVec w) (as bs : List (BitVec 8)) : crc poly c (as ++ bs) = crc poly (crc poly c as) bs :=
  foldl_append

lemma crc_ne (hp : poly.msb = true) (hw : 8 ≤ w) (c : BitVec w) (pre post : List (BitVec 8)) {b b' : BitVec 8}
    (hb : b ≠ b') : crc poly c (pre ++ b :: post) ≠ crc poly c (pre ++ b' :: post) := by
  rw [crc_append, crc_append]
  intro h
  have h8 := shift8_injective poly hp (crc_injective poly hp post h)
  have hse : b.setWidth w = b'.setWidth w := (xor_right_inj _).1 h8
  have := congrArg (setWidth 8) hse
  rw [setWidth_setWidth_of_le _ hw, setWidth_setWidth_of_le _ hw] at this
  simp at this
  exact hb this

/-! ## The remainder in the bytes -/

lemma iterate_shift_of_clear {c : BitVec w} {n : Nat} (hn : ∀ i < n, c.getLsbD i = false) :
    (shift poly)^[n] c = c >>> n := by
  induction n with
  | zero => simp
  | succ n ih =>
    rw [iterate_succ_apply', ih fun i hi => hn i (by omega)]
    have h0 : (c >>> n).getLsbD 0 = false := by simpa using hn n (by omega)
    rw [shift, h0, if_neg Bool.false_ne_true, zero_xor, shiftRight_add]

lemma getLsbD_low (c : BitVec w) (i : Nat) : (low c).getLsbD i = (decide (i < 8) && c.getLsbD i) := by
  simp only [low, getLsbD_setWidth]
  cases hi : decide (i < w)
  · simp [getLsbD_of_ge c i (by simpa using hi)]
  · simp

lemma shift8_clear (c : BitVec w) : shift8 poly (low c ^^^ c) = c >>> 8 := by
  have hcl : ∀ i < 8, (low c ^^^ c).getLsbD i = false := by
    intro i hi
    simp [getLsbD_low, hi]
  rw [shift8, iterate_shift_of_clear poly hcl]
  refine eq_of_getLsbD_eq fun i hi => ?_
  rw [getLsbD_ushiftRight, getLsbD_xor, getLsbD_low, decide_eq_false (by omega), Bool.false_and,
    Bool.false_xor, getLsbD_ushiftRight]

lemma shift8_low (c : BitVec w) : shift8 poly c = shift8 poly (low c) ^^^ (c >>> 8) := by
  rw [← shift8_clear poly c, shift8_xor, ← BitVec.xor_assoc, BitVec.xor_self, BitVec.zero_xor]

lemma step_xor (c d : BitVec w) (n m : Nat) :
    step poly (c ^^^ d) (BitVec.ofNat 8 (n ^^^ m)) = step poly c (BitVec.ofNat 8 n) ^^^ step poly d (BitVec.ofNat 8 m) := by
  rw [step, step, step, ← shift8_xor]
  congr 1
  refine eq_of_getLsbD_eq fun i hi => ?_
  simp only [getLsbD_xor, getLsbD_setWidth, getLsbD_ofNat, Nat.testBit_xor, hi]
  cases c.getLsbD i <;> cases d.getLsbD i <;> cases n.testBit i <;> cases m.testBit i <;> cases decide (i < 8) <;> rfl

lemma xor_div_256 (n m : Nat) : (n ^^^ m) / 256 = n / 256 ^^^ m / 256 := Nat.xor_div_two_pow (n := 8)

section
variable (k : Nat)

lemma crc_xor (c d : BitVec w) (n m : Nat) :
    crc poly (c ^^^ d) (leBytes k (n ^^^ m)) = crc poly c (leBytes k n) ^^^ crc poly d (leBytes k m) := by
  induction k generalizing c d n m with
  | zero => rfl
  | succ k ih =>
    change crc poly (step poly ..) (leBytes k _) = _
    rw [step_xor, xor_div_256, ih]
    rfl

lemma crc_own (c : BitVec w) : crc poly c (leBytes k c.toNat) = c >>> (8 * k) := by
  induction k generalizing c with
  | zero => simp [leBytes, crc]
  | succ k ih =>
    have hst : step poly c (BitVec.ofNat 8 c.toNat) = c >>> 8 := by
      rw [step, ← shift8_clear poly c, BitVec.xor_comm (low c), low, ofNat_toNat]
    have hd : c.toNat / 256 = (c >>> 8).toNat := by
      rw [toNat_ushiftRight, Nat.shiftRight_eq_div_pow]
    change crc poly (step poly c _) (leBytes k _) = _
    rw [hst, hd, ih, ← shiftRight_add, Nat.mul_succ, add_comm 8]

lemma crc_absorb (c d : BitVec w) (n : Nat) :
    crc poly (d ^^^ c) (leBytes k n) = crc poly d (leBytes k (n ^^^ c.toNat)) ^^^ (c >>> (8 * k)) := by
  rw [← crc_own poly k c, ← crc_xor, Nat.xor_assoc, Nat.xor_self, Nat.xor_zero]

lemma shift8_iterate : (shift8 poly)^[k] = (shift poly)^[8 * k] := (iterate_mul ..).symm

lemma crc_zeros (c : BitVec w) : crc poly c (leBytes k 0) = (shift poly)^[8 * k] c := by
  rw [← shift8_iterate]
  induction k generalizing c with
  | zero => rfl
  | succ k ih =>
    have hst : step poly c (BitVec.ofNat 8 0) = shift8 poly c := by simp [step]
    change crc poly (step poly c _) (leBytes k (0 / 256)) = _
    rw [hst, Nat.zero_div, ih, iterate_succ_apply]

lemma crc_zero : crc poly 0#w (leBytes k 0) = 0#w := by
  rw [crc_zeros, iterate_fixed (shift_zero poly)]

end

lemma crc_init (c : BitVec w) (bs : List (BitVec 8)) :
    crc poly c bs = (shift poly)^[8 * bs.length] c ^^^ crc poly 0#w bs := by
  have h := crc_xor poly bs.length c 0#w 0 (leNat bs)
  rwa [Nat.zero_xor, xor_zero, leBytes_leNat, crc_zeros] at h

lemma crc_append_append (c : BitVec w) (as bs cs : List (BitVec 8)) :
    crc poly c (as ++ bs ++ cs) = (shift poly)^[8 * (bs.length + cs.length)] (crc poly c as) ^^^
      (shift poly)^[8 * cs.length] (crc poly 0#w bs) ^^^ crc poly 0#w cs := by
  rw [crc_append, crc_append, crc_init, crc_init poly (crc poly c as), iterate_shift_xor, ← iterate_add_apply,
    ← Nat.mul_add, add_comm cs.length]

lemma crc_move {k : Nat} (hk : w ≤ 8 * k) (c : BitVec w) (n : Nat) :
    crc poly c (leBytes k n) = crc poly 0#w (leBytes k (n ^^^ c.toNat)) := by
  have h := crc_absorb poly k c 0#w n
  rwa [zero_xor, ushiftRight_eq_zero hk, xor_zero] at h

lemma crc_self {k : Nat} (hk : w ≤ 8 * k) (c : BitVec w) : crc poly c (leBytes k c.toNat) = 0#w := by
  rw [crc_move poly hk, Nat.xor_self, crc_zero]

lemma crc_leBytes (k n : Nat) (c : BitVec w) :
    crc poly c (leBytes k n) = (List.range k).foldl
      (fun a i => a ^^^ (shift8 poly)^[k - i] ((BitVec.ofNat 8 (n / 256 ^ i)).setWidth w)) ((shift8 poly)^[k] c) := by
  induction k with
  | zero => rfl
  | succ k ih =>
    have hsh : ∀ (l : List Nat) (z : BitVec w), (∀ i ∈ l, i < k) → shift8 poly (l.foldl
          (fun a i => a ^^^ (shift8 poly)^[k - i] ((BitVec.ofNat 8 (n / 256 ^ i)).setWidth w)) z) =
        l.foldl (fun a i => a ^^^ (shift8 poly)^[k + 1 - i] ((BitVec.ofNat 8 (n / 256 ^ i)).setWidth w))
          (shift8 poly z) := by
      intro l
      induction l with
      | nil => exact fun _ _ => rfl
      | cons i l ihl =>
        intro z hl
        have hi : k + 1 - i = k - i + 1 := by
          have := hl i (mem_cons_self ..)
          omega
        rw [foldl_cons, foldl_cons, ihl _ fun j hj => hl j (mem_cons_of_mem _ hj), shift8_xor, hi, iterate_succ_apply']
    rw [leBytes_succ, crc_append, ih, range_succ, foldl_append, foldl_cons, foldl_nil,
      iterate_succ_apply', ← hsh _ _ fun i => mem_range.1, Nat.add_sub_cancel_left]
    exact shift8_xor poly ..

/-! ## Products

In the reflected order the highest bit is the polynomial `1` and `shift` multiplies by the
indeterminate. -/

/-- `f` respects exclusive or. -/
def Linear {v : Nat} (f : BitVec v → BitVec w) : Prop := ∀ a b, f (a ^^^ b) = f a ^^^ f b

section Linear

variable {poly} {v : Nat} {f g : BitVec v → BitVec w}

lemma Linear.zero (hf : Linear f) : f 0#v = 0#w := by
  have h := hf 0#v 0#v
  rwa [BitVec.xor_self, BitVec.xor_self] at h

lemma Linear.comp {u : Nat} {h : BitVec w → BitVec u} (hh : Linear h) (hf : Linear f) : Linear fun a => h (f a) := by
  intro a b
  dsimp only
  rw [hf, hh]

lemma Linear.ext (hf : Linear f) (hg : Linear g) (h : ∀ i < v, f (twoPow v i) = g (twoPow v i))
    (a : BitVec v) : f a = g a := by
  -- by induction on how many low bits are in use, taking away the highest of them
  have hbi : ∀ k (a : BitVec v), (∀ i, k ≤ i → a.getLsbD i = false) → f a = g a := by
    intro k
    induction k with
    | zero =>
      intro a ha
      obtain rfl : a = 0#v := eq_of_getLsbD_eq fun i _ => by simpa using ha i (Nat.zero_le i)
      rw [hf.zero, hg.zero]
    | succ k ih =>
      intro a ha
      by_cases hk : a.getLsbD k = true
      · have hkv : k < v := lt_of_getLsbD hk
        have hr : f (a ^^^ twoPow v k) = g (a ^^^ twoPow v k) := by
          refine ih _ fun i hi => ?_
          rw [getLsbD_xor, getLsbD_twoPow]
          rcases Nat.eq_or_lt_of_le hi with rfl | hi
          · simp [hk, hkv]
          · simp [ha i hi, ne_of_lt hi]
        rw [hf, hg, h k hkv] at hr
        exact (xor_left_inj _).1 hr
      · refine ih a fun i hi => ?_
        rcases Nat.eq_or_lt_of_le hi with rfl | hi
        · simpa using hk
        · exact ha i hi
  exact hbi v a (getLsbD_of_ge a)

end Linear

/-- The exclusive or of the columns at the `n` lowest bits of `a`. -/
def combo {v : Nat} (col : Nat → BitVec w) (a : BitVec v) : Nat → BitVec w
  | 0 => 0#w
  | j + 1 => combo col a j ^^^ if a.getLsbD j then col j else 0#w

section Combo

variable {v : Nat} (col : Nat → BitVec w)

lemma combo_linear (n : Nat) : Linear fun a : BitVec v => combo col a n := by
  intro a b
  induction n with
  | zero => exact (BitVec.xor_self).symm
  | succ n ih =>
    have hi : (if (a ^^^ b).getLsbD n then col n else 0#w) =
        (if a.getLsbD n then col n else 0#w) ^^^ if b.getLsbD n then col n else 0#w := by
      rw [getLsbD_xor]
      cases a.getLsbD n <;> cases b.getLsbD n <;> simp
    simp only [combo] at ih ⊢
    rw [ih, hi]
    ac_rfl

lemma combo_twoPow {j n : Nat} (hj : j < v) : combo col (twoPow v j) n = if j < n then col j else 0#w := by
  induction n with
  | zero => rfl
  | succ n ih =>
    have hbi : (twoPow v j).getLsbD n = decide (j = n) := by
      rw [getLsbD_twoPow, decide_eq_true hj, Bool.true_and]
    rw [combo, ih, hbi]
    rcases Nat.lt_trichotomy j n with h | rfl | h
    · simp [h, ne_of_lt h, Nat.lt_succ_of_lt h]
    · simp
    · have hle : ¬ j < n := by omega
      have hlt : ¬ j < n + 1 := by omega
      simp [hle, hlt, ne_of_gt h]

lemma Linear.eq_combo {f : BitVec v → BitVec w} (hf : Linear f) (h : ∀ j < v, f (twoPow v j) = col j)
    (a : BitVec v) : f a = combo col a v := by
  refine hf.ext (combo_linear col v) (fun j hj => ?_) a
  rw [h j hj, combo_twoPow col hj, if_pos hj]

end Combo

/-- The product of two polynomials. -/
def mul (a c : BitVec w) : BitVec w := combo (fun j => (shift poly)^[w - 1 - j] c) a w

def one : BitVec w := twoPow w (w - 1)

lemma iterate_shift_twoPow {i n : Nat} (hi : i < w) (hn : n ≤ i) :
    (shift poly)^[n] (twoPow w i) = twoPow w (i - n) := by
  have hcl : ∀ j < n, (twoPow w i).getLsbD j = false := by
    intro j hj
    rw [getLsbD_twoPow, decide_eq_false (by omega : ¬ i = j), Bool.and_false]
  rw [iterate_shift_of_clear poly hcl]
  refine eq_of_getLsbD_eq fun j hj => ?_
  rw [getLsbD_ushiftRight, getLsbD_twoPow, getLsbD_twoPow, decide_eq_true hi,
    decide_eq_true (by omega : i - n < w), decide_eq_decide.2 (by omega : i = n + j ↔ i - n = j)]

lemma iterate_shift_comm (m n : Nat) (c : BitVec w) :
    (shift poly)^[m] ((shift poly)^[n] c) = (shift poly)^[n] ((shift poly)^[m] c) := by
  rw [← iterate_add_apply, ← iterate_add_apply, add_comm]

lemma mul_iterate_one (n : Nat) (a : BitVec w) : mul poly a ((shift poly)^[n] one) = (shift poly)^[n] a := by
  refine (Linear.eq_combo _ (iterate_shift_xor poly n) (fun j hj => ?_) a).symm
  have ho : twoPow w j = (shift poly)^[w - 1 - j] one := by
    rw [one, iterate_shift_twoPow poly (by omega) (by omega), show w - 1 - (w - 1 - j) = j by omega]
  rw [ho, iterate_shift_comm]

lemma crc_bit (hw : 8 ≤ w) {k i : Nat} (hi : i < 8 * k) :
    crc poly 0#w (leBytes k (2 ^ i)) = (shift poly)^[8 * k - i] (twoPow w 0) := by
  induction k generalizing i with
  | zero => omega
  | succ k ih =>
    change crc poly (step poly 0#w _) (leBytes k (2 ^ i / 2 ^ 8)) = _
    by_cases h8 : i < 8
    · have hby : (BitVec.ofNat 8 (2 ^ i)).setWidth w = twoPow w i := by
        refine eq_of_toNat_eq ?_
        have hlt : 2 ^ i < 2 ^ 8 := Nat.pow_lt_pow_right (by decide) h8
        rw [toNat_setWidth, toNat_ofNat, Nat.mod_eq_of_lt hlt, toNat_twoPow]
      rw [Nat.div_eq_of_lt (Nat.pow_lt_pow_right (by decide) h8), crc_zeros, step, hby, zero_xor, shift8,
        ← Nat.sub_self i, ← iterate_shift_twoPow poly (by omega : i < w) le_rfl, ← iterate_add_apply,
        ← iterate_add_apply]
      congr 1
      omega
    · have hby : BitVec.ofNat 8 (2 ^ i) = 0#8 := by
        obtain ⟨m, rfl⟩ := Nat.exists_eq_add_of_le (Nat.le_of_not_lt h8)
        exact eq_of_toNat_eq (by rw [toNat_ofNat, pow_add, Nat.mul_mod_right]; rfl)
      have hst : step poly 0#w 0#8 = 0#w := by simp [step, shift8_zero]
      rw [hby, hst, Nat.pow_div (Nat.le_of_not_lt h8) (by decide), ih (by omega)]
      congr 1
      omega

lemma crc_linear (k : Nat) {v : Nat} (j : Nat) : Linear fun x : BitVec v => crc poly 0#w (leBytes k (x.toNat <<< j)) := by
  intro a b
  dsimp only
  rw [← crc_xor, BitVec.xor_self, toNat_xor, Nat.shiftLeft_xor_distrib]

lemma crc_shiftLeft (hw : 8 ≤ w) {k v j x : Nat} (hx : x < 2 ^ v) (h : v + j ≤ 8 * k) :
    (shift poly)^[j] (crc poly 0#w (leBytes k (x <<< j))) = crc poly 0#w (leBytes k x) := by
  have hsh : Linear (shift poly)^[j] := iterate_shift_xor poly j
  have ha := (hsh.comp (crc_linear poly k j)).ext (crc_linear poly k 0) (fun i hi => ?_) (BitVec.ofNat v x)
  · rwa [toNat_ofNat, Nat.mod_eq_of_lt hx] at ha
  rw [toNat_twoPow, Nat.mod_eq_of_lt (Nat.pow_lt_pow_right (by decide) hi), Nat.shiftLeft_eq, Nat.shiftLeft_zero,
    ← pow_add, crc_bit poly hw (by omega), crc_bit poly hw (by omega), ← iterate_add_apply]
  congr 1
  omega

lemma crc_multiple (hw : 8 ≤ w) {k n b j : Nat} (hb : b < 2 ^ n) (hn : n + (w - 1) ≤ 8 * k) (hj : j < w) :
    crc poly 0#w (leBytes k (b <<< j)) = (shift poly)^[w - 1 - j] (crc poly 0#w (leBytes k (b <<< (w - 1)))) := by
  have hlt : b <<< j < 2 ^ (n + j) := by
    rw [Nat.shiftLeft_eq, pow_add]
    exact Nat.mul_lt_mul_of_pos_right hb (Nat.two_pow_pos j)
  have hla := crc_shiftLeft poly hw hlt (show n + j + (w - 1 - j) ≤ 8 * k by omega)
  rw [← Nat.shiftLeft_add, Nat.add_sub_cancel' (by omega : j ≤ w - 1)] at hla
  exact hla.symm

/-! ## Carry-less products -/

def clmul {v : Nat} (a b : BitVec v) : BitVec (v + v) := combo (fun j => b.setWidth (v + v) <<< j) a v

lemma toNat_clmul_twoPow {v j : Nat} (hj : j < v) (b : BitVec v) : (clmul (twoPow v j) b).toNat = b.toNat <<< j := by
  have hlt : b.toNat <<< j < 2 ^ (v + v) := by
    rw [Nat.shiftLeft_eq, pow_add]
    exact Nat.mul_lt_mul'' b.isLt (Nat.pow_lt_pow_right (by decide) hj)
  have hb : b.toNat < 2 ^ (v + v) := lt_of_lt_of_le b.isLt (Nat.pow_le_pow_right (by decide) (Nat.le_add_left v v))
  rw [clmul, combo_twoPow _ hj, if_pos hj, toNat_shiftLeft, toNat_setWidth, Nat.mod_eq_of_lt hb, Nat.mod_eq_of_lt hlt]

lemma crc_clmul (hw : 8 ≤ w) {v k n : Nat} (hv : w ≤ v) {b : BitVec v} (hb : b.toNat < 2 ^ n) (hn : n + (w - 1) ≤ 8 * k)
    (a : BitVec w) : crc poly 0#w (leBytes k (clmul (a.setWidth v) b).toNat) =
      mul poly a (crc poly 0#w (leBytes k (b.toNat <<< (w - 1)))) := by
  have hwi : Linear fun a : BitVec w => a.setWidth v := fun a a' => setWidth_xor
  refine Linear.eq_combo _ ((crc_linear poly k 0).comp ((combo_linear _ v).comp hwi)) (fun j hj => ?_) a
  have hbi : (twoPow w j).setWidth v = twoPow v j := by
    refine eq_of_getLsbD_eq fun i hi => ?_
    rw [getLsbD_setWidth, getLsbD_twoPow, getLsbD_twoPow, decide_eq_true hi, decide_eq_true hj,
      decide_eq_true (lt_of_lt_of_le hj hv), Bool.true_and]
  rw [hbi, ← clmul, toNat_clmul_twoPow (lt_of_lt_of_le hj hv), Nat.shiftLeft_zero, crc_multiple poly hw hb hn hj]

end Crc
