import Mathlib.Algebra.Ring.Nat
import Photon.Lib.While
/-!
# Rotation of the log files

`log_file_rotate` on the files of a directory, by name. The log file is
generation 0, and generation `g` has `.g` behind its name.
-/

namespace Photon.Alog

open Function Nat

abbrev Files (C : Type) := String → Option C

def addGeneration (generation : Nat) : String :=
  if generation = 0 then "" else "." ++ generation.repr

variable {C : Type} {fs : Files C} {fn : String} {m k g n : Nat}

def unlink (fs : Files C) (fn : String) : Files C := update fs fn none

def rename (fs : Files C) (fn0 fn1 : String) : Files C :=
  match fs fn0 with
  | none => fs
  | some c => update (update fs fn1 (some c)) fn0 none

/-- The first loop: the least generation from 1 on that does not exist. -/
def lastGeneration (fuel : Nat) (fn : String) (fs : Files C) : Option Nat :=
  whileFuel (fun g => (fs (fn ++ addGeneration g)).isSome) (fun g => (g + 1) % 2 ^ 32) fuel 1

def shift (fn : String) (maxCnt : Nat) : Nat → Files C → Files C
  | 0, fs => fs
  | g + 1, fs =>
    shift fn maxCnt g <|
      if maxCnt ≤ g + 1 then unlink fs (fn ++ addGeneration g)
      else rename fs (fn ++ addGeneration g) (fn ++ addGeneration (g + 1))

def logFileRotate (fuel : Nat) (fn : String) (maxCnt : Nat) (fs : Files C) : Option (Files C) :=
  if (fs fn).isNone then some fs
  else do
    let last ← lastGeneration fuel fn fs
    some (shift fn maxCnt last fs)

lemma addGeneration_inj : addGeneration g = addGeneration n ↔ g = n := by
  refine ⟨fun h => ?_, fun h => h ▸ rfl⟩
  unfold addGeneration at h
  split_ifs at h with hg hn
  · rw [hg, hn]
  · simp at h
  · simp at h
  · have hd : toDigits 10 g = toDigits 10 n := String.ofList_injective ((String.append_right_inj _).1 h)
    rw [← ofDigitChars_toDigits (b := 10) (n := g) (by decide) le_rfl, hd, ofDigitChars_toDigits (by decide) le_rfl]

@[simp] lemma generation_inj : fn ++ addGeneration g = fn ++ addGeneration n ↔ g = n :=
  (String.append_right_inj _).trans addGeneration_inj

lemma lastGeneration_eq (hk : k + 1 < 2 ^ 32) (hg : ∀ g, (fs (fn ++ addGeneration g)).isSome ↔ g ≤ k) {fuel : Nat}
    (hf : k < fuel) : lastGeneration fuel fn fs = some (k + 1) := by
  have hi : ∀ i ≤ k, (fun g => (g + 1) % 2 ^ 32)^[i] 1 = i + 1 := by
    intro i hi
    induction i with
    | zero => rfl
    | succ i ih =>
      rw [iterate_succ_apply', ih (by omega)]
      exact mod_eq_of_lt (by omega)
  rw [← hi k le_rfl]
  refine whileFuel_iterate (fun i hik => ?_) ?_ hf
  · rw [hi i (by omega), hg]
    omega
  · rw [hi k le_rfl, ← Bool.not_eq_true, hg]
    omega

/-- A rename to a name that is free, whether or not there is something to rename. -/
lemma rename_apply (fn0 : String) {fn1 : String} (h1 : fs fn1 = none) (f : String) :
    rename fs fn0 fn1 f = if f = fn0 then none else if f = fn1 then fs fn0 else fs f := by
  unfold rename
  cases h0 : fs fn0 with
  | none => split_ifs <;> simp_all
  | some c => simp only [update_apply]

lemma shift_apply (hn : fs (fn ++ addGeneration n) = none) : (∀ g, shift fn m n fs (fn ++ addGeneration g) =
      if n < g then fs (fn ++ addGeneration g)
      else if 0 < g ∧ g < m then fs (fn ++ addGeneration (g - 1)) else none) ∧
    ∀ f, (∀ g, f ≠ fn ++ addGeneration g) → shift fn m n fs f = fs f := by
  induction n generalizing fs with
  | zero =>
    refine ⟨fun g => ?_, fun _ _ => rfl⟩
    rcases Nat.eq_zero_or_pos g with rfl | hg
    · simpa [shift] using hn
    · rw [if_pos hg]
      rfl
  | succ n ih =>
    rw [shift]
    split
    next hm =>
      obtain ⟨hi, hf⟩ := @ih (unlink fs (fn ++ addGeneration n)) (update_self ..)
      refine ⟨fun g => ?_, fun f h => (hf f h).trans (update_of_ne (h n) ..)⟩
      rw [hi]
      simp only [unlink, update_apply, generation_inj]
      rcases eq_or_ne g (n + 1) with rfl | hg
      · simp [hn]; omega
      · split_ifs <;> first | rfl | omega
    next hm =>
      have ha := rename_apply (fn ++ addGeneration n) hn
      obtain ⟨hi, hf⟩ := ih ((ha _).trans (if_pos rfl))
      refine ⟨fun g => ?_, fun f h => ?_⟩
      · rw [hi]
        simp only [ha, generation_inj]
        rcases eq_or_ne g (n + 1) with rfl | hg
        · simp; omega
        · split_ifs <;> first | rfl | omega
      · rw [hf f h, ha, if_neg (h n), if_neg (h (n + 1))]

/-- A rotation moves each generation to the next one, drops those that would get the number `m` or a higher one, and
leaves the other files alone. -/
theorem log_file_rotate_spec (fn : String) (fs : Files C) (m k : Nat) (hk : k + 1 < 2 ^ 32)
    (hg : ∀ g, (fs (fn ++ addGeneration g)).isSome ↔ g ≤ k) :
    ∃ fs', (∀ fuel, k < fuel → logFileRotate fuel fn m fs = some fs') ∧
      (∀ g, fs' (fn ++ addGeneration g) = if 0 < g ∧ g < m then fs (fn ++ addGeneration (g - 1)) else none) ∧
      ∀ f, (∀ g, f ≠ fn ++ addGeneration g) → fs' f = fs f := by
  have hn : ∀ g, k < g → fs (fn ++ addGeneration g) = none := by
    intro g h
    rw [← Option.not_isSome_iff_eq_none, hg]
    omega
  obtain ⟨hs, hf⟩ := shift_apply (hn (k + 1) (by omega))
  refine ⟨_, fun fuel h => ?_, fun g => ?_, hf⟩
  · have h0 : (fs fn).isSome := by simpa [addGeneration] using (hg 0).2 (zero_le k)
    rw [logFileRotate, if_neg (by simpa [Option.isSome_iff_ne_none] using h0), lastGeneration_eq hk hg h]
    rfl
  · rw [hs]
    split_ifs with h1 h2
    · rw [hn g (by omega), hn (g - 1) (by omega)]
    · exact hn g (by omega)
    · rfl
    · rfl

/-- The log file and generations 1 to 3; the content of each is its number. -/
def fourGenerations : Files Nat := fun f => (List.range 4).find? fun g => f = "log" ++ addGeneration g

theorem log_file_rotate_four : ∃ fs', logFileRotate 4 "log" 3 fourGenerations = some fs' ∧
    fs' ("log" ++ addGeneration 0) = none ∧ fs' ("log" ++ addGeneration 1) = some 0 ∧
    fs' ("log" ++ addGeneration 2) = some 1 ∧ fs' ("log" ++ addGeneration 3) = none := by
  have hf : ∀ g, fourGenerations ("log" ++ addGeneration g) = if g ≤ 3 then some g else none := by
    intro g
    simp only [fourGenerations, generation_inj]
    split
    next hg =>
      obtain rfl | rfl | rfl | rfl : g = 0 ∨ g = 1 ∨ g = 2 ∨ g = 3 := by omega
      all_goals rfl
    next hg =>
      rw [List.find?_eq_none]
      intro x hx
      have := List.mem_range.1 hx
      simp only [decide_eq_true_eq]
      omega
  obtain ⟨fs', hr, hg, -⟩ := log_file_rotate_spec "log" fourGenerations 3 3 (by decide) fun g => by
    rw [hf]
    by_cases h : g ≤ 3 <;> simp [h]
  refine ⟨fs', hr 4 (by decide), hg 0, ?_, ?_, hg 3⟩
  · rw [hg 1, hf]
    rfl
  · rw [hg 2, hf]
    rfl

end Photon.Alog
