import Mathlib.Algebra.Order.Ring.Int
import Mathlib.Data.List.TakeWhile
import Mathlib.Data.List.Infix
import Mathlib.Algebra.Order.BigOperators.Group.List
/-!
# `Path::level_valid`

`Path` goes through the names of a path, and `level_valid` counts how far below the start
they lead. It counts a name that begins with a dot and has at least three characters, but
no other name, so the level is at most the depth.
-/

namespace Photon.Fs.Path

open List Option

/-- `iterator::set`: the name at `p`, and what is behind it. At the end the name is empty. -/
def set (p : List Char) : List Char × List Char :=
  let p := p.dropWhile (· == '/')
  (p.takeWhile fun c => c != '\x00' && c != '/', p.dropWhile fun c => c != '\x00' && c != '/')

/-- The names that a loop over the path goes through, up to one that is equal to that of `end()`. -/
def names : Nat → List Char → List (List Char)
  | 0, _ => []
  | fuel + 1, p => if (set p).1 = [] then [] else (set p).1 :: names fuel (set p).2

def levelStep (level : Int) (name : List Char) : Option Int :=
  if name.head? = some '.' then
    if name.length = 1 then some level
    else if name.length = 2 then
      if name[1]? = some '.' then if level - 1 < 0 then none else some (level - 1) else some level
    else some (level + 1)
  else some level

def levelValid (path : List Char) : Bool := ((names path.length path).foldlM levelStep 0).isSome

def cString (path : List Char) : List Char := path.takeWhile (· != '\x00')

def pathLevelValid (path : List Char) : Bool := levelValid (cString path)

/-- `SubFileSystem::PathCat` with a base path: what is passed on, or none for `nullptr`. -/
def pathCat (basePath path : List Char) : Option (List Char) :=
  if 4096 - 2 ≤ (cString path).length + basePath.length then none
  else if pathLevelValid path then some (basePath ++ cString path) else none

/-! ## What a path means -/

def components (path : List Char) : List (List Char) := (path.splitOn '/').filter (· ≠ [])

def rise (name : List Char) : Int := if name = ['.'] then 0 else if name = ['.', '.'] then -1 else 1

def depth (names : List (List Char)) : Int := (names.map rise).sum

/-- No beginning of the path leads above the start. -/
def Inside (path : List Char) : Prop := ∀ pre, pre <+: components (cString path) → 0 ≤ depth pre

def weight (name : List Char) : Int :=
  if name = ['.', '.'] then -1 else if name.head? = some '.' ∧ 3 ≤ name.length then 1 else 0

/-- Every `..` is behind a name of at least three characters that begins with a dot, and each of these is
behind another one. -/
def Counted (path : List Char) : Prop := ∀ pre, pre <+: components (cString path) → 0 ≤ (pre.map weight).sum

/-! ## The names -/

lemma components_slash (p : List Char) : components ('/' :: p) = components p := by
  simp [components, splitOn, splitOnP_cons_eq_if_modifyHead]

lemma components_dropWhile (p : List Char) : components (p.dropWhile (· == '/')) = components p := by
  induction p with
  | nil => rfl
  | cons c p ih =>
    rw [dropWhile_cons]
    split
    · next hc => rw [ih, beq_iff_eq.1 hc, components_slash]
    · rfl

lemma components_name {p : List Char} (h0 : '\x00' ∉ p) (hw : (set p).1 ≠ []) :
    components p = (set p).1 :: components (set p).2 := by
  rw [← components_dropWhile p]
  have hsu := dropWhile_suffix (l := p) (· == '/')
  have hse : ∀ x ∈ (set p).1, (x == '/') = false := fun x hx => by
    have h := mem_takeWhile_imp hx
    simp_all
  have ha := takeWhile_append_dropWhile (p := fun c => c != '\x00' && c != '/') (l := p.dropWhile (· == '/'))
  change (set p).1 ++ (set p).2 = _ at ha
  rw [← ha]
  cases hr : (set p).2 with
  | nil =>
    rw [append_nil]
    simp [components, splitOn, splitOnP_eq_singleton hse, hw]
  | cons s =>
    -- without a 0, a name ends at a slash
    obtain rfl : s = '/' := by
      have hs : s ≠ '\x00' := fun h => h0 (hsu.subset (ha ▸ by simp [hr, h]))
      have h := head?_dropWhile_not (fun c => c != '\x00' && c != '/') (p.dropWhile (· == '/'))
      simp only [set] at hr
      simpa [hr, hs] using h
    rw [components_slash]
    simp only [components, splitOn]
    rw [splitOnP_append_cons_of_forall_mem hse _ (by decide), filter_cons_of_pos (by simpa using hw)]

lemma names_components {fuel : Nat} {p : List Char} (hf : p.length ≤ fuel) (h0 : '\x00' ∉ p) :
    names fuel p = components p := by
  induction fuel generalizing p with
  | zero =>
    obtain rfl : p = [] := length_eq_zero_iff.1 (Nat.le_zero.1 hf)
    decide
  | succ fuel ih =>
    rw [names]
    split
    next hw =>
      have hr : p.dropWhile (· == '/') = [] := by
        have h := head?_dropWhile_not (· == '/') p
        have hsu := dropWhile_suffix (l := p) (· == '/')
        rw [set] at hw
        cases hq : p.dropWhile (· == '/') with
        | nil => rfl
        | cons c =>
          have hc : c ≠ '\x00' := fun hc => h0 (hsu.subset (by simp [hq, hc]))
          simp_all
      rw [← components_dropWhile, hr]
      decide
    next hw =>
      have ha := congrArg length
        (takeWhile_append_dropWhile (p := fun c => c != '\x00' && c != '/') (l := p.dropWhile (· == '/')))
      have hlen := length_pos_of_ne_nil hw
      have hsu := dropWhile_suffix (l := p) (· == '/')
      have hle := hsu.length_le
      rw [length_append] at ha
      rw [components_name h0 hw, ih]
      · simp only [set] at hlen ⊢
        omega
      · exact fun h => h0 (hsu.subset ((dropWhile_suffix _).subset h))

/-! Nothing behind a 0 is looked at. -/

section
variable (p : List Char)

lemma takeWhile_cString :
    (cString p).takeWhile (fun c => c != '\x00' && c != '/') = p.takeWhile (fun c => c != '\x00' && c != '/') := by
  rw [cString, takeWhile_takeWhile]
  congr 1
  grind

lemma dropWhile_cString {t : Char → Bool} (ht : t '\x00' = false) :
    (cString p).dropWhile t = cString (p.dropWhile t) := by
  induction p with
  | nil => rfl
  | cons c => by_cases hc : c = '\x00' <;> cases htc : t c <;> simp_all [cString]

lemma cString_cString : cString (cString p) = cString p := by
  rw [cString, cString, takeWhile_takeWhile]
  simp only [and_self, Bool.decide_eq_true]

lemma set_cString : set (cString p) = ((set p).1, cString (set p).2) := by
  rw [set, dropWhile_cString _ (by decide), takeWhile_cString, dropWhile_cString _ (by decide)]
  rfl

end

lemma names_cString (fuel : Nat) (p : List Char) : names fuel (cString p) = names fuel p := by
  induction fuel generalizing p with
  | zero => rfl
  | succ fuel ih => rw [names, names, set_cString, ih]

lemma names_eq (p : List Char) : names p.length p = components (cString p) := by
  have h0 : '\x00' ∉ cString p := fun h => by simpa using mem_takeWhile_imp h
  have hle : (cString p).length ≤ p.length := (show cString p <+: p from takeWhile_prefix _).length_le
  rw [← names_cString, names_components hle h0]

/-! ## The level -/

lemma weight_le_rise (name : List Char) : weight name ≤ rise name := by
  unfold weight rise
  by_cases h1 : name = ['.']
  · subst h1
    decide
  rw [if_neg h1]
  split
  · exact Int.le_refl _
  · split <;> decide

lemma levelStep_eq {level : Int} (h : 0 ≤ level) (name : List Char) :
    levelStep level name = if level + weight name < 0 then none else some (level + weight name) := by
  rcases name with _ | ⟨c, _ | ⟨d, _ | ⟨e, t⟩⟩⟩
  · simp [levelStep, weight, h]
  · by_cases hc : c = '.'
    · simp [levelStep, weight, hc, h]
    · simp [levelStep, weight, hc, h]
  · by_cases hc : c = '.'
    · by_cases hd : d = '.'
      · simp [levelStep, weight, hc, hd, Int.sub_eq_add_neg]
      · simp [levelStep, weight, hc, hd, h]
    · simp [levelStep, weight, hc, h]
  · by_cases hc : c = '.'
    · simp [levelStep, weight, hc]
      omega
    · simp [levelStep, weight, hc, h]

lemma foldlM_isSome {level : Int} (h : 0 ≤ level) (ns : List (List Char)) :
    (ns.foldlM levelStep level).isSome = true ↔ ∀ pre, pre <+: ns → 0 ≤ level + (pre.map weight).sum := by
  induction ns generalizing level with
  | nil => simpa using h
  | cons n ns ih =>
    rw [foldlM_cons, levelStep_eq h]
    have hco : (∀ pre, pre <+: n :: ns → 0 ≤ level + (pre.map weight).sum) ↔
        ∀ pre, pre <+: ns → 0 ≤ level + weight n + (pre.map weight).sum := by
      constructor
      · intro ha pre hpr
        have := ha (n :: pre) (prefix_cons_iff.2 (.inr ⟨pre, rfl, hpr⟩))
        rw [map_cons, sum_cons] at this
        omega
      · intro ha pre hpr
        rcases prefix_cons_iff.1 hpr with rfl | ⟨pre, rfl, ht⟩
        · simpa using h
        · have := ha pre ht
          rw [map_cons, sum_cons]
          omega
    rw [hco]
    split
    next hn =>
      refine iff_of_false (by simp) fun ha => ?_
      have := ha [] nil_prefix
      simp at this
      omega
    · next hpo => exact ih (by omega)

lemma levelValid_iff (path : List Char) : levelValid path = true ↔ Counted path := by
  rw [levelValid, names_eq, foldlM_isSome le_rfl]
  simp [Counted]

lemma Counted.inside {path : List Char} (h : Counted path) : Inside path := fun pre hpr =>
  le_trans (h pre hpr) (sum_le_sum fun name _ => weight_le_rise name)

/-- A path that is accepted does not lead above the start, and what the file system passes on is
the base path followed by such a path. -/
theorem levelValid_inside (path : List Char) : (levelValid path = true → Inside path) ∧
      ∀ basePath r, pathCat basePath path = some r → r = basePath ++ cString path ∧ Inside path := by
  have hin {path : List Char} (h : levelValid path = true) : Inside path := ((levelValid_iff path).1 h).inside
  refine ⟨hin, fun basePath r h => ?_⟩
  rw [pathCat] at h
  split at h
  · cases h
  split at h
  next hv =>
    have hst := hin hv
    rw [Inside, cString_cString] at hst
    exact ⟨(some.inj h).symm, hst⟩
  · cases h

theorem levelValid_inside_config :
    levelValid "./.config/../x".toList = true ∧ Inside "./.config/../x".toList ∧
      pathCat "/srv/".toList "x/y".toList = some "/srv/x/y".toList ∧ Inside "x/y".toList :=
  ⟨by decide +kernel, (levelValid_inside _).1 (by decide +kernel), by decide +kernel,
    ((levelValid_inside _).2 "/srv/".toList "/srv/x/y".toList (by decide +kernel)).2⟩

end Photon.Fs.Path
