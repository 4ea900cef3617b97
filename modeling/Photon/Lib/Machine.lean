import Mathlib.Logic.Function.Basic
/-!
# Runs of a machine

A machine is a start state and a partial step for every event. The events
carry every choice the environment makes, so a run is a list of events and a
lemma about every list holds for every interleaving. `run_inv` turns a step
lemma into a fact about every run; `run_inv_of` does the same for the runs
whose steps all meet a condition on the state before the step. `Simulates.run`
carries the runs of one machine over to another with the same events.
-/

/-- A start state and the step of each event; `none` when the event cannot
happen in that state. -/
structure Machine (σ ε : Type) where
  init : σ
  step : σ → ε → Option σ

namespace Machine

open List

variable {σ ε : Type} (M : Machine σ ε)

/-- The state after the events, if each of them can happen in its turn. -/
def runFrom : σ → List ε → Option σ
  | s, [] => some s
  | s, e :: es => (M.step s e).bind fun s' => runFrom s' es

/-- A run from the start state. -/
def run (es : List ε) : Option σ := M.runFrom M.init es

/-- Every step of the run from `s` meets `ok` in the state before it. -/
def MeetsFrom (ok : σ → ε → Prop) : σ → List ε → Prop
  | _, [] => True
  | s, e :: es => ok s e ∧ ∀ s', M.step s e = some s' → MeetsFrom ok s' es

/-- Every step of the run from the start state meets `ok`. -/
def Meets (ok : σ → ε → Prop) (es : List ε) : Prop := M.MeetsFrom ok M.init es

instance decidableMeetsFrom (ok : σ → ε → Prop) [∀ s e, Decidable (ok s e)] :
    ∀ s es, Decidable (M.MeetsFrom ok s es)
  | _, [] => isTrue trivial
  | s, e :: es =>
    match hs : M.step s e with
    | none => decidable_of_iff (ok s e) (by simp [MeetsFrom, hs])
    | some s' =>
      have := decidableMeetsFrom ok s' es
      decidable_of_iff (ok s e ∧ M.MeetsFrom ok s' es) (by simp [MeetsFrom, hs])

instance (ok : σ → ε → Prop) [∀ s e, Decidable (ok s e)] (es : List ε) : Decidable (M.Meets ok es) :=
  decidableMeetsFrom M ok M.init es

variable {M} {ok : σ → ε → Prop} {I : σ → Prop} {s s' s'' : σ} {e : ε} {es : List ε}

lemma runFrom_cons : M.runFrom s (e :: es) = some s'' ↔ ∃ s', M.step s e = some s' ∧ M.runFrom s' es = some s'' := by
  simp only [runFrom, Option.bind_eq_some_iff]

lemma runFrom_append {es' : List ε} :
    M.runFrom s (es ++ es') = some s'' ↔ ∃ s', M.runFrom s es = some s' ∧ M.runFrom s' es' = some s'' := by
  induction es generalizing s with
  | nil => simp [runFrom]
  | cons e es ih =>
    simp only [cons_append, runFrom_cons, ih]
    constructor
    · rintro ⟨s1, h1, s2, h2, h3⟩
      exact ⟨s2, ⟨s1, h1, h2⟩, h3⟩
    · rintro ⟨s2, ⟨s1, h1, h2⟩, h3⟩
      exact ⟨s1, h1, s2, h2, h3⟩

lemma runFrom_inv_of (hs : ∀ {s e s'}, I s → ok s e → M.step s e = some s' → I s') :
    ∀ {s s' : σ} {es : List ε}, I s → M.MeetsFrom ok s es → M.runFrom s es = some s' → I s'
  | _, _, [], h0, _, h => by cases h; exact h0
  | _, _, _ :: _, h0, hm, h => by
    obtain ⟨s1, h1, h2⟩ := runFrom_cons.1 h
    exact runFrom_inv_of hs (hs h0 hm.1 h1) (hm.2 _ h1) h2

lemma run_inv_of (h0 : I M.init) (hs : ∀ {s e s'}, I s → ok s e → M.step s e = some s' → I s')
    (hm : M.Meets ok es) (h : M.run es = some s) : I s :=
  runFrom_inv_of hs h0 hm h

lemma meetsFrom_true (s : σ) (es : List ε) : M.MeetsFrom (fun _ _ => True) s es := by
  induction es generalizing s with
  | nil => trivial
  | cons e es ih => exact ⟨trivial, fun s' _ => ih s'⟩

lemma run_inv (h0 : I M.init) (hs : ∀ {s e s'}, I s → M.step s e = some s' → I s') (h : M.run es = some s) : I s :=
  run_inv_of h0 (fun hi _ => hs hi) (meetsFrom_true ..) h

lemma MeetsFrom.cons (he : ok s e) (hs : M.step s e = some s')
    (h : M.MeetsFrom ok s' es) : M.MeetsFrom ok s (e :: es) := by
  refine ⟨he, fun s1 hs1 => ?_⟩
  rw [hs, Option.some.injEq] at hs1
  exact hs1 ▸ h

lemma MeetsFrom.imp {ok' : σ → ε → Prop} (h : M.MeetsFrom ok s es)
    (hi : ∀ e ∈ es, ∀ s, ok s e → ok' s e) : M.MeetsFrom ok' s es := by
  induction es generalizing s with
  | nil => trivial
  | cons e es ih =>
    exact ⟨hi e mem_cons_self s h.1, fun s' hs => ih (h.2 s' hs) fun e' he' => hi e' (mem_cons_of_mem _ he')⟩

/-- The events that `pays` does not hold of use up one unit of `load` each, and the others
bring at most `c`, so there are at most `c` of the former for each of the latter. -/
lemma runFrom_load {load : σ → Nat} {pays : ε → Bool} {c : Nat}
    (hs : ∀ {s e s'}, I s → ok s e → M.step s e = some s' → I s')
    (hpa : ∀ {s e s'}, I s → ok s e → M.step s e = some s' → pays e = true → load s' ≤ load s + c)
    (hu : ∀ {s e s'}, I s → ok s e → M.step s e = some s' → pays e = false → load s' + 1 ≤ load s)
    (h0 : I s) (hm : M.MeetsFrom ok s es) (h : M.runFrom s es = some s') :
    es.countP (fun e => !pays e) + load s' ≤ load s + c * es.countP pays := by
  induction es generalizing s with
  | nil =>
    cases h
    simp
  | cons e es ih =>
    obtain ⟨s1, h1, h2⟩ := runFrom_cons.1 h
    have hrest := ih (hs h0 hm.1 h1) (hm.2 _ h1) h2
    cases hp : pays e with
    | true =>
      have := hpa h0 hm.1 h1 hp
      rw [countP_cons_of_neg (by simp [hp]), countP_cons_of_pos hp, Nat.mul_add]
      omega
    | false =>
      have := hu h0 hm.1 h1 hp
      rw [countP_cons_of_pos (by simp [hp]), countP_cons_of_neg (by simp [hp])]
      omega

/-! ## Simulation -/

/-- Every event `M` can take in a state related to a state of `N`, `N` can take there too, and the
states after it are related. -/
def Simulates {τ : Type} (M : Machine σ ε) (N : Machine τ ε) (R : σ → τ → Prop) : Prop :=
  ∀ s a e s', R s a → M.step s e = some s' → ∃ a', N.step a e = some a' ∧ R s' a'

variable {τ : Type} {N : Machine τ ε} {R : σ → τ → Prop}

lemma Simulates.runFrom (hsi : Simulates M N R) :
    ∀ {s s' : σ} {a : τ} {es : List ε}, R s a → M.runFrom s es = some s' → ∃ a', N.runFrom a es = some a' ∧ R s' a'
  | _, _, a, [], h0, h => by cases h; exact ⟨a, rfl, h0⟩
  | _, _, _, _ :: _, h0, h => by
    obtain ⟨s1, h1, h2⟩ := runFrom_cons.1 h
    obtain ⟨a1, ha1, hr⟩ := hsi _ _ _ _ h0 h1
    obtain ⟨a', ha', hr'⟩ := hsi.runFrom hr h2
    exact ⟨a', runFrom_cons.2 ⟨a1, ha1, ha'⟩, hr'⟩

lemma Simulates.run (hsi : Simulates M N R) (h0 : R M.init N.init) (h : M.run es = some s) :
    ∃ a, N.run es = some a ∧ R s a :=
  hsi.runFrom h0 h

end Machine
