import Mathlib.Data.List.Nodup
/-!
# Copying bytes

A memory is a function from addresses to bytes. `copyBytes` makes a list of byte
copies one after the other, and `Copied` says that what was done are the copies of
the `i`-th source byte to the `i`-th destination byte, in some order. Then nothing
else changes, and when no byte is written twice or read after it was written, each
destination byte has the value of its source byte (`Copied.of_copies`).
-/

open List Function

/-- The copies `(destination, source)`, one after the other. -/
def copyBytes {β : Type} (mem : Nat → β) : List (Nat × Nat) → Nat → β
  | [] => mem
  | p :: ps => copyBytes (update mem p.1 (mem p.2)) ps

/-- `n` addresses from `a` on. -/
def addresses (a n : Nat) : List Nat := (range n).map (a + ·)

def memcpy {β : Type} (mem : Nat → β) (dst src n : Nat) : Nat → β :=
  copyBytes mem ((addresses dst n).zip (addresses src n))

/-- The bytes go to the addresses, one after the other, as long as there are both. -/
def scatter {β : Type} (mem : Nat → β) : List Nat → List β → Nat → β
  | a :: as, b :: bs => scatter (update mem a b) as bs
  | _, _ => mem

/-- The bytes at the addresses `src` were copied to the addresses `dst`. -/
structure Copied {β : Type} (mem mem' : Nat → β) (dst src : List Nat) : Prop where
  copies : ∃ ps, ps.Perm (dst.zip src) ∧ mem' = copyBytes mem ps
  values : dst.Nodup → (∀ a ∈ dst, a ∉ src) → dst.map mem' = src.map mem
  frame : ∀ a, a ∉ dst → mem' a = mem a

variable {β : Type} {ps : List (Nat × Nat)} {mem : Nat → β}

section Copy

@[simp] lemma addresses_length (a n : Nat) : (addresses a n).length = n := by simp [addresses]

lemma addresses_nodup (a n : Nat) : (addresses a n).Nodup := by
  refine List.Nodup.map ?_ nodup_range
  intro i j h
  exact Nat.add_left_cancel h

lemma addresses_append (a m n : Nat) : addresses a m ++ addresses (a + m) n = addresses a (m + n) := by
  simp [addresses, range_add, comp_def, Nat.add_assoc]

lemma addresses_take (a : Nat) {m n : Nat} (h : m ≤ n) : (addresses a n).take m = addresses a m := by
  refine ext_getElem (by simp [Nat.min_eq_left h]) fun i h1 h2 => ?_
  simp [addresses]

lemma copyBytes_append (mem : Nat → β) (ps qs : List (Nat × Nat)) :
    copyBytes mem (ps ++ qs) = copyBytes (copyBytes mem ps) qs := by
  induction ps generalizing mem with
  | nil => rfl
  | cons p ps ih => exact ih _

lemma copyBytes_of_notMem {a : Nat} (h : ∀ p ∈ ps, p.1 ≠ a) : copyBytes mem ps a = mem a := by
  induction ps generalizing mem with
  | nil => rfl
  | cons p ps ih =>
    rw [copyBytes, ih fun q hq => h q (mem_cons_of_mem _ hq)]
    exact update_of_ne (h p mem_cons_self).symm ..

lemma copyBytes_value (hn : (ps.map Prod.fst).Nodup)
    (hse : ∀ p ∈ ps, ∀ q ∈ ps, p.1 ≠ q.2) {p : Nat × Nat} (hp : p ∈ ps) : copyBytes mem ps p.1 = mem p.2 := by
  induction ps generalizing mem with
  | nil => cases hp
  | cons q ps ih =>
    rw [map_cons, nodup_cons] at hn
    rw [copyBytes]
    rcases mem_cons.1 hp with rfl | hp
    · -- later copies do not write it again
      have hno : ∀ r ∈ ps, r.1 ≠ p.1 := fun r hr h => hn.1 (h ▸ mem_map_of_mem hr)
      rw [copyBytes_of_notMem hno, update_self]
    have hs' : ∀ r ∈ ps, ∀ r' ∈ ps, r.1 ≠ r'.2 := fun r hr r' hr' =>
      hse r (mem_cons_of_mem _ hr) r' (mem_cons_of_mem _ hr')
    rw [ih hn.2 hs' hp]
    exact update_of_ne (hse q mem_cons_self p (mem_cons_of_mem _ hp)).symm ..

lemma Copied.of_copies {dst src : List Nat}
    (hle : dst.length = src.length) (hp : ps.Perm (dst.zip src)) : Copied mem (copyBytes mem ps) dst src := by
  have hf : (dst.zip src).map Prod.fst = dst := map_fst_zip (Nat.le_of_eq hle)
  have hsn : (dst.zip src).map Prod.snd = src := map_snd_zip (Nat.le_of_eq hle.symm)
  refine ⟨⟨ps, hp, rfl⟩, fun hn hse => ?_, fun a ha => ?_⟩
  · have hn' : (ps.map Prod.fst).Nodup := by
      rw [(hp.map Prod.fst).nodup_iff, hf]
      exact hn
    have hs' : ∀ p ∈ ps, ∀ q ∈ ps, p.1 ≠ q.2 := by
      intro p hpm q hq he
      have h1 : p.1 ∈ dst := hf ▸ mem_map_of_mem (hp.subset hpm)
      have h2 : q.2 ∈ src := hsn ▸ mem_map_of_mem (hp.subset hq)
      exact hse _ h1 (he ▸ h2)
    calc dst.map (copyBytes mem ps)
        = (dst.zip src).map fun p => copyBytes mem ps p.1 := by
          conv_lhs => rw [← hf, map_map]
          rfl
      _ = (dst.zip src).map fun p => mem p.2 := by
          refine map_congr_left fun p hpm => ?_
          exact copyBytes_value hn' hs' (hp.symm.subset hpm)
      _ = src.map mem := by
          conv_rhs => rw [← hsn, map_map]
          rfl
  · refine copyBytes_of_notMem fun p hpm he => ha ?_
    rw [← hf, ← he]
    exact mem_map_of_mem (hp.subset hpm)

end Copy

section Scatter

@[simp] lemma scatter_nil (mem : Nat → β) (as : List Nat) : scatter mem as [] = mem := by
  cases as <;> rfl

lemma scatter_append (mem : Nat → β) {as : List Nat} {bs : List β} (h : as.length = bs.length) (cs : List Nat)
    (ds : List β) : scatter mem (as ++ cs) (bs ++ ds) = scatter (scatter mem as bs) cs ds := by
  induction as generalizing mem bs with
  | nil =>
    obtain rfl : bs = [] := eq_nil_of_length_eq_zero h.symm
    rfl
  | cons a as ih =>
    obtain _ | ⟨b, bs⟩ := bs
    · cases h
    · exact ih _ (Nat.succ.inj h)

lemma scatter_short (mem : Nat → β) {as : List Nat} {bs : List β} (h : bs.length ≤ as.length) (cs : List Nat) :
    scatter mem (as ++ cs) bs = scatter mem as bs := by
  induction as generalizing mem bs with
  | nil =>
    obtain rfl : bs = [] := eq_nil_of_length_eq_zero (Nat.le_zero.1 h)
    rw [scatter_nil, scatter_nil]
  | cons a as ih =>
    obtain _ | ⟨b, bs⟩ := bs
    · rw [scatter_nil, scatter_nil]
    · exact ih _ (Nat.le_of_succ_le_succ h)

end Scatter
