import Mathlib.Algebra.Ring.Nat
import Mathlib.Data.Set.Function
import Photon.Lib.ByteFile
/-!
# A byte array spread over files

A layout says for every offset of an array in which file its byte is, and where. When the
places are all different, the files hold one array, `content`: a read of consecutive places
of one file is a read of the array, and a write to them a write to the array.
`linear` is the layout of files one after the other; its array is their concatenation.
`striped` deals blocks out to the files in turn, and every byte of every file is used.
-/

open List Nat

/-- Where the bytes of an array are, in files of the given sizes. -/
structure Layout (sizes : List Nat) where
  total : Nat
  loc : Nat → Nat × Nat
  inside : ∀ g < total, (loc g).2 < sizes.getD (loc g).1 0
  inj : ∀ g < total, ∀ g' < total, loc g = loc g' → g = g'

namespace Layout

open List ByteFile

variable {β : Type} {sizes : List Nat}

/-- The byte at a place. -/
def byteAt (zero : β) (files : List (List β)) (p : Nat × Nat) : β := (files.getD p.1 []).getD p.2 zero

/-- The array that the files hold. -/
def content (L : Layout sizes) (zero : β) (files : List (List β)) : List β :=
  (range L.total).map fun g => byteAt zero files (L.loc g)

/-- The `len` bytes from `o` on are one after the other in file `i`, from `off` on. -/
def Piece (L : Layout sizes) (o len i off : Nat) : Prop := o + len ≤ L.total ∧ ∀ j < len, L.loc (o + j) = (i, off + j)

variable (L : Layout sizes) (zero : β) {files : List (List β)}

@[simp] lemma content_length : (L.content zero files).length = L.total := by simp [content]

lemma getD_content {g : Nat} (hg : g < L.total) : (L.content zero files).getD g zero = byteAt zero files (L.loc g) := by
  have hle : g < (L.content zero files).length := by rwa [content_length]
  rw [getD_eq_getElem _ _ hle]
  simp [content]

/-- The files have the sizes the layout is for. -/
def Fits (sizes : List Nat) (files : List (List β)) : Prop := files.map length = sizes

lemma Fits.length_getD (h : Fits sizes files) (i : Nat) : (files.getD i []).length = sizes.getD i 0 := by
  subst h
  simp only [getD_eq_getElem?_getD, getElem?_map]
  cases files[i]? <;> rfl

lemma Fits.length_eq (h : Fits sizes files) : files.length = sizes.length := by
  rw [← h, length_map]

variable {L}

lemma Piece.le {o len i off : Nat} (h : L.Piece o len i off) (hf : Fits sizes files) (hle : 0 < len) :
    off + len ≤ (files.getD i []).length := by
  have hin := L.inside (o + (len - 1)) (by have := h.1; omega)
  rw [h.2 (len - 1) (by omega)] at hin
  dsimp only at hin
  rw [hf.length_getD]
  omega

lemma read_piece {o len i off : Nat} (h : L.Piece o len i off) (hf : Fits sizes files) :
    read (files.getD i []) len off = read (L.content zero files) len o := by
  by_cases h0 : len = 0
  · rw [h0]
    rfl
  have hle := h.le hf (pos_of_ne_zero h0)
  have ht := h.1
  apply ext_getD zero
  · rw [read_length, read_length, content_length]
    omega
  intro j hj
  rw [read_length] at hj
  rw [getD_read, getD_read, if_pos (by omega), if_pos (by omega), getD_content L zero (by omega), h.2 j (by omega)]
  rfl

lemma getD_set {i k : Nat} {f : List β} (hi : i < files.length) :
    (files.set i f).getD k [] = if k = i then f else files.getD k [] := by
  rw [getD_eq_getElem?_getD, getD_eq_getElem?_getD, getElem?_set]
  by_cases h : k = i
  · rw [if_pos h.symm, if_pos h, if_pos hi]
    rfl
  · rw [if_neg (Ne.symm h), if_neg h]

lemma Fits.set (hf : Fits sizes files) {i : Nat} {f : List β} (hle : f.length = (files.getD i []).length) :
    Fits sizes (files.set i f) := by
  by_cases hi : i < files.length
  · unfold Fits at hf ⊢
    apply ext_getElem?
    intro k
    rw [map_set, getElem?_set, ← hf, length_map]
    by_cases hk : i = k
    · rw [if_pos hk, if_pos hi, ← hk, getElem?_map, getElem?_eq_getElem hi, hle, getD_eq_getElem _ _ hi]
      rfl
    · rw [if_neg hk]
  · rwa [set_eq_of_length_le (Nat.le_of_not_lt hi)]

lemma write_piece {bs : List β} {o i off : Nat} (h : L.Piece o bs.length i off) (hf : Fits sizes files)
    (hi : i < files.length) :
    L.content zero (files.set i (write zero (files.getD i []) bs off)) = write zero (L.content zero files) bs o ∧
      Fits sizes (files.set i (write zero (files.getD i []) bs off)) := by
  by_cases h0 : bs = []
  · subst h0
    rw [write_nil, write_nil, getD_eq_getElem _ _ hi, set_getElem_self]
    exact ⟨rfl, hf⟩
  have hle := h.le hf (length_pos_iff.2 h0)
  have ht := h.1
  constructor
  · apply ext_getD zero
    · rw [content_length, write_length_inside zero (by rwa [content_length]), content_length]
    intro g hg
    rw [content_length] at hg
    rw [getD_content L zero hg, getD_write, getD_content L zero hg]
    unfold byteAt
    rw [getD_set hi]
    by_cases hin : o ≤ g ∧ g < o + bs.length
    · -- the byte is one of the piece
      have hlo := h.2 (g - o) (by omega)
      rw [Nat.add_sub_cancel' hin.1] at hlo
      rw [if_pos hin, hlo, if_pos rfl, getD_write, if_pos (by dsimp only; omega), Nat.add_sub_cancel_left]
    · rw [if_neg hin]
      by_cases hfi : (L.loc g).1 = i
      · rw [if_pos hfi, getD_write, if_neg, hfi]
        -- a byte of the same place would be the same byte
        intro ho
        have hlo := h.2 ((L.loc g).2 - off) (by omega)
        rw [Nat.add_sub_cancel' ho.1, ← hfi] at hlo
        have := L.inj _ (by omega) g hg hlo
        omega
      · rw [if_neg hfi]
  · exact hf.set (write_length_inside zero hle)

end Layout

/-! ## Files one after the other -/

/-- The file an offset of the concatenation is in, and where. -/
def locate : List Nat → Nat → Nat × Nat
  | [], g => (0, g)
  | s :: sizes, g => if g < s then (0, g) else ((locate sizes (g - s)).1 + 1, (locate sizes (g - s)).2)

section
variable (sizes : List Nat)

lemma locate_inside : ∀ g < sizes.sum, (locate sizes g).2 < sizes.getD (locate sizes g).1 0 := by
  induction sizes with
  | nil =>
    intro g hg
    exact absurd hg (not_lt_zero g)
  | cons s sizes ih =>
    intro g hg
    rw [sum_cons] at hg
    unfold locate
    by_cases h : g < s
    · rw [if_pos h]
      exact h
    · rw [if_neg h]
      exact ih (g - s) (by omega)

lemma locate_inj : ∀ g g' : Nat, locate sizes g = locate sizes g' → g = g' := by
  induction sizes with
  | nil =>
    intro g g' h
    exact congrArg Prod.snd h
  | cons s sizes ih =>
    intro g g' h
    unfold locate at h
    by_cases hg : g < s
    · rw [if_pos hg] at h
      by_cases hg' : g' < s
      · rw [if_pos hg'] at h
        exact congrArg Prod.snd h
      · rw [if_neg hg'] at h
        exact absurd (congrArg Prod.fst h) (succ_ne_zero _).symm
    · rw [if_neg hg] at h
      by_cases hg' : g' < s
      · rw [if_pos hg'] at h
        exact absurd (congrArg Prod.fst h) (succ_ne_zero _)
      rw [if_neg hg'] at h
      have hf := Nat.succ.inj (congrArg Prod.fst h)
      have ho : (locate sizes (g - s)).2 = (locate sizes (g' - s)).2 := (Prod.mk.inj h).2
      have := ih (g - s) (g' - s) (Prod.ext hf ho)
      omega

lemma sum_take_getD (i : Nat) : (sizes.take (i + 1)).sum = (sizes.take i).sum + sizes.getD i 0 := by
  rw [take_add_one, List.sum_append, getD_eq_getElem?_getD]
  cases sizes[i]? with
  | none => rfl
  | some => simp

lemma locate_sum_add (i r : Nat) (hr : r < sizes.getD i 0) : locate sizes ((sizes.take i).sum + r) = (i, r) := by
  induction sizes generalizing i with
  | nil => exact absurd hr (not_lt_zero r)
  | cons s sizes ih =>
    unfold locate
    cases i with
    | zero =>
      rw [take_zero, sum_nil, zero_add]
      exact if_pos hr
    | succ i =>
      rw [take_succ_cons, sum_cons, if_neg (by omega), show s + (sizes.take i).sum + r - s = (sizes.take i).sum + r by omega,
        ih i hr]

end

/-- Files one after the other. -/
def Layout.linear (sizes : List Nat) : Layout sizes where
  total := sizes.sum
  loc := locate sizes
  inside := locate_inside sizes
  inj g _ g' _ h := locate_inj sizes g g' h

lemma getD_flatten {β : Type} (zero : β) (files : List (List β)) (g : Nat) :
    files.flatten.getD g zero = Layout.byteAt zero files (locate (files.map length) g) := by
  induction files generalizing g with
  | nil => rfl
  | cons f files ih =>
    rw [flatten_cons, ByteFile.getD_append, map_cons]
    unfold locate
    by_cases h : g < f.length
    · rw [if_pos h, if_pos h]
      rfl
    · rw [if_neg h, if_neg h, ih]
      rfl

lemma Layout.content_linear {β : Type} (zero : β) {sizes : List Nat} {files : List (List β)} (hf : Fits sizes files) :
    (linear sizes).content zero files = files.flatten := by
  have ht : (linear sizes).total = files.flatten.length := by
    rw [length_flatten, hf]
    rfl
  apply ByteFile.ext_getD zero
  · rw [content_length, ht]
  intro g hg
  rw [content_length] at hg
  rw [getD_content _ zero hg, getD_flatten, hf]
  rfl

/-! ## Blocks dealt out in turn -/

section Striped

variable (S n m : Nat)

/-- Block `g / S` goes to the next of `n` files. -/
def stripe (g : Nat) : Nat × Nat := (g / S % n, g / S / n * S + g % S)

variable {S n m}

lemma stripe_inside (hS : 0 < S) (hn : 0 < n) {g : Nat} (hg : g < n * (m * S)) :
    (stripe S n g).1 < n ∧ (stripe S n g).2 < m * S := by
  have hbl : g / S < n * m := by
    rw [div_lt_iff_lt_mul hS, mul_assoc]
    exact hg
  have hr : g / S / n < m := by
    rw [div_lt_iff_lt_mul hn, mul_comm]
    exact hbl
  have hm : (g / S / n + 1) * S ≤ m * S := Nat.mul_le_mul_right S hr
  have hmo := mod_lt g hS
  rw [succ_mul] at hm
  exact ⟨mod_lt _ hn, show g / S / n * S + g % S < m * S by omega⟩

lemma stripe_block {i r : Nat} (hr : r < S) : stripe S n (i * S + r) = (i % n, i / n * S + r) := by
  have hS : 0 < S := lt_of_le_of_lt (zero_le r) hr
  unfold stripe
  rw [add_comm (i * S), add_mul_div_right _ _ hS, div_eq_of_lt hr, zero_add, add_mul_mod_self_right, mod_eq_of_lt hr]

lemma stripe_invert (hS : 0 < S) (g : Nat) :
    (n * ((stripe S n g).2 / S) + (stripe S n g).1) * S + (stripe S n g).2 % S = g := by
  have hm := mod_lt g hS
  unfold stripe
  dsimp only
  rw [add_comm (g / S / n * S), add_mul_div_right _ _ hS, div_eq_of_lt hm, zero_add,
    add_mul_mod_self_right, mod_mod, div_add_mod, div_add_mod']

lemma stripe_surj (hS : 0 < S) {i off : Nat} (hi : i < n) (ho : off < m * S) :
    ∃ g < n * (m * S), stripe S n g = (i, off) := by
  have hn : 0 < n := lt_of_le_of_lt (zero_le i) hi
  have hr : off / S < m := (div_lt_iff_lt_mul hS).2 ho
  have hm := mod_lt off hS
  refine ⟨(n * (off / S) + i) * S + off % S, ?_, ?_⟩
  · have hbl : (n * (off / S) + i + 1) * S ≤ n * m * S := by
      apply Nat.mul_le_mul_right
      have := mul_le_mul_left n (show off / S + 1 ≤ m from hr)
      rw [mul_add, mul_one] at this
      omega
    rw [succ_mul, mul_assoc n m S] at hbl
    omega
  · rw [stripe_block hm, mul_add_mod, mod_eq_of_lt hi, mul_add_div hn, div_eq_of_lt hi, add_zero, div_add_mod']

/-- Blocks of `S` bytes over `n` files of `m` blocks each. -/
def Layout.striped (hS : 0 < S) (hn : 0 < n) (m : Nat) : Layout (replicate n (m * S)) where
  total := n * (m * S)
  loc := stripe S n
  inside g hg := by
    obtain ⟨h1, h2⟩ := stripe_inside hS hn hg
    rwa [getD_eq_getElem _ _ (by rwa [length_replicate]), getElem_replicate]
  inj g _ g' _ h := by rw [← stripe_invert hS g, h, stripe_invert hS g']

/-- The places of the bytes are all places in the files, each once. -/
lemma stripe_bijOn (hS : 0 < S) (hn : 0 < n) :
    Set.BijOn (stripe S n) (Set.Iio (n * (m * S))) {p | p.1 < n ∧ p.2 < m * S} := by
  refine ⟨fun g => stripe_inside hS hn, ?_, ?_⟩
  · intro g _ g' _ h
    rw [← stripe_invert hS g, h, stripe_invert hS g']
  · rintro ⟨i, off⟩ ⟨hi, ho⟩
    obtain ⟨g, hg, hlo⟩ := stripe_surj hS hi ho
    exact ⟨g, hg, hlo⟩

end Striped
