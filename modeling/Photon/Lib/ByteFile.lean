import Mathlib.Algebra.Order.Group.Nat
import Mathlib.Data.List.GetD
/-!
# Files as byte arrays

A file is the list of its bytes. `read`, `write` and `truncate` are what `pread`,
`pwrite` and `ftruncate` do to it. A byte behind the end counts as zero, so that one
equation says what is at an offset after a write, holes included, and two files are equal
when their lengths and all these values are.
-/

namespace ByteFile

open List

variable {β : Type}

/-- The bytes from `off` on, at most `n`. -/
def read (f : List β) (n off : Nat) : List β := (f.drop off).take n

/-- The file gets the length `n`; new bytes are zero. -/
def truncate (zero : β) (f : List β) (n : Nat) : List β := f.take n ++ replicate (n - f.length) zero

/-- `bs` goes to `off`; a gap before it is filled with zeros. Writing nothing does not extend the file. -/
def write (zero : β) (f bs : List β) (off : Nat) : List β :=
  if bs.isEmpty then f else truncate zero f off ++ (bs ++ f.drop (off + bs.length))

/-! ## Lengths -/

@[simp] lemma read_length (f : List β) (n off : Nat) : (read f n off).length = min n (f.length - off) := by
  simp [read]

@[simp] lemma truncate_length (zero : β) (f : List β) (n : Nat) : (truncate zero f n).length = n := by
  simp only [truncate, length_append, length_take, length_replicate]
  omega

@[simp] lemma write_nil (zero : β) (f : List β) (off : Nat) : write zero f [] off = f := rfl

lemma write_of_ne {bs : List β} (h : bs ≠ []) (zero : β) (f : List β) (off : Nat) :
    write zero f bs off = truncate zero f off ++ (bs ++ f.drop (off + bs.length)) := by
  rw [write, if_neg]
  simpa using h

lemma write_length {bs : List β} (h : bs ≠ []) (zero : β) (f : List β) (off : Nat) :
    (write zero f bs off).length = max f.length (off + bs.length) := by
  rw [write_of_ne h]
  simp only [length_append, truncate_length, length_drop]
  omega

lemma write_length_inside (zero : β) {f bs : List β} {off : Nat} (h : off + bs.length ≤ f.length) :
    (write zero f bs off).length = f.length := by
  by_cases hbs : bs = []
  · rw [hbs, write_nil]
  · rw [write_length hbs]
    omega

/-! ## The byte at an offset -/

section At

variable (zero : β)

lemma getD_append (l1 l2 : List β) (i : Nat) :
    (l1 ++ l2).getD i zero = if i < l1.length then l1.getD i zero else l2.getD (i - l1.length) zero := by
  split
  next h => exact List.getD_append l1 l2 zero i h
  next h => exact getD_append_right l1 l2 zero i (Nat.le_of_not_lt h)

lemma getD_of_le {l : List β} {i : Nat} (h : l.length ≤ i) : l.getD i zero = zero := getD_eq_default l zero h

lemma getD_drop (l : List β) (n i : Nat) : (l.drop n).getD i zero = l.getD (n + i) zero := by
  simp [getD_eq_getElem?_getD, getElem?_drop]

lemma getD_take (l : List β) (n i : Nat) : (l.take n).getD i zero = if i < n then l.getD i zero else zero := by
  simp only [getD_eq_getElem?_getD, getElem?_take]
  split <;> rfl

lemma getD_replicate (n i : Nat) : (replicate n zero).getD i zero = zero := by
  simp only [getD_eq_getElem?_getD, getElem?_replicate]
  split <;> rfl

lemma getD_read (f : List β) (n off i : Nat) :
    (read f n off).getD i zero = if i < n then f.getD (off + i) zero else zero := by
  rw [read, getD_take, getD_drop]

lemma getD_read_of_lt {f : List β} {n off i : Nat} (hn : i < n) (hf : off + i < f.length) (d d' : β) :
    (read f n off).getD i d = f.getD (off + i) d' := by
  have hlt : i < (read f n off).length := by
    rw [read_length]
    omega
  rw [getD_eq_getElem _ _ hlt, getD_eq_getElem _ _ hf]
  simp only [read, getElem_take, getElem_drop]

lemma getD_truncate (f : List β) (n i : Nat) :
    (truncate zero f n).getD i zero = if i < n then f.getD i zero else zero := by
  rw [truncate, getD_append, getD_take, getD_replicate, length_take]
  by_cases hi : i < n
  · rw [if_pos hi]
    split
    · rfl
    · rw [getD_of_le zero (by omega)]
  · rw [if_neg hi, ite_self]

lemma getD_write (f bs : List β) (off i : Nat) : (write zero f bs off).getD i zero =
      if off ≤ i ∧ i < off + bs.length then bs.getD (i - off) zero else f.getD i zero := by
  by_cases hbs : bs = []
  · subst hbs
    rw [write_nil, if_neg]
    simp only [length_nil]
    omega
  rw [write_of_ne hbs, getD_append, getD_append, getD_truncate, getD_drop, truncate_length]
  by_cases h1 : i < off
  · rw [if_pos h1, if_pos h1, if_neg (by omega)]
  rw [if_neg h1]
  by_cases h2 : i < off + bs.length
  · rw [if_pos (by omega), if_pos ⟨by omega, h2⟩]
  · rw [if_neg (by omega), if_neg (by omega), show off + bs.length + (i - off - bs.length) = i by omega]

lemma ext_getD {f g : List β} (hle : f.length = g.length) (h : ∀ i < f.length, f.getD i zero = g.getD i zero) :
    f = g := by
  apply ext_getElem hle
  intro i hf hg
  have hi := h i hf
  rwa [getD_eq_getElem f zero hf, getD_eq_getElem g zero hg] at hi

end At

/-! ## Reading and writing piece by piece -/

lemma read_add (f : List β) (m n off : Nat) : read f (m + n) off = read f m off ++ read f n (off + m) := by
  rw [read, read, read, take_add, drop_drop]

lemma drop_read (f : List β) (k n off : Nat) : (read f n off).drop k = read f (n - k) (off + k) := by
  rw [read, read, drop_take, drop_drop]

lemma take_read (f : List β) (k n off : Nat) : (read f n off).take k = read f (min k n) off := by
  rw [read, read, take_take]

lemma read_eq_read_iff {f : List β} {m n off : Nat} :
    read f m off = read f n off ↔ min m (f.length - off) = min n (f.length - off) := by
  rw [read, read, take_eq_take_iff, length_drop]

lemma write_write (zero : β) (f as bs : List β) (off : Nat) :
    write zero (write zero f as off) bs (off + as.length) = write zero f (as ++ bs) off := by
  by_cases has : as = []
  · rw [has, write_nil, nil_append, length_nil, add_zero]
  by_cases hbs : bs = []
  · rw [hbs, write_nil, append_nil]
  have ha : as ++ bs ≠ [] := fun h => has (append_eq_nil_iff.1 h).1
  apply ext_getD zero
  · rw [write_length hbs, write_length has, write_length ha, length_append]
    omega
  intro i _
  rw [getD_write, getD_write, getD_write, getD_append, length_append]
  by_cases h1 : off + as.length ≤ i ∧ i < off + as.length + bs.length
  · rw [if_pos h1, if_pos (by omega), if_neg (by omega), show i - off - as.length = i - (off + as.length) by omega]
  rw [if_neg h1]
  by_cases h2 : off ≤ i ∧ i < off + as.length
  · rw [if_pos h2, if_pos (by omega), if_pos (by omega)]
  · rw [if_neg h2, if_neg (by omega)]

end ByteFile
