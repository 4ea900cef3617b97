import Photon.Fs.XFile
/-!
# `StripeFile` (`fs/xfile.cpp`)

The blocks of a stripe file are dealt out to files of one size in turn. Its layout is
`Layout.striped`, so that the place of a byte is a bijection onto the bytes of the files, and
a sequence of calls acts as one on a byte array: a `pread` delivers what was written last.
-/

namespace Photon.Fs

open List ByteFile Nat Layout

/-- The loop of `StripeFile::init` over the sizes of the files; `none` is -1. -/
def stripeInit (stripeSize : Nat) : Nat → List Nat → Option Nat
  | size, [] => some size
  | size, s :: sizes =>
    if s = 0 then none
    else if s % stripeSize ≠ 0 then none
    else if size = 0 then stripeInit stripeSize s sizes
    else if size ≠ s then none
    else stripeInit stripeSize size sizes

def newStripeFile (stripeSize : Nat) (sizes : List Nat) : Option XFile :=
  if sizes.length = 0 then none
  else if isPowerOf2 stripeSize = false then none
  else (stripeInit stripeSize 0 sizes).map fun size =>
    { size := size * sizes.length % 2 ^ 64
      splitter := rangeSplitPower2 stripeSize
      target := fun x =>
        (x.i % sizes.length, (rangeSplitPower2 stripeSize).multiply (x.i / sizes.length) x.offset) }

/-- The file and the offset that `pio` uses for the byte at `g`. -/
def XFile.place (x : XFile) (g : Nat) : Nat × Nat := x.target ⟨(x.splitter.divide g).1, (x.splitter.divide g).2.1, 1⟩

/-! ## The layout -/

section Stripe

variable {k n m : Nat} {x : XFile}

lemma stripeInit_replicate {S : Nat} (hS : 0 < S) (hm : 0 < m) (j : Nat) :
    stripeInit S (m * S) (replicate j (m * S)) = some (m * S) := by
  have hne : m * S ≠ 0 := mul_ne_zero (by omega) (by omega)
  induction j with
  | zero => rfl
  | succ j ih =>
    rw [replicate_succ]
    unfold stripeInit
    rw [if_neg hne, if_neg (by simp), if_neg hne, if_neg (fun h => h rfl), ih]

lemma isPowerOf2_two_pow (hk : k < 64) : isPowerOf2 (2 ^ k) = true := by
  revert k
  decide +kernel

lemma newStripeFile_eq (hk : k < 64) (hn : 0 < n) (hm : 0 < m) :
    newStripeFile (2 ^ k) (replicate n (m * 2 ^ k)) = some
      { size := m * 2 ^ k * n % 2 ^ 64
        splitter := rangeSplit (2 ^ k)
        target := fun x => (x.i % n, (rangeSplit (2 ^ k)).multiply (x.i / n) x.offset) } := by
  have hS : 0 < 2 ^ k := Nat.two_pow_pos k
  have hne : m * 2 ^ k ≠ 0 := mul_ne_zero (by omega) (by omega)
  obtain ⟨j, rfl⟩ : ∃ j, n = j + 1 := ⟨n - 1, by omega⟩
  have hi : stripeInit (2 ^ k) 0 (replicate (j + 1) (m * 2 ^ k)) = some (m * 2 ^ k) := by
    rw [replicate_succ]
    unfold stripeInit
    rw [if_neg hne, if_neg (by simp), if_pos rfl, stripeInit_replicate hS hm]
  unfold newStripeFile
  rw [length_replicate, if_neg (succ_ne_zero j), isPowerOf2_two_pow hk, if_neg (by decide), hi, rangeSplitPower2_eq hk]
  rfl

lemma Tiles.covers_striped {S o e : Nat} (hS : 0 < S) (hn : 0 < n) (hsmall : n * (m * S) < 2 ^ 63)
    (hx : x.target = fun p => (p.i % n, (rangeSplit S).multiply (p.i / n) p.offset)) {ps : List SubRange}
    (h : Tiles (fun i => i * S) (n * m) o ps e) (he : e ≤ n * (m * S)) : Covers (striped hS hn m) x o ps e := by
  induction h with
  | nil o => exact .nil o
  | @cons o e p ps hi ho hl h ih =>
    have hle := h.le
    rw [succ_mul] at hl
    have hr : p.i / n * S ≤ p.i * S := mul_le_mul_right S (div_le_self ..)
    have ht : x.target p = (p.i % n, p.i / n * S + p.offset) := by
      rw [hx]
      unfold rangeSplit
      dsimp only
      rw [mod_eq_of_lt (show p.i / n * S + p.offset < 2 ^ 64 by omega)]
    apply Covers.cons
    · rw [ht, length_replicate]
      exact mod_lt _ hn
    · refine ⟨show o + p.length ≤ n * (m * S) by omega, ?_⟩
      intro j hj
      rw [ht, ← ho, add_assoc]
      change stripe S n (p.i * S + (p.offset + j)) = _
      rw [stripe_block (by omega), add_assoc]
    · exact ih he

section
variable (hk : k < 64) (hn : 0 < n) (hm : 0 < m) (hsmall : n * (m * 2 ^ k) < 2 ^ 63)
  (hnew : newStripeFile (2 ^ k) (replicate n (m * 2 ^ k)) = some x)
include hk hn hm hsmall hnew

lemma newStripeFile_spreads : x.Spreads (striped (Nat.two_pow_pos k) hn m) := by
  rw [newStripeFile_eq hk hn hm] at hnew
  cases hnew
  have hS : 0 < 2 ^ k := Nat.two_pow_pos k
  have ht : m * 2 ^ k * n = n * (m * 2 ^ k) := mul_comm ..
  have hle : 2 ^ k ≤ m * 2 ^ k := Nat.le_mul_of_pos_left _ hm
  have hl' : m * 2 ^ k ≤ n * (m * 2 ^ k) := Nat.le_mul_of_pos_left _ hn
  refine ⟨?_, hsmall, ?_⟩
  · dsimp only
    rw [ht]
    exact mod_eq_of_lt (by omega)
  intro offset count h
  have ha := mul_assoc n m (2 ^ k)
  have hsp := rangeSplit_splits (n := n * m) hS (by omega)
  have hti := allParts_tiles hsp.to (show offset + count ≤ n * m * 2 ^ k from ha ▸ h)
  exact hti.covers_striped hS hn hsmall rfl h

lemma newStripeFile_place {g : Nat} (hg : g < n * (m * 2 ^ k)) : x.place g = stripe (2 ^ k) n g := by
  rw [newStripeFile_eq hk hn hm] at hnew
  cases hnew
  have hr : g / 2 ^ k / n * 2 ^ k ≤ g / 2 ^ k * 2 ^ k := mul_le_mul_right _ (div_le_self ..)
  have hd := div_add_mod' g (2 ^ k)
  unfold XFile.place stripe rangeSplit
  dsimp only
  rw [mod_eq_of_lt (show g / 2 ^ k / n * 2 ^ k + g % 2 ^ k < 2 ^ 64 by omega)]

end

end Stripe

/-! ## Runs -/

inductive FileOp
  | pread (mem : Mem) (buf count offset : Nat)
  | pwrite (mem : Mem) (buf count offset : Nat)

namespace FileOp

def count : FileOp → Nat
  | pread _ _ count _ => count
  | pwrite _ _ count _ => count

def offset : FileOp → Nat
  | pread _ _ _ offset => offset
  | pwrite _ _ _ offset => offset

def apply (x : XFile) (files : List (List Byte)) : FileOp → Option (List (List Byte))
  | pread mem buf count offset => (x.pread files mem buf count offset).map fun r => r.2.2
  | pwrite mem buf count offset => (x.pwrite files mem buf count offset).map fun r => r.2.2

def run (x : XFile) : List (List Byte) → List FileOp → Option (List (List Byte))
  | files, [] => some files
  | files, op :: ops => (op.apply x files).bind fun files => run x files ops

/-- The value of every byte after a call, for a file of `total` bytes: a `pwrite` sets those of its range. -/
def after (total : Nat) (value : Nat → Byte) : FileOp → Nat → Byte
  | pread _ _ _ _ => value
  | pwrite mem buf count offset => fun g =>
    if offset ≤ g ∧ g < offset + min count (total - offset) then mem (buf + (g - offset)) else value g

def lastWritten (total : Nat) (value : Nat → Byte) (ops : List FileOp) : Nat → Byte := ops.foldl (after total) value

/-- The offset is in the file, and the end of the range does not overflow. -/
def Regular (total : Nat) (op : FileOp) : Prop := op.offset < total ∧ op.offset + op.count < 2 ^ 64

section Run

variable {sizes : List Nat} {L : Layout sizes} {x : XFile} {files : List (List Byte)} {v : Nat → Byte}

def Holds (L : Layout sizes) (files : List (List Byte)) (value : Nat → Byte) : Prop :=
  Layout.Fits sizes files ∧ ∀ g < L.total, (L.content 0 files).getD g 0 = value g

lemma apply_holds (hx : x.Spreads L) (h : Holds L files v) {op : FileOp} (hop : op.Regular L.total) :
    ∃ files', op.apply x files = some files' ∧ Holds L files' (op.after L.total v) := by
  obtain ⟨hf, hv⟩ := h
  cases op with obtain ⟨ho, hc⟩ : offset < L.total ∧ offset + count < 2 ^ 64 := hop
  | pread mem buf count offset =>
    refine ⟨files, ?_, hf, hv⟩
    unfold apply
    dsimp only
    rw [pio_pread hx hf ho hc]
    rfl
  | pwrite mem buf count offset =>
    obtain ⟨files', hw, hf', hco⟩ := pio_pwrite hx hf ho hc mem buf
    refine ⟨files', ?_, hf', ?_⟩
    · unfold apply
      dsimp only
      rw [hw]
      rfl
    · intro g hg
      unfold after
      dsimp only
      rw [hco, getD_write, readBytes_length]
      by_cases hin : offset ≤ g ∧ g < offset + min count (L.total - offset)
      · rw [if_pos hin, if_pos hin, getD_readBytes _ (by omega)]
      · rw [if_neg hin, if_neg hin, hv g hg]

lemma run_holds (hx : x.Spreads L) {ops : List FileOp} (h : Holds L files v) (ho : ∀ op ∈ ops, op.Regular L.total) :
    ∃ files', run x files ops = some files' ∧ Holds L files' (lastWritten L.total v ops) := by
  induction ops generalizing files v with
  | nil => exact ⟨files, rfl, h⟩
  | cons op ops ih =>
    obtain ⟨files1, ha, h1⟩ := apply_holds hx h (ho op mem_cons_self)
    obtain ⟨files2, hr, h2⟩ := ih h1 (fun op' h' => ho op' (mem_cons_of_mem op h'))
    refine ⟨files2, ?_, h2⟩
    unfold run
    rw [ha]
    exact hr

lemma Holds.read (h : Holds L files v) (cnt off : Nat) :
    read (L.content 0 files) cnt off =
      (range (min cnt (L.total - off))).map fun j => v (off + j) := by
  apply ext_getD 0
  · rw [read_length, content_length, length_map, length_range]
  intro j hj
  rw [read_length, content_length] at hj
  rw [getD_read, if_pos (by omega), h.2 _ (by omega), getD_eq_getElem _ _ (by simpa using hj)]
  simp

end Run

end FileOp

open FileOp in
/-- The places of the bytes are the bytes of all files, each once; every sequence of calls whose ranges do not
overflow runs, and after it a `pread` returns the clipped count and, for every byte, the value last written, exactly
when its range does not overflow. -/
theorem stripe_last_written {k n m : Nat} (hk : k < 64) (hn : 0 < n) (hm : 0 < m) (hsmall : n * (m * 2 ^ k) < 2 ^ 63)
    (files : List (List Byte)) (hfiles : files.map length = replicate n (m * 2 ^ k)) :
    ∃ x, newStripeFile (2 ^ k) (files.map length) = some x ∧
      Set.BijOn x.place (Set.Iio (n * (m * 2 ^ k))) {p | p.1 < n ∧ p.2 < m * 2 ^ k} ∧
      ∀ ops : List FileOp, (∀ op ∈ ops, op.Regular (n * (m * 2 ^ k))) → ∃ files', run x files ops = some files' ∧
          ∀ (mem : Mem) (buf count offset : Nat), offset < n * (m * 2 ^ k) → count < 2 ^ 64 →
            (x.pread files' mem buf count offset = some (((min count (n * (m * 2 ^ k) - offset) : Nat) : Int),
                writeBytes mem buf ((range (min count (n * (m * 2 ^ k) - offset))).map fun j =>
                  lastWritten (n * (m * 2 ^ k)) (fun g => byteAt 0 files (x.place g)) ops (offset + j)),
                files') ↔ offset + count < 2 ^ 64) := by
  obtain ⟨x, hnew⟩ : ∃ x, newStripeFile (2 ^ k) (replicate n (m * 2 ^ k)) = some x := ⟨_, newStripeFile_eq hk hn hm⟩
  have hpl : ∀ g < n * (m * 2 ^ k), stripe (2 ^ k) n g = x.place g := fun g hg =>
    (newStripeFile_place hk hn hm hsmall hnew hg).symm
  have hx := newStripeFile_spreads hk hn hm hsmall hnew
  refine ⟨x, hfiles ▸ hnew, (stripe_bijOn (Nat.two_pow_pos k) hn).congr hpl, ?_⟩
  intro ops hop
  have hst : Holds (striped (Nat.two_pow_pos k) hn m) files fun g => byteAt 0 files (x.place g) := by
    refine ⟨hfiles, ?_⟩
    intro g hg
    dsimp only
    rw [getD_content _ 0 hg, ← hpl g hg]
    rfl
  obtain ⟨files', hr, hh⟩ := run_holds hx hst hop
  refine ⟨files', hr, ?_⟩
  intro mem buf count offset ho hc
  constructor
  · intro hre
    by_contra hov
    have hne := pio_overflow hx andPread ho hc (Nat.le_of_not_lt hov) files' mem buf hre
    dsimp only at hne
    omega
  · intro hov
    rw [pio_pread hx hh.1 ho hov, hh.read]
    rfl

/-- Two files of two stripes of two bytes; three bytes are written from 3 on, and five read from 2 on. -/
theorem stripe_last_written_two : ∃ x, newStripeFile (2 ^ 1) ([[1, 2, 3, 4], [5, 6, 7, (8 : Byte)]].map length) = some x ∧
    ∃ files', FileOp.run x [[1, 2, 3, 4], [5, 6, 7, 8]] [.pwrite (fun _ => 9) 100 3 3] = some files' ∧
      (x.pread files' (fun _ => 0) 100 5 2).map Prod.fst = some 5 := by
  obtain ⟨x, hnew, -, h⟩ := stripe_last_written (k := 1) (n := 2) (m := 2) (by decide) (by decide) (by decide) (by decide)
    [[1, 2, 3, 4], [5, 6, 7, 8]] rfl
  obtain ⟨files', hr, hre⟩ := h [.pwrite (fun _ => 9) 100 3 3] (by simp [FileOp.Regular, FileOp.offset, FileOp.count])
  refine ⟨x, hnew, files', hr, ?_⟩
  rw [(hre (fun _ => 0) 100 5 2 (by decide) (by decide)).2 (by decide)]
  rfl

/-- `SIZE_MAX` bytes from 1 on: the end of the range is 0, no part is read, and -1 is returned. -/
theorem stripe_overflow : (newStripeFile (2 ^ 1) [4, 4]).bind (fun x =>
      (x.pread [[1, 2, 3, 4], [5, 6, 7, 8]] (fun _ => 0) 100 (2 ^ 64 - 1) 1).map fun r => (r.1, r.2.1 100)) = some (-1, 0) := by
  decide +kernel

open FileOp in
/-- Every sequence of calls on a linear file runs, and leaves in the concatenation of its files the values last written.
-/
theorem linear_last_written {files : List (List Byte)} {x : XFile} (h : Linear files x)
    (hsum : files.flatten.length < 2 ^ 63) (ops : List FileOp) (hop : ∀ op ∈ ops, op.Regular files.flatten.length) :
    ∃ files', run x files ops = some files' ∧ files'.map length = files.map length ∧
      ∀ mem buf count offset, offset < files.flatten.length → offset + count < 2 ^ 64 →
        x.pread files' mem buf count offset = some (((min count (files.flatten.length - offset) : Nat) : Int),
          writeBytes mem buf ((range (min count (files.flatten.length - offset))).map fun j =>
            lastWritten files.flatten.length (files.flatten.getD · 0) ops (offset + j)), files') := by
  have ht : (linear (files.map length)).total = files.flatten.length := length_flatten.symm
  have h0 : Holds (linear (files.map length)) files (files.flatten.getD · 0) :=
    ⟨rfl, fun g _ => by rw [content_linear 0 rfl]⟩
  rw [← ht] at hop ⊢
  obtain ⟨files', hr, hh⟩ := run_holds (h.spreads hsum) h0 hop
  refine ⟨files', hr, hh.1, fun mem buf count offset ho hov => ?_⟩
  rw [pio_pread (h.spreads hsum) hh.1 ho hov, hh.read]

theorem linear_last_written_three : ∃ x, newLinearFile [3, 2, 1] = some x ∧
    ∃ files', FileOp.run x [[1, 2, 3], [4, 5], [6]] [.pwrite (fun _ => 9) 100 3 2] = some files' ∧
      (x.pread files' (fun _ => 0) 100 5 1).map (fun r => readBytes r.2.1 100 5) = some [2, 9, 9, 9, 6] := by
  obtain ⟨x, hx⟩ : ∃ x, newLinearFile ([[1, 2, 3], [4, 5], [(6 : Byte)]].map length) = some x := ⟨_, rfl⟩
  obtain ⟨files', hr, -, hre⟩ := linear_last_written (.variableSize hx (by decide)) (by decide)
    [.pwrite (fun _ => 9) 100 3 2] (by simp [FileOp.Regular, FileOp.offset, FileOp.count])
  refine ⟨x, hx, files', hr, ?_⟩
  rw [hre _ _ _ _ (by decide) (by decide)]
  rfl

end Photon.Fs
