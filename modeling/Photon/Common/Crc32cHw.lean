import Photon.Common.Crc32cCombine
/-!
# `crc32c_hw_portable` and `crc32c_series_hw`

Three strings of one length are fed to the `crc32` instruction at a time. What the first two
give is moved over the bytes behind them by carry-less products with constants, which are
those of `crc32c_combine_table`. What is left is taken in blocks whose sizes are the bits of
its length, and the last bytes out of a word that ends with them.
-/

namespace Photon.Checksum

open Crc Function BitVec List

variable {n k : Nat}

/-- The entries that are used. -/
def crc32MergeTablePclmulqdq : Nat → BitVec 64
  | 14 => 0x00d3b6092#64
  | 15 => 0x09e4addf8#64
  | 30 => 0x0b9e02b86#64
  | 31 => 0x00d3b6092#64
  | 62 => 0x0dd7e3b0c#64
  | 63 => 0x0b9e02b86#64
  | 126 => 0x0170076fa#64
  | 127 => 0x0dd7e3b0c#64
  | _ => 0#64

structure Hw where
  data : Nat
  nbytes : Nat
  crc : BitVec 32

section Calls

variable (mem : Nat → BitVec 8)

def crc32cHwBlock (blksz : Nat) (s : Hw) : Hw :=
  if s.nbytes &&& blksz ≠ 0 then
    ⟨s.data + blksz, s.nbytes - blksz,
      (range (blksz / 8)).foldl (fun crc i => crc32c crc (load64 mem (s.data + 8 * i))) s.crc⟩
  else s

def tinyStep (nbytes k : Nat) (s : BitVec 32 × BitVec 64) : BitVec 32 × BitVec 64 :=
  if nbytes &&& k ≠ 0 then (crc32c s.1 (s.2.setWidth (8 * k)), s.2 >>> (8 * k)) else s

def crc32cHwTiny (d : BitVec 64) (nbytes : Nat) (crc : BitVec 32) : BitVec 32 :=
  (tinyStep nbytes 4 (tinyStep nbytes 2 (tinyStep nbytes 1 (crc, d)))).1

def crc32cHwSmall (s : Hw) : BitVec 32 :=
  if s.nbytes = 0 ∨ s.data = 0 then s.crc
  else
    let s := crc32cHwBlock mem 8 (crc32cHwBlock mem 16 (crc32cHwBlock mem 32 (crc32cHwBlock mem 64
      (crc32cHwBlock mem 128 s))))
    if s.nbytes ≠ 0 then
      let x := 8 - s.nbytes
      crc32cHwTiny (load64 mem (s.data - x) >>> (x * 8)) s.nbytes s.crc
    else s.crc

/-- A turn of the loop of `crc32c_3way_ILP`, with `crc`, `crc1` and `crc2`. -/
def ilpTurn (ptr blksz8 : Nat) (c : BitVec 32 × BitVec 32 × BitVec 32) (i : Nat) :
    BitVec 32 × BitVec 32 × BitVec 32 :=
  (crc32c c.1 (load64 mem (ptr + 8 * i)), crc32c c.2.1 (load64 mem (ptr + 8 * (i + blksz8))),
    crc32c c.2.2 (load64 mem (ptr + 8 * (i + blksz8 * 2))))

def crc32c3wayILP (blksz : Nat) (s : Hw) : Bool × Hw :=
  if s.nbytes < blksz * 3 then (false, s)
  else
    let ptr := s.data
    let blksz8 := blksz / 8
    let c := (range (blksz8 - 1)).foldl (ilpTurn mem ptr blksz8) (s.crc, 0#32, 0#32)
    let crc := crc32c c.1 (load64 mem (ptr + 8 * (blksz8 - 1)))
    let crc1 := crc32c c.2.1 (load64 mem (ptr + 8 * (blksz8 * 2 - 1)))
    let k := (blksz8 - 1) * 2
    let t := clmul (crc.setWidth 64) (crc32MergeTablePclmulqdq k) ^^^
      clmul (crc1.setWidth 64) (crc32MergeTablePclmulqdq (k + 1))
    (true, ⟨s.data + blksz * 3, s.nbytes - blksz * 3,
      crc32c c.2.2 (load64 mem (ptr + 8 * (blksz8 * 3 - 1)) ^^^ t.setWidth 64)⟩)

def ilpLoop : Nat → Hw → Hw
  | 0, s => s
  | fuel + 1, s =>
    let r := crc32c3wayILP mem 512 s
    if r.1 then ilpLoop fuel r.2 else r.2

def crc32cHwPortable (data nbytes : Nat) (crc : BitVec 32) : BitVec 32 :=
  if nbytes = 0 then crc
  else if nbytes < 8 then (range nbytes).foldl (fun crc i => crc32c crc (mem (data + i))) crc
  else
    let l := ((~~~(BitVec.ofNat 64 data) + 1#64) &&& 7#64).toNat
    let s := if l ≠ 0 then ⟨data + l, nbytes - l, crc32cHwTiny (load64 mem data) l crc⟩ else ⟨data, nbytes, crc⟩
    let s := ilpLoop mem nbytes s
    crc32cHwSmall mem (crc32c3wayILP mem 64 (crc32c3wayILP mem 128 (crc32c3wayILP mem 256 s).2).2).2

end Calls

/-! ## Words -/

lemma crc32c_load64 (mem : Nat → BitVec 8) {p q : Nat} (hq : q = p + 8 * n) (c : BitVec 32) :
    crc32c (crc CRC32C c (readBytes mem p (8 * n))) (load64 mem q) = crc CRC32C c (readBytes mem p (8 * (n + 1))) := by
  rw [crc32c, leBytes_load64, hq, Nat.mul_succ, readBytes_add, crc_append]

lemma foldl_load64 (mem : Nat → BitVec 8) (a n : Nat) (c : BitVec 32) :
    (range n).foldl (fun crc i => crc32c crc (load64 mem (a + 8 * i))) c = crc CRC32C c (readBytes mem a (8 * n)) := by
  induction n with
  | zero => rfl
  | succ n ih => rw [range_succ, foldl_append, ih, foldl_cons, foldl_nil, crc32c_load64 mem rfl]

lemma leBytes_part {mem : Nat → BitVec 8} {a v : Nat} (hv : leBytes k v = readBytes mem a k) {x : Nat}
    (h : x + n ≤ k) : leBytes n (v / 256 ^ x) = readBytes mem (a + x) n := by
  obtain ⟨r, rfl⟩ := Nat.exists_eq_add_of_le h
  rw [leBytes_add, leBytes_add, readBytes_add, readBytes_add] at hv
  have hf := (append_inj hv (by simp)).1
  exact (append_inj hf (by simp)).2

lemma tinyStep_eq (h : n &&& k = 0 ∨ n &&& k = k) (c : BitVec 32) (d : BitVec 64) :
    tinyStep n k (c, d) = (crc CRC32C c (leBytes (n &&& k) d.toNat), d >>> (8 * (n &&& k))) := by
  unfold tinyStep
  split
  next h0 =>
    have hpo : 2 ^ (8 * k) = 256 ^ k := by rw [Nat.pow_mul]
    rw [h.resolve_left h0, crc32c, Nat.mul_div_cancel_left k (by decide), toNat_setWidth, hpo, leBytes_mod]
  next h0 =>
    rw [not_not.1 h0, Nat.mul_zero, ushiftRight_zero]
    rfl

lemma crc32cHwTiny_eq (d : BitVec 64) (hn : n < 8) (c : BitVec 32) :
    crc32cHwTiny d n c = crc CRC32C c (leBytes n d.toNat) := by
  have hbi : ∀ n < 8, (n &&& 1) + (n &&& 2) + (n &&& 4) = n ∧ (n &&& 1 = 0 ∨ n &&& 1 = 1) ∧
      (n &&& 2 = 0 ∨ n &&& 2 = 2) ∧ (n &&& 4 = 0 ∨ n &&& 4 = 4) := by decide
  obtain ⟨hsu, h1, h2, h4⟩ := hbi n hn
  have hsh : ∀ (d : BitVec 64) (m : Nat), (d >>> (8 * m)).toNat = d.toNat / 256 ^ m := by
    intro d m
    rw [toNat_ushiftRight, Nat.shiftRight_eq_div_pow, Nat.pow_mul]
  rw [crc32cHwTiny, tinyStep_eq h1, tinyStep_eq h2, tinyStep_eq h4]
  dsimp only
  rw [← crc_append, ← crc_append, hsh, hsh, hsh, Nat.div_div_eq_div_mul, ← pow_add, ← List.append_assoc,
    ← leBytes_add, ← leBytes_add, hsu]

/-! ## Going on -/

def Hw.total (mem : Nat → BitVec 8) (s : Hw) : BitVec 32 := Crc.crc CRC32C s.crc (readBytes mem s.data s.nbytes)

/-- From `s` to `s'`, bytes at the front were taken. -/
structure Goes (mem : Nat → BitVec 8) (s s' : Hw) : Prop where
  total : s'.total mem = s.total mem
  ends : s'.data + s'.nbytes = s.data + s.nbytes
  data : s.data ≤ s'.data

section Goes

variable {mem : Nat → BitVec 8} {s s' s'' : Hw}

lemma Goes.refl (mem : Nat → BitVec 8) (s : Hw) : Goes mem s s := ⟨rfl, rfl, le_rfl⟩

lemma Goes.trans (h : Goes mem s s') (h' : Goes mem s' s'') : Goes mem s s'' :=
  ⟨h'.total.trans h.total, h'.ends.trans h.ends, le_trans h.data h'.data⟩

lemma Goes.nbytes_le (h : Goes mem s s') : s'.nbytes ≤ s.nbytes := by
  have he := h.ends
  have hd := h.data
  omega

lemma goes_of_take (hn : n ≤ s.nbytes) {c : BitVec 32} (hc : c = crc CRC32C s.crc (readBytes mem s.data n)) :
    Goes mem s ⟨s.data + n, s.nbytes - n, c⟩ := by
  refine ⟨?_, ?_, Nat.le_add_right ..⟩
  · obtain ⟨m, hm⟩ := Nat.exists_eq_add_of_le hn
    rw [Hw.total, Hw.total, hm, readBytes_add, crc_append, ← hc, Nat.add_sub_cancel_left]
  · dsimp only
    omega

variable (mem)

lemma crc32cHwBlock_goes (hk : 3 ≤ k ∧ k < 8) (h : s.nbytes < 2 ^ (k + 1)) :
    Goes mem s (crc32cHwBlock mem (2 ^ k) s) ∧ (crc32cHwBlock mem (2 ^ k) s).nbytes < 2 ^ k := by
  have hbi : ∀ k < 8, ∀ n < 2 ^ (k + 1), (n &&& 2 ^ k ≠ 0 ↔ 2 ^ k ≤ n) := by decide +kernel
  unfold crc32cHwBlock
  simp only [hbi k hk.2 _ h]
  split
  next hle =>
    have h8 : 8 * (2 ^ k / 8) = 2 ^ k := Nat.mul_div_cancel' (Nat.pow_dvd_pow 2 hk.1)
    refine ⟨goes_of_take hle (by rw [foldl_load64, h8]), ?_⟩
    rw [pow_succ] at h
    dsimp only
    omega
  · next hlt => exact ⟨.refl mem s, Nat.lt_of_not_le hlt⟩

lemma crc32cHwSmall_eq (hn : s.nbytes < 256) (hd : s.data ≠ 0) (he : 8 ≤ s.data + s.nbytes) :
    crc32cHwSmall mem s = s.total mem := by
  unfold crc32cHwSmall
  split
  next h =>
    rw [Hw.total, h.resolve_right hd]
    rfl
  obtain ⟨h7, hn⟩ := crc32cHwBlock_goes mem (show 3 ≤ 7 ∧ 7 < 8 by decide) hn
  obtain ⟨h6, hn⟩ := crc32cHwBlock_goes mem (show 3 ≤ 6 ∧ 6 < 8 by decide) hn
  obtain ⟨h5, hn⟩ := crc32cHwBlock_goes mem (show 3 ≤ 5 ∧ 5 < 8 by decide) hn
  obtain ⟨h4, hn⟩ := crc32cHwBlock_goes mem (show 3 ≤ 4 ∧ 4 < 8 by decide) hn
  obtain ⟨h3, hn⟩ := crc32cHwBlock_goes mem (show 3 ≤ 3 ∧ 3 < 8 by decide) hn
  have ha := h7.trans (h6.trans (h5.trans (h4.trans h3)))
  rw [← ha.total]
  rw [← ha.ends] at he
  change (if (crc32cHwBlock mem (2 ^ 3) _).nbytes ≠ 0 then _ else _) = _
  generalize crc32cHwBlock mem (2 ^ 3) _ = s at hn he ⊢
  split
  · have hx : s.data - (8 - s.nbytes) + (8 - s.nbytes) = s.data := by omega
    have hla := leBytes_part (leBytes_load64 mem (s.data - (8 - s.nbytes))) (show 8 - s.nbytes + s.nbytes ≤ 8 by omega)
    rw [hx] at hla
    rw [crc32cHwTiny_eq _ hn, toNat_ushiftRight, Nat.shiftRight_eq_div_pow, mul_comm _ 8, Nat.pow_mul, hla, Hw.total]
  next h0 =>
    rw [Hw.total, not_not.1 h0]
    rfl

/-! ## Three strings at a time -/

lemma ilpTurn_foldl (ptr n m : Nat) (a b c : BitVec 32) : (range m).foldl (ilpTurn mem ptr n) (a, b, c) =
      (crc CRC32C a (readBytes mem ptr (8 * m)), crc CRC32C b (readBytes mem (ptr + 8 * n) (8 * m)),
        crc CRC32C c (readBytes mem (ptr + 8 * (n * 2)) (8 * m))) := by
  induction m with
  | zero => rfl
  | succ m ih =>
    rw [range_succ, foldl_append, ih, foldl_cons, foldl_nil, ilpTurn, crc32c_load64 mem rfl,
      crc32c_load64 mem (by omega), crc32c_load64 mem (by omega)]

lemma crc32c_xor (c d : BitVec 32) (x y : BitVec n) : crc32c (c ^^^ d) (x ^^^ y) = crc32c c x ^^^ crc32c d y := by
  rw [crc32c, toNat_xor, crc_xor]
  rfl

lemma merge_eq (a b c : BitVec 32) {j : Nat} (hj : j < 4) (w : BitVec 64) :
    crc32c c (w ^^^ (clmul (a.setWidth 64) (crc32MergeTablePclmulqdq ((8 * 2 ^ j - 1) * 2)) ^^^
        clmul (b.setWidth 64) (crc32MergeTablePclmulqdq ((8 * 2 ^ j - 1) * 2 + 1))).setWidth 64) =
      (shift CRC32C)^[128 * 2 ^ (j + 3)] a ^^^ (shift CRC32C)^[128 * 2 ^ (j + 2)] b ^^^ crc32c c w := by
  have hk : ∀ j < 4,
      crc32MergeTablePclmulqdq ((8 * 2 ^ j - 1) * 2) = (crc32cCombineTable.getD (j + 3) 0#32).setWidth 64 ∧
      crc32MergeTablePclmulqdq ((8 * 2 ^ j - 1) * 2 + 1) = (crc32cCombineTable.getD (j + 2) 0#32).setWidth 64 := by
    decide +kernel
  have hsp := crc32c_xor c 0#32 w
  simp only [xor_zero] at hsp
  have hz := crc32c_xor (n := 64) 0#32 0#32
  simp only [xor_zero] at hz
  rw [(hk j hj).1, (hk j hj).2, hsp, setWidth_xor, hz, ← shiftHw_eq (by omega), ← shiftHw_eq (by omega),
    BitVec.xor_comm]
  rfl

lemma crc32c3wayILP_goes {b j : Nat} (hj : j < 4) (hb : b = 64 * 2 ^ j) (s : Hw) :
    Goes mem s (crc32c3wayILP mem b s).2 ∧
      ((crc32c3wayILP mem b s).1 = false ∧ (crc32c3wayILP mem b s).2.nbytes < b * 3 ∨
        (crc32c3wayILP mem b s).1 = true ∧ (crc32c3wayILP mem b s).2.nbytes + b * 3 = s.nbytes) := by
  unfold crc32c3wayILP
  split
  · next hlt => exact ⟨.refl mem s, .inl ⟨rfl, hlt⟩⟩
  next hle =>
  refine ⟨goes_of_take (Nat.le_of_not_lt hle) ?_, .inr ⟨rfl, by dsimp only; omega⟩⟩
  obtain ⟨n, hn⟩ : ∃ n, 8 * 2 ^ j = n + 1 := ⟨8 * 2 ^ j - 1, by have := Nat.two_pow_pos j; omega⟩
  have hw : b / 8 = 8 * 2 ^ j := by omega
  have hby : b * 3 = 8 * (n + 1) + 8 * (n + 1) + 8 * (n + 1) := by omega
  have h2 : 128 * 2 ^ (j + 2) = 8 * (8 * (n + 1)) := by rw [pow_add]; omega
  have h3 : 128 * 2 ^ (j + 3) = 8 * (8 * (n + 1) + 8 * (n + 1)) := by rw [pow_add]; omega
  rw [hw, ilpTurn_foldl, merge_eq _ _ _ hj, hn, hby, h2, h3, Nat.add_sub_cancel, crc32c_load64 mem (by omega),
    crc32c_load64 mem (by omega), crc32c_load64 mem (by omega), readBytes_add, readBytes_add, crc_append_append,
    readBytes_length, readBytes_length, show 8 * ((n + 1) * 2) = 8 * (n + 1) + 8 * (n + 1) by omega]

lemma crc32c3wayILP_lt {b j : Nat} (hj : j < 4) (hb : b = 64 * 2 ^ j) (h : s.nbytes < b * 6) :
    Goes mem s (crc32c3wayILP mem b s).2 ∧ (crc32c3wayILP mem b s).2.nbytes < b * 3 := by
  obtain ⟨hg, ⟨-, hn⟩ | ⟨-, hn⟩⟩ := crc32c3wayILP_goes mem hj hb s
  · exact ⟨hg, hn⟩
  · exact ⟨hg, by omega⟩

lemma ilpLoop_goes {fuel : Nat} (hf : s.nbytes ≤ fuel) :
    Goes mem s (ilpLoop mem fuel s) ∧ (ilpLoop mem fuel s).nbytes < 1536 := by
  induction fuel generalizing s with
  | zero => exact ⟨.refl mem s, by rw [ilpLoop]; omega⟩
  | succ fuel ih =>
    obtain ⟨hg, ⟨hr, hn⟩ | ⟨hr, hn⟩⟩ := crc32c3wayILP_goes mem (b := 512) (show 3 < 4 by decide) rfl s
    · simp only [ilpLoop, hr]
      exact ⟨hg, hn⟩
    · simp only [ilpLoop, hr, if_true]
      obtain ⟨hre, hlt⟩ := ih (s := (crc32c3wayILP mem 512 s).2) (by omega)
      exact ⟨hg.trans hre, hlt⟩

lemma foldl_bytes (a n : Nat) (c : BitVec 32) :
    (range n).foldl (fun crc i => crc32c crc (mem (a + i))) c = crc CRC32C c (readBytes mem a n) := by
  have hby : ∀ (c : BitVec 32) (b : BitVec 8), crc32c c b = step CRC32C c b := by
    intro c b
    simp [crc32c, leBytes, crc]
  rw [readBytes, addresses, map_map, crc, foldl_map]
  simp only [hby]
  rfl

/-- Whatever the address and the length are, the checksum is that of the tables. -/
theorem hw_eq_sw {data nbytes : Nat} (h : nbytes = 0 ∨ data ≠ 0) (c : BitVec 32) :
    crc32cHwPortable mem data nbytes c = crc32cSw mem data nbytes c := by
  rw [crc32cSw_eq]
  unfold crc32cHwPortable
  split
  next h0 =>
    rw [h0]
    rfl
  split
  · exact foldl_bytes mem data nbytes c
  next h0 h8 =>
  have hl : ((~~~(BitVec.ofNat 64 data) + 1#64) &&& 7#64).toNat < 8 := by
    rw [toNat_and]
    exact Nat.lt_succ_of_le Nat.and_le_right
  dsimp only
  generalize ((~~~(BitVec.ofNat 64 data) + 1#64) &&& 7#64).toNat = l at hl ⊢
  -- the bytes up to a multiple of 8
  have hf : Goes mem ⟨data, nbytes, c⟩
      (if l ≠ 0 then ⟨data + l, nbytes - l, crc32cHwTiny (load64 mem data) l c⟩ else ⟨data, nbytes, c⟩) := by
    split
    · refine goes_of_take (by dsimp only; omega) ?_
      have hpa := leBytes_part (leBytes_load64 mem data) (show 0 + l ≤ 8 by omega)
      rw [pow_zero, Nat.div_one, add_zero] at hpa
      rw [crc32cHwTiny_eq _ hl, hpa]
    · exact .refl ..
  generalize (if l ≠ 0 then _ else _ : Hw) = s0 at hf ⊢
  obtain ⟨hlo, hn⟩ := ilpLoop_goes mem (show s0.nbytes ≤ nbytes from hf.nbytes_le)
  obtain ⟨h256, hn⟩ := crc32c3wayILP_lt mem (b := 256) (show 2 < 4 by decide) rfl hn
  obtain ⟨h128, hn⟩ := crc32c3wayILP_lt mem (b := 128) (show 1 < 4 by decide) rfl hn
  obtain ⟨h64, hn⟩ := crc32c3wayILP_lt mem (b := 64) (show 0 < 4 by decide) rfl hn
  have ha := hf.trans (hlo.trans (h256.trans (h128.trans h64)))
  have hd := ha.data
  have he := ha.ends
  dsimp only at hd he
  rw [crc32cHwSmall_eq mem (by omega) (by omega) (by omega), ha.total]
  rfl

end Goes

theorem hw_eq_sw_kilobytes : (2 ^ 12 + 3 = 0 ∨ 5 ≠ 0) ∧
    crc32cHwPortable (BitVec.ofNat 8) 5 (2 ^ 12 + 3) 1#32 = crc32cSw (BitVec.ofNat 8) 5 (2 ^ 12 + 3) 1#32 :=
  ⟨by decide, hw_eq_sw _ (by decide) _⟩

/-! ## Series of parts -/

section Series

variable (mem : Nat → BitVec 8) (partSize : Nat)

/-- The product is that of two `uint32_t`. -/
def crc32cSeriesSw (buffer nParts : Nat) : List (BitVec 32) :=
  (range nParts).map fun i => crc32cSw mem (buffer + i * partSize % 2 ^ 32) partSize 0#32

/-- `batch_crc` for pointers to `w` bytes. -/
def batchCrc (w ptr : Nat) (crcParts : List (BitVec 32)) : List (BitVec 32) :=
  crcParts.mapIdx fun k crc => crc32c crc (BitVec.ofNat (8 * w) (leNat (readBytes mem (ptr + k * partSize) w)))

/-- `w` bytes of each part, when `w` is a bit of `part_remain`. -/
def batchRemain (w : Nat) (s : Nat × List (BitVec 32)) : Nat × List (BitVec 32) :=
  if partSize % 8 &&& w ≠ 0 then (s.1 + w, batchCrc mem partSize w s.1 s.2) else s

def batchBlocksCrc (buffer batch : Nat) : List (BitVec 32) :=
  let partMain := partSize / 8 * 8
  let s := (range (partMain / 8)).foldl (fun s _ => (s.1 + 8, batchCrc mem partSize 8 s.1 s.2))
    (buffer, replicate batch 0#32)
  if partMain ≠ 0 then
    (batchRemain mem partSize 1 (batchRemain mem partSize 2 (batchRemain mem partSize 4 s))).2
  else s.2

def crc32cSeriesHw (buffer : Nat) : Nat → List (BitVec 32)
  | nParts + 4 => batchBlocksCrc mem partSize buffer 4 ++ crc32cSeriesHw (buffer + partSize * 4) nParts
  | nParts => if nParts ≠ 0 then batchBlocksCrc mem partSize buffer nParts else []

def crc32cCombineHw (crc1 crc2 : BitVec 32) (len2 : Nat) : BitVec 32 :=
  let crc1 := crc32cShift crc1 len2 crc32cShiftHw
  if len2 &&& 15 ≠ 0 then -1#32 else crc1 ^^^ crc2

/-- `crc32c_combine_series_sw` and `crc32c_combine_series_hw`. -/
def crc32cCombineSeries (combine : BitVec 32 → BitVec 32 → Nat → BitVec 32) : List (BitVec 32) → BitVec 32
  | [] => 0#32
  | res :: crc => crc.foldl (fun res c => combine res c partSize) res

/-- The checksums of the first `n` bytes of `b` parts. -/
def heads (p b n : Nat) : List (BitVec 32) :=
  (range b).map fun k => crc CRC32C 0#32 (readBytes mem (p + k * partSize) n)

lemma heads_add (p a b n : Nat) :
    heads mem partSize p (a + b) n = heads mem partSize p a n ++ heads mem partSize (p + partSize * a) b n := by
  simp [heads, range_add, Nat.add_mul, Nat.mul_comm a, add_assoc]

lemma batchCrc_heads (p b n w : Nat) :
    batchCrc mem partSize w (p + n) (heads mem partSize p b n) = heads mem partSize p b (n + w) := by
  refine ext_getElem (by simp [batchCrc, heads]) fun k _ _ => ?_
  have hlt := leNat_lt (readBytes mem (p + n + k * partSize) w)
  have hby := leBytes_leNat (readBytes mem (p + n + k * partSize) w)
  rw [readBytes_length] at hlt hby
  have hpo : 2 ^ (8 * w) = 256 ^ w := by rw [Nat.pow_mul]
  simp only [batchCrc, heads, getElem_mapIdx, getElem_map, getElem_range]
  rw [crc32c, Nat.mul_div_cancel_left w (by decide), toNat_ofNat, hpo, Nat.mod_eq_of_lt hlt, hby, ← crc_append,
    readBytes_add, Nat.add_right_comm p n]

lemma batchRemain_heads (p b n : Nat) {w : Nat} (h : partSize % 8 &&& w = 0 ∨ partSize % 8 &&& w = w) :
    batchRemain mem partSize w (p + n, heads mem partSize p b n) =
      (p + (n + (partSize % 8 &&& w)), heads mem partSize p b (n + (partSize % 8 &&& w))) := by
  unfold batchRemain
  split
  next h0 => rw [h.resolve_left h0, batchCrc_heads, add_assoc]
  next h0 => rw [not_not.1 h0, add_zero]

lemma batchBlocksCrc_eq (p b : Nat) :
    batchBlocksCrc mem partSize p b = heads mem partSize p b (if partSize < 8 then 0 else partSize) := by
  have hz : ((p, replicate b 0#32) : Nat × List (BitVec 32)) = (p + 8 * 0, heads mem partSize p b (8 * 0)) := by
    simp [heads, crc, readBytes, addresses]
  have hlo : ∀ m, (range m).foldl (fun s _ => (s.1 + 8, batchCrc mem partSize 8 s.1 s.2)) (p, replicate b 0#32) =
      (p + 8 * m, heads mem partSize p b (8 * m)) := by
    intro m
    induction m with
    | zero => exact hz
    | succ m ih => rw [range_succ, foldl_append, ih, foldl_cons, foldl_nil, batchCrc_heads, Nat.mul_succ, add_assoc]
  have hbi : ∀ r < 8, (r &&& 4) + (r &&& 2) + (r &&& 1) = r ∧ (r &&& 1 = 0 ∨ r &&& 1 = 1) ∧
      (r &&& 2 = 0 ∨ r &&& 2 = 2) ∧ (r &&& 4 = 0 ∨ r &&& 4 = 4) := by decide
  obtain ⟨hsu, h1, h2, h4⟩ := hbi (partSize % 8) (Nat.mod_lt _ (by decide))
  simp only [batchBlocksCrc, hlo, Nat.mul_div_cancel _ (show 0 < 8 by decide)]
  split
  next h0 =>
    rw [batchRemain_heads _ _ _ _ _ h4, batchRemain_heads _ _ _ _ _ h2, batchRemain_heads _ _ _ _ _ h1,
      if_neg (by omega), add_assoc, add_assoc, ← add_assoc (_ &&& 4), hsu, Nat.div_add_mod]
  next h0 => rw [if_pos (by omega), show 8 * (partSize / 8) = 0 by omega]

lemma crc32cSeriesHw_eq (p n : Nat) :
    crc32cSeriesHw mem partSize p n = heads mem partSize p n (if partSize < 8 then 0 else partSize) := by
  induction n using Nat.strong_induction_on generalizing p with
  | h n ih =>
    unfold crc32cSeriesHw
    split
    next m =>
      rw [ih m (Nat.lt_add_of_pos_right (show 0 < 4 by decide)), batchBlocksCrc_eq, ← heads_add, Nat.add_comm]
    · split
      · exact batchBlocksCrc_eq ..
      next h0 => rw [not_not.1 h0]; rfl

lemma crc32cSeriesSw_eq {p : Nat} (hn : n * partSize ≤ 2 ^ 32) :
    crc32cSeriesSw mem partSize p n = heads mem partSize p n partSize := by
  refine map_congr_left fun i hi => ?_
  have hlt : i * partSize < 2 ^ 32 ∨ partSize = 0 := by
    have := Nat.mul_lt_mul_of_pos_right (mem_range.1 hi) (k := partSize)
    omega
  rw [crc32cSw_eq]
  obtain hlt | h0 := hlt
  · rw [Nat.mod_eq_of_lt hlt]
  · rw [h0]; rfl

/-- The series of the hardware is that of the tables, except for parts shorter than a word. -/
theorem series_hw_sw {p : Nat} (hn : n * partSize ≤ 2 ^ 32) : crc32cSeriesHw mem partSize p n =
    if partSize < 8 then List.replicate n 0#32 else crc32cSeriesSw mem partSize p n := by
  rw [crc32cSeriesHw_eq, crc32cSeriesSw_eq mem partSize hn]
  split
  · simp [heads, crc, readBytes, addresses]
  · rfl

variable {partSize} {combine : BitVec 32 → BitVec 32 → Nat → BitVec 32}

lemma combineSeries_concat {l : List (BitVec 32)} (h : l ≠ []) (c : BitVec 32) :
    crc32cCombineSeries partSize combine (l ++ [c]) = combine (crc32cCombineSeries partSize combine l) c partSize := by
  cases l with
  | nil => exact absurd rfl h
  | cons => simp [crc32cCombineSeries]

lemma combineSeries_heads (hc : ∀ c d, combine c d partSize = (shift CRC32C)^[8 * partSize] c ^^^ d) (p n : Nat) :
    crc32cCombineSeries partSize combine (heads mem partSize p n partSize) =
      crc CRC32C 0#32 (readBytes mem p (n * partSize)) := by
  induction n with
  | zero => simp [heads, crc32cCombineSeries, crc, readBytes, addresses]
  | succ n ih =>
    obtain rfl | hn := Nat.eq_zero_or_pos n
    · simp [heads, crc32cCombineSeries]
    have hla := crc_init CRC32C (crc CRC32C 0#32 (readBytes mem p (n * partSize)))
      (readBytes mem (p + n * partSize) partSize)
    rw [readBytes_length] at hla
    rw [heads, range_succ, map_append, map_singleton, combineSeries_concat (by simp; omega), ← heads, ih, hc,
      ← hla, ← crc_append, ← readBytes_add, Nat.succ_mul]

/-- The checksums of the parts give that of the whole, but the hardware can only append multiples of 16 bytes. -/
theorem combine_series {p : Nat} (hp : partSize < 2 ^ 32) (hn : n * partSize ≤ 2 ^ 32) :
    crc32cCombineSeries partSize crc32cCombineSw (crc32cSeriesSw mem partSize p n) =
        crc32cSw mem p (n * partSize) 0#32 ∧
      crc32cCombineSeries partSize crc32cCombineHw (crc32cSeriesSw mem partSize p n) =
        if partSize % 16 = 0 ∨ n ≤ 1 then crc32cSw mem p (n * partSize) 0#32 else -1#32 := by
  rw [crc32cSeriesSw_eq mem partSize hn, crc32cSw_eq]
  refine ⟨combineSeries_heads mem (crc32cCombineSw_eq hp) p n, ?_⟩
  have ha : partSize &&& 15 = partSize % 16 := Nat.and_two_pow_sub_one_eq_mod partSize 4
  by_cases h16 : partSize % 16 = 0
  · rw [if_pos (.inl h16)]
    refine combineSeries_heads mem (fun c d => ?_) p n
    rw [crc32cCombineHw, ha, if_neg (not_not.2 h16), crc32cShift_eq shiftHw_eq hp,
      Nat.mul_div_cancel' (Nat.dvd_of_mod_eq_zero h16)]
  match n with
  | 0 | 1 => simp [heads, crc32cCombineSeries, crc, readBytes, addresses]
  | m + 2 =>
    rw [if_neg (by omega), heads, range_succ, map_append, map_singleton, combineSeries_concat (by simp),
      crc32cCombineHw, ha, if_pos h16]

end Series

theorem series_hw_sw_pages : 5 * 2 ^ 12 ≤ 2 ^ 32 ∧ crc32cSeriesHw (BitVec.ofNat 8) (2 ^ 12) 3 5 =
    if 2 ^ 12 < 8 then List.replicate 5 0#32 else crc32cSeriesSw (BitVec.ofNat 8) (2 ^ 12) 3 5 :=
  ⟨by decide, series_hw_sw _ _ (by decide)⟩

theorem combine_series_pages : 2 ^ 12 < 2 ^ 32 ∧ 5 * 2 ^ 12 ≤ 2 ^ 32 ∧
    crc32cCombineSeries (2 ^ 12) crc32cCombineSw (crc32cSeriesSw (BitVec.ofNat 8) (2 ^ 12) 3 5) =
      crc32cSw (BitVec.ofNat 8) 3 (5 * 2 ^ 12) 0#32 :=
  ⟨by decide, by decide, (combine_series _ (by decide) (by decide)).1⟩

end Photon.Checksum
