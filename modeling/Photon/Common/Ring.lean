import Photon.Lib.Circular
import Photon.Lib.Machine
import Photon.Thread.Basic
/-!
# RingBuffer

Readers and writers share a ring of `m_capacity` bytes, of which one stays free to
tell full from empty. A call takes the lock of its side for all its segments (`read`
and `write` have one) and copies round by round; a round is one step, and between two
rounds it may wait for the other side. A wait has no timeout, so it ends by a
`notify_all`, or with -1 when the thread is interrupted, which ends the segment.

`out`, `written`, `writes` and `cut` are not in the code: the bytes copied out, the
bytes copied in, the data of the writes in the order they got the lock, and whether a
writer was interrupted before it had stored its segment.
-/

namespace Photon.RingBuffer

open List Option Function Circular

variable {β : Type}

/-- The fields of `RingBase` and `m_buf`; the capacity is a parameter. -/
structure Ring (β : Type) where
  buf : Nat → β
  mBegin : Nat := 0
  mEnd : Nat := 0

open Photon.RingBuffer.Ring

section Code
variable (cap : Nat)

def mod (i : Nat) : Nat := i % 2 ^ 32 &&& (cap - 1)

def Ring.size (r : Ring β) : Nat := mod cap (r.mEnd + 2 ^ 32 - r.mBegin)

def Ring.empty (r : Ring β) : Bool := r.mBegin = r.mEnd

def Ring.nextEnd (r : Ring β) : Nat := mod cap (r.mEnd + 1)

def Ring.full (r : Ring β) : Bool := r.nextEnd cap = r.mBegin

def Ring.get (r : Ring β) (i : Nat) : β := r.buf (mod cap (r.mBegin + i))

def Ring.contents (r : Ring β) : List β := (range (r.size cap)).map (r.get cap)

def Ring.doRead (r : Ring β) (count end_ : Nat) : List β × Ring β :=
  if count = 0 then ([], r)
  else
    let len := min count (end_ - r.mBegin)
    ((range len).map fun i => r.buf (r.mBegin + i), { r with mBegin := r.mBegin + len })

/-- A round of the loop of `do_read(buf, count)`, on a buffer that is not empty. -/
def Ring.readRound (r : Ring β) (cnt : Nat) : List β × Ring β :=
  if r.mBegin < r.mEnd then r.doRead cnt r.mEnd
  else
    let (bytes, r) := r.doRead cnt cap
    (bytes, if r.mBegin = cap then { r with mBegin := 0 } else r)

def Ring.doWrite (r : Ring β) (bytes : List β) (end_ : Nat) : Nat × Ring β :=
  if bytes.length = 0 then (0, r)
  else
    let len := min bytes.length (end_ - r.mEnd)
    (len, { r with buf := store r.buf r.mEnd (bytes.take len), mEnd := r.mEnd + len })

/-- A round of the loop of `do_write(buf, count)`, on a buffer that is not full. -/
def Ring.writeRound (r : Ring β) (bytes : List β) : Nat × Ring β :=
  if r.mEnd < r.mBegin then r.doWrite bytes (r.mBegin - 1)
  else
    let (len, r) := r.doWrite bytes (if r.mBegin = 0 then cap - 1 else cap)
    (len, if r.mEnd = cap then { r with mEnd := 0 } else r)

end Code

inductive Pc (β : Type) where
  /-- Not in a call; `ret` is what the last one returned. -/
  | idle (ret : Nat)
  | readLock (iov : List Nat)
  /-- In `do_read` with `cnt` bytes to go, and the segments after this one. -/
  | doRead (got : List β) (cnt : Nat) (iov : List Nat)
  /-- In `m_cond_push.wait_no_lock()`. -/
  | waitPush (got : List β) (cnt : Nat) (iov : List Nat) (notified : Bool)
  | writeLock (iov : List (List β))
  /-- In `do_write` with these bytes to go, and the segments after this one. -/
  | doWrite (size : Nat) (rest : List β) (iov : List (List β))
  /-- In `m_cond_pop.wait_no_lock()`. -/
  | waitPop (size : Nat) (rest : List β) (iov : List (List β)) (notified : Bool)

structure St (β : Type) where
  ring : Ring β
  readLock : Option Tid := none
  writeLock : Option Tid := none
  pc : Tid → Pc β := fun _ => .idle 0
  out : List β := []
  written : List β := []
  writes : List (List β) := []
  cut : Bool := false

inductive Ev (β : Type) where
  | read (t : Tid) (count : Nat)
  | readv (t : Tid) (iov : List Nat)
  | write (t : Tid) (bytes : List β)
  | writev (t : Tid) (iov : List (List β))
  /-- The thread goes on with its call. -/
  | step (t : Tid)
  /-- `thread_interrupt` on a thread that waits. -/
  | interrupt (t : Tid)

def St.goto (s : St β) (t : Tid) (p : Pc β) : St β := { s with pc := update s.pc t p }

def St.call (s : St β) (t : Tid) (p : Pc β) : Option (St β) :=
  match s.pc t with
  | .idle _ => some (s.goto t p)
  | _ => none

def Pc.notifyPop : Pc β → Pc β
  | .waitPop size rest iov _ => .waitPop size rest iov true
  | p => p

def Pc.notifyPush : Pc β → Pc β
  | .waitPush got cnt iov _ => .waitPush got cnt iov true
  | p => p

def St.mapPc (s : St β) (f : Pc β → Pc β) : St β := { s with pc := fun t => f (s.pc t) }

section Code
variable (cap : Nat)

def St.readStep (s : St β) (t : Tid) (got : List β) (cnt : Nat) (iov : List Nat) : St β :=
  if cnt = 0 then
    match iov with
    | [] => { s with readLock := none }.goto t (.idle got.length)
    | x :: iov => s.goto t (.doRead got x iov)
  else if s.ring.empty then s.goto t (.waitPush got cnt iov false)
  else
    let (bytes, ring) := s.ring.readRound cap cnt
    ({ s with ring := ring, out := s.out ++ bytes }.goto t
      (.doRead (got ++ bytes) (cnt - bytes.length) iov)).mapPc .notifyPop

def St.writeStep (s : St β) (t : Tid) (size : Nat) (rest : List β) (iov : List (List β)) : St β :=
  if rest.length = 0 then
    match iov with
    | [] => { s with writeLock := none }.goto t (.idle size)
    | x :: iov => s.goto t (.doWrite size x iov)
  else if s.ring.full cap then s.goto t (.waitPop size rest iov false)
  else
    let (len, ring) := s.ring.writeRound cap rest
    ({ s with ring := ring, written := s.written ++ rest.take len }.goto t
      (.doWrite (size + len) (rest.drop len) iov)).mapPc .notifyPush

def step (s : St β) : Ev β → Option (St β)
  | .read t count => s.call t (.readLock [count])
  | .readv t iov => s.call t (.readLock iov)
  | .write t bytes => s.call t (.writeLock [bytes])
  | .writev t iov => s.call t (.writeLock iov)
  | .step t =>
    match s.pc t with
    | .idle _ => none
    | .readLock iov =>
      if s.readLock = none then some ({ s with readLock := some t }.goto t (.doRead [] 0 iov)) else none
    | .doRead got cnt iov => some (s.readStep cap t got cnt iov)
    | .waitPush got cnt iov notified => if notified then some (s.goto t (.doRead got cnt iov)) else none
    | .writeLock iov =>
      if s.writeLock = none then
        some ({ s with writeLock := some t, writes := s.writes ++ [iov.flatten] }.goto t (.doWrite 0 [] iov))
      else none
    | .doWrite size rest iov => some (s.writeStep cap t size rest iov)
    | .waitPop size rest iov notified => if notified then some (s.goto t (.doWrite size rest iov)) else none
  | .interrupt t =>
    match s.pc t with
    | .waitPush got _ iov false => some (s.goto t (.doRead got 0 iov))
    | .waitPop size _ iov false => some ({ s with cut := true }.goto t (.doWrite size [] iov))
    | _ => none

/-- A ring that was just allocated: its bytes are whatever was there. -/
def machine (buf : Nat → β) : Machine (St β) (Ev β) := ⟨{ ring := { buf := buf } }, step cap⟩

end Code

/-! ## The ring -/

section Ring
variable {cap : Nat} {r r' : Ring β}

structure Ring.Wf (cap : Nat) (r : Ring β) : Prop where
  begin_lt : r.mBegin < cap
  end_lt : r.mEnd < cap

structure Capacity (cap : Nat) : Prop where
  pow : ∃ k, 1 ≤ k ∧ k ≤ 31 ∧ cap = 2 ^ k

section
variable (hc : Capacity cap)
include hc

lemma Capacity.two_le : 2 ≤ cap := by
  obtain ⟨k, h1, -, rfl⟩ := hc.pow
  calc 2 = 2 ^ 1 := rfl
    _ ≤ 2 ^ k := Nat.pow_le_pow_right (by omega) h1

lemma Capacity.mod_eq (i : Nat) : mod cap i = i % cap := by
  obtain ⟨k, -, h2, rfl⟩ := hc.pow
  rw [mod, Nat.and_two_pow_sub_one_eq_mod]
  exact Nat.mod_mod_of_dvd i (Nat.pow_dvd_pow 2 (by omega))

lemma Capacity.size_eq (hr : r.Wf cap) :
    r.size cap = if r.mBegin ≤ r.mEnd then r.mEnd - r.mBegin else r.mEnd + cap - r.mBegin := by
  obtain ⟨hb, he⟩ := hr
  obtain ⟨q, hq⟩ : cap ∣ 2 ^ 32 := by
    obtain ⟨k, -, h2, rfl⟩ := hc.pow
    exact Nat.pow_dvd_pow 2 (by omega)
  rw [size, hc.mod_eq]
  split
  next h =>
    have : r.mEnd + 2 ^ 32 - r.mBegin = r.mEnd - r.mBegin + cap * q := by omega
    rw [this, Nat.add_mul_mod_self_left, Nat.mod_eq_of_lt (by omega)]
  next h =>
  obtain ⟨q', rfl⟩ : ∃ q', q = q' + 1 := Nat.exists_eq_succ_of_ne_zero (by rintro rfl; omega)
  rw [Nat.mul_succ] at hq
  have : r.mEnd + 2 ^ 32 - r.mBegin = r.mEnd + cap - r.mBegin + cap * q' := by omega
  rw [this, Nat.add_mul_mod_self_left, Nat.mod_eq_of_lt (by omega)]

lemma Capacity.size_lt (hr : r.Wf cap) : r.size cap < cap := by
  obtain ⟨hb, he⟩ := hr
  rw [hc.size_eq ⟨hb, he⟩]
  split <;> omega

lemma Capacity.end_eq (hr : r.Wf cap) : (r.mBegin + r.size cap) % cap = r.mEnd := by
  obtain ⟨hb, he⟩ := hr
  rw [hc.size_eq ⟨hb, he⟩]
  split
  · rw [Nat.mod_eq_of_lt (by omega)]
    omega
  · have : r.mBegin + (r.mEnd + cap - r.mBegin) = r.mEnd + cap := by omega
    rw [this, Nat.add_mod_right, Nat.mod_eq_of_lt he]

lemma Capacity.contents_eq : r.contents cap = window cap r.buf r.mBegin (r.size cap) := by
  refine map_congr_left fun i _ => ?_
  rw [Ring.get, hc.mod_eq]

lemma Capacity.full_iff (hr : r.Wf cap) : r.full cap = true ↔ r.size cap = cap - 1 := by
  obtain ⟨hb, he⟩ := hr
  rw [full, decide_eq_true_iff, nextEnd, hc.mod_eq, hc.size_eq ⟨hb, he⟩]
  by_cases h : r.mEnd + 1 = cap
  · rw [h, Nat.mod_self]
    split <;> omega
  · rw [Nat.mod_eq_of_lt (by omega)]
    split <;> omega

lemma Capacity.contents_drop (hr : r.Wf cap) {len b : Nat}
    (hle : len ≤ r.size cap) (hb : b < cap) (hbl : b = r.mBegin + len ∨ b + cap = r.mBegin + len) :
    ({ r with mBegin := b } : Ring β).Wf cap ∧
      ({ r with mBegin := b } : Ring β).contents cap = (r.contents cap).drop len := by
  have hw : ({ r with mBegin := b } : Ring β).Wf cap := ⟨hb, hr.end_lt⟩
  have hsi : ({ r with mBegin := b } : Ring β).size cap = r.size cap - len := by
    have h1 := hr.begin_lt
    have h2 := hr.end_lt
    rw [hc.size_eq hr] at hle ⊢
    rw [hc.size_eq hw]
    dsimp only
    split at hle <;> split <;> omega
  refine ⟨hw, ?_⟩
  rw [hc.contents_eq, hc.contents_eq, hsi, window_drop]
  rcases hbl with rfl | hbl
  · rfl
  · rw [← hbl, ← window_mod (b := b + cap), Nat.add_mod_right, Nat.mod_eq_of_lt hb]

lemma Ring.readRound_spec (hr : r.Wf cap) (hn : r.empty = false) {cnt : Nat} (hcn : cnt ≠ 0) :
    (r.readRound cap cnt).2.Wf cap ∧ r.contents cap = (r.readRound cap cnt).1 ++ (r.readRound cap cnt).2.contents cap ∧
      0 < (r.readRound cap cnt).1.length ∧ (r.readRound cap cnt).1.length ≤ cnt := by
  have hn : r.mBegin ≠ r.mEnd := by simpa [empty] using hn
  have hb := hr.begin_lt
  have he := hr.end_lt
  have hsize := hc.size_eq hr
  -- Both branches read up to an `end_` that the contents reach and that is not past the end of the ring.
  have key : ∀ end_ len b, len = min cnt (end_ - r.mBegin) → r.mBegin < end_ → end_ ≤ cap →
      end_ - r.mBegin ≤ r.size cap → (b < cap) → (b = r.mBegin + len ∨ b + cap = r.mBegin + len) →
      ({ r with mBegin := b } : Ring β).Wf cap ∧
        r.contents cap = ((range len).map fun i => r.buf (r.mBegin + i)) ++
          ({ r with mBegin := b } : Ring β).contents cap ∧
        0 < len ∧ len ≤ cnt := by
    intro end_ len b hle h1 h2 h3 hb hbl
    obtain ⟨hwf, hd⟩ := hc.contents_drop hr (show len ≤ r.size cap by omega) hb hbl
    refine ⟨hwf, ?_, by omega, by omega⟩
    have hf : window cap r.buf r.mBegin len = (range len).map fun i => r.buf (r.mBegin + i) :=
      window_flat (by omega)
    rw [hd, ← hf, ← window_take (show len ≤ r.size cap by omega), hc.contents_eq, take_append_drop]
  by_cases h : r.mBegin < r.mEnd
  · simp only [readRound, h, if_true, doRead, hcn, if_false, length_map, length_range]
    exact key r.mEnd _ _ rfl h (by omega) (by rw [hsize, if_pos (by omega)]) (by omega) (.inl rfl)
  simp only [readRound, h, if_false, doRead, hcn, length_map, length_range]
  have hs : cap - r.mBegin ≤ r.size cap := by rw [hsize, if_neg (by omega)]; omega
  split
  · next hw => exact key cap _ 0 rfl hb (by omega) hs (by omega) (.inr (by omega))
  · next hw => exact key cap _ _ rfl hb (by omega) hs (by omega) (.inl rfl)

lemma Ring.writeRound_spec (hr : r.Wf cap) (hn : r.full cap = false) {bytes : List β} (hby : bytes.length ≠ 0) :
    (r.writeRound cap bytes).2.Wf cap ∧
      (r.writeRound cap bytes).2.contents cap = r.contents cap ++ bytes.take (r.writeRound cap bytes).1 ∧
      0 < (r.writeRound cap bytes).1 ∧ (r.writeRound cap bytes).1 ≤ bytes.length := by
  have hb := hr.begin_lt
  have he := hr.end_lt
  have hsize := hc.size_eq hr
  have hn : r.size cap ≠ cap - 1 := by
    intro h
    rw [(hc.full_iff hr).2 h] at hn
    cases hn
  have key : ∀ end_ len e r', r' = { r with buf := store r.buf r.mEnd (bytes.take len), mEnd := e } →
      len = min bytes.length (end_ - r.mEnd) → r.mEnd < end_ → end_ ≤ cap →
      end_ - r.mEnd + r.size cap < cap → e < cap → (e = r.mEnd + len ∨ e + cap = r.mEnd + len) →
      r'.Wf cap ∧ r'.contents cap = r.contents cap ++ bytes.take len ∧ 0 < len ∧ len ≤ bytes.length := by
    intro end_ len e r' hr' hle h1 h2 h3 he' hel
    have hwf : r'.Wf cap := hr' ▸ ⟨hb, he'⟩
    have hl' : (bytes.take len).length = len := by rw [length_take]; omega
    have hs' : r'.size cap = r.size cap + (bytes.take len).length := by
      rw [hl', hsize]
      rw [hsize] at h3
      rw [hc.size_eq hwf, hr']
      dsimp only
      split at h3 <;> split <;> omega
    refine ⟨hwf, ?_, by omega, by omega⟩
    rw [hc.contents_eq, hc.contents_eq, hs', hr']
    exact window_store (hc.end_eq hr) (by omega) (by omega)
  by_cases h : r.mEnd < r.mBegin
  · simp only [writeRound, h, if_true, doWrite, hby, if_false]
    rw [if_neg (by omega)] at hsize
    exact key (r.mBegin - 1) _ _ _ rfl rfl (by omega) (by omega) (by omega) (by omega) (.inl rfl)
  simp only [writeRound, h, if_false, doWrite, hby]
  rw [if_pos (by omega)] at hsize
  -- one byte stays free before `m_begin`, which is the last one of the ring when `m_begin` is 0
  generalize hE : (if r.mBegin = 0 then cap - 1 else cap) = end_
  have hen : r.mEnd < end_ ∧ end_ ≤ cap ∧ end_ - r.mEnd + r.size cap < cap := by
    subst hE
    split <;> omega
  obtain ⟨h1, h2, h3⟩ := hen
  split
  · next hw => exact key _ _ 0 _ rfl rfl h1 h2 h3 (by omega) (.inr (by omega))
  · next hw => exact key _ _ _ _ rfl rfl h1 h2 h3 (by omega) (.inl rfl)

end

end Ring

/-! ## The invariant -/

def Pc.got : Pc β → Option (List β)
  | .doRead got _ _ | .waitPush got _ _ _ => some got
  | _ => none

def Pc.pending : Pc β → Option (List β)
  | .doWrite _ rest iov | .waitPop _ rest iov _ => some (rest ++ iov.flatten)
  | _ => none

structure Inv (cap : Nat) (s : St β) : Prop where
  wf : s.ring.Wf cap
  stream : s.out ++ s.ring.contents cap = s.written
  reader : ∀ t got, (s.pc t).got = some got → s.readLock = some t ∧ got <:+ s.out
  writer : ∀ t rest, (s.pc t).pending = some rest →
    s.writeLock = some t ∧ (s.cut = false → s.written ++ rest = s.writes.flatten)
  writing : ∀ t, s.writeLock = some t → ∃ rest, (s.pc t).pending = some rest
  free : s.writeLock = none → s.cut = false → s.written = s.writes.flatten

variable {cap : Nat} {s s' : St β} {t : Tid}

lemma wf_init (hc : Capacity cap) (buf : Nat → β) : Ring.Wf cap { buf := buf } :=
  ⟨Nat.zero_lt_of_lt hc.two_le, Nat.zero_lt_of_lt hc.two_le⟩

lemma inv_init (hc : Capacity cap) (buf : Nat → β) : Inv cap { ring := { buf := buf } } where
  wf := wf_init hc buf
  stream := by
    rw [hc.contents_eq, hc.size_eq (wf_init hc buf)]
    simp
  reader := by simp [Pc.got]
  writer := by simp [Pc.pending]
  writing := by simp
  free := by simp

variable {p q : Pc β} {lock : Option Tid} {ring : Ring β} {iov : List (List β)} {rest : List β}

lemma Inv.goto (hi : Inv cap s) (hpc : s.pc t = q) (hg : p.got = q.got) (hp : p.pending = q.pending) :
    Inv cap (s.goto t p) := by
  have hsa : ∀ u, (update s.pc t p u).got = (s.pc u).got ∧ (update s.pc t p u).pending = (s.pc u).pending := by
    intro u
    rcases eq_or_ne u t with rfl | h
    · simp [hpc, hg, hp]
    · simp [h]
  exact {
    __ := hi
    reader := fun u got h => hi.reader u got ((hsa u).1 ▸ h)
    writer := fun u rest h => hi.writer u rest ((hsa u).2 ▸ h)
    writing := fun u h => (hsa u).2.symm ▸ hi.writing u h }

lemma Inv.mapPc (hi : Inv cap s) {f : Pc β → Pc β} (hg : ∀ p, (f p).got = p.got)
    (hp : ∀ p, (f p).pending = p.pending) : Inv cap (s.mapPc f) where
  __ := hi
  reader := fun u got h => hi.reader u got (hg _ ▸ h)
  writer := fun u rest h => hi.writer u rest (hp _ ▸ h)
  writing := fun u h => (hp (s.pc u)).symm ▸ hi.writing u h

lemma Inv.reads (hi : Inv cap s) (hpc : s.pc t = q) {out : List β} (hwf : ring.Wf cap)
    (hst : out ++ ring.contents cap = s.written) (hw : q.pending = none) (hp : p.pending = none)
    (hse : ∀ got, p.got = some got → lock = some t ∧ got <:+ out) (ho : ∀ u ≠ t, (s.pc u).got = none) :
    Inv cap ({ s with ring := ring, readLock := lock, out := out }.goto t p) where
  wf := hwf
  stream := hst
  reader := by
    intro u got h
    rcases eq_or_ne u t with rfl | hu
    · exact hse got (by simpa [St.goto] using h)
    · simp [St.goto, hu, ho u hu] at h
  writer := by
    intro u rest h
    rcases eq_or_ne u t with rfl | hu
    · simp [St.goto, hp] at h
    · exact hi.writer u rest (by simpa [St.goto, hu] using h)
  writing := by
    intro u h
    obtain ⟨rest, hr⟩ := hi.writing u h
    have hu : u ≠ t := by
      rintro rfl
      rw [hpc, hw] at hr
      cases hr
    exact ⟨rest, by simpa [St.goto, hu] using hr⟩
  free := hi.free

lemma others_none {α : Type} {f : Tid → Option α} (hf : ∀ u x, f u = some x → lock = some u)
    (h : lock = some t ∨ lock = none) : ∀ u ≠ t, f u = none := by
  intro u hu
  cases hx : f u with
  | none => rfl
  | some x =>
    have hl := hf u x hx
    rcases h with h | h
    · rw [h] at hl
      exact absurd (some.inj hl).symm hu
    · rw [h] at hl
      cases hl

lemma Inv.writes (hi : Inv cap s) {written : List β} {writes : List (List β)} {cut : Bool} (hw : ring.Wf cap)
    (hst : s.out ++ ring.contents cap = written) (hp : p.got = none)
    (hse : ∀ rest, p.pending = some rest → lock = some t ∧ (cut = false → written ++ rest = writes.flatten))
    (ho : ∀ u ≠ t, (s.pc u).pending = none) (hlo : ∀ u, lock = some u → u = t ∧ ∃ rest, p.pending = some rest)
    (hf : lock = none → cut = false → written = writes.flatten) :
    Inv cap ({ s with ring := ring, writeLock := lock, written := written, writes := writes, cut := cut }.goto t p) where
  wf := hw
  stream := hst
  reader := by
    intro u got h
    rcases eq_or_ne u t with rfl | hu
    · simp [St.goto, hp] at h
    · exact hi.reader u got (by simpa [St.goto, hu] using h)
  writer := by
    intro u rest h
    rcases eq_or_ne u t with rfl | hu
    · exact hse rest (by simpa [St.goto] using h)
    · simp [St.goto, hu, ho u hu] at h
  writing := by
    intro u h
    obtain ⟨rfl, rest, hr⟩ := hlo u h
    exact ⟨rest, by simpa [St.goto] using hr⟩
  free := hf

lemma Inv.call (hi : Inv cap s) (hg : p.got = none) (hp : p.pending = none) (h : s.call t p = some s') :
    Inv cap s' := by
  simp only [St.call] at h
  split at h
  next hpc =>
    cases h
    exact hi.goto hpc hg hp
  · cases h

lemma Inv.readLock (hi : Inv cap s) {iov : List Nat} (hpc : s.pc t = .readLock iov) (hl : s.readLock = none) :
    Inv cap ({ s with readLock := some t }.goto t (.doRead [] 0 iov)) := by
  refine hi.reads hpc hi.wf hi.stream rfl rfl ?_ (others_none (fun u got h => (hi.reader u got h).1) (.inr hl))
  intro got h
  cases h
  exact ⟨rfl, nil_suffix⟩

lemma Inv.readStep (hc : Capacity cap) (hi : Inv cap s) {got : List β} {cnt : Nat} {iov : List Nat}
    (hpc : s.pc t = .doRead got cnt iov) : Inv cap (s.readStep cap t got cnt iov) := by
  obtain ⟨hl, hg⟩ := hi.reader t got (hpc ▸ rfl)
  have ho := others_none (fun u got h => (hi.reader u got h).1) (.inl hl)
  unfold St.readStep
  split
  · cases iov with
    | nil => exact hi.reads hpc hi.wf hi.stream rfl rfl nofun ho
    | cons => exact hi.goto hpc rfl rfl
  next hcn =>
  split
  · exact hi.goto hpc rfl rfl
  next hn =>
  obtain ⟨hw, hco, -, -⟩ := readRound_spec hc hi.wf (by simpa using hn) hcn
  generalize s.ring.readRound cap cnt = res at hw hco
  obtain ⟨bytes, ring⟩ := res
  have hst : (s.out ++ bytes) ++ ring.contents cap = s.written := by
    rw [append_assoc, ← hco, hi.stream]
  refine (hi.reads hpc hw hst rfl rfl ?_ ho).mapPc (fun p => by cases p <;> rfl)
    (fun p => by cases p <;> rfl)
  intro got' h
  cases h
  obtain ⟨pre, hpr⟩ := hg
  exact ⟨hl, pre, by rw [← append_assoc, hpr]⟩

lemma Inv.writeLock (hi : Inv cap s) (hl : s.writeLock = none) :
    Inv cap ({ s with writeLock := some t, writes := s.writes ++ [iov.flatten] }.goto t (.doWrite 0 [] iov)) := by
  refine hi.writes hi.wf hi.stream rfl ?_ (others_none (fun u rest h => (hi.writer u rest h).1) (.inr hl)) ?_ nofun
  · intro rest h
    cases h
    refine ⟨rfl, fun hcu => ?_⟩
    simp [hi.free hl hcu]
  · intro u h
    cases h
    exact ⟨rfl, _, rfl⟩

lemma Inv.writeStep (hc : Capacity cap) (hi : Inv cap s) {size : Nat}
    (hpc : s.pc t = .doWrite size rest iov) : Inv cap (s.writeStep cap t size rest iov) := by
  obtain ⟨hl, hr⟩ := hi.writer t (rest ++ iov.flatten) (hpc ▸ rfl)
  have ho := others_none (fun u rest h => (hi.writer u rest h).1) (.inl hl)
  unfold St.writeStep
  split
  next h0 =>
    obtain rfl := length_eq_zero_iff.1 h0
    cases iov with
    | nil =>
      refine hi.writes hi.wf hi.stream rfl nofun ho nofun ?_
      intro _ hcu
      simpa using hr hcu
    | cons => exact hi.goto hpc rfl rfl
  next h0 =>
    split
    · exact hi.goto hpc rfl rfl
    next hn =>
    obtain ⟨hw, hco, -, -⟩ := writeRound_spec hc hi.wf (by simpa using hn) h0
    generalize s.ring.writeRound cap rest = res at hw hco
    obtain ⟨len, ring⟩ := res
    have hst : s.out ++ ring.contents cap = s.written ++ rest.take len := by
      rw [hco, ← append_assoc, hi.stream]
    refine (hi.writes hw hst rfl ?_ ho ?_ ?_).mapPc (fun p => by cases p <;> rfl)
      (fun p => by cases p <;> rfl)
    · intro rest' h
      cases h
      refine ⟨hl, fun hcu => ?_⟩
      rw [← hr hcu, append_assoc, ← append_assoc (rest.take _), take_append_drop]
    · intro u h
      rw [hl] at h
      cases h
      exact ⟨rfl, _, rfl⟩
    · intro h
      rw [hl] at h
      cases h

lemma Inv.interrupt (hi : Inv cap s) {size : Nat}
    (hpc : s.pc t = .waitPop size rest iov false) : Inv cap ({ s with cut := true }.goto t (.doWrite size [] iov)) := by
  obtain ⟨hl, -⟩ := hi.writer t (rest ++ iov.flatten) (hpc ▸ rfl)
  refine hi.writes hi.wf hi.stream rfl (fun _ _ => ⟨hl, nofun⟩)
    (others_none (fun u rest h => (hi.writer u rest h).1) (.inl hl)) ?_ nofun
  intro u h
  rw [hl] at h
  cases h
  exact ⟨rfl, _, rfl⟩

lemma inv_step (hc : Capacity cap) (hi : Inv cap s) {e : Ev β} (h : step cap s e = some s') : Inv cap s' := by
  cases e with
  | read | readv | write | writev => exact hi.call rfl rfl h
  | step =>
    simp only [step] at h
    split at h
    · cases h
    next iov hpc =>
      obtain ⟨hl, rfl⟩ := ite_some_none_eq_some.1 h
      exact hi.readLock hpc hl
    next got cnt iov hpc =>
      cases h
      exact hi.readStep hc hpc
    next got cnt iov notified hpc =>
      obtain ⟨-, rfl⟩ := ite_some_none_eq_some.1 h
      exact hi.goto hpc rfl rfl
    · obtain ⟨hl, rfl⟩ := ite_some_none_eq_some.1 h
      exact hi.writeLock hl
    next size rest iov hpc =>
      cases h
      exact hi.writeStep hc hpc
    next size rest iov notified hpc =>
      obtain ⟨-, rfl⟩ := ite_some_none_eq_some.1 h
      exact hi.goto hpc rfl rfl
  | interrupt =>
    simp only [step] at h
    split at h
    next got cnt iov hpc =>
      cases h
      exact hi.goto hpc rfl rfl
    next size rest iov hpc =>
      cases h
      exact hi.interrupt hpc
    · cases h

lemma Inv.written_prefix (hi : Inv cap s) (hcu : s.cut = false) : s.written <+: s.writes.flatten := by
  cases hl : s.writeLock with
  | none => exact (hi.free hl hcu) ▸ prefix_refl _
  | some t =>
    obtain ⟨rest, hr⟩ := hi.writing t hl
    exact ⟨rest, (hi.writer t rest hr).2 hcu⟩

/-! ## What a reader gets -/

/-- What is taken off the ring while `t` reads goes to `t`, and its call returns how much it has got. -/
def Gets (s s' : St β) (t : Tid) (got : List β) : Prop :=
  ∃ bytes, s'.out = s.out ++ bytes ∧
    ((s'.pc t).got = some (got ++ bytes) ∨ bytes = [] ∧ s'.pc t = .idle got.length)

lemma Gets.of_out {got : List β} (ho : s'.out = s.out) (hg : (s'.pc t).got = some got) : Gets s s' t got :=
  ⟨[], by rw [ho, append_nil], .inl (by rw [append_nil, hg])⟩

lemma got_goto (s : St β) (t : Tid) (p : Pc β) : ((s.goto t p).pc t).got = p.got := by simp [St.goto]

lemma got_update {u : Tid} (hpc : s.pc u = q) (hq : p.got = q.got) (t : Tid) : (update s.pc u p t).got = (s.pc t).got := by
  rcases eq_or_ne t u with rfl | ht
  · rw [update_self, hq, hpc]
  · rw [update_of_ne ht]

lemma notifyPop_got (p : Pc β) : p.notifyPop.got = p.got := by cases p <;> rfl

lemma notifyPush_got (p : Pc β) : p.notifyPush.got = p.got := by cases p <;> rfl

lemma readStep_gets {got : List β} {cnt : Nat} {iov : List Nat} : Gets s (s.readStep cap t got cnt iov) t got := by
  unfold St.readStep
  split
  · cases iov with
    | nil => exact ⟨[], (append_nil _).symm, .inr ⟨rfl, update_self ..⟩⟩
    | cons => exact .of_out rfl (got_goto ..)
  · split
    · exact .of_out rfl (got_goto ..)
    · exact ⟨_, rfl, .inl ((notifyPop_got _).trans (got_goto ..))⟩

lemma writeStep_gets {u : Tid} {size : Nat} (hpc : s.pc u = .doWrite size rest iov) {got : List β}
    (hg : (s.pc t).got = some got) : Gets s (s.writeStep cap u size rest iov) t got := by
  unfold St.writeStep
  split
  · cases iov with
    | nil => exact .of_out rfl ((got_update hpc (by rfl) t).trans hg)
    | cons => exact .of_out rfl ((got_update hpc (by rfl) t).trans hg)
  · split
    · exact .of_out rfl ((got_update hpc (by rfl) t).trans hg)
    · exact .of_out rfl ((notifyPush_got _).trans ((got_update hpc (by rfl) t).trans hg))

lemma step_gets (hi : Inv cap s) {e : Ev β} (h : step cap s e = some s') {got : List β} (hg : (s.pc t).got = some got) :
    Gets s s' t got := by
  have hgo : ∀ {u p q}, s.pc u = q → p.got = q.got → Gets s (s.goto u p) t got := fun hpc hq =>
    .of_out rfl ((got_update hpc hq t).trans hg)
  have hcall : ∀ {u p}, p.got = none → s.call u p = some s' → Gets s s' t got := by
    intro u p hp h
    simp only [St.call] at h
    split at h
    next hpc =>
      cases h
      exact hgo hpc hp
    · cases h
  cases e with
  | read | readv | write | writev => exact hcall rfl h
  | step u =>
    simp only [step] at h
    split at h
    · cases h
    next iov hpc =>
      obtain ⟨hl, -⟩ := ite_some_none_eq_some.1 h
      rw [(hi.reader t got hg).1] at hl
      cases hl
    next got' cnt iov hpc =>
      cases h
      -- only one thread has the lock of the readers
      have hl := (hi.reader u got' (hpc ▸ rfl)).1
      rw [(hi.reader t got hg).1] at hl
      obtain rfl := some.inj hl
      rw [hpc] at hg
      obtain rfl := some.inj hg
      exact readStep_gets
    next hpc =>
      obtain ⟨-, rfl⟩ := ite_some_none_eq_some.1 h
      exact hgo hpc rfl
    next hpc =>
      obtain ⟨-, rfl⟩ := ite_some_none_eq_some.1 h
      exact .of_out rfl ((got_update hpc (by rfl) t).trans hg)
    next hpc =>
      cases h
      exact writeStep_gets hpc hg
    next hpc =>
      obtain ⟨-, rfl⟩ := ite_some_none_eq_some.1 h
      exact hgo hpc rfl
  | interrupt u =>
    simp only [step] at h
    split at h
    next hpc =>
      cases h
      exact hgo hpc rfl
    next hpc =>
      cases h
      exact .of_out rfl ((got_update hpc (by rfl) t).trans hg)
    · cases h

/-- What was read and what is in the buffer are, in this order, what was written. Unless a writer was interrupted, that
is a prefix of the writes in the order they got the lock, and all of them when none is under way. What a reader has got
so far is the last that was read, and every step adds to it what is taken off the ring, until the call returns. -/
theorem ringBuffer_fifo {k : Nat} (hk : 1 ≤ k) (hk' : k ≤ 31) {buf : Nat → β} {es : List (Ev β)}
    (h : (machine (2 ^ k) buf).run es = some s) :
    s.out ++ s.ring.contents (2 ^ k) = s.written ∧ (s.ring.contents (2 ^ k)).length ≤ 2 ^ k - 1 ∧
      (s.cut = false → s.written <+: s.writes.flatten ∧ (s.writeLock = none → s.written = s.writes.flatten)) ∧
      ∀ t got, (s.pc t).got = some got → got <:+ s.out ∧ ∀ e s', step (2 ^ k) s e = some s' → Gets s s' t got := by
  have hc : Capacity (2 ^ k) := ⟨k, hk, hk', rfl⟩
  have hi : Inv (2 ^ k) s := Machine.run_inv (inv_init hc buf) (inv_step hc ·) h
  have hlt := hc.size_lt hi.wf
  refine ⟨hi.stream, ?_, fun hcu => ⟨hi.written_prefix hcu, fun hl => hi.free hl hcu⟩,
    fun t got hg => ⟨(hi.reader t got hg).2, fun e s' hst => step_gets hi hst hg⟩⟩
  rw [contents, length_map, length_range]
  omega

/-- On a ring of two bytes, a writer of three bytes goes to sleep twice and is woken by the reader of two. -/
def writeThree : List (Ev Nat) :=
  [.write 1 [7, 8, 9], .readv 2 [1, 1], .step 1, .step 1, .step 1, .step 1, .step 2, .step 2, .step 2, .step 1, .step 1,
    .step 1, .step 2, .step 2]

theorem ringBuffer_fifo_writeThree :
    ∃ s, (machine (2 ^ 1) fun _ => 0).run writeThree = some s ∧ s.out = [7, 8] ∧ s.ring.contents (2 ^ 1) = [] ∧
      s.out ++ s.ring.contents (2 ^ 1) = s.written ∧ s.written <+: s.writes.flatten := by
  have hr : (machine (2 ^ 1) fun _ => 0).run writeThree = some _ := rfl
  obtain ⟨h1, -, h3, -⟩ := ringBuffer_fifo (by decide) (by decide) hr
  exact ⟨_, hr, by decide, by decide, h1, (h3 rfl).1⟩

end Photon.RingBuffer
