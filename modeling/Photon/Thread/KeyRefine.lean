import Mathlib.Data.List.Find
import Photon.Thread.KeyStore
/-!
# Thread keys refine their store

`Rel` relates a state of the code to a store: the parity of a sequence number
says whether the key is live, and a thread's value for a key is what its entry
holds under the key's present sequence number. Every step keeps it, so every run
of the code is a run of the store.
-/

namespace Photon.Key

open Function Option List Nat Store ThreadLocalStorage ThreadKeyData

variable {e : Ev} {made : Nat} {ret : Int} {value : Ptr} {st : Bool}

/-! ## Entries -/

def ThreadLocalStorage.entry (x : ThreadLocalStorage) (k : Nat) : ThreadKeyData :=
  match x.level2 (k / threadKey2ndLevelSize) with
  | some b => b (k % threadKey2ndLevelSize)
  | none => {}

section Entries

variable (x : ThreadLocalStorage) (i j : Nat) (b : Level2) (e : ThreadKeyData)

@[simp] lemma write_specificUsed : (x.write i b j e).specificUsed = x.specificUsed := by
  unfold write
  split <;> rfl

lemma write_level2 (i' : Nat) : (x.write i b j e).level2 i' = if i' = i then some (update b j e) else x.level2 i' := by
  unfold write level2
  rcases eq_or_ne i 0 with rfl | hi
  · by_cases hi' : i' = 0 <;> simp [hi']
  · by_cases hi' : i' = i
    · simp [hi', hi]
    · by_cases h0 : i' = 0 <;> simp [h0, hi, hi', Ne.symm hi]

variable {x i j b}

lemma write_entry (hb : (x.level2 i).getD (fun _ => {}) = b) (hj : j < threadKey2ndLevelSize) (k : Nat) :
    (x.write i b j e).entry k = if k = threadKey2ndLevelSize * i + j then e else x.entry k := by
  have hk : k = threadKey2ndLevelSize * i + j ↔ k / threadKey2ndLevelSize = i ∧ k % threadKey2ndLevelSize = j := by
    simp only [threadKey2ndLevelSize] at *
    omega
  unfold entry
  rw [write_level2]
  by_cases hi : k / threadKey2ndLevelSize = i
  · subst hb
    by_cases hjk : k % threadKey2ndLevelSize = j
    · simp [hk, hi, hjk]
    · rw [if_pos hi, if_neg (fun h => hjk (hk.1 h).2), hi]
      cases h : x.level2 i <;> simp [hjk]
  · rw [if_neg hi, if_neg (fun h => hi (hk.1 h).1)]

end Entries

/-! ## The relation -/

lemma keyUnused_iff (n : Nat) : keyUnused n = true ↔ n % 2 = 0 := by
  simp [keyUnused, and_one_is_mod]

lemma keyUsable_iff (n : Nat) : keyUsable n = true ↔ n < (n + 2) % 2 ^ 64 := by
  simp [keyUsable]

/-- The sequence number of a key is even while it is dead and odd while it is live. -/
def KeyRel (x : ThreadKeyStruct) (made : Nat) : Option (Option Dtor) → Prop
  | none => x.seq = 2 * made ∧ made < 2 ^ 63
  | some d => x.seq + 1 = 2 * made ∧ made < 2 ^ 63 ∧ x.dtor = d

def ThreadKeyData.current (e : ThreadKeyData) (seq : Nat) : Ptr := if e.seq = seq then e.data else 0

def Pc.pos : Pc → Nat
  | .run => threadKeysMax
  | .outer _ _ idx | .inner _ _ _ idx => idx
  | .dtor _ _ _ idx => idx + 1

def PcRel (x : ThreadLocalStorage) : Pc → Dealloc → Prop
  | .run, .out => True
  | .outer r i idx, .scan r' p stored =>
    r' = r ∧ p = idx ∧ idx = threadKey2ndLevelSize * i ∧ i ≤ threadKey1stLevelSize ∧ r < threadDestructorIterations ∧
      (x.specificUsed = true → stored = true)
  | .inner r i j idx, .scan r' p stored =>
    r' = r ∧ p = idx ∧ idx = threadKey2ndLevelSize * i + j ∧ i < threadKey1stLevelSize ∧ j ≤ threadKey2ndLevelSize ∧
      r < threadDestructorIterations ∧ (x.level2 i).isSome = true ∧ (x.specificUsed = true → stored = true)
  | .dtor r i j idx, .dtor r' p stored =>
    r' = r ∧ p = idx ∧ idx = threadKey2ndLevelSize * i + j ∧ i < threadKey1stLevelSize ∧ j < threadKey2ndLevelSize ∧
      r < threadDestructorIterations ∧ (x.level2 i).isSome = true ∧ (x.specificUsed = true → stored = true)
  | _, _ => False

structure ThreadRel (keys : Nat → ThreadKeyStruct) (x : ThreadLocalStorage) (p : Pc) (v : Nat → Ptr)
    (room : Nat → Bool) (d : Dealloc) : Prop where
  value : ∀ k, k < threadKeysMax → v k = (x.entry k).current (keys k).seq
  high : ∀ k, threadKeysMax ≤ k → v k = 0
  /-- A value was stored under the present sequence number or an earlier one. -/
  old : ∀ k, k < threadKeysMax → (x.entry k).data ≠ 0 → (x.entry k).seq % 2 = 1 ∧ (x.entry k).seq ≤ (keys k).seq
  /-- `specific_used` tells of every value the scan will not come to. -/
  used : ∀ k, k < threadKeysMax → (x.entry k).data ≠ 0 → p.pos ≤ k ∨ x.specificUsed = true
  room : ∀ i, i ≠ 0 → room i = (x.level2 i).isSome
  pc : PcRel x p d

structure Rel (s : St) (a : Store) : Prop where
  keys : ∀ k, k < threadKeysMax → KeyRel (s.threadKeys k) (a.made k) (a.live k)
  thread : ∀ t, ThreadRel s.threadKeys ((s.tls t).getD {}) (s.pc t) (a.value t) (a.room t) (a.dealloc t)
  alive : ∀ t, s.pc t ≠ .run → (s.tls t).isSome = true

@[simp] lemma new_entry (k : Nat) : ({} : ThreadLocalStorage).entry k = {} := by
  unfold entry level2
  by_cases h : k / threadKey2ndLevelSize = 0 <;> simp only [h, if_true, if_false]

lemma threadRel_new (keys : Nat → ThreadKeyStruct) :
    ThreadRel keys {} .run (fun _ => 0) (fun _ => false) .out where
  value k _ := by simp [current]
  high k _ := rfl
  old k _ h := by simp at h
  used k _ h := by simp at h
  room i hi := by simp [level2, hi]
  pc := trivial

lemma rel_init : Rel machine.init Store.machine.init where
  keys k _ := ⟨rfl, show 0 < 2 ^ 63 by decide⟩
  thread t := threadRel_new _
  alive t h := absurd rfl h

/-! ## Keys -/

variable {live : Option (Option Dtor)} {s s' : St} {a : Store} {t : Tid} {keys : Nat → ThreadKeyStruct}
  {x y : ThreadLocalStorage} {p : Pc} {v : Nat → Ptr} {room : Nat → Bool} {d : Dealloc} {r idx i j k : Nat} {b : Level2}

lemma KeyRel.unused {x : ThreadKeyStruct} (h : KeyRel x made live) : keyUnused x.seq = live.isNone := by
  rw [Bool.eq_iff_iff, keyUnused_iff]
  cases live with have := h.1
  | none | some =>
    simp
    omega

lemma KeyRel.free (h : KeyRel (s.threadKeys k) (a.made k) (a.live k)) :
    (keyUnused (s.threadKeys k).seq && keyUsable (s.threadKeys k).seq) = a.free k := by
  rw [h.unused]
  unfold Store.free
  cases hl : a.live k with
  | some => simp
  | none =>
    rw [hl] at h
    have hu : keyUsable (s.threadKeys k).seq = true ↔ a.made k + 1 < 2 ^ 63 := by
      rw [keyUsable_iff, h.1]
      have := h.2
      omega
    rw [Bool.eq_iff_iff]
    simpa using hu

lemma ThreadRel.setKey (h : ThreadRel keys x p v room d) {y : ThreadKeyStruct} (hy : (keys k).seq < y.seq) :
    ThreadRel (update keys k y) x p (update v k 0) room d where
  value n hn := by
    rcases eq_or_ne n k with rfl | hk
    · have := h.old n hn
      simp only [update_self, current]
      split
      next he =>
        by_contra hne
        have := (this (Ne.symm hne)).2
        omega
      · rfl
    · simpa [hk] using h.value n hn
  high n hn := by
    by_cases hk : n = k
    · simp [hk]
    · simpa [hk] using h.high n hn
  old n hn he := by
    rcases eq_or_ne n k with rfl | hk
    · have := h.old n hn he
      simp only [update_self]
      exact ⟨this.1, by omega⟩
    · simpa [hk] using h.old n hn he
  __ := h

section
variable (h : Rel s a)
include h

lemma Rel.setKey {y : ThreadKeyStruct} (hy : (s.threadKeys k).seq < y.seq) (hk : KeyRel y made live) :
    Rel (s.setKey k y) (a.setKey k made live) where
  keys n hn := by
    rcases eq_or_ne n k with rfl | hnk
    · simpa [St.setKey, setKey] using hk
    · simpa [St.setKey, Store.setKey, hnk] using h.keys n hn
  thread t := (h.thread t).setKey hy
  alive := h.alive

lemma rel_create {destr : Option Dtor} {key : Option Nat}
    (hs : step s (.create destr key) = some s') : ∃ a', a.step (.create destr key) = some a' ∧ Rel s' a' := by
  have hfi : (range threadKeysMax).find? (fun index =>
      keyUnused (s.threadKeys index).seq && keyUsable (s.threadKeys index).seq) =
      (range threadKeysMax).find? a.free := by
    refine find?_congr fun k hk => ?_
    exact (h.keys k (mem_range.1 hk)).free
  unfold step St.threadKeyCreate at hs
  unfold Store.step
  rw [hfi] at hs
  generalize hf : (range threadKeysMax).find? a.free = o at hs ⊢
  cases o with simp only at hs
  | none =>
    split at hs <;> cases hs
    rename_i hke
    subst hke
    exact ⟨a, by simp, h⟩
  | some k =>
    split at hs <;> cases hs
    rename_i hke
    subst hke
    refine ⟨_, if_pos rfl, ?_⟩
    have hfr : a.free k = true := find?_some hf
    have hk := h.keys k (mem_range.1 (mem_of_find?_eq_some hf))
    simp only [free, decide_eq_true_eq] at hfr
    rw [hfr.1] at hk
    refine h.setKey ?_ ⟨?_, by omega, rfl⟩
    all_goals
      have := hk.1
      simp only
      omega

lemma rel_delete (hs : step s (.delete k ret) = some s') : ∃ a', a.step (.delete k ret) = some a' ∧ Rel s' a' := by
  unfold step St.threadKeyDelete at hs
  unfold Store.step
  by_cases hk : k < threadKeysMax
  · have hre := h.keys k hk
    simp only [if_pos hk, hre.unused] at hs
    cases hl : a.live k with
    | none =>
      simp only [hl, isNone_none, if_true] at hs
      split at hs <;> cases hs
      rename_i hr
      exact ⟨a, by simp [hl, hr], h⟩
    | some =>
      rw [hl] at hre
      obtain ⟨hse, hm, -⟩ := hre
      simp only [hl, isNone_some, Bool.false_eq_true, if_false] at hs
      split at hs <;> cases hs
      rename_i hr
      refine ⟨a.setKey k (a.made k) none, by simp [hl, hk, ← hr], h.setKey ?_ ⟨?_, hm⟩⟩
      all_goals
        simp only
        omega
  · simp only [if_neg hk] at hs
    split at hs <;> cases hs
    rename_i hr
    exact ⟨a, by simp [hk, hr], h⟩

end

/-! ## Threads -/

section
variable (h : PcRel x p d)
include h

lemma PcRel.user : p.user = d.user := by
  cases p <;> cases d <;> simp_all [PcRel, Pc.user, Dealloc.user]

section
variable (hl : ∀ i, (x.level2 i).isSome = true → (y.level2 i).isSome = true)
include hl

lemma PcRel.grow : PcRel y p d.store := by
  cases p <;> cases d <;> simp_all [PcRel, Dealloc.store]

lemma PcRel.keep (hu : y.specificUsed = x.specificUsed) : PcRel y p d := by
  cases p <;> cases d <;> simp_all [PcRel]

end

end

lemma PcRel.outer_inv (h : PcRel x (.outer r i idx) d) : ∃ st, d = .scan r idx st ∧ idx = threadKey2ndLevelSize * i ∧
    i ≤ threadKey1stLevelSize ∧ r < threadDestructorIterations ∧ (x.specificUsed = true → st = true) := by
  cases d with
  | scan r' q st =>
    obtain ⟨rfl, rfl, h⟩ := h
    exact ⟨st, rfl, h⟩
  | out | dtor r' q st => exact h.elim

lemma PcRel.inner_inv (h : PcRel x (.inner r i j idx) d) : ∃ st, d = .scan r idx st ∧
    idx = threadKey2ndLevelSize * i + j ∧ i < threadKey1stLevelSize ∧ j ≤ threadKey2ndLevelSize ∧
    r < threadDestructorIterations ∧ (x.level2 i).isSome = true ∧ (x.specificUsed = true → st = true) := by
  cases d with
  | scan r' q st =>
    obtain ⟨rfl, rfl, h⟩ := h
    exact ⟨st, rfl, h⟩
  | out | dtor r' q st => exact h.elim

section Thread

variable {e : ThreadKeyData}

lemma write_isSome (hi : (x.level2 i).isSome = true) (n : Nat) :
    ((x.write i b j e).level2 n).isSome = (x.level2 n).isSome := by
  rw [write_level2]
  rcases eq_or_ne n i with rfl | hn
  · simp [hi]
  · rw [if_neg hn]

section
variable (h : ThreadRel keys x p v room d)
include h

lemma ThreadRel.write (hb : (x.level2 i).getD (fun _ => {}) = b)
    (hj : j < threadKey2ndLevelSize) (hk : k = threadKey2ndLevelSize * i + j) (hlt : k < threadKeysMax)
    (ho : e.data ≠ 0 → e.seq % 2 = 1 ∧ e.seq ≤ (keys k).seq)
    (hu : e.data ≠ 0 → p.pos ≤ k ∨ x.specificUsed = true)
    {r : Nat → Bool} (hr : ∀ n, n ≠ 0 → r n = ((x.write i b j e).level2 n).isSome)
    {q : Dealloc} (hpc : PcRel (x.write i b j e) p q) :
    ThreadRel keys (x.write i b j e) p (update v k (e.current (keys k).seq)) r q where
  value n hn := by
    rw [write_entry e hb hj, ← hk]
    by_cases h' : n = k
    · simp [h']
    · simpa [h'] using h.value n hn
  high n hn := by
    have : n ≠ k := by omega
    simpa [this] using h.high n hn
  old n hn := by
    rw [write_entry e hb hj, ← hk]
    by_cases h' : n = k
    · simpa [h'] using ho
    · simpa [h'] using h.old n hn
  used n hn := by
    rw [write_entry e hb hj, ← hk, write_specificUsed]
    by_cases h' : n = k
    · simpa [h'] using hu
    · simpa [h'] using h.used n hn
  room := hr
  pc := hpc

lemma ThreadRel.goto {p' : Pc} {d' : Dealloc}
    (hu : ∀ k, k < threadKeysMax → (x.entry k).data ≠ 0 → p'.pos ≤ k ∨ x.specificUsed = true)
    (hpc : PcRel x p' d') : ThreadRel keys x p' v room d' :=
  { h with used := hu, pc := hpc }

lemma ThreadRel.store (hl : y.level2 = x.level2)
    (hu : x.specificUsed = true → y.specificUsed = true) : ThreadRel keys y p v room d.store := by
  have he : ∀ k, y.entry k = x.entry k := fun k => by unfold entry; rw [hl]
  refine ⟨fun k hk => ?_, h.high, fun k hk => ?_, fun k hk hd => ?_, fun i hi => ?_, h.pc.grow fun i hi => ?_⟩
  · rw [he]; exact h.value k hk
  · rw [he]; exact h.old k hk
  · rw [he] at hd; exact (h.used k hk hd).imp id hu
  · rw [hl]; exact h.room i hi
  · rw [hl]; exact hi

end

lemma level2_entry (hb : x.level2 i = some b) (hj : j < threadKey2ndLevelSize)
    (hk : k = threadKey2ndLevelSize * i + j) : x.entry k = b j := by
  have hi : k / threadKey2ndLevelSize = i ∧ k % threadKey2ndLevelSize = j := by
    simp only [threadKey2ndLevelSize] at *
    omega
  unfold entry
  rw [hi.1, hi.2, hb]

section
variable (h : ThreadRel keys x p v room d) (hb : x.level2 i = some b) (hj : j < threadKey2ndLevelSize)
  (hk : k = threadKey2ndLevelSize * i + j) (hlt : k < threadKeysMax)
include h hb hj hk hlt

lemma ThreadRel.clearEntry : ThreadRel keys (x.write i b j { b j with data := 0 }) p (update v k 0) room d := by
  have hi : (x.level2 i).isSome = true := by simp [hb]
  have hw := h.write (b := b) (e := { b j with data := 0 }) (r := room) (q := d) (by simp [hb]) hj hk hlt
    (fun h => absurd rfl h) (fun h => absurd rfl h) ?_ ?_
  · simpa [current] using hw
  · intro n hn
    rw [write_isSome hi]
    exact h.room n hn
  · exact h.pc.keep (fun n hn => by rw [write_isSome hi]; exact hn) (write_specificUsed ..)

lemma ThreadRel.read :
    (x.read i b j (keys k).seq).1 = v k ∧ ThreadRel keys (x.read i b j (keys k).seq).2 p v room d := by
  have hv := h.value k hlt
  rw [level2_entry hb hj hk] at hv
  unfold ThreadLocalStorage.read
  split
  next hn =>
    have h0 : v k = 0 := by rw [hv, current, if_neg hn.2]
    have hw := h.clearEntry hb hj hk hlt
    have hse : update v k 0 = v := by rw [← h0, update_eq_self]
    exact ⟨h0.symm, hse ▸ hw⟩
  next hn =>
    refine ⟨?_, h⟩
    rw [hv, current]
    split
    · rfl
    · rename_i hseq
      by_contra hd
      exact hn ⟨hd, hseq⟩

end

end Thread

lemma Rel.ofThread (h : Rel s a) (hke : s'.threadKeys = s.threadKeys) (htl : ∀ u, u ≠ t → s'.tls u = s.tls u)
    (hpc : ∀ u, u ≠ t → s'.pc u = s.pc u) (ha : s'.pc t ≠ .run → (s'.tls t).isSome = true)
    (ht : ThreadRel s.threadKeys ((s'.tls t).getD {}) (s'.pc t) v room d) : Rel s' (a.setThread t v room d) where
  keys k hk := by
    rw [hke]
    exact h.keys k hk
  thread u := by
    rw [hke]
    rcases eq_or_ne u t with rfl | hu
    · simpa [setThread] using ht
    · simpa [setThread, hu, htl u hu, hpc u hu] using h.thread u
  alive u hp := by
    rcases eq_or_ne u t with rfl | hu
    · exact ha hp
    · rw [htl u hu]
      exact h.alive u (hpc u hu ▸ hp)

lemma Rel.setTls (h : Rel s a) (ht : ThreadRel s.threadKeys x (s.pc t) v room d) :
    Rel (s.setTls t (some x)) (a.setThread t v room d) := by
  refine h.ofThread rfl (fun u hu => ?_) (fun _ _ => rfl) (fun _ => ?_) ?_
  · simp [St.setTls, hu]
  · simp [St.setTls]
  · simpa [St.setTls] using ht

lemma Store.setThread_self (a : Store) (t : Tid) : a.setThread t (a.value t) (a.room t) (a.dealloc t) = a := by
  simp [setThread]

section
variable (h : Rel s a)
include h

lemma rel_setTls (ht : ThreadRel s.threadKeys x (s.pc t) (a.value t) (a.room t) (a.dealloc t)) :
    Rel (s.setTls t (some x)) a := by
  have := h.setTls ht
  rwa [setThread_self] at this

lemma getspecific_spec (t : Tid) (k : Nat) :
    (s.threadGetspecific t k).1 = a.value t k ∧ Rel (s.threadGetspecific t k).2 a := by
  have ht := h.thread t
  unfold St.threadGetspecific
  cases hx : s.tls t with
  | none =>
    refine ⟨?_, h⟩
    rw [hx] at ht
    by_cases hk : k < threadKeysMax
    · have := ht.value k hk
      simpa [current] using this.symm
    · exact (ht.high k (Nat.le_of_not_lt hk)).symm
  | some x =>
    rw [hx, getD_some] at ht
    by_cases hk1 : k < threadKey2ndLevelSize
    · simp only [if_pos hk1]
      have hk : k < threadKeysMax := by
        simp only [threadKey2ndLevelSize, threadKeysMax] at *
        omega
      have hr := ht.read (i := 0) (b := x.specific1stBlock) rfl hk1 (by simp) hk
      exact ⟨hr.1, rel_setTls h hr.2⟩
    · by_cases hk : threadKeysMax ≤ k
      · simp only [if_neg hk1, if_pos hk]
        exact ⟨(ht.high k hk).symm, h⟩
      simp only [if_neg hk1, if_neg hk]
      have hlt : k % threadKey2ndLevelSize < threadKey2ndLevelSize := mod_lt _ (by decide)
      cases hb : x.level2 (k / threadKey2ndLevelSize) with
      | none =>
        refine ⟨?_, h⟩
        have := ht.value k (Nat.lt_of_not_le hk)
        simpa [entry, hb, current] using this.symm
      | some =>
        have hr := ht.read hb hlt (Nat.div_add_mod k _).symm (Nat.lt_of_not_le hk)
        exact ⟨hr.1, rel_setTls h hr.2⟩

lemma rel_get {r : Ptr} (hs : step s (.get t k r) = some s') : ∃ a', a.step (.get t k r) = some a' ∧ Rel s' a' := by
  rw [step_get] at hs
  split at hs <;> cases hs
  rename_i hg
  obtain ⟨hr, hre⟩ := getspecific_spec h t k
  exact ⟨a, if_pos ⟨(h.thread t).pc.user ▸ hg.1, hg.2.symm.trans hr⟩, hre⟩

end

lemma ThreadRel.setEntry {seq : Nat} (h : ThreadRel keys x p v room d)
    (hb : (x.level2 i).getD (fun _ => {}) = b) (hj : j < threadKey2ndLevelSize)
    (hk : k = threadKey2ndLevelSize * i + j) (hlt : k < threadKeysMax) (hse : seq = (keys k).seq)
    (ho : seq % 2 = 1) (hu : value ≠ 0 → x.specificUsed = true)
    (hr : i ≠ 0 → (x.level2 i).isSome = true ∨ value ≠ 0) :
    ThreadRel keys (x.write i b j { seq := seq, data := value }) p (update v k value)
      (update room i (room i || value != 0)) d := by
  have hl : ∀ n, (x.level2 n).isSome = true → ((x.write i b j { seq := seq, data := value }).level2 n).isSome = true := by
    intro n hn
    rw [write_level2]
    split
    · rfl
    · exact hn
  have hw := h.write (e := { seq := seq, data := value }) (q := d)
    (r := update room i (room i || value != 0)) hb hj hk hlt
    (fun _ => ⟨ho, le_of_eq hse⟩) (fun hv => .inr (hu hv)) ?_ (h.pc.keep hl (write_specificUsed ..))
  · simpa [current, hse] using hw
  intro n hn
  rw [write_level2]
  rcases eq_or_ne n i with rfl | hni
  · have := h.room n hn
    rcases hr hn with h' | h' <;> simp [this, h']
  · simpa [hni] using h.room n hn

lemma Rel.odd (h : Rel s a) (hk : k < threadKeysMax) (hl : (a.live k).isSome = true) :
    (s.threadKeys k).seq % 2 = 1 := by
  have hr := h.keys k hk
  obtain ⟨d, hd⟩ := isSome_iff_exists.1 hl
  rw [hd] at hr
  have := hr.1
  omega

def NoMem (a : Store) (t : Tid) (k : Nat) (value : Ptr) (mem : Bool) : Prop :=
  value ≠ 0 ∧ threadKey2ndLevelSize ≤ k ∧ a.room t (k / threadKey2ndLevelSize) = false ∧ mem = false

section
variable (h : Rel s a)
include h

lemma setspecific_dead (t : Tid) (value : Ptr) (mem : Bool)
    (hk : ¬(k < threadKeysMax ∧ (a.live k).isSome = true)) : s.threadSetspecific t k value mem = (EINVAL, s) := by
  unfold St.threadSetspecific
  by_cases hlt : threadKeysMax ≤ k
  · rw [if_pos hlt]
  have hl : (a.live k).isSome = false := by
    simpa [Nat.lt_of_not_le hlt] using hk
  have hu : keyUnused (s.threadKeys k).seq = true := by
    rw [(h.keys k (Nat.lt_of_not_le hlt)).unused]
    simpa using hl
  rw [if_neg hlt, if_pos hu]

lemma setspecific_live (t : Tid) (value : Ptr) (mem : Bool) (hk : k < threadKeysMax)
    (hl : (a.live k).isSome = true) {res : Int × St} (hr : res = s.threadSetspecific t k value mem) :
    (NoMem a t k value mem ∧ res.1 = ENOMEM ∧ Rel res.2 a) ∨
    (¬NoMem a t k value mem ∧ res.1 = 0 ∧ Rel res.2 (a.set t k value)) := by
  subst hr
  have ho := h.odd hk hl
  have hu : keyUnused (s.threadKeys k).seq = false := by
    rw [(h.keys k hk).unused]
    simpa using hl
  have ht := h.thread t
  unfold St.threadSetspecific
  simp only [if_neg (not_le.2 hk), hu, Bool.false_eq_true, if_false]
  generalize (s.tls t).getD {} = x at ht ⊢
  by_cases hk1 : k < threadKey2ndLevelSize
  · -- the first block is always there
    refine .inr ⟨fun hm => not_le.2 hk1 hm.2.1, ?_⟩
    rw [if_pos hk1]
    refine ⟨rfl, h.setTls ?_⟩
    have hd : k / threadKey2ndLevelSize = 0 := div_eq_of_lt hk1
    rw [hd]
    refine ThreadRel.setEntry (ht.store ?_ ?_) rfl hk1 (by simp) hk rfl ho ?_ (fun h => absurd rfl h)
    · split <;> rfl
    · split <;> simp_all
    · intro hv
      simp [hv]
  · rw [if_neg hk1]
    have hj : k % threadKey2ndLevelSize < threadKey2ndLevelSize := mod_lt _ (by decide)
    have hi0 : k / threadKey2ndLevelSize ≠ 0 := by
      simp only [threadKey2ndLevelSize] at *
      omega
    have hroom := ht.room _ hi0
    have hkd := (div_add_mod k threadKey2ndLevelSize).symm
    cases hb : x.level2 (k / threadKey2ndLevelSize) with
    | some =>
      refine .inr ⟨fun hm => ?_, rfl, h.setTls ?_⟩
      · have hm' := hm.2.2.1
        rw [hroom, hb] at hm'
        cases hm'
      · refine ThreadRel.setEntry (ht.store rfl fun _ => rfl) ?_ hj hkd hk rfl ho (fun _ => rfl) fun _ => .inl ?_
        · exact congrArg (·.getD fun _ => {}) hb
        · exact congrArg isSome hb
    | none =>
      rw [hb] at hroom
      by_cases hv : value = 0
      · -- nothing is stored, and there was nothing
        subst hv
        have hva : a.value t k = 0 := by
          rw [ht.value k hk, entry, hb]
          simp [current]
        have hse : a.set t k 0 = a.setThread t (a.value t) (a.room t) (a.dealloc t).store := by
          unfold Store.set
          congr 1
          · rw [← hva, update_eq_self]
          · simp
        refine .inr ⟨fun hm => hm.1 rfl, rfl, ?_⟩
        rw [hse]
        exact h.setTls (ht.store rfl id)
      · simp only [if_neg hv]
        cases mem with
        | true =>
          refine .inr ⟨fun hm => Bool.noConfusion hm.2.2.2, rfl, h.setTls ?_⟩
          refine ThreadRel.setEntry (ht.store rfl fun _ => rfl) ?_ hj hkd hk rfl ho (fun _ => rfl) fun _ => .inr hv
          exact congrArg (·.getD fun _ => {}) hb
        | false =>
          exact .inl ⟨⟨hv, Nat.le_of_not_lt hk1, hroom, rfl⟩, rfl, rel_setTls h ht⟩

lemma rel_set {mem : Bool} (hs : step s (.set t k value mem ret) = some s') :
    ∃ a', a.step (.set t k value mem ret) = some a' ∧ Rel s' a' := by
  rw [step_set] at hs
  split at hs
  swap
  · cases hs
  rename_i hg
  obtain ⟨hus, rfl⟩ := hg
  cases hs
  have hu : ¬(a.dealloc t).user = false := by
    rw [← (h.thread t).pc.user, hus]
    exact Bool.noConfusion
  by_cases hk : k < threadKeysMax ∧ (a.live k).isSome = true
  · rcases setspecific_live h t value mem hk.1 hk.2 rfl with ⟨hm, hr, hre⟩ | ⟨hm, hr, hre⟩
    · exact ⟨a, (if_neg hu).trans ((if_pos hk).trans ((if_pos hm).trans (if_pos hr))), hre⟩
    · exact ⟨_, (if_neg hu).trans ((if_pos hk).trans ((if_neg hm).trans (if_pos hr))), hre⟩
  · rw [setspecific_dead h t value mem hk]
    exact ⟨a, (if_neg hu).trans ((if_neg hk).trans (if_pos rfl)), h⟩

end

/-! ## `deallocate_tls` -/

section Scan

lemma Rel.scanTo (h : Rel s a) (ht : ThreadRel s.threadKeys x p v room d) :
    Rel ((s.setTls t (some x)).goto t p) (a.setThread t v room d) := by
  refine h.ofThread rfl (fun u hu => ?_) (fun u hu => ?_) (fun _ => ?_) ?_
  · simp [St.setTls, St.goto, hu]
  · simp [St.setTls, St.goto, hu]
  · simp [St.setTls, St.goto]
  · simpa [St.setTls, St.goto] using ht

lemma Rel.moveTo (h : Rel s a) (hx : s.tls t = some x) (ht : ThreadRel s.threadKeys x p v room d) :
    Rel (s.goto t p) (a.setThread t v room d) := by
  have hs : (s.setTls t (some x)).goto t p = s.goto t p := by
    rw [← hx]
    simp [St.setTls, St.goto]
  exact hs ▸ h.scanTo ht

lemma Rel.free (h : Rel s a) (hke : s'.threadKeys = s.threadKeys)
    (htl : ∀ u, u ≠ t → s'.tls u = s.tls u) (hpc : ∀ u, u ≠ t → s'.pc u = s.pc u) (hx : s'.tls t = none)
    (hp : s'.pc t = .run) : Rel s' (a.setThread t (fun _ => 0) (fun _ => false) .out) := by
  refine h.ofThread hke htl hpc (fun h => absurd hp h) ?_
  rw [hx, hp]
  exact threadRel_new _

section
variable (ht : ThreadRel keys x p v room d)
include ht

lemma ThreadRel.value_eq_zero (hk : k < threadKeysMax) (h0 : (x.entry k).data = 0) : v k = 0 := by
  rw [ht.value k hk, current, h0, ite_self]

lemma ThreadRel.empty
    (hp : p.pos = threadKeysMax) (hu : x.specificUsed = false) : ∀ k, k < threadKeysMax → v k = 0 := by
  intro k hk
  refine ht.value_eq_zero hk ?_
  by_contra hd
  rcases ht.used k hk hd with h | h
  · omega
  · simp [hu] at h

end

lemma rel_dealloc {scans : Bool} (h : Rel s a) (hs : step s (.dealloc t scans) = some s') :
    ∃ a', a.step (.dealloc t scans) = some a' ∧ Rel s' a' := by
  rw [step_dealloc] at hs
  split at hs
  swap
  · cases hs
  rename_i hg
  obtain ⟨hp, rfl⟩ := hg
  cases hs
  have ht := h.thread t
  rw [hp] at ht
  have ho : a.dealloc t = .out := by
    have := ht.pc
    cases hd : a.dealloc t <;> simp_all [PcRel]
  unfold St.deallocateTls
  cases hx : s.tls t with
  | none =>
    rw [hx] at ht
    exact ⟨_, if_pos ⟨ho, .inr (ht.empty rfl rfl)⟩, h.free rfl (fun _ _ => rfl) (fun _ _ => rfl) hx hp⟩
  | some x =>
    rw [hx, getD_some] at ht
    by_cases hu : x.specificUsed = true
    · simp only [hu, if_true]
      refine ⟨_, if_pos ⟨ho, .inl rfl⟩, h.scanTo ?_⟩
      refine ⟨ht.value, ht.high, ht.old, fun k _ _ => .inl (zero_le k), ht.room, ?_⟩
      exact ⟨rfl, rfl, rfl, zero_le _, by decide, fun h => h⟩
    · simp only [if_neg hu]
      refine ⟨_, if_pos ⟨ho, .inr (ht.empty rfl (by simpa using hu))⟩, h.free rfl ?_ (fun _ _ => rfl) ?_ hp⟩
      · intro u hn
        simp [St.setTls, hn]
      · simp [St.setTls]

variable {q n : Nat}

lemma clear_eq_self {v : Nat → Ptr} (h : ∀ k, q ≤ k → k < n → v k = 0) : clear v q n = v := by
  funext k
  unfold clear
  split
  next hk => exact (h k hk.1 hk.2).symm
  · rfl

lemma clear_succ (v : Nat → Ptr) (q : Nat) : clear v q (q + 1) = update v q 0 := by
  funext k
  unfold clear
  by_cases hk : k = q
  · simp [hk]
  · rw [if_neg (by omega), update_of_ne hk]

lemma Store.step_pass (hd : a.dealloc t = .scan r q st) (hq : q ≤ n)
    (hn : n ≤ threadKeysMax) (hv : ∀ k, k < n → q ≤ k → a.value t k = 0 ∨ a.live k = some none) :
    a.step (.pass t n) = some (a.setThread t (clear (a.value t) q n) (a.room t) (.scan r n st)) := by
  unfold step
  simp only [hd]
  exact if_pos ⟨hq, hn, hv⟩

lemma Rel.passEmpty (h : Rel s a) (hx : s.tls t = some x) (hd : a.dealloc t = .scan r q st)
    (hq : q ≤ n) (hn : n ≤ threadKeysMax) (hz : ∀ k, q ≤ k → k < n → a.value t k = 0)
    (ht : ThreadRel s.threadKeys x p (a.value t) (a.room t) (.scan r n st)) :
    ∃ a', a.step (.pass t n) = some a' ∧ Rel (s.goto t p) a' := by
  refine ⟨_, step_pass hd hq hn (fun k h2 h1 => .inl (hz k h1 h2)), ?_⟩
  rw [clear_eq_self hz]
  exact h.moveTo hx ht

lemma rel_outer (h : Rel s a) (hp : s.pc t = .outer r i idx) (hx : s.tls t = some x)
    (hs : s.scan t = some (e, s')) : ∃ a', a.step e = some a' ∧ Rel s' a' := by
  have ht := h.thread t
  rw [hp, hx, getD_some] at ht
  obtain ⟨st, hd, hid, hi, hr, hst⟩ := ht.pc.outer_inv
  have hsi : threadKey2ndLevelSize * threadKey1stLevelSize = threadKeysMax := by decide
  unfold St.scan at hs
  simp only [hp, hx] at hs
  split at hs
  next hlt =>
    have hle : idx + threadKey1stLevelSize ≤ threadKeysMax := by
      simp only [threadKey2ndLevelSize, threadKey1stLevelSize, threadKeysMax] at *
      omega
    split at hs
    · rename_i b hb
      cases hs
      refine h.passEmpty hx hd le_rfl (by omega) (fun k _ _ => by omega)
        (ht.goto ht.used ⟨rfl, rfl, by simpa using hid, hlt, zero_le _, hr, ?_, hst⟩)
      rw [hb]
      rfl
    · rename_i hb
      cases hs
      -- no block, so no entry of the keys it is passed over for has data
      have hn : ∀ k, idx ≤ k → k < idx + threadKey1stLevelSize → (x.entry k).data = 0 := by
        intro k h1 h2
        have hki : k / threadKey2ndLevelSize = i := by
          simp only [threadKey2ndLevelSize, threadKey1stLevelSize, threadKeysMax] at *
          omega
        simp [entry, hki, hb]
      have hz : ∀ k, idx ≤ k → k < idx + threadKey1stLevelSize → a.value t k = 0 :=
        fun k h1 h2 => ht.value_eq_zero (lt_of_lt_of_le h2 hle) (hn k h1 h2)
      refine h.passEmpty hx hd (Nat.le_add_right ..) hle hz (ht.goto ?_ ⟨rfl, rfl, ?_, hlt, hr, hst⟩)
      · intro k hk hda
        refine (ht.used k hk hda).imp (fun h1 => ?_) id
        exact Nat.le_of_not_lt fun h2 => hda (hn k h1 h2)
      · rw [hid, mul_succ]
        rfl
  next hg =>
    obtain rfl : i = threadKey1stLevelSize := by omega
    have he : idx = threadKeysMax := hid.trans hsi
    split at hs
    · rename_i hm
      cases hs
      refine ⟨a.setThread t (a.value t) (a.room t) (.scan (r + 1) 0 false), ?_, h.scanTo ?_⟩
      · unfold Store.step
        simp only [hd]
        exact if_pos ⟨he, hst hm.1, hm.2⟩
      · refine ⟨ht.value, ht.high, ht.old, fun k _ _ => .inl (zero_le k), ht.room, ?_⟩
        exact ⟨rfl, rfl, rfl, zero_le _, hm.2, fun h => h⟩
    · rename_i hm
      cases hs
      refine ⟨a.setThread t (fun _ => 0) (fun _ => false) .out, ?_, ?_⟩
      · unfold Store.step
        simp only [hd]
        refine if_pos ⟨he, ?_⟩
        by_cases hu : x.specificUsed = true
        · have hla : ¬r + 1 < threadDestructorIterations := fun h => hm ⟨hu, h⟩
          exact .inr (by omega)
        · exact .inl (ht.empty he (by simpa using hu))
      · refine h.free rfl ?_ ?_ ?_ ?_
        · intro u hu; simp [St.setTls, St.goto, hu]
        · intro u hu; simp [St.setTls, St.goto, hu]
        · simp [St.setTls, St.goto]
        · simp [St.setTls, St.goto]

lemma Rel.live_of_entry (h : Rel s a) (hx : s.tls t = some x) (hk : k < threadKeysMax) (hd : (x.entry k).data ≠ 0)
    (hse : (x.entry k).seq = (s.threadKeys k).seq) : a.live k = some (s.threadKeys k).dtor := by
  have ht := h.thread t
  rw [hx, getD_some] at ht
  have ho := (ht.old k hk hd).1
  have hr := h.keys k hk
  cases hl : a.live k with rw [hl] at hr
  | none =>
    have := hr.1
    omega
  | some =>
    rw [hr.2.2]

lemma rel_inner (h : Rel s a) (hp : s.pc t = .inner r i j idx) (hx : s.tls t = some x)
    (hs : s.scan t = some (e, s')) : ∃ a', a.step e = some a' ∧ Rel s' a' := by
  have ht := h.thread t
  rw [hp, hx, getD_some] at ht
  obtain ⟨st, hd, hid, hi, hj, hr, hso, hst⟩ := ht.pc.inner_inv
  have hm : threadKey2ndLevelSize * i + threadKey2ndLevelSize ≤ threadKeysMax := by
    simp only [threadKey2ndLevelSize, threadKey1stLevelSize, threadKeysMax] at *
    omega
  unfold St.scan at hs
  simp only [hp, hx] at hs
  split at hs
  swap
  · -- the block is done
    cases hs
    exact h.passEmpty hx hd le_rfl (by omega) (fun k _ _ => by omega)
      (ht.goto ht.used ⟨rfl, rfl, by rw [hid, mul_succ]; omega, hi, hr, hst⟩)
  rename_i hlt
  obtain ⟨b, hb⟩ := isSome_iff_exists.1 hso
  have hk : idx < threadKeysMax := by omega
  have hen : x.entry idx = b j := level2_entry hb hlt hid
  have hn : idx + 1 = threadKey2ndLevelSize * i + (j + 1) := by omega
  simp only [hb] at hs
  split at hs
  next hda =>
    cases hs
    have hz : ∀ k, idx ≤ k → k < idx + 1 → a.value t k = 0 := by
      intro k h1 h2
      obtain rfl : k = idx := by omega
      exact ht.value_eq_zero hk (by rw [hen, hda])
    refine h.passEmpty hx hd (Nat.le_succ _) hk hz (ht.goto ?_ ⟨rfl, rfl, hn, hi, hlt, hr, hso, hst⟩)
    intro k hkm hd'
    refine (ht.used k hkm hd').imp (fun h1 => ?_) id
    refine Nat.lt_of_le_of_ne h1 fun he => hd' ?_
    rw [← he, hen, hda]
  next hda =>
    -- the entry is cleared whether or not there is a call
    have hcl := ht.clearEntry hb hlt hid hk
    rw [← clear_succ] at hcl
    have hs' : ((x.write i b j { b j with data := 0 }).level2 i).isSome = true := by
      rw [write_isSome hso, hso]
    have hu : ∀ k, k < threadKeysMax → ((x.write i b j { b j with data := 0 }).entry k).data ≠ 0 →
        idx + 1 ≤ k ∨ (x.write i b j { b j with data := 0 }).specificUsed = true := by
      intro k hkm hd'
      refine (hcl.used k hkm hd').imp (fun h1 => ?_) id
      refine Nat.lt_of_le_of_ne h1 fun he => hd' ?_
      rw [← he, write_entry _ (hb ▸ rfl) hlt, if_pos hid]
    have hpa : a.value t idx = 0 ∨ a.live idx = some none → ∃ a', a.step (.pass t (idx + 1)) = some a' ∧
          Rel ((s.setTls t (some (x.write i b j { b j with data := 0 }))).goto t (.inner r i (j + 1) (idx + 1))) a' := by
      intro hv
      refine ⟨_, step_pass hd (le_succ _) hk (fun k h2 h1 => ?_), ?_⟩
      · obtain rfl : k = idx := by omega
        exact hv
      · refine h.scanTo (hcl.goto hu ⟨rfl, rfl, hn, hi, hlt, hr, hs', ?_⟩)
        rw [write_specificUsed]
        exact hst
    have hsta : (b j).seq ≠ (s.threadKeys idx).seq → a.value t idx = 0 := by
      intro hne
      rw [ht.value idx hk, hen, current, if_neg hne]
    have hli : (b j).seq = (s.threadKeys idx).seq → a.live idx = some (s.threadKeys idx).dtor := by
      intro heq
      exact h.live_of_entry hx hk (by rw [hen]; exact hda) (by rw [hen]; exact heq)
    split at hs
    · rename_i dt hdt
      split at hs
      · rename_i hse
        cases hs
        refine ⟨a.setThread t (clear (a.value t) idx (idx + 1)) (a.room t) (.dtor r idx st), ?_, ?_⟩
        · unfold Store.step
          simp only [hd]
          refine if_pos ⟨trivial, hk, hda, ?_, ?_⟩
          · rw [ht.value idx hk, hen, current, if_pos hse]
          · rw [hli hse, hdt]
        · refine h.scanTo (hcl.goto hu ⟨rfl, rfl, hid, hi, hlt, hr, hs', ?_⟩)
          rw [write_specificUsed]
          exact hst
      · rename_i hse
        cases hs
        exact hpa (.inl (hsta hse))
    · rename_i hdt
      cases hs
      refine hpa ?_
      by_cases hse : (b j).seq = (s.threadKeys idx).seq
      · rw [hli hse, hdt]
        exact .inr rfl
      · exact .inl (hsta hse)

lemma rel_ret (h : Rel s a) (hs : step s (.ret t) = some s') : ∃ a', a.step (.ret t) = some a' ∧ Rel s' a' := by
  unfold step at hs
  simp only at hs
  split at hs <;> cases hs
  rename_i r i j idx hp
  obtain ⟨x, hx⟩ := isSome_iff_exists.1 (h.alive t (by rw [hp]; simp))
  have ht := h.thread t
  rw [hp, hx, getD_some] at ht
  have hpc := ht.pc
  cases hd : a.dealloc t with
  | out | scan r' q st => simp_all [PcRel]
  | dtor r' q st =>
    rw [hd] at hpc
    obtain ⟨rfl, rfl, h1, h2, h3, h4, h5, h6⟩ := hpc
    refine ⟨a.setThread t (a.value t) (a.room t) (.scan r' (q + 1) st), ?_, ?_⟩
    · unfold Store.step
      simp only [hd]
    · refine h.moveTo hx (ht.goto ht.used ⟨rfl, rfl, ?_, h2, h3, h4, h5, h6⟩)
      omega

end Scan

lemma rel_scan (h : Rel s a) (hs : s.scan t = some (e, s')) : ∃ a', a.step e = some a' ∧ Rel s' a' := by
  cases hp : s.pc t with
  | run | dtor => simp [St.scan, hp] at hs
  | outer =>
    obtain ⟨x, hx⟩ := isSome_iff_exists.1 (h.alive t (by rw [hp]; simp))
    exact rel_outer h hp hx hs
  | inner =>
    obtain ⟨x, hx⟩ := isSome_iff_exists.1 (h.alive t (by rw [hp]; simp))
    exact rel_inner h hp hx hs

lemma scan_of_step
    (hs : (match s.scan t with | some (e', s') => if e' = e then some s' else none | none => none) = some s') :
    s.scan t = some (e, s') := by
  split at hs
  next e' s'' hsc =>
    split at hs <;> cases hs
    rename_i he
    rw [hsc, he]
  · cases hs

lemma rel_step (h : Rel s a) (hs : step s e = some s') : ∃ a', a.step e = some a' ∧ Rel s' a' := by
  cases e with
  | create => exact rel_create h hs
  | delete => exact rel_delete h hs
  | set => exact rel_set h hs
  | get => exact rel_get h hs
  | dealloc => exact rel_dealloc h hs
  | ret => exact rel_ret h hs
  | pass t idx | call t idx data d | again t | finish t => exact rel_scan h (scan_of_step hs)

lemma simulates : machine.Simulates Store.machine Rel := fun _ _ _ _ => rel_step

/-! ## The scan comes to its end -/

def Pc.left : Pc → Nat
  | .run => 0
  | .outer r i _ => (3 - r) * 8192 + (32 - i) * 128 + 1
  | .inner r i j _ => (3 - r) * 8192 + ((32 - i) * 128 - 2 * j)
  | .dtor r i j _ => (3 - r) * 8192 + ((32 - i) * 128 - 2 * j - 1)

lemma progress_goto {s : St} {t : Tid} {p : Pc} {n : Nat} (h : p.left < n) :
    ∃ e' s', some (e, s.goto t p) = some (e', s') ∧ (s'.pc t).left < n := by
  refine ⟨_, _, rfl, ?_⟩
  simpa only [St.goto, update_self] using h

lemma scan_progress {s : St} {a : Store} {t : Tid} (h : Rel s a) (hp : (s.pc t).user = false) :
    ∃ e s', s.scan t = some (e, s') ∧ (s'.pc t).left < (s.pc t).left := by
  have ht := h.thread t
  have hpc := ht.pc
  cases hq : s.pc t with
  | run | dtor => simp [hq, Pc.user] at hp
  | outer =>
    obtain ⟨x, hx⟩ := isSome_iff_exists.1 (h.alive t (by rw [hq]; simp))
    unfold St.scan
    simp only [hq, hx]
    split
    next hlt =>
      simp only [threadKey1stLevelSize, threadKeysMax, threadKey2ndLevelSize] at hlt
      split <;> exact progress_goto (by simp only [Pc.left]; omega)
    · split
      next hm =>
        have := hm.2
        simp only [threadDestructorIterations] at this
        exact progress_goto (by simp only [Pc.left]; omega)
      · exact progress_goto (by simp only [Pc.left]; omega)
  | inner =>
    obtain ⟨x, hx⟩ := isSome_iff_exists.1 (h.alive t (by rw [hq]; simp))
    rw [hq, hx, getD_some] at hpc
    obtain ⟨-, -, -, hi, hj, -, hso, -⟩ := hpc.inner_inv
    obtain ⟨b, hb⟩ := isSome_iff_exists.1 hso
    simp only [threadKey1stLevelSize, threadKeysMax, threadKey2ndLevelSize] at hi hj
    unfold St.scan
    simp only [hq, hx, hb]
    split
    · split
      · exact progress_goto (by simp only [Pc.left]; omega)
      split
      · split
        all_goals
          exact progress_goto (by simp only [Pc.left]; omega)
      · exact progress_goto (by simp only [Pc.left]; omega)
    · exact progress_goto (by simp only [Pc.left]; omega)

/-- The events of a run of the code, with what the calls returned, are a run of the store; `thread_getspecific`
returns the value of the store; and `deallocate_tls` is never stuck and gets nearer to its end with every step
of its own. -/
theorem keys_refine_store {es : List Ev} {s : St} (h : machine.run es = some s) :
    ∃ a, Store.machine.run es = some a ∧ (∀ t k, (s.threadGetspecific t k).1 = a.value t k) ∧
      ∀ t, (s.pc t).user = false → ∃ e s', s.scan t = some (e, s') ∧ (s'.pc t).left < (s.pc t).left := by
  obtain ⟨a, ha, hr⟩ := simulates.run rel_init h
  exact ⟨a, ha, fun t k => (getspecific_spec hr t k).1, fun t => scan_progress hr⟩

def keyReused : List Ev :=
  [.create (some 7) (some 0), .set 1 0 5 true 0, .set 2 0 6 true 0, .get 1 0 5, .delete 0 0, .get 1 0 0,
    .create (some 8) (some 0), .get 2 0 0, .set 1 0 9 true 0, .dealloc 1 true, .pass 1 0, .call 1 0 9 8]

set_option maxRecDepth 8000 in
theorem keys_refine_store_keyReused : ∃ s a, machine.run keyReused = some s ∧ Store.machine.run keyReused = some a ∧
    (s.threadGetspecific 2 0).1 = 0 := by
  have hr : machine.run keyReused = some _ := rfl
  obtain ⟨a, ha, -, -⟩ := keys_refine_store hr
  exact ⟨_, a, hr, ha, rfl⟩

end Photon.Key
