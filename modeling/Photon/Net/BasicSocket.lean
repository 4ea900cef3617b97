import Photon.Net.BodyRead
/-!
# Whole transfers (`net/basic_socket.cpp`)

`read_n` and its kin repeat a transfer until all is transferred. `doio_once` repeats the
system call while it is interrupted or not ready; `doio_loop` adds up the transfers and
leaves it to a step to move the buffers behind what was transferred.
-/

namespace Photon.BasicSocket

open List Nat

open Iovector (Iovec bytes extractFront)
open Http (doioLoop)

inductive Answer
  /-- The bytes transferred, if so many were asked for. -/
  | bytes (n : Nat)
  | eintr
  /-- `EAGAIN`, and whether the wait that follows succeeds. -/
  | eagain (ready : Bool)
  | error

/-- A loop of transfers: its buffers, and the answers to come. The addresses that were transferred are listed in
the order of the stream, and the results of all transfers are kept. -/
structure Io (β : Type) where
  left : β
  answers : List Answer
  moved : List Nat := []
  rets : List Int := []

open Io

/-- The most a system call transfers; `doio_once` returns the number as an `int`. -/
def maxRwCount : Nat := 0x7ffff000

/-- `doio_once` on the bytes at `as`; `none` when there is no further answer. -/
def doioOnce (as : List Nat) : List Answer → Option (List Answer × Int × List Nat)
  | [] => none
  | .bytes n :: rest =>
    let m := as.take (min n maxRwCount)
    some (rest, (m.length : Int).bmod (2 ^ 32), m)
  | .eintr :: rest | .eagain true :: rest => doioOnce as rest
  | .eagain false :: rest | .error :: rest => some (rest, -1, [])

section
variable {β : Type} (refuse : β → Bool) (addrs : β → List Nat) (step : β → Nat → Nat → β × Bool)

def Io.transfer (s : Io β) : Option (Io β × Int) :=
  if refuse s.left then some ({ s with rets := s.rets ++ [-1] }, -1)
  else (doioOnce (addrs s.left) s.answers).map fun r =>
    ({ s with answers := r.1, moved := s.moved ++ r.2.2, rets := s.rets ++ [r.2.1] }, r.2.1)

def Io.advance (s : Io β) (ret : Nat) : Io β × Bool :=
  ({ s with left := (step s.left ret s.moved.length).1 }, (step s.left ret s.moved.length).2)

def Io.loop (left : β) (answers : List Answer) : Option (Io β × Int) :=
  doioLoop (transfer refuse addrs) (advance step) (answers.length + 1) ⟨left, answers, [], []⟩ 0

end

def bufStep (b : Nat × Nat) (ret _ : Nat) : (Nat × Nat) × Bool := ((b.1 + ret, b.2 - ret), b.2 - ret > 0)

def bufStepV (v : List Iovec) (ret _ : Nat) : List Iovec × Bool :=
  ((extractFront v ret).view, 0 < (extractFront v ret).view.length)

def span1 (b : Nat × Nat) : List Nat := addresses b.1 b.2

section
variable (answers : List Answer) (buf count : Nat) (iov : List Iovec)

def readN : Option (Io (Nat × Nat) × Int) := loop (fun _ => false) span1 bufStep (buf, count) answers

def sendN : Option (Io (Nat × Nat) × Int) := loop (fun _ => false) span1 bufStep (buf, count) answers

/-- `readv` refuses an empty list. -/
def readvN : Option (Io (List Iovec) × Int) := loop isEmpty bytes bufStepV iov answers

def sendvN : Option (Io (List Iovec) × Int) := loop (fun _ => false) bytes bufStepV iov answers

def recvAtLeast (least : Nat) : Option (Io (Nat × Nat) × Int) :=
  loop (fun _ => false) span1 (fun b ret n => ((bufStep b ret n).1, decide (n < least))) (buf, count) answers

end

def Answer.decides : Answer → Bool
  | .bytes _ | .eagain false | .error => true
  | .eintr | .eagain true => false

/-- The results of the transfers that get these answers while `room` bytes are left to transfer: after an interrupt, or
a wait that succeeds, the same transfer is tried again. -/
def results : Nat → List Answer → List Int
  | _, [] => []
  | room, .bytes n :: rest => (min (min n maxRwCount) room : Nat) :: results (room - min (min n maxRwCount) room) rest
  | room, .eintr :: rest | room, .eagain true :: rest => results room rest
  | room, .eagain false :: rest | room, .error :: rest => -1 :: results room rest

/-- The loop returned `ret`: the bytes at the beginning of `as` were transferred, in their order and as many as the
answers say. -/
structure Returned {β : Type} (as : List Nat) (stop : Nat → Prop) (answers : List Answer) (s : Io β) (ret : Int) :
    Prop where
  used : ∃ used, answers = used ++ s.answers ∧ s.rets = results as.length used
  moved : s.moved <+: as
  count : s.moved.length = (s.rets.map Int.toNat).sum
  /-- It goes on only after a transfer of some bytes. -/
  going : ∀ x ∈ s.rets.dropLast, 0 < x
  failed : ret < 0 ↔ ∃ x ∈ s.rets, x < 0
  total : 0 ≤ ret → ret = s.moved.length
  /-- It met the end of the stream, or all is transferred, or as much as is wanted. -/
  ended : 0 ≤ ret → 0 ∈ s.rets ∨ s.moved.length = as.length ∨ stop s.moved.length

/-- The loop does return once enough transfers got an answer. -/
def Whole {β : Type} (as : List Nat) (stop : Nat → Prop) (answers : List Answer) (res : Option (Io β × Int)) : Prop :=
  (∀ s ret, res = some (s, ret) → Returned as stop answers s ret) ∧
    (as.length < answers.countP Answer.decides → res ≠ none)

lemma doioOnce_cases (as : List Nat) (l : List Answer) : (doioOnce as l = none ∧ l.countP Answer.decides = 0) ∨
      ∃ used rest, l = used ++ rest ∧ used ≠ [] ∧ l.countP Answer.decides = rest.countP Answer.decides + 1 ∧
        ((doioOnce as l = some (rest, -1, []) ∧ results as.length used = [-1]) ∨
          ∃ n, doioOnce as l = some (rest, ((as.take n).length : Int), as.take n) ∧ ∀ more,
            results as.length (used ++ more) =
              ((as.take n).length : Int) :: results (as.length - (as.take n).length) more) := by
  fun_induction doioOnce as l with
  | case1 => exact .inl ⟨rfl, rfl⟩
  | case2 n rest m =>
    have hm : (m.length : Int).bmod (2 ^ 32) = m.length := by
      have hma := (length_take_le _ as).trans (min_le_right n maxRwCount)
      apply Int.bmod_eq_of_le <;> simp only [m, maxRwCount] at * <;> omega
    refine .inr ⟨[.bytes n], rest, rfl, cons_ne_nil _ _, countP_cons_of_pos rfl, .inr ⟨_, by rw [hm], fun more => ?_⟩⟩
    rw [length_take]
    rfl
  | case3 rest ih =>
    rw [countP_cons_of_neg Bool.false_ne_true]
    rcases ih with h | ⟨used, rest', rfl, -, hc, h⟩
    · exact .inl h
    · exact .inr ⟨.eintr :: used, rest', rfl, cons_ne_nil _ _, hc, h⟩
  | case4 rest ih =>
    rw [countP_cons_of_neg Bool.false_ne_true]
    rcases ih with h | ⟨used, rest', rfl, -, hc, h⟩
    · exact .inl h
    · exact .inr ⟨.eagain true :: used, rest', rfl, cons_ne_nil _ _, hc, h⟩
  | case5 rest => exact .inr ⟨[.eagain false], rest, rfl, cons_ne_nil _ _, countP_cons_of_pos rfl, .inl ⟨rfl, rfl⟩⟩
  | case6 rest => exact .inr ⟨[.error], rest, rfl, cons_ne_nil _ _, countP_cons_of_pos rfl, .inl ⟨rfl, rfl⟩⟩

/-- The loop has come to `s`: so far each transfer moved some bytes. -/
structure Going {β : Type} (addrs : β → List Nat) (as : List Nat) (answers : List Answer) (s : Io β) : Prop where
  split : as = s.moved ++ addrs s.left
  count : s.moved.length = (s.rets.map Int.toNat).sum
  pos : ∀ x ∈ s.rets, 0 < x
  used : ∃ used, answers = used ++ s.answers ∧
    ∀ more, results as.length (used ++ more) = s.rets ++ results (addrs s.left).length more

section
variable {β : Type} {addrs : β → List Nat} {as : List Nat} {answers : List Answer} {s : Io β} {stop : Nat → Prop}
  {used rest : List Answer}

lemma Going.start (l : β) (answers : List Answer) : Going addrs (addrs l) answers ⟨l, answers, [], []⟩ :=
  ⟨rfl, rfl, nofun, [], rfl, fun _ => rfl⟩

lemma Going.failed (h : Going addrs as answers s) (hs : s.answers = used ++ rest)
    (hr : results (addrs s.left).length used = [-1]) :
    Returned as stop answers { s with answers := rest, rets := s.rets ++ [-1] } (-1) := by
  obtain ⟨front, hf, hu⟩ := h.used
  refine ⟨⟨front ++ used, by rw [hf, hs, append_assoc], by rw [hu, hr]⟩, h.split ▸ prefix_append .., ?_, ?_,
    ⟨fun _ => ⟨-1, by simp, by simp⟩, fun _ => by simp⟩, by simp, by simp⟩
  · simpa using h.count
  · simpa using h.pos

/-- One transfer of the bytes `m`, which come next. -/
lemma Going.next (h : Going addrs as answers s) {l : β} {m : List Nat} (hs : s.answers = used ++ rest)
    (hm : m <+: addrs s.left) (hl : addrs l = (addrs s.left).drop m.length) (hpo : 0 < m.length)
    (hr : ∀ more, results (addrs s.left).length (used ++ more) =
      (m.length : Int) :: results ((addrs s.left).length - m.length) more) :
    Going addrs as answers ⟨l, rest, s.moved ++ m, s.rets ++ [(m.length : Int)]⟩ := by
  obtain ⟨front, hf, hu⟩ := h.used
  refine ⟨?_, ?_, fun x hx => ?_, front ++ used, by rw [hf, hs, append_assoc], fun more => ?_⟩
  · rw [hl, append_assoc, prefix_iff_eq_append.1 hm]
    exact h.split
  · simp [h.count]
  · rcases mem_append.1 hx with hx | hx
    · exact h.pos x hx
    · rw [mem_singleton.1 hx]
      omega
  · rw [append_assoc, hu, hr, hl, length_drop, append_assoc, singleton_append]

lemma Going.left (h : Going addrs as answers s) {l : β} {m : List Nat} (hs : s.answers = used ++ rest)
    (hm : m <+: addrs s.left)
    (hr : ∀ more, results (addrs s.left).length (used ++ more) =
      (m.length : Int) :: results ((addrs s.left).length - m.length) more)
    (he : m = [] ∨ m.length = (addrs s.left).length ∨ stop (s.moved ++ m).length) :
    Returned as stop answers ⟨l, rest, s.moved ++ m, s.rets ++ [(m.length : Int)]⟩ ((s.moved ++ m).length : Nat) := by
  obtain ⟨front, hf, hu⟩ := h.used
  have hno : ¬∃ x ∈ s.rets ++ [(m.length : Int)], x < 0 := by
    simp only [mem_append, mem_singleton]
    rintro ⟨x, hx | rfl, h'⟩
    · exact absurd (h.pos x hx) (by omega)
    · omega
  refine ⟨⟨front ++ used, by rw [hf, hs, append_assoc], ?_⟩, ?_, by simp [h.count], by simpa using h.pos,
    ⟨fun h => by omega, fun h => absurd h hno⟩, fun _ => rfl, fun _ => ?_⟩
  · have hu := hu (used ++ [])
    rw [hr] at hu
    simpa [results] using hu.symm
  · exact h.split ▸ (prefix_append_right_inj _).2 hm
  · rcases he with rfl | he | he
    · exact .inl (by simp)
    · exact .inr (.inl (by rw [h.split, length_append, length_append, he]))
    · exact .inr (.inr he)

variable {refuse : β → Bool} {step : β → Nat → Nat → β × Bool}
  (hstep : ∀ l k n, k ≤ (addrs l).length → addrs (step l k n).1 = (addrs l).drop k)
  (hstop : ∀ l k n, k ≤ (addrs l).length → (step l k n).2 = false → k = (addrs l).length ∨ stop n)
  (hrefuse : ∀ l k n, (step l k n).2 = true → refuse (step l k n).1 = false)
include hstep hstop hrefuse

lemma doioLoop_whole {fuel : Nat} (hfu : s.answers.length < fuel) (hg : Going addrs as answers s)
    (hre : refuse s.left = false) :
    (∀ s' ret, doioLoop (transfer refuse addrs) (advance step) fuel s s.moved.length = some (s', ret) →
        Returned as stop answers s' ret) ∧
      ((addrs s.left).length < s.answers.countP Answer.decides →
        doioLoop (transfer refuse addrs) (advance step) fuel s s.moved.length ≠ none) := by
  induction fuel generalizing s with
  | zero => omega
  | succ fuel ih =>
    rw [doioLoop, transfer, hre, if_neg Bool.false_ne_true]
    rcases doioOnce_cases (addrs s.left) s.answers with ⟨h, hc⟩ | ⟨used, rest, hs, hne, hc, ⟨h, hr⟩ | ⟨n, h, hr⟩⟩
    · simp [h, hc]
    · simpa [h] using hg.failed hs hr
    rw [h]
    have hm : (addrs s.left).take n <+: addrs s.left := List.take_prefix n _
    generalize (addrs s.left).take n = m at hm hr
    have hk := hm.length_le
    have hl' : s.moved.length + m.length = (s.moved ++ m).length := length_append.symm
    have hlen : rest.length < s.answers.length := by
      rw [hs, length_append]
      exact Nat.lt_add_of_pos_left (length_pos_iff.2 hne)
    dsimp only [Option.map_some, advance, Int.toNat_natCast]
    rw [if_neg (by omega)]
    by_cases h0 : (m.length : Int) = 0
    · have hm0 : m = [] := by simpa using h0
      have hd : Returned as stop answers ⟨s.left, rest, s.moved ++ m, s.rets ++ [(m.length : Int)]⟩ _ :=
        hg.left hs hm hr (.inl hm0)
      rw [if_pos h0]
      simpa [hm0] using hd
    rw [if_neg h0, hl']
    split
    next hmo =>
      have hn := ih (s := ⟨(step s.left m.length (s.moved ++ m).length).1, rest, s.moved ++ m,
        s.rets ++ [(m.length : Int)]⟩)
        (by dsimp only; omega) (hg.next hs hm (hstep _ _ _ hk) (by omega) hr) (hrefuse _ _ _ hmo)
      refine ⟨hn.1, fun hco => hn.2 ?_⟩
      rw [hstep _ _ _ hk, length_drop]
      dsimp only
      omega
    next hmo =>
      have he := hstop s.left m.length (s.moved ++ m).length hk (by simpa using hmo)
      have hd : Returned as stop answers ⟨(step s.left m.length (s.moved ++ m).length).1, rest, s.moved ++ m, _⟩ _ :=
        hg.left hs hm hr (.inr he)
      simpa using hd

end

section
variable (answers : List Answer) (buf count : Nat) (iov : List Iovec)

lemma bufStep_addrs (b : Nat × Nat) (k n : Nat) (hk : k ≤ (span1 b).length) :
    span1 (bufStep b k n).1 = (span1 b).drop k := by
  rw [span1, addresses_length] at hk
  have ha := addresses_append b.1 k (b.2 - k)
  rw [Nat.add_sub_cancel' hk] at ha
  rw [span1, span1, ← ha, drop_left' (addresses_length ..)]
  rfl

lemma bufStepV_addrs (v : List Iovec) (k n : Nat) : bytes (bufStepV v k n).1 = (bytes v).drop k :=
  Iovector.bytes_extractFront v k

lemma bufStep_whole :
    Whole (addresses buf count) (fun _ => False) answers
      (loop (fun _ => false) span1 bufStep (buf, count) answers) := by
  refine doioLoop_whole bufStep_addrs (fun b k n hk h => .inl ?_) (fun _ _ _ _ => rfl) (Nat.lt_succ_self _)
    (.start (buf, count) _) rfl
  rw [span1, addresses_length] at hk ⊢
  simp [bufStep] at h
  omega

lemma bufStepV_whole (refuse : List Iovec → Bool) (hrefuse : ∀ v, refuse v = true → v = [])
    (hiov : refuse iov = false) :
    Whole (bytes iov) (fun _ => False) answers (loop refuse bytes bufStepV iov answers) := by
  refine doioLoop_whole (fun v k n _ => bufStepV_addrs v k n) (fun v k n hk h => .inl ?_) (fun v k n h => ?_)
    (lt_succ_self _) (.start ..) hiov
  · have hd := bufStepV_addrs v k n
    have hn : (bufStepV v k n).1 = [] := by simpa [bufStepV] using h
    rw [hn] at hd
    exact le_antisymm hk (drop_eq_nil_iff.1 hd.symm)
  · by_contra hr
    have hn := hrefuse _ (by simpa using hr)
    simp only [bufStepV] at h hn
    simp [hn] at h

/-- The five loops transfer the bytes in order and return how many, or fail exactly if a transfer does. -/
theorem transfer_whole (least : Nat) :
    Whole (addresses buf count) (fun _ => False) answers (readN answers buf count) ∧
    Whole (addresses buf count) (fun _ => False) answers (sendN answers buf count) ∧
    (if iov = [] then readvN answers iov = some (⟨iov, answers, [], [-1]⟩, -1)
      else Whole (bytes iov) (fun _ => False) answers (readvN answers iov)) ∧
    Whole (bytes iov) (fun _ => False) answers (sendvN answers iov) ∧
    Whole (addresses buf count) (least ≤ ·) answers (recvAtLeast answers buf count least) := by
  refine ⟨bufStep_whole .., bufStep_whole .., ?_, bufStepV_whole _ _ _ nofun rfl, ?_⟩
  · split
    next hn =>
      rw [hn]
      rfl
    next hn => exact bufStepV_whole _ _ _ (fun v => isEmpty_iff.1) (by simpa using hn)
  · apply doioLoop_whole
    · exact bufStep_addrs
    · exact fun b k n _ h => .inr (by simpa using h)
    · exact fun _ _ _ _ => rfl
    · exact lt_succ_self _
    · exact .start (buf, count) _
    · rfl

/-- Three bytes are read in two parts, with an interrupt before the first and a wait before the second. -/
theorem transfer_whole_readN :
    readN [.eintr, .bytes 2, .eagain true, .bytes 5, .error] 100 3 =
      some (⟨(103, 0), [.error], [100, 101, 102], [2, 1]⟩, 3) ∧
    Returned (addresses 100 3) (fun _ => False) [.eintr, .bytes 2, .eagain true, .bytes 5, .error]
      (⟨(103, 0), [.error], [100, 101, 102], [2, 1]⟩ : Io (Nat × Nat)) 3 := by
  have h : readN [.eintr, .bytes 2, .eagain true, .bytes 5, .error] 100 3 =
      some (⟨(103, 0), [.error], [100, 101, 102], [2, 1]⟩, 3) := by
    simp [readN, loop, doioLoop, transfer, advance, doioOnce, span1, bufStep, maxRwCount, addresses]
    rfl
  exact ⟨h, (transfer_whole _ 100 3 [] 0).1.1 _ _ h⟩

end

end Photon.BasicSocket
