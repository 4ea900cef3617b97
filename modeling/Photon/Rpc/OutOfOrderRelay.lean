import Photon.Rpc.OutOfOrderOwner
/-!
# The next reader

A thread that sleeps on `m_wait` becomes the reader only after it is notified, and every exit of `wait_completion` behind
the first check notifies one thread. Here a context is used any number of times, and by any thread.
-/

namespace Photon.Ooo

/-- An event of the engine, or a call with a context that was used before. -/
inductive Call where
  | ev (e : Ev)
  /-- After a call has returned, its context is issued again or, `waits`, waited for once more. -/
  | again (t : Tid) (waits : Bool)
  /-- Another thread calls `wait_completion` with the context of `t`, which is not `ISSUED`. -/
  | refused (t : Tid)

def calls : Machine St Call where
  init := {}
  step s
    | .ev e => step s e
    | .again t waits =>
      match (s.op t).pc with
      | .done _ => some (s.goto t (if waits then .issued else .idle))
      | _ => none
    | .refused t => if s.find (s.op t).tag = none ∨ (s.op t).phase = .issued then none else some s.notifyOne

variable {s s' : St} {t u : Tid}

lemma calls_ctl {c : Call} (hs : Ctl s ∧ Awake s) (he : calls.step s c = some s') : Ctl s' ∧ Awake s' := by
  cases c with
  | ev => exact step_ctl hs he
  | again t waits =>
    dsimp only [calls] at he
    split at he
    next r hp =>
      cases he
      refine ⟨hs.1.set ?_, hs.2.set fun f => hp ▸ Pc.noConfusion⟩
      rw [hp]
      cases waits <;> rfl
    · cases he
  | refused =>
    dsimp only [calls] at he
    split at he
    · cases he
    · cases he
      exact hs.1.notifyOne

lemma St.finish_wait (r : Int) : (s.finish t r).wait = s.wait.tail := by
  change (s.goto t (.done r)).notifyOne.wait = (s.goto t (.done r)).wait.tail
  unfold notifyOne
  split
  next hq =>
    rw [hq]
    rfl
  next hq =>
    rw [hq]
    rfl

/-- A thread whose wait has failed returns when it runs, and notifies the first thread that sleeps. -/
lemma wake_failed (hw : t ∉ s.wait) :
    ∃ r, ((s.wake t true).op t).pc = .done r ∧ (s.wake t true).wait = s.wait.tail := by
  unfold St.wake
  split
  · exact ⟨_, congrArg Op.pc (St.finish_op hw _), St.finish_wait _⟩
  · exact ⟨_, congrArg Op.pc (St.finish_op (s := s.giveUp t) hw _), St.finish_wait _⟩

/-- While a thread sleeps on `m_wait`, `m_mutex_r` is held, or a thread that was notified is to run, or a thread that is
to run returns from `wait_completion` next and takes one out of the queue. -/
theorem sleeper_is_relieved (cs : List Call) (hru : calls.run cs = some s) (hu : (s.op u).pc = .asleep) :
    s.mutexR ≠ none ∨ (∃ t, (s.op t).pc = .woken false) ∨
      ∃ t s' r, step s (.resume t) = some s' ∧ (s'.op t).pc = .done r ∧ s'.wait = s.wait.tail := by
  obtain ⟨hc, ha⟩ := Machine.run_inv init_ctl calls_ctl hru
  have hq : u ∈ s.wait := (hc.queue u).2 (hu ▸ rfl)
  rcases ha (List.ne_nil_of_mem hq) with hR | ⟨t, f, hp⟩
  · exact .inl hR
  cases f with
  | false => exact .inr (.inl ⟨t, hp⟩)
  | true =>
    obtain ⟨r, hr⟩ := wake_failed (hc.not_mem (by rw [hp]; exact Kind.noConfusion))
    exact .inr (.inr ⟨t, _, r, by simp only [step, hp], hr⟩)

theorem sleeper_is_relieved_two : ∃ s, calls.run (collectOther.take 6 |>.map .ev) = some s ∧ (s.op 1).pc = .asleep ∧
    (s.mutexR ≠ none ∨ (∃ t, (s.op t).pc = .woken false) ∨
      ∃ t s' r, step s (.resume t) = some s' ∧ (s'.op t).pc = .done r ∧ s'.wait = s.wait.tail) :=
  ⟨_, rfl, rfl, sleeper_is_relieved (u := 1) (collectOther.take 6 |>.map .ev) rfl rfl⟩

end Photon.Ooo
