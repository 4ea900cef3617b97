import Mathlib.Algebra.Ring.Int.Defs
import Mathlib.Algebra.Ring.Nat
import Mathlib.Data.List.Nodup
/-!
# Photon threads

The part of `struct thread` that sleeping, waking and interrupting read and
write, and the functions that turn a wake-up into a return value. A function
of the source that returns 0, or -1 with `errno` set, returns a `Ret` here.
-/

namespace Photon

abbrev Tid := Nat

inductive States where
  | ready
  | running
  | sleeping
  | done
  | standby
  deriving DecidableEq

def EINTR : Int := 4
def EAGAIN : Int := 11
def ENOMEM : Int := 12
def EINVAL : Int := 22
def ETIMEDOUT : Int := 110
def ECANCELED : Int := 125

def satAdd (x y : Nat) : Nat := min (x + y) (2 ^ 64 - 1)

/-- `none` for 0, `some e` for -1 with `errno = e`. -/
abbrev Ret := Option Int

/-- The fields of `struct thread` used below. `waitq` says whether the thread
is linked into the queue of the primitive at hand, `lock` whether its spinlock
is taken. -/
structure Thread where
  state : States := .running
  errorNumber : Int := 0
  waitq : Bool := false
  lock : Bool := false
  deriving DecidableEq

/-- `thread::set_error_number`: what a sleep returns, and the error number
cleared. -/
def Thread.setErrorNumber (th : Thread) : Ret × Thread :=
  if th.errorNumber ≠ 0 then (some th.errorNumber, { th with errorNumber := 0 }) else (none, th)

/-- A sleep that was not interrupted is a timeout; error number -1 is how a
resumer says that the wait succeeded. -/
def waitqTranslateErrno : Ret → Ret
  | none => some ETIMEDOUT
  | some e => if e = -1 then none else some e

section
variable (th : Thread)

@[simp] lemma Thread.setErrorNumber_errorNumber : th.setErrorNumber.2.errorNumber = 0 := by
  unfold setErrorNumber
  split <;> simp_all

@[simp] lemma Thread.setErrorNumber_state : th.setErrorNumber.2.state = th.state := by
  unfold setErrorNumber; split <;> rfl

@[simp] lemma Thread.setErrorNumber_waitq : th.setErrorNumber.2.waitq = th.waitq := by
  unfold setErrorNumber; split <;> rfl

@[simp] lemma Thread.setErrorNumber_lock : th.setErrorNumber.2.lock = th.lock := by
  unfold setErrorNumber; split <;> rfl

lemma wait_success_iff : waitqTranslateErrno th.setErrorNumber.1 = none ↔ th.errorNumber = -1 := by
  unfold Thread.setErrorNumber
  split
  · simp [waitqTranslateErrno]
  · simp_all [waitqTranslateErrno]

end

end Photon
