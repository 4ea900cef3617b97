import Mathlib.Data.List.Induction
/-!
# The pooled socket stream

`net/pooled_socket.cpp`: a stream of the pool forwards every call to the stream below
it and notes in `drop` whether that stream is still good. Each call writes the flag
anew, so what the destructor sees is the last call that asked for a byte.
-/

namespace Photon.PooledSocket

open List

inductive Act
  | read | write | readv | readvMutable | writev | writevMutable | recv | recvIov | send | sendIov | sendfile

/-- The comparison each transfer gives to `FORWARD_SOCK_ACT`. -/
def Act.pred : Act → Int → Int → Bool
  | .read | .readv | .readvMutable | .recv | .recvIov => fun a b => a ≤ b
  | .write | .writev | .writevMutable | .send | .sendIov | .sendfile => fun a b => a < b

/-- A call with the answer of the stream below; `count` is the sum of the segments where there are some. -/
inductive Call
  | shutdown (ret : Int)
  | close (ret : Int)
  | transfer (act : Act) (count : Nat) (ret : Int)

def call (drop : Bool) : Call → Int × Bool
  | .shutdown ret => (ret, true)
  | .close _ => (0, true)
  -- `FORWARD_SOCK_ACT`
  | .transfer act count ret => if count = 0 then (0, drop) else (ret, act.pred ret 0)

def calls (cs : List Call) : Bool := cs.foldl (fun drop c => (call drop c).2) false

section
variable {EndPoint Stream : Type} [DecidableEq EndPoint] (fdmap : EndPoint → List Stream) (ep : EndPoint)
  (stream : Stream) (fd wait : Int)

/-- `wait` is what `wait_for_fd_readable` answers without waiting. -/
def streamReusable : Bool := fd < 0 || wait ≠ 0

def pushIntoPool : EndPoint → List Stream := fun e => if e = ep then fdmap e ++ [stream] else fdmap e

def release : Bool × (EndPoint → List Stream) :=
  if streamReusable fd wait then (true, pushIntoPool fdmap ep stream) else (false, fdmap)

/-- `~PooledTCPSocketStream`: whether the stream below is deleted, and the pool. -/
def destroy (drop : Bool) : Bool × (EndPoint → List Stream) :=
  if drop then (true, fdmap) else ((release fdmap ep stream fd wait).1 = false, (release fdmap ep stream fd wait).2)

def Act.reads : Act → Bool
  | .read | .readv | .readvMutable | .recv | .recvIov => true
  | .write | .writev | .writevMutable | .send | .sendIov | .sendfile => false

def Call.ends : Call → Bool
  | .shutdown _ | .close _ => true
  | .transfer act count ret => count ≠ 0 && (ret < 0 || act.reads && ret = 0)

/-- A transfer of no byte does not reach the stream below. -/
def Call.idle : Call → Bool
  | .shutdown _ | .close _ => false
  | .transfer _ count _ => count = 0

lemma pred_zero (act : Act) (ret : Int) : act.pred ret 0 = (ret < 0 || act.reads && ret = 0) := by
  cases act <;> simp [Act.pred, Act.reads, Int.le_iff_lt_or_eq]

lemma call_drop (drop : Bool) (c : Call) : (call drop c).2 = if c.idle then drop else c.ends := by
  cases c with
  | shutdown | close => rfl
  | transfer act count => by_cases h : count = 0 <;> simp [call, Call.idle, Call.ends, h, pred_zero]

lemma calls_eq (cs : List Call) : calls cs = (cs.filter fun c => !c.idle).getLast?.any Call.ends := by
  induction cs using reverseRecOn with
  | nil => rfl
  | append_singleton cs c ih =>
    unfold calls at ih ⊢
    rw [foldl_append, foldl_cons, foldl_nil, call_drop, ih]
    by_cases h : c.idle = true <;> simp [h]

lemma destroy_eq_iff (drop : Bool) :
    (destroy fdmap ep stream fd wait drop).2 = fdmap ↔ drop = true ∨ streamReusable fd wait = false := by
  have hpu : pushIntoPool fdmap ep stream ≠ fdmap := by
    intro h
    have := congrFun h ep
    simp [pushIntoPool] at this
  unfold destroy release
  cases drop <;> cases streamReusable fd wait <;> simp [hpu]

/-- A stream that has failed or ended stays out of the pool exactly if the last call that asked for a byte
is such a call too, or if there is something to read when the stream is destroyed. -/
theorem ended_not_pooled_iff (cs : List Call) :
    ((∃ c ∈ cs, c.ends = true) → (destroy fdmap ep stream fd wait (calls cs)).2 = fdmap) ↔
      (∀ c ∈ cs, c.ends = false) ∨ (cs.filter fun c => !c.idle).getLast?.any Call.ends = true ∨
        streamReusable fd wait = false := by
  rw [destroy_eq_iff, calls_eq]
  by_cases h : ∃ c ∈ cs, c.ends = true
  · have hn : ¬∀ c ∈ cs, c.ends = false := by simpa using h
    simp only [h, hn, true_imp_iff, false_or]
  · exact ⟨fun _ => .inl (by simpa using h), fun _ hc => absurd hc h⟩

end

/-- A read that timed out, then a write that went well: the reply is still to come. -/
theorem timed_out_pooled : (∃ c ∈ [Call.transfer .read 16 (-1), .transfer .write 5 5], c.ends = true) ∧
      (destroy (fun _ : Unit => []) () "conn" 7 (-1) (calls [.transfer .read 16 (-1), .transfer .write 5 5])).2 () =
        ["conn"] := by
  decide

end Photon.PooledSocket
