import Photon.Common.Continuous
import Photon.Rpc.OutOfOrder
/-!
# StubImpl

The calls of one stub. `do_call` is an operation of the engine: `do_send` is its `do_issue`,
`do_recv_header` its `do_completion` and `do_recv_body` its `do_collect`. All calls share one
stream, and what one of them reads as the reader, no other one reads again.

The stream carries bytes. Everything the server has sent is in `replies`; `delivered` of these
bytes have arrived, and `consumed` of them were read. A read returns when the bytes it wants are
there, or when its timeout is over, or when the stream is shut down.
-/

namespace Photon.Rpc

open Iovector (Byte)

structure Header where
  magic : Nat := 0x87de5d02e6ab95c7
  version : Nat := 0
  size : Nat
  function : Nat
  tag : Nat
  reserved : Nat := 0
  deriving DecidableEq

def Header.MAGIC : Nat := 0x87de5d02e6ab95c7

def Header.VERSION : Nat := 0

def Header.SIZE : Nat := 40

def Header.bytes (h : Header) : List Byte :=
  leBytes 8 h.magic ++ (leBytes 4 h.version ++ (leBytes 4 h.size ++ (leBytes 8 h.function ++
    (leBytes 8 h.tag ++ leBytes 8 h.reserved))))

def Header.ofBytes (bs : List Byte) : Header where
  magic := leNat (bs.take 8)
  version := leNat ((bs.drop 8).take 4)
  size := leNat ((bs.drop 12).take 4)
  function := leNat ((bs.drop 16).take 8)
  tag := leNat ((bs.drop 24).take 8)
  reserved := leNat ((bs.drop 32).take 8)

/-- What `response_sender` writes for the call of `caller`: the header with the tag of the
request, and the body. -/
structure Reply where
  caller : Tid
  tag : Nat
  function : Nat
  body : List Byte
  deriving DecidableEq

def Reply.header (r : Reply) : Header := { size := r.body.length, function := r.function, tag := r.tag }

def Reply.bytes (r : Reply) : List Byte := r.header.bytes ++ r.body

namespace Stub

structure St where
  ooo : Ooo.St := {}
  now : Nat := 0
  /-- `args.timeout` of the call of each thread. -/
  expiration : Tid → Nat := fun _ => 0
  /-- The requests that the server has got and not answered. -/
  requests : List Tid := []
  replies : List Reply := []
  delivered : Nat := 0
  consumed : Nat := 0
  /-- The stream was shut down. -/
  broken : Bool := false
  /-- The reader is in `m_stream->read(&m_header, ...)`. -/
  reading : Bool := false
  /-- `m_header.size`. -/
  size : Nat := 0

inductive Ev where
  /-- `do_call` with a timeout that expires at `d`. -/
  | call (t : Tid) (d : Nat)
  /-- The call gets `m_mutex_w`, and `do_send` begins. -/
  | lock (t : Tid)
  /-- `do_send` has written the request. -/
  | sent (t : Tid)
  | sendFails (t : Tid)
  /-- The server answers a request. -/
  | reply (t : Tid) (function : Nat) (body : List Byte)
  /-- More bytes arrive. -/
  | deliver (n : Nat)
  /-- `do_recv_header` begins. -/
  | recv (t : Tid)
  /-- It has read a header. -/
  | header (t : Tid)
  | headerFails (t : Tid)
  /-- `do_recv_body` has read a body. -/
  | body (t : Tid)
  | bodyFails (t : Tid)
  /-- `m_wait.wait` times out. -/
  | timeout (t : Tid)
  | resume (t : Tid)
  | tick (n : Nat)
  deriving DecidableEq

/-- The bytes the server has sent. -/
def flat (rs : List Reply) : List Byte := rs.flatMap Reply.bytes

def St.engine (s : St) (e : Ooo.Ev) : Option St := (Ooo.step s.ooo e).map fun o => { s with ooo := o }

def toInt (n : Nat) : Int := (BitVec.ofNat 32 n).toInt

/-- `do_recv_header` after the header was read. -/
def St.headerRead (s : St) (t : Tid) (h : Header) : Option St :=
  if h.magic = Header.MAGIC ∧ h.version = Header.VERSION then s.engine (.completion t 0 h.tag)
  else { s with broken := true }.engine (.completion t (-1) h.tag)

def step (s : St) : Ev → Option St
  | .call t d =>
    -- a call that has expired returns before it comes here; Timeout(0) is 0
    if s.now ≤ d then
      { s with expiration := Function.update s.expiration t (if d = s.now then 0 else d) }.engine (.start t none true)
    else none
  | .lock t =>
    (s.engine (.issue t)).bind fun s' => if s.expiration t < s.now then s'.engine (.issued t (-1)) else some s'
  | .sent t => if s.broken then none else { s with requests := t :: s.requests }.engine (.issued t 0)
  | .sendFails t =>
    if s.broken ∨ s.expiration t ≤ s.now then { s with broken := true }.engine (.issued t (-1)) else none
  | .reply t function body =>
    if t ∈ s.requests then
      some { s with
        requests := s.requests.erase t
        replies := s.replies ++ [⟨t, (s.ooo.op t).tag, function, body⟩] }
    else none
  | .deliver n =>
    if s.delivered + n ≤ (flat s.replies).length then some { s with delivered := s.delivered + n } else none
  | .recv t =>
    if (s.ooo.op t).pc = .completing ∧ s.reading = false then
      if s.expiration t < s.now then s.engine (.completion t (-1) (s.ooo.op t).tag)
      else some { s with reading := true }
    else none
  | .header t =>
    if s.reading = true ∧ s.consumed + Header.SIZE ≤ s.delivered then
      let h := Header.ofBytes (((flat s.replies).drop s.consumed).take Header.SIZE)
      { s with consumed := s.consumed + Header.SIZE, reading := false, size := h.size }.headerRead t h
    else none
  | .headerFails t =>
    if s.reading = true ∧ (s.broken ∨ s.expiration t ≤ s.now ∧ s.delivered < s.consumed + Header.SIZE) then
      { s with consumed := s.delivered, reading := false, broken := true }.engine (.completion t (-1) (s.ooo.op t).tag)
    else none
  | .body t =>
    if s.consumed + s.size ≤ s.delivered then
      { s with consumed := s.consumed + s.size }.engine (.collected t (toInt s.size))
    else none
  | .bodyFails t =>
    match (s.ooo.op t).pc with
    | .collecting u _ =>
      -- the timeout is that of the call whose body it is
      if s.broken ∨ s.expiration u ≤ s.now ∧ s.delivered < s.consumed + s.size then
        { s with consumed := s.delivered, broken := true }.engine (.collected t (-1))
      else none
    | _ => none
  | .timeout t => if s.expiration t ≤ s.now then s.engine (.timeout t) else none
  | .resume t => s.engine (.resume t)
  | .tick n => some { s with now := s.now + n }

def machine : Machine St Ev := ⟨{}, step⟩

/-! ## The stream -/

def Arrived (s : St) (r : Reply) : Prop :=
  ∃ l1 l2, s.replies = l1 ++ r :: l2 ∧ (flat (l1 ++ [r])).length ≤ s.delivered

end Stub

lemma Header.bytes_length (h : Header) : h.bytes.length = Header.SIZE := by
  simp [Header.bytes, Header.SIZE, leBytes_length]

lemma Reply.bytes_length (r : Reply) : r.bytes.length = Header.SIZE + r.body.length := by
  rw [Reply.bytes, List.length_append, Header.bytes_length]

lemma Header.ofBytes_bytes (h : Header) :
    Header.ofBytes h.bytes = ⟨leNat (leBytes 8 h.magic), leNat (leBytes 4 h.version), leNat (leBytes 4 h.size),
      leNat (leBytes 8 h.function), leNat (leBytes 8 h.tag), leNat (leBytes 8 h.reserved)⟩ := by
  have hd : ∀ {k n m : Nat}, k ≤ m → (leBytes k n).drop m = [] := fun hk =>
    List.drop_eq_nil_of_le (by rwa [leBytes_length])
  have ht : ∀ {k n m : Nat}, k ≤ m → (leBytes k n).take m = leBytes k n := fun hk =>
    List.take_of_length_le (by rwa [leBytes_length])
  simp [Header.ofBytes, Header.bytes, List.drop_append, leBytes_length, hd, ht]

end Photon.Rpc
