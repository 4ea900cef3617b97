import Photon.Lib.Machine
import Photon.Thread.Basic
/-!
# Thread keys

`thread_key_create`, `thread_key_delete`, `thread_setspecific` and
`thread_getspecific` of any number of threads, each call one step, with
`deallocate_tls` of any of them. `deallocate_tls` calls user code, so it is a
loop of steps: while a destructor runs, its thread and all the others may call
anything but a second `deallocate_tls` of that thread.

An event carries what the call returns, and the scan of `deallocate_tls` reports
what it does; an event that does not fit cannot happen.
-/

namespace Photon.Key

open Function

abbrev Ptr := Nat

abbrev Dtor := Nat

def threadKeysMax : Nat := 1024

def threadKey2ndLevelSize : Nat := 32

def threadKey1stLevelSize : Nat := (threadKeysMax + threadKey2ndLevelSize - 1) / threadKey2ndLevelSize

def threadDestructorIterations : Nat := 4

/-- An even sequence number means the key slot is unused. -/
def keyUnused (key : Nat) : Bool := key &&& 1 == 0

/-- `key < key + 2` in `uint64_t`. -/
def keyUsable (key : Nat) : Bool := decide (key < (key + 2) % 2 ^ 64)

structure ThreadKeyData where
  seq : Nat := 0
  data : Ptr := 0
  deriving DecidableEq

abbrev Level2 := Nat → ThreadKeyData

/-- `thread_local_storage`. `specific[0]` is `specific_1stblock`, so it has no entry of its own. -/
structure ThreadLocalStorage where
  specific1stBlock : Level2 := fun _ => {}
  specific : Nat → Option Level2 := fun _ => none
  specificUsed : Bool := false

def ThreadLocalStorage.level2 (x : ThreadLocalStorage) (i : Nat) : Option Level2 :=
  if i = 0 then some x.specific1stBlock else x.specific i

/-- A write to entry `j` of the block `b` that `specific[i]` points to. -/
def ThreadLocalStorage.write (x : ThreadLocalStorage) (i : Nat) (b : Level2) (j : Nat) (e : ThreadKeyData) :
    ThreadLocalStorage :=
  if i = 0 then { x with specific1stBlock := update b j e }
  else { x with specific := update x.specific i (some (update b j e)) }

structure ThreadKeyStruct where
  seq : Nat := 0
  dtor : Option Dtor := none
  deriving DecidableEq

inductive Pc where
  /-- In user code that no `deallocate_tls` of the thread has called. -/
  | run
  /-- `deallocate_tls`, round `round`: before `specific[i]`. -/
  | outer (round i idx : Nat)
  /-- The same, before entry `inner` of `specific[i]`. -/
  | inner (round i inner idx : Nat)
  /-- The same, in the destructor for that entry. -/
  | dtor (round i inner idx : Nat)
  deriving DecidableEq

structure St where
  threadKeys : Nat → ThreadKeyStruct := fun _ => {}
  tls : Tid → Option ThreadLocalStorage := fun _ => none
  pc : Tid → Pc := fun _ => .run

inductive Ev where
  /-- `thread_key_create` and the key; `none` is `EAGAIN`. -/
  | create (destr : Option Dtor) (key : Option Nat)
  | delete (key : Nat) (ret : Int)
  /-- `thread_setspecific`; `mem` says whether `calloc` has memory. -/
  | set (t : Tid) (key : Nat) (value : Ptr) (mem : Bool) (ret : Int)
  | get (t : Tid) (key : Nat) (value : Ptr)
  /-- `deallocate_tls` is called; whether it comes to its loop. -/
  | dealloc (t : Tid) (scans : Bool)
  /-- The scan goes on to `idx` without a call. -/
  | pass (t : Tid) (idx : Nat)
  /-- The scan calls the destructor `d` of key `idx`. -/
  | call (t : Tid) (idx : Nat) (data : Ptr) (d : Dtor)
  /-- The destructor returns. -/
  | ret (t : Tid)
  /-- Another round. -/
  | again (t : Tid)
  /-- `deallocate_tls` returns. -/
  | finish (t : Tid)
  deriving DecidableEq

def St.setTls (s : St) (t : Tid) (x : Option ThreadLocalStorage) : St := { s with tls := update s.tls t x }

def St.setKey (s : St) (k : Nat) (x : ThreadKeyStruct) : St := { s with threadKeys := update s.threadKeys k x }

def St.goto (s : St) (t : Tid) (p : Pc) : St := { s with pc := update s.pc t p }

def St.threadKeyCreate (s : St) (destr : Option Dtor) : Option Nat × St :=
  match (List.range threadKeysMax).find? fun index =>
      keyUnused (s.threadKeys index).seq && keyUsable (s.threadKeys index).seq with
  | some index => (some index, s.setKey index { seq := ((s.threadKeys index).seq + 1) % 2 ^ 64, dtor := destr })
  | none => (none, s)

/-- What is read of an entry: a value of an earlier sequence number is cleared. -/
def ThreadLocalStorage.read (x : ThreadLocalStorage) (i : Nat) (b : Level2) (j seq : Nat) : Ptr × ThreadLocalStorage :=
  if (b j).data ≠ 0 ∧ (b j).seq ≠ seq then (0, x.write i b j { b j with data := 0 }) else ((b j).data, x)

def St.threadGetspecific (s : St) (t : Tid) (key : Nat) : Ptr × St :=
  match s.tls t with
  | none => (0, s)
  | some x =>
    if key < threadKey2ndLevelSize then
      let (r, x') := x.read 0 x.specific1stBlock key (s.threadKeys key).seq
      (r, s.setTls t (some x'))
    else if threadKeysMax ≤ key then (0, s)
    else
      let idx1st := key / threadKey2ndLevelSize
      match x.level2 idx1st with
      | none => (0, s)
      | some b =>
        let (r, x') := x.read idx1st b (key % threadKey2ndLevelSize) (s.threadKeys key).seq
        (r, s.setTls t (some x'))

def St.threadSetspecific (s : St) (t : Tid) (key : Nat) (value : Ptr) (mem : Bool) : Int × St :=
  if threadKeysMax ≤ key then (EINVAL, s)
  else
    let seq := (s.threadKeys key).seq
    if keyUnused seq then (EINVAL, s)
    else
      let x := (s.tls t).getD {}
      if key < threadKey2ndLevelSize then
        let x := if value ≠ 0 then { x with specificUsed := true } else x
        (0, s.setTls t (some (x.write 0 x.specific1stBlock key { seq := seq, data := value })))
      else
        let idx1st := key / threadKey2ndLevelSize
        let idx2nd := key % threadKey2ndLevelSize
        match x.level2 idx1st with
        | none =>
          if value = 0 then (0, s.setTls t (some x))
          else if mem then
            (0, s.setTls t (some ({ x with specificUsed := true }.write idx1st (fun _ => {}) idx2nd
              { seq := seq, data := value })))
          else (ENOMEM, s.setTls t (some x))
        | some b =>
          (0, s.setTls t (some ({ x with specificUsed := true }.write idx1st b idx2nd { seq := seq, data := value })))

def St.threadKeyDelete (s : St) (key : Nat) : Int × St :=
  if key < threadKeysMax then
    let seq := (s.threadKeys key).seq
    if keyUnused seq then (EINVAL, s) else (0, s.setKey key { s.threadKeys key with seq := (seq + 1) % 2 ^ 64 })
  else (EINVAL, s)

def St.deallocateTls (s : St) (t : Tid) : Bool × St :=
  match s.tls t with
  | none => (false, s)
  | some x =>
    if x.specificUsed then (true, (s.setTls t (some { x with specificUsed := false })).goto t (.outer 0 0 0))
    else (false, s.setTls t none)

def St.scan (s : St) (t : Tid) : Option (Ev × St) :=
  match s.pc t, s.tls t with
  | .outer round i idx, some x =>
    if i < threadKey1stLevelSize then
      match x.level2 i with
      | some _ => some (.pass t idx, s.goto t (.inner round i 0 idx))
      | none => some (.pass t (idx + threadKey1stLevelSize),
          s.goto t (.outer round (i + 1) (idx + threadKey1stLevelSize)))
    else if x.specificUsed ∧ round + 1 < threadDestructorIterations then
      some (.again t, (s.setTls t (some { x with specificUsed := false })).goto t (.outer (round + 1) 0 0))
    else some (.finish t, (s.setTls t none).goto t .run)
  | .inner round i inner idx, some x =>
    if inner < threadKey2ndLevelSize then
      match x.level2 i with
      | none => none
      | some b =>
        if (b inner).data = 0 then some (.pass t (idx + 1), s.goto t (.inner round i (inner + 1) (idx + 1)))
        else
          let s' := s.setTls t (some (x.write i b inner { b inner with data := 0 }))
          match (s.threadKeys idx).dtor with
          | some d =>
            if (b inner).seq = (s.threadKeys idx).seq then
              some (.call t idx (b inner).data d, s'.goto t (.dtor round i inner idx))
            else some (.pass t (idx + 1), s'.goto t (.inner round i (inner + 1) (idx + 1)))
          | none => some (.pass t (idx + 1), s'.goto t (.inner round i (inner + 1) (idx + 1)))
    else some (.pass t idx, s.goto t (.outer round (i + 1) idx))
  | _, _ => none

def Pc.user : Pc → Bool
  | .run | .dtor _ _ _ _ => true
  | .outer _ _ _ | .inner _ _ _ _ => false

def step (s : St) (e : Ev) : Option St :=
  match e with
  | .create destr key => if (s.threadKeyCreate destr).1 = key then some (s.threadKeyCreate destr).2 else none
  | .delete key ret => if (s.threadKeyDelete key).1 = ret then some (s.threadKeyDelete key).2 else none
  | .set t key value mem ret =>
    if (s.pc t).user ∧ (s.threadSetspecific t key value mem).1 = ret then
      some (s.threadSetspecific t key value mem).2
    else none
  | .get t key value =>
    if (s.pc t).user ∧ (s.threadGetspecific t key).1 = value then some (s.threadGetspecific t key).2 else none
  | .dealloc t scans =>
    if s.pc t = .run ∧ (s.deallocateTls t).1 = scans then some (s.deallocateTls t).2 else none
  | .ret t =>
    match s.pc t with
    | .dtor round i inner idx => some (s.goto t (.inner round i (inner + 1) (idx + 1)))
    | _ => none
  | .pass t _ | .call t _ _ _ | .again t | .finish t =>
    match s.scan t with
    | some (e', s') => if e' = e then some s' else none
    | none => none

section Step

variable (s : St) (t : Tid)

lemma step_set (k : Nat) (v : Ptr) (mem : Bool) (ret : Int) : step s (.set t k v mem ret) =
    if (s.pc t).user ∧ (s.threadSetspecific t k v mem).1 = ret then some (s.threadSetspecific t k v mem).2
    else none := rfl

lemma step_get (k : Nat) (v : Ptr) : step s (.get t k v) =
    if (s.pc t).user ∧ (s.threadGetspecific t k).1 = v then some (s.threadGetspecific t k).2 else none := rfl

lemma step_dealloc (scans : Bool) : step s (.dealloc t scans) =
    if s.pc t = .run ∧ (s.deallocateTls t).1 = scans then some (s.deallocateTls t).2 else none := rfl

end Step

def machine : Machine St Ev := ⟨{}, step⟩

end Photon.Key
