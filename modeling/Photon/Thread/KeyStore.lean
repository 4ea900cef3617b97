import Photon.Thread.Key
/-!
# What thread keys are for

The store the keys stand for, without sequence numbers, blocks and flags: a key
is dead or live with a destructor, and a thread has one value for each live key.
The values of a key go when it is deleted. `deallocate_tls` of a thread goes
through the keys in order; it may pass over a key that has no value or no
destructor, must call the destructor of any other with the value, and is done
when no value is left, or after four rounds. It goes through them again only if
a destructor has stored something.
-/

namespace Photon.Key

open Function

/-- How far `deallocate_tls` of a thread is. -/
inductive Dealloc where
  | out
  /-- In its loop, before key `idx`; whether a destructor has stored something in this round. -/
  | scan (round idx : Nat) (stored : Bool)
  /-- In the destructor of key `idx`. -/
  | dtor (round idx : Nat) (stored : Bool)
  deriving DecidableEq

structure Store where
  /-- How often the key has been created. -/
  made : Nat → Nat := fun _ => 0
  /-- The destructor of a live key. -/
  live : Nat → Option (Option Dtor) := fun _ => none
  /-- The value a thread has stored for the key since it was created. -/
  value : Tid → Nat → Ptr := fun _ _ => 0
  /-- Whether the thread has memory for a group of keys other than the first. -/
  room : Tid → Nat → Bool := fun _ _ => false
  dealloc : Tid → Dealloc := fun _ => .out

/-- A key can be created as long as its sequence number does not overflow. -/
def Store.free (a : Store) (k : Nat) : Bool := a.live k = none ∧ a.made k + 1 < 2 ^ 63

/-- Key `k` is live, or not any more, and no thread has a value for it. -/
def Store.setKey (a : Store) (k : Nat) (made : Nat) (live : Option (Option Dtor)) : Store := { a with
    made := update a.made k made
    live := update a.live k live
    value := fun t => update (a.value t) k 0 }

def Store.setThread (a : Store) (t : Tid) (v : Nat → Ptr) (room : Nat → Bool) (d : Dealloc) : Store := { a with
    value := update a.value t v
    room := update a.room t room
    dealloc := update a.dealloc t d }

def Dealloc.user : Dealloc → Bool
  | .out | .dtor _ _ _ => true
  | .scan _ _ _ => false

def Dealloc.store : Dealloc → Dealloc
  | .out => .out
  | .scan round idx _ => .scan round idx true
  | .dtor round idx _ => .dtor round idx true

def Store.set (a : Store) (t : Tid) (k : Nat) (v : Ptr) : Store := a.setThread t (update (a.value t) k v)
    (update (a.room t) (k / threadKey2ndLevelSize) (a.room t (k / threadKey2ndLevelSize) || v != 0))
    (a.dealloc t).store

def Store.Empty (a : Store) (t : Tid) : Prop := ∀ k, k < threadKeysMax → a.value t k = 0

instance (a : Store) (t : Tid) : Decidable (a.Empty t) := Nat.decidableBallLT ..

def clear (v : Nat → Ptr) (p n : Nat) : Nat → Ptr := fun k => if p ≤ k ∧ k < n then 0 else v k

def Store.step (a : Store) : Ev → Option Store
  | .create destr key =>
    if (List.range threadKeysMax).find? a.free = key then
      some (match key with
        | some k => a.setKey k (a.made k + 1) (some destr)
        | none => a)
    else none
  | .delete k ret =>
    if k < threadKeysMax ∧ (a.live k).isSome then
      if ret = 0 then some (a.setKey k (a.made k) none) else none
    else if ret = EINVAL then some a else none
  | .set t k v mem ret =>
    if (a.dealloc t).user = false then none
    else if k < threadKeysMax ∧ (a.live k).isSome then
      if v ≠ 0 ∧ threadKey2ndLevelSize ≤ k ∧ a.room t (k / threadKey2ndLevelSize) = false ∧ mem = false then
        if ret = ENOMEM then some a else none
      else if ret = 0 then some (a.set t k v) else none
    else if ret = EINVAL then some a else none
  | .get t k v => if (a.dealloc t).user ∧ v = a.value t k then some a else none
  | .dealloc t scans =>
    if a.dealloc t = .out ∧ (scans ∨ a.Empty t) then
      some (if scans then a.setThread t (a.value t) (a.room t) (.scan 0 0 false)
        else a.setThread t (fun _ => 0) (fun _ => false) .out)
    else none
  | .pass t n =>
    match a.dealloc t with
    | .scan round p stored =>
      if p ≤ n ∧ n ≤ threadKeysMax ∧ ∀ k, k < n → p ≤ k → a.value t k = 0 ∨ a.live k = some none then
        some (a.setThread t (clear (a.value t) p n) (a.room t) (.scan round n stored))
      else none
    | _ => none
  | .call t k data d =>
    match a.dealloc t with
    | .scan round p stored =>
      if k = p ∧ p < threadKeysMax ∧ data ≠ 0 ∧ a.value t k = data ∧ a.live k = some (some d) then
        some (a.setThread t (clear (a.value t) p (p + 1)) (a.room t) (.dtor round p stored))
      else none
    | _ => none
  | .ret t =>
    match a.dealloc t with
    | .dtor round p stored => some (a.setThread t (a.value t) (a.room t) (.scan round (p + 1) stored))
    | _ => none
  | .again t =>
    match a.dealloc t with
    | .scan round p stored =>
      if p = threadKeysMax ∧ stored ∧ round + 1 < threadDestructorIterations then
        some (a.setThread t (a.value t) (a.room t) (.scan (round + 1) 0 false))
      else none
    | _ => none
  | .finish t =>
    match a.dealloc t with
    | .scan round p _ =>
      if p = threadKeysMax ∧ (a.Empty t ∨ round + 1 = threadDestructorIterations) then
        some (a.setThread t (fun _ => 0) (fun _ => false) .out)
      else none
    | _ => none

def Store.machine : Machine Store Ev := ⟨{}, Store.step⟩

end Photon.Key
