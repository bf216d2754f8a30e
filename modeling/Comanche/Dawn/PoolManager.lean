import Comanche.Dawn.Protocol

/-!
# The pool handles of a session

`Pool_manager` and `process_message_pool_request`.
-/

namespace Comanche.Dawn

inductive PoolExc where
  | alreadyRegistered
  | addReferenceNotOpen
  | releaseInvalidPool

structure PoolManager where
  openPools : Nat → Option Nat
  nameMap : String → Option Nat

namespace PoolManager

def empty : PoolManager := ⟨fun _ => none, fun _ => none⟩

def checkForOpenPool (pm : PoolManager) (path : String) : Option Nat :=
  match pm.nameMap path with
  | none => none
  | some pool => if (pm.openPools pool).isSome then some pool else none

def registerPool (pm : PoolManager) (path : String) (pool : Nat) : Except PoolExc PoolManager :=
  if (pm.openPools pool).isSome then .error .alreadyRegistered
  else .ok ⟨Function.update pm.openPools pool (some 1), Function.update pm.nameMap path (some pool)⟩

def addReference (pm : PoolManager) (pool : Nat) : Except PoolExc PoolManager :=
  match pm.openPools pool with
  | none => .error .addReferenceNotOpen
  | some n => .ok { pm with openPools := Function.update pm.openPools pool (some ((n + 1) % 2 ^ 32)) }

def releasePoolReference (pm : PoolManager) (pool : Nat) : Except PoolExc (PoolManager × Bool) :=
  match pm.openPools pool with
  | none => .error .releaseInvalidPool
  | some n =>
    if (n + (2 ^ 32 - 1)) % 2 ^ 32 = 0 then
      .ok ({ pm with openPools := Function.update pm.openPools pool none }, true)
    else
      .ok ({ pm with openPools := Function.update pm.openPools pool (some ((n + (2 ^ 32 - 1)) % 2 ^ 32)) },
        false)

end PoolManager

inductive PoolRequest where
  | create (name : String) (pool : Nat)
  | open (name : String) (pool : Nat)
  | close (pool : Nat) (status : Status)
  | delete (name : String) (status : Status)

inductive PoolCall where
  | createPool (name : String)
  | openPool (name : String)
  | closePool (pool : Nat)
  | deletePool (name : String)
  deriving DecidableEq

/-- `Message_pool_response`; the buffer is cleared first. -/
structure PoolResponse where
  status : Status := sOk
  poolId : Nat := 0

structure PoolOutcome where
  manager : PoolManager
  calls : List PoolCall
  response : PoolResponse

def processMessagePoolRequest (pm : PoolManager) : PoolRequest → Except PoolExc PoolOutcome
  | .create name pool =>
    match pm.checkForOpenPool name with
    | some pool => do
      -- the response keeps its zero
      let pm ← pm.addReference pool
      return ⟨pm, [], {}⟩
    | none =>
      if pool = poolError then
        return ⟨pm, [.createPool name], { poolId := 0, status := poolError }⟩
      else do
        let pm ← pm.registerPool name pool
        return ⟨pm, [.createPool name], { poolId := pool, status := sOk }⟩
  | .open name pool =>
    match pm.checkForOpenPool name with
    | some pool => do
      let pm ← pm.addReference pool
      return ⟨pm, [], { poolId := pool }⟩
    | none =>
      if pool = poolError then
        return ⟨pm, [.openPool name], { poolId := 0, status := eInval }⟩
      else do
        let pm ← pm.registerPool name pool
        return ⟨pm, [.openPool name], { poolId := pool }⟩
  | .close pool status => do
    let (pm, last) ← pm.releasePoolReference pool
    return if last then ⟨pm, [.closePool pool], { status }⟩ else ⟨pm, [], { status := sOk }⟩
  | .delete name status =>
    match pm.checkForOpenPool name with
    | some _ => return ⟨pm, [], { poolId := 0, status := eAlreadyOpen }⟩
    | none => return ⟨pm, [.deletePool name], { poolId := 0, status }⟩

end Comanche.Dawn
