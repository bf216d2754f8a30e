import Comanche.Hstore.Mutexes

/-!
# Sessions

The calls that a session makes on the table of a pool: `put`, `erase`, and the locks on keys.
-/

namespace Comanche.Hstore

open Lib

section Calls

variable {K κ V : Type} [DecidableEq κ] [Inhabited K] [Inhabited V] (cfg : Config K κ V)

def getMutexes : Act K V Mutexes := Action.read fun w => Mutexes.ofLog w.log

/-- Take the content mutex of a key if its state admits that, and note in `_state` how it was
taken. -/
def lockContentOf (admits : Int → Bool) (take : Nat → Call K V) (unique : Bool) (k : κ) :
    Act K V Bool := do
  let t ← getTable
  let bi := bucket cfg t k
  call (.lockOwnerShared bi)
  match locateKey cfg t k bi with
  | none =>
      call (.unlockOwnerShared bi)
      return false
  | some j =>
      let m ← getMutexes
      if admits (m.content j) then
        call (take j)
        call (.setUnique j unique)
        call (.unlockOwnerShared bi)
        return true
      else
        call (.unlockOwnerShared bi)
        return false

def lockShared (k : κ) : Act K V Bool :=
  lockContentOf cfg (fun state => decide (0 ≤ state)) .lockContentShared false k

def lockUnique (k : κ) : Act K V Bool :=
  lockContentOf cfg (fun state => state == 0) .lockContent true k

def unlock (k : κ) : Act K V Unit := do
  let t ← getTable
  let bi := bucket cfg t k
  call (.lockOwnerShared bi)
  match locateKey cfg t k bi with
  | none => call (.unlockOwnerShared bi)
  | some j =>
      let m ← getMutexes
      if m.unique j = true then
        call (.setUnique j false)
        call (.unlockContent j)
        call (.unlockOwnerShared bi)
      else
        call (.unlockContentShared j)
        call (.unlockOwnerShared bi)

def tryLock (exclusive : Bool) (k : κ) : Act K V Bool :=
  if exclusive then lockUnique cfg k else lockShared cfg k

/-- A key that is not there is entered first, with the value `kv.2`. -/
def lock (kv : K × V) (exclusive : Bool) : Act K V Bool :=
  Action.handle
    (do
      let _ ← at_ cfg (cfg.key kv.1)
      tryLock cfg exclusive (cfg.key kv.1))
    fun e =>
      if e = .outOfRange then do
        let r ← emplace cfg fun _ => kv
        if r.2 then tryLock cfg exclusive (cfg.key kv.1) else return false
      else Action.fail e

/-- The value at the reference that `at` returns is overwritten, store by store. -/
def assign (k : κ) (v : V) : Act K V Unit := do
  let _ ← at_ cfg k
  let t ← getTable
  match locateKey cfg t k (bucket cfg t k) with
  | none => Action.fail .outOfRange
  | some j =>
      Action.emitAll ((cfg.images (t.value j) ((t.value j).1, v)).map fun x => .write (.value j x))
      write (.value j ((t.value j).1, v))

inductive Status where
  | ok
  | keyExists
  | already
  | keyNotFound

/-- A key that cannot be locked is left alone: `definite_lock` throws a
`range_error`, of which `put` makes `E_ALREADY`. -/
def updateByIssue41 (kv : K × V) : Act K V Status := do
  if ← lockUnique cfg (cfg.key kv.1) then
    assign cfg (cfg.key kv.1) kv.2
    unlock cfg (cfg.key kv.1)
    return .ok
  else
    return .already

def put (kv : K × V) (dontStomp : Bool) : Act K V Status := do
  let r ← emplace cfg fun _ => kv
  if r.2 then return .ok
  else if dontStomp then return .keyExists
  else updateByIssue41 cfg kv

def eraseKey (k : κ) : Act K V Status := do
  let n ← erase cfg k
  return if n = 0 then .keyNotFound else .ok

end Calls

/-- The table of a pool and the handles that its users hold: for each its key and whether it is
exclusive. -/
structure Session (K κ V : Type) where
  hop : HopHash K V
  handles : List (κ × Bool)

inductive Request (K κ V : Type) where
  | lock (kv : K × V) (exclusive : Bool)
  | unlock (h : κ × Bool)
  | put (kv : K × V) (dontStomp : Bool)
  | erase (k : κ)

inductive Reply where
  | handle
  | keyNone
  | status (s : Status)
  | thrown (e : Exc)

section Session

variable {K κ V : Type} [DecidableEq κ] [Inhabited K] [Inhabited V] (cfg : Config K κ V)

def Request.run : Request K κ V → Session K κ V → Reply × Session K κ V
  | .lock kv exclusive, s =>
      let m := Hstore.lock cfg kv exclusive
      match m.result s.hop with
      | .ok true => (.handle, ⟨m.final s.hop, (cfg.key kv.1, exclusive) :: s.handles⟩)
      | .ok false => (.keyNone, ⟨m.final s.hop, s.handles⟩)
      | .error e => (.thrown e, ⟨m.final s.hop, s.handles⟩)
  | .unlock h, s =>
      -- a null handle is accepted and nothing is done
      if h ∈ s.handles then
        (.status .ok, ⟨(Hstore.unlock cfg h.1).final s.hop, s.handles.erase h⟩)
      else (.status .ok, s)
  | .put kv dontStomp, s =>
      let m := Hstore.put cfg kv dontStomp
      match m.result s.hop with
      | .ok status => (.status status, ⟨m.final s.hop, s.handles⟩)
      | .error e => (.thrown e, ⟨m.final s.hop, s.handles⟩)
  | .erase k, s =>
      let m := eraseKey cfg k
      match m.result s.hop with
      | .ok status => (.status status, ⟨m.final s.hop, s.handles⟩)
      | .error e => (.thrown e, ⟨m.final s.hop, s.handles⟩)

def AllRequests (P : Session K κ V → Request K κ V → Prop) :
    List (Request K κ V) → Session K κ V → Prop
  | [], _ => True
  | r :: rs, s => P s r ∧ AllRequests P rs (r.run cfg s).2

end Session

end Comanche.Hstore
