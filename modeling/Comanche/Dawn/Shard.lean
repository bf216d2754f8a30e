import Comanche.Dawn.Connection

/-!
# I/O requests

`Shard::process_message_IO_request` and what it calls.
-/

namespace Comanche.Dawn

open Lib

def twoStageThreshold : Nat := 64 * 2 ^ 10

structure LockAnswer where
  rc : Status
  handle : Option Nat
  base : Nat
  bytes : List UInt8
  deriving Inhabited

structure ConfigureAnswer where
  loaded : Bool
  mapKeys : Status
  mapKeysOut : List (List UInt8)
  map : Status
  mapOut : List (List UInt8)
  deriving Inhabited

structure StoreAnswer where
  put : Status
  erase : Status
  lock : LockAnswer
  configure : ConfigureAnswer
  deriving Inhabited

inductive StoreCall where
  | put (pool : Nat) (key value : List UInt8) (flags : Nat)
  | erase (pool : Nat) (key : List UInt8)
  | lock (pool : Nat) (key : List UInt8) (write : Bool) (len : Nat)
  | unlock (pool handle : Nat)
  deriving DecidableEq

structure LockInfo where
  pool : Nat
  key : Nat
  count : Nat

/-- What a handler works on: the connection, the locked values by their addresses, the indices, and what
was called and posted. -/
structure Work where
  conn : Connection
  locked : Nat → Option LockInfo
  /-- `_index_map`, if there is one. -/
  index : Option (Nat → Option (List (List UInt8)))
  calls : List StoreCall
  wire : List Posted

namespace Work

variable (w : Work)

def call (s : StoreCall) : Work := { w with calls := w.calls ++ [s] }

def post (p : Posted) : Work := { w with wire := w.wire ++ [p] }

def addLockedValue (pool key target : Nat) : Work :=
  { w with locked := Function.update w.locked target (some (match w.locked target with
      | none => ⟨pool, key, 1⟩
      | some info => { info with count := info.count + 1 })) }

def releaseLockedValue (target : Nat) : Work × Option Exc :=
  match w.locked target with
  | none => (w, some .badTargetToUnlock)
  | some info =>
    if info.count = 1 then
      ({ w.call (.unlock info.pool info.key) with locked := Function.update w.locked target none }, none)
    else
      ({ w with locked := Function.update w.locked target (some { info with count := info.count - 1 }) },
        none)

def lookupIndex (pool : Nat) : Option (List (List UInt8)) := w.index.bind (· pool)

def modifyIndex (pool : Nat) (f : List (List UInt8) → List (List UInt8)) : Work :=
  match w.index, w.lookupIndex pool with
  | some index, some keys => { w with index := some (Function.update index pool (some (f keys))) }
  | _, _ => w

def addIndexKey (pool : Nat) (k : List UInt8) : Work := w.modifyIndex pool (·.insert k)

def removeIndexKey (pool : Nat) (k : List UInt8) : Work := w.modifyIndex pool (·.erase k)

/-- `post_response` of the buffer `iob` with this length, with a value in the same packet or without. -/
def postResponse (iob len : Nat) (r : IOResponse) (value : Option (ValueBuffer × List UInt8)) : Work :=
  { w.post (r.posted len (value.elim [] Prod.snd)) with
    conn := w.conn.postResponse iob len (value.map Prod.fst) }

@[simp] theorem call_fields (s : StoreCall) :
    (w.call s).conn = w.conn ∧ (w.call s).locked = w.locked ∧ (w.call s).index = w.index ∧
      (w.call s).calls = w.calls ++ [s] ∧ (w.call s).wire = w.wire := ⟨rfl, rfl, rfl, rfl, rfl⟩

@[simp] theorem postResponse_fields (iob len : Nat) (r : IOResponse) (value : Option (ValueBuffer × List UInt8)) :
    (w.postResponse iob len r value).conn = w.conn.postResponse iob len (value.map Prod.fst) ∧
      (w.postResponse iob len r value).locked = w.locked ∧ (w.postResponse iob len r value).index = w.index ∧
      (w.postResponse iob len r value).calls = w.calls ∧
      (w.postResponse iob len r value).wire = w.wire ++ [r.posted len (value.elim [] Prod.snd)] :=
  ⟨rfl, rfl, rfl, rfl, rfl⟩

@[simp] theorem modifyIndex_fields (pool : Nat) (f : List (List UInt8) → List (List UInt8)) :
    (w.modifyIndex pool f).conn = w.conn ∧ (w.modifyIndex pool f).locked = w.locked ∧
      (w.modifyIndex pool f).calls = w.calls ∧ (w.modifyIndex pool f).wire = w.wire := by
  unfold modifyIndex
  split
  · exact ⟨rfl, rfl, rfl, rfl⟩
  · exact ⟨rfl, rfl, rfl, rfl⟩

@[simp] theorem addIndexKey_fields (pool : Nat) (k : List UInt8) :
    (w.addIndexKey pool k).conn = w.conn ∧ (w.addIndexKey pool k).locked = w.locked ∧
      (w.addIndexKey pool k).calls = w.calls ∧ (w.addIndexKey pool k).wire = w.wire :=
  w.modifyIndex_fields pool _

@[simp] theorem removeIndexKey_fields (pool : Nat) (k : List UInt8) :
    (w.removeIndexKey pool k).conn = w.conn ∧ (w.removeIndexKey pool k).locked = w.locked ∧
      (w.removeIndexKey pool k).calls = w.calls ∧ (w.removeIndexKey pool k).wire = w.wire :=
  w.modifyIndex_fields pool _

def bytesOf (s : String) : List UInt8 := s.toList.map fun c => UInt8.ofNat c.toNat

/-- The keys of the store go into an index of their own; it takes the place under the pool only if there
is none yet. -/
def addIndex (pool : Nat) (a : ConfigureAnswer) : Work × Except Exc Status :=
  let index := w.index.getD fun _ => none
  if a.loaded then
    let keys := (a.mapKeysOut ++ if a.mapKeys = sOk then [] else a.mapOut).foldr .insert []
    let status := if a.mapKeys = sOk then a.mapKeys else a.map
    ({ w with index := some (Function.update index pool (some ((index pool).getD keys))) }, .ok status)
  else ({ w with index := some index }, .error .componentNotLoaded)

def removeIndex (pool : Nat) : Work × Except Exc Status :=
  match w.index with
  | none => (w, .error .nullIndexMap)
  | some index =>
    match index pool with
    | none => (w, .ok eBadParam)
    | some _ => ({ w with index := some (Function.update index pool none) }, .ok sOk)

def processConfigure (m : IORequest) (a : ConfigureAnswer) : Work × Except Exc Status :=
  let command := cString m.data
  if command.take 10 = bytesOf "AddIndex::" then
    if command.drop 10 = bytesOf "VolatileTree" then w.addIndex m.poolId a
    else (w, .ok eBadParam)
  else if command = bytesOf "RemoveIndex::" then w.removeIndex m.poolId
  else (w, .ok eBadParam)

def Scbe (m : IORequest) : Bool := m.resvd &&& msgResvdScbe ≠ 0

def isDirect (m : IORequest) : Bool := m.resvd &&& msgResvdDirect ≠ 0

def sendResponse (iob : Nat) (r : IOResponse) (m : IORequest) (status : Status) : Work :=
  w.postResponse iob r.msgLen ({ r with requestId := m.requestId }.setStatus status) none

def put (m : IORequest) (a : StoreAnswer) : Work × Status :=
  if Scbe m then (w, sOk)
  else
    let w := w.call (.put m.poolId m.key m.value m.flags)
    (w.addIndexKey m.poolId m.key, a.put)

def erase (m : IORequest) (a : StoreAnswer) : Work × Status :=
  let w := w.call (.erase m.poolId m.key)
  if a.erase = sOk then (w.removeIndexKey m.poolId m.key, a.erase) else (w, a.erase)

def getTwoStage (iob : Nat) (r : IOResponse) (m : IORequest) (handle base : Nat) (bytes : List UInt8) :
    Work :=
  if m.valLen < bytes.length then
    (w.call (.unlock m.poolId handle)).postResponse iob ioResponseSize (r.setStatus eInsufficientSpace) none
  else
    let r := { r with dataLen := bytes.length, requestId := m.requestId }.setStatus sOk
    let (v, conn) := w.conn.newValueBuffer base
    let w := { w with conn }.addLockedValue m.poolId handle base
    if !isDirect m && decide (bytes.length ≤ bufferLen - ioResponseSize) then
      w.postResponse iob ioResponseSize r (some (v, bytes))
    else
      let w := w.postResponse iob ioResponseSize r.setTwostageBit none
      { w.post (.value bytes) with conn := (w.conn.postValueBuffer v).setPendingSendValue }

def get (iob : Nat) (r : IOResponse) (m : IORequest) (l : LockAnswer) : Work :=
  if Scbe m then
    w.postResponse iob ioResponseSize
      ({ r with dataLen := 0, requestId := m.requestId }.setStatus sOk) none
  else
    let w := w.call (.lock m.poolId m.key false 0)
    match l.handle with
    | none => w.postResponse iob ioResponseSize (r.setStatus eKeyNotFound) none
    | some handle =>
      if l.rc = eFail then w.postResponse iob ioResponseSize (r.setStatus eKeyNotFound) none
      else if !isDirect m && decide (l.bytes.length < twoStageThreshold) then
        (w.call (.unlock m.poolId handle)).postResponse iob (ioResponseSize + l.bytes.length)
          ({ r with
            data := writeAt r.data 0 l.bytes
            dataLen := l.bytes.length
            requestId := m.requestId }.setStatus sOk) none
      else w.getTwoStage iob r m handle l.base l.bytes

def otherOps (iob authId : Nat) (buf : IOResponse) (m : IORequest) (a : StoreAnswer) : Work × Option Exc :=
  let r := buf.construct authId
  match m.op with
  | .put =>
    let (w, status) := w.put m a
    (w.sendResponse iob r m status, none)
  | .get => (w.get iob r m a.lock, none)
  | .erase =>
    let (w, status) := w.erase m a
    (w.sendResponse iob r m status, none)
  | .configure =>
    match w.processConfigure m a.configure with
    | (w, .ok status) => (w.sendResponse iob r m status, none)
    | (w, .error e) => (w, some e)
  | .putAdvance => (w, some .operationNotImplemented)

def putAdvance (iob authId : Nat) (buf : IOResponse) (m : IORequest) (a : StoreAnswer) :
    Work × Option Exc :=
  if m.flags &&& flagsDontStomp ≠ 0 then w.otherOps iob authId buf m a
  else
    let w := w.call (.lock m.poolId m.key true m.valLen)
    match a.lock.handle with
    | none => w.otherOps iob authId buf m a
    | some handle =>
      if a.lock.rc = eFail then w.otherOps iob authId buf m a
      else if a.lock.bytes.length ≠ m.valLen then w.otherOps iob authId buf m a
      else
        let w := w.addLockedValue m.poolId handle a.lock.base
        let w := { w with conn := w.conn.setPendingValue a.lock.base }
        let w := w.addIndexKey m.poolId m.key
        let r := { buf.construct authId with requestId := m.requestId }.setStatus sOk
        ({ w.post (r.posted r.msgLen []) with conn := w.conn.postSendBuffer iob r.msgLen false }, none)

def processMessageIORequest (authId : Nat) (buf : IOResponse) (m : IORequest) (a : StoreAnswer) :
    Work × Option Exc :=
  match w.conn.allocate with
  | .error e => (w, some e)
  | .ok (iob, conn) =>
    let w := { w with conn }
    if m.op = .putAdvance then w.putAdvance iob authId buf m a else w.otherOps iob authId buf m a

end Work

end Comanche.Dawn
