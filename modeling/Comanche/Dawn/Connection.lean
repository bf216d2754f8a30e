import Comanche.Dawn.Protocol

/-!
# The server's end of a connection

`Buffer_manager`, `Fabric_connection_base` and `Connection_handler`.
-/

namespace Comanche.Dawn

inductive Exc where
  | noBuffersRemaining
  | unknownCompletionContext
  | operationNotImplemented
  | badTargetToUnlock
  | componentNotLoaded
  | nullIndexMap
  deriving DecidableEq

inductive ConnState where
  | init
  | postHandshake
  | waitHandshake
  | waitHandshakeResponseCompletion
  | postMsgRecv
  | waitNewMsgRecv
  | waitRecvValue
  | waitSendValue
  deriving DecidableEq

inductive Context where
  | io (buffer : Nat)
  | value (descriptor : Nat)
  deriving DecidableEq

structure ValueBuffer where
  id : Nat
  base : Nat

structure Connection where
  state : ConnState
  /-- `_free`, from its back. -/
  free : List Nat
  postedRecv : Option Nat
  recvOutstanding : Bool
  postedSend : Option Nat
  sendOutstanding : Bool
  postedValue : Option ValueBuffer
  valueOutstanding : Bool
  deferredUnlock : Option Nat
  pendingMsgs : List Nat
  pendingActions : List Nat
  inFlight : List Context
  descriptors : Nat

def bufferCount : Nat := 8

namespace Connection

def fresh : Connection where
  state := .init
  free := (List.range bufferCount).reverse
  postedRecv := none
  recvOutstanding := false
  postedSend := none
  sendOutstanding := false
  postedValue := none
  valueOutstanding := false
  deferredUnlock := none
  pendingMsgs := []
  pendingActions := []
  inFlight := []
  descriptors := 0

variable (c : Connection)

def allocate : Except Exc (Nat × Connection) :=
  match c.free with
  | [] => .error .noBuffersRemaining
  | b :: free => .ok (b, { c with free })

def freeBuffer (b : Nat) : Connection := { c with free := b :: c.free }

def freeRecvBuffer : Connection :=
  match c.postedRecv with
  | some b => { c.freeBuffer b with postedRecv := none }
  | none => c

def postRecvBuffer (b : Nat) : Connection :=
  { c with
    postedRecv := some b
    recvOutstanding := true
    inFlight := .io b :: c.inFlight }

def injectSize : Nat := 128

def postSendBuffer (b len : Nat) (hasValue : Bool) : Connection :=
  if !hasValue && decide (len ≤ injectSize) then c.freeBuffer b
  else
    { c with
      postedSend := some b
      sendOutstanding := true
      inFlight := .io b :: c.inFlight }

def newValueBuffer (base : Nat) : ValueBuffer × Connection :=
  (⟨c.descriptors, base⟩, { c with descriptors := c.descriptors + 1 })

def postValueBuffer (v : ValueBuffer) : Connection :=
  { c with
    postedValue := some v
    valueOutstanding := true
    inFlight := .value v.id :: c.inFlight }

def setState (state : ConnState) : Connection := { c with state }

def postResponse (b len : Nat) (value : Option ValueBuffer) : Connection :=
  let c := c.postSendBuffer b len value.isSome
  let c := match value with
    | some v => { c with postedValue := some v }
    | none => c
  c.setState .postMsgRecv

def setPendingValue (base : Nat) : Connection :=
  let (v, c) := c.newValueBuffer base
  (c.postValueBuffer v).setState .waitRecvValue

def setPendingSendValue : Connection := c.setState .waitSendValue

def completionCallback (x : Context) : Except Exc Connection :=
  let c := { c with inFlight := c.inFlight.erase x }
  if c.postedRecv.map .io = some x then .ok { c with recvOutstanding := false }
  else if c.postedSend.map .io = some x then .ok { c with sendOutstanding := false }
  else if c.postedValue.map (fun v => .value v.id) = some x then .ok { c with valueOutstanding := false }
  else .error .unknownCompletionContext

def checkForPostedSendComplete : Bool × Connection :=
  if c.sendOutstanding then (false, c)
  else match c.postedSend with
    | some b => (true, { c.freeBuffer b with postedSend := none })
    | none => (true, c)

def checkForPostedRecvComplete : Bool := !c.recvOutstanding

def checkForPostedValueComplete : Bool × Bool × Connection :=
  if c.valueOutstanding then (false, false, c)
  else match c.postedValue with
    | some v => (true, true, { c with deferredUnlock := some v.base })
    | none => (true, false, c)

inductive CompletionState where
  | addedDeferredLock
  | noDefer
  | clientDisconnect
  | none
  deriving DecidableEq

def pollCompletions (completions : List Context) (disconnect : Bool) :
    Except Exc (CompletionState × Connection) :=
  if c.recvOutstanding || c.sendOutstanding || c.valueOutstanding then do
    let c ← completions.foldlM completionCallback c
    if disconnect then return (.clientDisconnect, c)
    else
      -- both tests are made only while the flag that a completion clears is still set
      let c := if c.sendOutstanding then c.checkForPostedSendComplete.2 else c
      let (_, added, c) := if c.valueOutstanding then c.checkForPostedValueComplete else (false, false, c)
      return (if added then .addedDeferredLock else .noDefer, c)
  else return (.none, c)

def addPendingAction (base : Nat) : Connection := { c with pendingActions := base :: c.pendingActions }

def checkNetworkCompletions (completions : List Context) (disconnect : Bool) :
    Except Exc (CompletionState × Connection) := do
  let (state, c) ← c.pollCompletions completions disconnect
  if state = .addedDeferredLock then
    match c.deferredUnlock with
    | some base => return (state, { c.addPendingAction base with deferredUnlock := none })
    | none => return (state, c)
  else return (state, c)

def Polls : Prop := c.recvOutstanding = true ∨ c.sendOutstanding = true ∨ c.valueOutstanding = true

instance : Decidable c.Polls := inferInstanceAs (Decidable (_ ∨ _ ∨ _))

theorem checkNetworkCompletions_eq (completions : List Context) (disconnect : Bool) :
    c.checkNetworkCompletions completions disconnect =
      if c.Polls then do
        let c ← completions.foldlM completionCallback c return (if disconnect then .clientDisconnect else .noDefer, c)
      else return (.none, c) := by
  unfold checkNetworkCompletions pollCompletions
  by_cases hpolls : c.Polls
  · have hflags : (c.recvOutstanding || c.sendOutstanding || c.valueOutstanding) = true := by
      simpa [Polls, or_assoc] using hpolls
    rw [if_pos hflags, if_pos hpolls]
    cases hfold : completions.foldlM completionCallback c with
    | error e => rfl
    | ok c' =>
      cases disconnect with
      | true => rfl
      | false =>
        have hsend : (if c'.sendOutstanding = true then c'.checkForPostedSendComplete.2 else c') = c' := by
          split
          · next h => simp [checkForPostedSendComplete, h]
          · rfl
        have hvalue : (if c'.valueOutstanding = true then c'.checkForPostedValueComplete
            else (false, false, c')) = (false, false, c') := by
          split
          · next h => simp [checkForPostedValueComplete, h]
          · rfl
        simp only [bind, Except.bind, Bool.false_eq_true, if_false, hsend, hvalue]
        rfl
  · have hflags : (c.recvOutstanding || c.sendOutstanding || c.valueOutstanding) = false := by
      simpa [Polls, and_assoc] using hpolls
    rw [if_neg hpolls, hflags]
    rfl

end Connection

inductive Message where
  | io (msg : IORequest)
  | ado
  | pool
  | info
  | closeSession
  deriving DecidableEq

/-- What a tick meets: the completions and whether the connection is closed, and the message that the
buffer holds if a receive is complete. -/
structure TickInput where
  completions : List Context
  disconnect : Bool
  message : Message

inductive TickResponse where
  | continue
  | close

def handshakeReplySize : Nat := 40

namespace Connection

def tickState (c : Connection) (message : Message) : Except Exc (TickResponse × Connection) :=
  match c.state with
  | .postMsgRecv => do
    let (b, c) ← c.allocate
    return (.continue, (c.postRecvBuffer b).setState .waitNewMsgRecv)
  | .waitNewMsgRecv =>
    if c.checkForPostedRecvComplete then
      match message with
      | .closeSession => return (.close, c.freeRecvBuffer)
      | _ =>
        return (.continue, { c with
          pendingMsgs := c.postedRecv.toList ++ c.pendingMsgs
          state := .postMsgRecv })
    else return (.continue, c)
  | .waitSendValue | .waitRecvValue =>
    let (complete, _, c) := c.checkForPostedValueComplete
    if complete then
      match c.postedValue with
      | some v =>
        return (.continue, { c.addPendingAction v.base with
          postedValue := none
          state := .postMsgRecv })
      | none => return (.continue, c.setState .postMsgRecv)
    else return (.continue, c)
  | .init => return (.continue, c.setState .postHandshake)
  | .postHandshake => do
    let (b, c) ← c.allocate
    return (.continue, (c.postRecvBuffer b).setState .waitHandshake)
  | .waitHandshake =>
    if c.checkForPostedRecvComplete then do
      -- the buffer of the handshake stays where it is
      let (b, c) ← c.allocate
      return (.continue,
        (c.postSendBuffer b handshakeReplySize false).setState .waitHandshakeResponseCompletion)
    else return (.continue, c)
  | .waitHandshakeResponseCompletion =>
    let (complete, c) := c.checkForPostedSendComplete
    return (.continue, if complete then c.setState .postMsgRecv else c)

def tick (c : Connection) (i : TickInput) : Except Exc (TickResponse × Connection) := do
  let (state, c) ← c.checkNetworkCompletions i.completions i.disconnect
  if state = .clientDisconnect then return (.close, c)
  else c.tickState i.message

def Disconnects (c : Connection) (i : TickInput) : Prop := i.disconnect = true ∧ c.Polls

instance (c : Connection) (i : TickInput) : Decidable (c.Disconnects i) :=
  inferInstanceAs (Decidable (_ ∧ _))

theorem tick_of_poll {c c₁ : Connection} {i : TickInput} {st : CompletionState}
    (hpoll : c.checkNetworkCompletions i.completions i.disconnect = .ok (st, c₁)) :
    c.tick i = if st = .clientDisconnect then .ok (.close, c₁) else c₁.tickState i.message := by
  unfold tick
  rw [hpoll]
  rfl

theorem tick_of_error {c : Connection} {i : TickInput} {e : Exc}
    (hpoll : c.checkNetworkCompletions i.completions i.disconnect = .error e) : c.tick i = .error e := by
  unfold tick
  rw [hpoll]
  rfl

end Connection

end Comanche.Dawn
