import Comanche.Dawn.Shard
import Comanche.Lib.Run

/-!
# The loop of a shard

What `Shard::main_loop` does with one session.
-/

namespace Comanche.Dawn

inductive Reply where
  | io (msg : IORequest) (authId : Nat) (buf : IOResponse) (a : StoreAnswer)
  /-- `process_message_pool_request`, with a response of this length. -/
  | pool (len : Nat)
  /-- `process_info_request`, with a response of this length. -/
  | info (len : Nat)
  /-- `INFO_TYPE_FIND_KEY`: a task responds later. -/
  | findKey
  /-- `process_ado_request`: an error of this length, or the work is sent to the ADO process. -/
  | ado (error : Option Nat)

inductive SessionEvent where
  | tick (i : TickInput)
  | message (r : Reply)
  /-- A response from `process_tasks` or `process_messages_from_ado`. -/
  | later (len : Nat)

inductive SessionOutcome where
  | next (w : Work)
  | closed (w : Work)
  | threw (e : Exc)

def SessionOutcome.running : SessionOutcome → Option Work
  | next w => some w
  | _ => none

def SessionOutcome.returns : SessionOutcome → Bool
  | threw _ => false
  | _ => true

namespace Work

variable (w : Work)

def outcome : Work × Option Exc → SessionOutcome
  | (w, none) => .next w
  | (_, some e) => .threw e

def releaseAll (w : Work) : List Nat → Work × Option Exc
  | [] => (w, none)
  | base :: rest =>
    match w.releaseLockedValue base with
    | (w, none) => w.releaseAll rest
    | (w, some e) => (w, some e)

def processActions : Work × Option Exc :=
  { w with conn := { w.conn with pendingActions := [] } }.releaseAll w.conn.pendingActions

/-- A buffer is allocated and posted without a change of the state. -/
def send (len : Nat) : Work × Option Exc :=
  match w.conn.allocate with
  | .error e => (w, some e)
  | .ok (iob, conn) => ({ w with conn := conn.postSendBuffer iob len false }, none)

def processMessage : Reply → Work × Option Exc
  | .io m authId buf a => w.processMessageIORequest authId buf m a
  | .pool len =>
    match w.conn.allocate with
    | .error e => (w, some e)
    | .ok (iob, conn) => ({ w with conn := conn.postResponse iob len none }, none)
  | .info len | .ado (some len) => w.send len
  | .findKey => (w, none)
  | .ado none =>
    match w.conn.allocate with
    | .error e => (w, some e)
    | .ok (iob, conn) => ({ w with conn := conn.freeBuffer iob }, none)

def answer (r : Reply) : Work × Option Exc :=
  match { w with conn := { w.conn with pendingMsgs := w.conn.pendingMsgs.tail } }.processMessage r with
  | (w, none) => ({ w with conn := w.conn.freeRecvBuffer }, none)
  | (w, some e) => (w, some e)

/-- A session that is closed still has its deferred actions done. -/
def tick (i : TickInput) : SessionOutcome :=
  match w.conn.tick i with
  | .error e => .threw e
  | .ok (response, conn) =>
    match { w with conn }.processActions with
    | (_, some e) => .threw e
    | (w, none) => match response with
      | .continue => .next w
      | .close => .closed w

/-- All messages are processed before the next tick: an event whose turn it is not does nothing. -/
def step (w : Work) (e : SessionEvent) : SessionOutcome :=
  match w.conn.pendingMsgs, e with
  | [], .tick i => w.tick i
  | _ :: _, .message r => outcome (w.answer r)
  | [], .later len => outcome (w.send len)
  | _, _ => .next w

/-- Every event of a session meets `P`, until it is closed or throws. -/
abbrev Session (P : Work → SessionEvent → Prop) : Work → List SessionEvent → Prop :=
  Comanche.Lib.Throughout (fun w e => (w.step e).running) P

end Work

end Comanche.Dawn
