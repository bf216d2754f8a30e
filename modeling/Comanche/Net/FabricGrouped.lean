import Comanche.Lib.Places
import Comanche.Net.FabricCq

/-!
# Grouped communicators

The communicators of a grouped connection share its two completion queues.
-/

namespace Comanche.Net.FabricGrouped

open Lib
open Function (update update_of_ne update_self)

inductive Side where
  | rx
  | tx
  deriving DecidableEq

structure Cq where
  comm : Nat
  side : Side
  deriving DecidableEq

structure Record where
  cq : Cq
  context : Nat
  deriving DecidableEq

/-- The overloads of `post_send`, `post_recv`, `post_read` and `post_write`: with descriptors, or with a vector of
buffers. -/
inductive Post where
  | sendDesc
  | sendVec
  | recvDesc
  | recvVec
  | readDesc
  | readVec
  | writeDesc
  | writeVec
  deriving DecidableEq

def Post.owner : Post → Side
  | .sendDesc | .sendVec => .tx
  | .recvDesc | .recvVec => .rx
  | .readDesc | .readVec => .tx
  | .writeDesc | .writeVec => .tx

/-- The queue of the connection in which the completion arrives. `post_recv` with descriptors calls
`post_send`. -/
def Post.arrives : Post → Side
  | .sendDesc | .sendVec => .tx
  | .recvDesc => .tx
  | .recvVec => .rx
  | .readDesc | .readVec => .tx
  | .writeDesc | .writeVec => .tx

structure Op where
  comm : Nat
  post : Post
  record : Record
  deriving DecidableEq

def recordOf (c : Completion) : Nat := c.entry.opContext

def tentative : Callback → Bool
  | .completeOld | .completeDefinite | .completeParamDefinite _ => false
  | .completeTentative | .completeParamTentative _ => true

/-- A call back of communicator `comm` for the completion of a record. -/
structure Offer where
  comm : Nat
  record : Nat
  args : Args
  accepted : Bool

inductive Pc where
  | idle
  | draining (cb : Callback) (side : Side) (deferred : List Completion)
  | popped (cb : Callback) (side : Side) (deferred : List Completion) (c : Completion)
  | reading (cb : Callback) (side : Side)
  /-- `FI_EAVAIL`: about to call `get_cq_comp_err`. -/
  | failed (cb : Callback) (side : Side)
  | got (cb : Callback) (side : Side) (c : Completion)
  | queueing (cb : Callback) (side : Side) (c : Completion)
  | handed (cb : Callback) (side : Side) (c : Completion)
  deriving DecidableEq

/-- `freed` and `lost` are the records that were deleted, and those for which no owner was found. `fault`
is set when a deleted record is read. -/
structure State where
  comms : List Nat
  members : Side → List Cq
  ops : List Op
  outstanding : List Nat
  fabric : Side → List Completion
  completions : Cq → List Completion
  pc : Nat → Pc
  offers : List Offer
  freed : List Nat
  lost : List Nat
  fault : Bool

def State.start : State :=
  ⟨[], fun _ => [], [], [], fun _ => [], fun _ => [], fun _ => .idle, [], [], [], false⟩

namespace State

def setPc (s : State) (i : Nat) (p : Pc) : State := { s with pc := update s.pc i p }

def setFabric (s : State) (side : Side) (cs : List Completion) : State :=
  { s with fabric := update s.fabric side cs }

def setCompletions (s : State) (cq : Cq) (cs : List Completion) : State :=
  { s with completions := update s.completions cq cs }

def offer (s : State) (i : Nat) (cb : Callback) (record : Record) (c : Completion) (accepted : Bool) : State :=
  { s with
    offers := s.offers ++
      [⟨i, recordOf c, cb.args ⟨c.status, { c.entry with opContext := record.context }⟩, accepted⟩] }

def free (s : State) (r : Nat) : State := { s with freed := s.freed ++ [r] }

def corrupt (s : State) : State := { s with fault := true }

/-- `queue_completion` throws, and the `unique_ptr` deletes the record. -/
def ownerless (s : State) (r : Nat) : State := { s with freed := s.freed ++ [r], lost := s.lost ++ [r] }

def deref (s : State) (r : Nat) : Option Record := if r ∈ s.freed then none else (s.ops[r]?).map Op.record

end State

def Defers (cb : Callback) (accept : Bool) : Prop := tentative cb = true ∧ accept = false

instance (cb : Callback) (accept : Bool) : Decidable (Defers cb accept) := inferInstanceAs (Decidable (_ ∧ _))

/-- `drain_old_completions` with the lock: the next completion, or the end of the loop. -/
def drainOldCompletions (i : Nat) (cb : Callback) (side : Side) (deferred : List Completion) (s : State) :
    List Completion → State
  | [] =>
    -- the tentative variants drain last, the others first
    (s.setCompletions ⟨i, side⟩ deferred).setPc i (if tentative cb then .idle else .reading cb side)
  | c :: cs => (s.setCompletions ⟨i, side⟩ cs).setPc i (.popped cb side deferred c)

def offerOld (i : Nat) (cb : Callback) (side : Side) (deferred : List Completion) (c : Completion) (accept : Bool)
    (s : State) : Option Record → State
  | none => s.corrupt
  | some record =>
    if Defers cb accept then (s.offer i cb record c false).setPc i (.draining cb side (deferred ++ [c]))
    else ((s.offer i cb record c true).free (recordOf c)).setPc i (.draining cb side deferred)

def cqRead (i : Nat) (cb : Callback) (side : Side) (s : State) : List Completion → State
  | [] => s.setPc i (if tentative cb then .draining cb side [] else .idle)
  | c :: cs =>
    if c.status = .fail then s.setPc i (.failed cb side)
    else (s.setFabric side cs).setPc i (.got cb side c)

def getCqCompErr (i : Nat) (cb : Callback) (side : Side) (s : State) : List Completion → State
  | [] => s.setPc i .idle
  | c :: cs =>
    if c.status = .fail then (s.setFabric side cs).setPc i (.got cb side c)
    else s.setPc i .idle

def processOrQueueCompletion (i : Nat) (cb : Callback) (side : Side) (c : Completion) (accept : Bool) (s : State) :
    Option Record → State
  | none => s.corrupt
  | some record =>
    if record.cq = ⟨i, side⟩ then
      if Defers cb accept then (s.offer i cb record c false).setPc i (.queueing cb side c)
      else ((s.offer i cb record c true).free (recordOf c)).setPc i (.reading cb side)
    else s.setPc i (.queueing cb side c)

def queueCompletion (i : Nat) (cb : Callback) (side : Side) (c : Completion) (s : State) : Option Record → State
  | none => s.corrupt
  | some record =>
    if record.cq ∈ s.members side then
      -- the definite variants release the record without another look
      (s.setCompletions record.cq (s.completions record.cq ++ [c])).setPc i
        (if tentative cb then .handed cb side c else .reading cb side)
    else (s.ownerless (recordOf c)).setPc i .idle

/-- The tentative variants read `g_context->cq()` for the statistics before they release the record. -/
def redirected (i : Nat) (cb : Callback) (side : Side) (s : State) : Option Record → State
  | none => s.corrupt
  | some _ => s.setPc i (.reading cb side)

def advance (i : Nat) (accept : Bool) (s : State) : Pc → Option State
  | .idle => none
  | .draining cb side deferred => some (drainOldCompletions i cb side deferred s (s.completions ⟨i, side⟩))
  | .popped cb side deferred c => some (offerOld i cb side deferred c accept s (s.deref (recordOf c)))
  | .reading cb side => some (cqRead i cb side s (s.fabric side))
  | .failed cb side => some (getCqCompErr i cb side s (s.fabric side))
  | .got cb side c => some (processOrQueueCompletion i cb side c accept s (s.deref (recordOf c)))
  | .queueing cb side c => some (queueCompletion i cb side c s (s.deref (recordOf c)))
  | .handed cb side c => some (redirected i cb side s (s.deref (recordOf c)))

/-- `interrupted` is a `cq_read` that returns `FI_EINTR`. -/
inductive Event where
  | allocateGroup (i : Nat)
  | post (i : Nat) (p : Post) (context : Nat)
  | complete (r : Nat) (status : Status) (flags len buf data : Nat)
  | poll (i : Nat) (cb : Callback) (side : Side)
  | run (i : Nat) (accept : Bool)
  | interrupted (i : Nat)

def allocateGroup (i : Nat) (s : State) : State :=
  { s with
    comms := s.comms ++ [i]
    members := fun side => s.members side ++ [⟨i, side⟩] }

def post (i : Nat) (p : Post) (context : Nat) (s : State) : State :=
  { s with
    ops := s.ops ++ [⟨i, p, ⟨⟨i, p.owner⟩, context⟩⟩]
    outstanding := s.outstanding ++ [s.ops.length] }

def complete (c : Completion) (s : State) (op : Op) : State :=
  { s with
    outstanding := s.outstanding.erase (recordOf c)
    fabric := update s.fabric op.post.arrives (s.fabric op.post.arrives ++ [c]) }

def startOf (cb : Callback) (side : Side) : Pc :=
  if tentative cb then .reading cb side else .draining cb side []

def Pc.isReading : Pc → Bool
  | .reading _ _ => true
  | _ => false

def stepAlive (s : State) : Event → Option State
  | .allocateGroup i => if i ∈ s.comms then none else some (allocateGroup i s)
  | .post i p context => if i ∈ s.comms then some (post i p context s) else none
  | .complete r status flags len buf data =>
    if r ∈ s.outstanding then (s.ops[r]?).map (complete ⟨status, ⟨r, flags, len, buf, data⟩⟩ s) else none
  | .poll i cb side => if i ∈ s.comms ∧ s.pc i = .idle then some (s.setPc i (startOf cb side)) else none
  | .run i accept => advance i accept s (s.pc i)
  | .interrupted i => if (s.pc i).isReading then some s else none

def step (s : State) (e : Event) : Option State := if s.fault then none else stepAlive s e

def State.accepted (s : State) : List Nat := (s.offers.filter Offer.accepted).map Offer.record

/-- Completions are offered to the communicator that posted the operation, with its context; none is accepted
twice; the records deleted are those accepted; no deleted record is read, and every owner is found. -/
structure State.Delivers (s : State) : Prop where
  offered : ∀ o ∈ s.offers, ∃ op ∈ s.ops[o.record]?, op.comm = o.comm ∧ o.args.context = op.record.context
  once : s.accepted.Nodup
  freed : s.freed = s.accepted
  fault : s.fault = false
  owned : s.lost = []

def Holds (s : State) (e : Event) : Prop := ∀ s' ∈ step s e, s'.Delivers

def Pc.releasing : Pc → Option Nat
  | .handed _ _ c => some (recordOf c)
  | _ => none

def Released (s : State) (accept : Bool) : Pc → Prop
  | .popped cb _ _ c => Defers cb accept ∨ ∀ j ∈ s.comms, (s.pc j).releasing ≠ some (recordOf c)
  | _ => True

instance (s : State) (accept : Bool) : ∀ p, Decidable (Released s accept p)
  | .popped _ _ _ _ => inferInstanceAs (Decidable (_ ∨ _))
  | .idle | .draining _ _ _ | .reading _ _ | .failed _ _ | .got _ _ _ | .queueing _ _ _ | .handed _ _ _ => isTrue trivial

/-- No receive is posted with descriptors, and no record is deleted under the hands of another thread. -/
def Safe (s : State) : Event → Prop
  | .post _ p _ => p ≠ .recvDesc
  | .run i accept => Released s accept (s.pc i)
  | _ => True

instance (s : State) (e : Event) : Decidable (Safe s e) := by
  unfold Safe
  split <;> infer_instance

/-- An operation is outstanding, or its completion is in a queue of the connection, with a thread, in the queue of its
owner, with a drain, or done. -/
inductive Place where
  | outstanding
  | fabric (side : Side)
  | hand (i : Nat)
  | queue (cq : Cq)
  | drain (i : Nat)
  | done
  deriving DecidableEq

def Place.Kept : Place → Prop
  | .queue _ | .drain _ => True
  | _ => False

def Pc.inHand : Pc → List Completion
  | .got _ _ c | .queueing _ _ c => [c]
  | _ => []

def Pc.drained : Pc → List Completion
  | .draining _ _ deferred => deferred
  | .popped _ _ deferred c => deferred ++ [c]
  | _ => []

def State.held (s : State) : Place → List Nat
  | .outstanding => s.outstanding
  | .fabric side => (s.fabric side).map recordOf
  | .hand i => (s.pc i).inHand.map recordOf
  | .queue cq => (s.completions cq).map recordOf
  | .drain i => (s.pc i).drained.map recordOf
  | .done => s.freed

open Placed

section Moves

variable {s : State} {i : Nat} {p : Pc} {c : Completion} {cs : List Completion} {cq : Cq} {side : Side} {x : Place}

attribute [local simp] State.held State.setPc State.setCompletions State.setFabric State.free

theorem held_setPc_hand (s : State) (i : Nat) (p : Pc) : (s.setPc i p).held (.hand i) = p.inHand.map recordOf := by
  simp

theorem held_setPc_drain (s : State) (i : Nat) (p : Pc) : (s.setPc i p).held (.drain i) = p.drained.map recordOf := by
  simp

theorem held_setPc_of_ne (hhand : x ≠ .hand i) (hdrain : x ≠ .drain i) : (s.setPc i p).held x = s.held x := by
  cases x with
  | hand j =>
    have hj : j ≠ i := fun h => hhand (congrArg _ h)
    simp [hj]
  | drain j =>
    have hj : j ≠ i := fun h => hdrain (congrArg _ h)
    simp [hj]
  | _ => rfl

theorem held_setPc_of_drained (hx : x ≠ .hand i) (hdrain : p.drained = (s.pc i).drained) :
    (s.setPc i p).held x = s.held x := by
  by_cases hx' : x = .drain i
  · subst hx'
    rw [held_setPc_drain, hdrain]
    rfl
  · exact held_setPc_of_ne hx hx'

theorem held_setPc_of_inHand (hx : x ≠ .drain i) (hhand : p.inHand = (s.pc i).inHand) :
    (s.setPc i p).held x = s.held x := by
  by_cases hx' : x = .hand i
  · subst hx'
    rw [held_setPc_hand, hhand]
    rfl
  · exact held_setPc_of_ne hx' hx

theorem held_setPc (hhand : p.inHand = (s.pc i).inHand) (hdrain : p.drained = (s.pc i).drained) (x : Place) :
    (s.setPc i p).held x = s.held x := by
  by_cases hx : x = .drain i
  · exact held_setPc_of_drained (hx ▸ nofun) hdrain
  · exact held_setPc_of_inHand hx hhand

theorem held_setFabric_of_ne (hx : x ≠ .fabric side) : (s.setFabric side cs).held x = s.held x := by
  cases x with
  | fabric side' =>
    have hside : side' ≠ side := fun h => hx (congrArg _ h)
    simp [hside]
  | _ => rfl

theorem held_setCompletions_of_ne (hx : x ≠ .queue cq) : (s.setCompletions cq cs).held x = s.held x := by
  cases x with
  | queue cq' =>
    have hcq : cq' ≠ cq := fun h => hx (congrArg _ h)
    simp [hcq]
  | _ => rfl

theorem held_free_of_ne {r : Nat} (hx : x ≠ .done) : (s.free r).held x = s.held x := by
  cases x with
  | done => exact absurd rfl hx
  | _ => rfl

theorem held_offer (s : State) (i : Nat) (cb : Callback) (record : Record) (c : Completion) (accepted : Bool)
    (x : Place) : (s.offer i cb record c accepted).held x = s.held x := by
  cases x <;> rfl

theorem moves_complete (op : Op) (hr : recordOf c ∈ s.outstanding) :
    Moves .outstanding (.fabric op.post.arrives) [recordOf c] s.held (complete c s op).held := by
  refine ⟨nofun, List.perm_cons_erase hr, ?_, fun x hx hx' => ?_⟩
  · simp [complete]
  · -- all but the outstanding operations are as in `setFabric`
    have hfabric : (s.setFabric op.post.arrives (s.fabric op.post.arrives ++ [c])).held x = s.held x :=
      held_setFabric_of_ne hx'
    rw [← hfabric]
    cases x with
    | outstanding => exact absurd rfl hx
    | _ => rfl

theorem moves_read (hs : s.fabric side = c :: cs) (hhand : (s.pc i).inHand = []) (hp : p.inHand = [c])
    (hdrain : p.drained = (s.pc i).drained) :
    Moves (.fabric side) (.hand i) [recordOf c] s.held ((s.setFabric side cs).setPc i p).held := by
  refine ⟨nofun, ?_, ?_, fun x hx hx' => ?_⟩
  · simp [hs]
  · simp [hhand, hp]
  · exact Eq.trans (held_setPc_of_drained hx' hdrain) (held_setFabric_of_ne hx)

theorem moves_queue (cq : Cq) (hhand : (s.pc i).inHand = [c]) (hp : p.inHand = []) (hdrain : p.drained = (s.pc i).drained) :
    Moves (.hand i) (.queue cq) [recordOf c] s.held
      ((s.setCompletions cq (s.completions cq ++ [c])).setPc i p).held := by
  refine ⟨nofun, ?_, ?_, fun x hx hx' => ?_⟩
  · simp [hhand, hp]
  · simp
  · exact Eq.trans (held_setPc_of_drained hx hdrain) (held_setCompletions_of_ne hx')

theorem moves_pop (hs : s.completions cq = c :: cs) (hhand : p.inHand = (s.pc i).inHand)
    (hdrain : p.drained = (s.pc i).drained ++ [c]) :
    Moves (.queue cq) (.drain i) [recordOf c] s.held ((s.setCompletions cq cs).setPc i p).held := by
  refine ⟨nofun, ?_, ?_, fun x hx hx' => ?_⟩
  · simp [hs]
  · simp [hdrain]
  · exact Eq.trans (held_setPc_of_inHand hx' hhand) (held_setCompletions_of_ne hx)

theorem moves_swap (hs : s.completions cq = []) (hhand : p.inHand = (s.pc i).inHand) (hdrain : p.drained = []) :
    Moves (.drain i) (.queue cq) ((s.pc i).drained.map recordOf) s.held
      ((s.setCompletions cq (s.pc i).drained).setPc i p).held := by
  refine ⟨nofun, ?_, ?_, fun x hx hx' => ?_⟩
  · simp [hdrain]
  · simp [hs]
  · exact Eq.trans (held_setPc_of_inHand hx hhand) (held_setCompletions_of_ne hx')

theorem moves_accept {r : Nat} (hhand : (s.pc i).inHand = [c]) (hr : recordOf c = r) (hp : p.inHand = [])
    (hdrain : p.drained = (s.pc i).drained) : Moves (.hand i) .done [r] s.held ((s.free r).setPc i p).held := by
  subst hr
  refine ⟨nofun, ?_, ?_, fun x hx hx' => ?_⟩
  · simp [hhand, hp]
  · simp
  · exact Eq.trans (held_setPc_of_drained hx hdrain) (held_free_of_ne hx')

theorem moves_acceptOld (hhand : p.inHand = (s.pc i).inHand) (hdrain : (s.pc i).drained = p.drained ++ [c]) :
    Moves (.drain i) .done [recordOf c] s.held ((s.free (recordOf c)).setPc i p).held := by
  refine ⟨nofun, ?_, ?_, fun x hx hx' => ?_⟩
  · simp [hdrain]
  · simp
  · exact Eq.trans (held_setPc_of_inHand hx hhand) (held_free_of_ne hx')

end Moves

def Owns (ops : List Op) (cq : Cq) (c : Completion) : Prop := ∃ op ∈ ops[recordOf c]?, op.record.cq = cq

def Arrives (ops : List Op) (side : Side) (c : Completion) : Prop := ∃ op ∈ ops[recordOf c]?, op.post.arrives = side

def PcOk (ops : List Op) (i : Nat) : Pc → Prop
  | .draining _ side deferred => ∀ c ∈ deferred, Owns ops ⟨i, side⟩ c
  | .popped _ side deferred c => ∀ x ∈ deferred ++ [c], Owns ops ⟨i, side⟩ x
  | .got _ side c | .queueing _ side c => Arrives ops side c
  | .idle | .reading _ _ | .failed _ _ | .handed _ _ _ => True

structure Inv (s : State) : Prop where
  placed : Placed (· < s.ops.length) s.held
  ops : ∀ op ∈ s.ops, op.record.cq = ⟨op.comm, op.post.arrives⟩ ∧ op.comm ∈ s.comms
  members : ∀ i ∈ s.comms, ∀ side, ⟨i, side⟩ ∈ s.members side
  fabric : ∀ side, ∀ c ∈ s.fabric side, Arrives s.ops side c
  queue : ∀ cq, ∀ c ∈ s.completions cq, Owns s.ops cq c
  pc : ∀ i, PcOk s.ops i (s.pc i)
  polling : ∀ i, s.pc i ≠ .idle → i ∈ s.comms
  /-- Until it lets go of a record, a thread knows that the owner still has it. -/
  releasing : ∀ i r, (s.pc i).releasing = some r → r < s.ops.length ∧ ∀ x, r ∈ s.held x → x.Kept
  delivers : s.Delivers

section Invariant

variable {s s' : State} {i : Nat} {p : Pc} {c : Completion} {cs : List Completion} {cq : Cq} {side : Side}
  {x : Place} {r : Nat} {op : Op} {accept : Bool} {e : Event}

theorem inv_start : Inv .start := by
  refine ⟨⟨fun x => ?_, fun x r hr => ?_, fun x y r hx _ => ?_, fun r hr => absurd hr (Nat.not_lt_zero r)⟩, nofun, nofun,
    nofun, nofun, fun _ => trivial, fun _ h => absurd rfl h, nofun, ⟨nofun, List.nodup_nil, rfl, rfl, rfl⟩⟩
  · cases x <;> exact List.nodup_nil
  · cases x <;> cases hr
  · cases x <;> cases hx

theorem State.Delivers.congr (h : s.Delivers) (hops : s'.ops = s.ops) (hoffers : s'.offers = s.offers)
    (hfreed : s'.freed = s.freed) (hfault : s'.fault = s.fault) (hlost : s'.lost = s.lost) : s'.Delivers := by
  have haccepted : s'.accepted = s.accepted := by
    unfold State.accepted
    rw [hoffers]
  refine ⟨?_, haccepted ▸ h.once, ?_, hfault ▸ h.fault, hlost ▸ h.owned⟩
  · rw [hops, hoffers]
    exact h.offered
  · rw [hfreed, haccepted]
    exact h.freed

theorem Owns.append (h : Owns s.ops cq c) (op : Op) : Owns (s.ops ++ [op]) cq c := by
  obtain ⟨op', hop', hcq⟩ := h
  exact ⟨op', List.getElem?_append_left (List.getElem?_eq_some_iff.mp hop').1 ▸ hop', hcq⟩

theorem Arrives.append (h : Arrives s.ops side c) (op : Op) : Arrives (s.ops ++ [op]) side c := by
  obtain ⟨op', hop', hside⟩ := h
  exact ⟨op', List.getElem?_append_left (List.getElem?_eq_some_iff.mp hop').1 ▸ hop', hside⟩

theorem PcOk.append (h : PcOk s.ops i p) (op : Op) : PcOk (s.ops ++ [op]) i p := by
  cases p with
  | draining cb side deferred => exact fun c hc => (h c hc).append op
  | popped cb side deferred c => exact fun x hx => (h x hx).append op
  | got cb side c => exact h.append op
  | queueing cb side c => exact h.append op
  | _ => trivial

theorem Inv.deref_eq (h : Inv s) (hr : r ∈ s.held x) (hx : x ≠ .done) (hop : op ∈ s.ops[r]?) :
    s.deref r = some op.record := by
  have hfreed : r ∉ s.freed := fun hdone => hx (h.placed.unique _ _ r hr hdone)
  unfold State.deref
  rw [if_neg hfreed, show s.ops[r]? = some op from hop]
  rfl

theorem kept_of_moves {x y : Place} {xs : List Nat} (hplaced : Placed (· < s.ops.length) s.held)
    (hm : Moves x y xs s.held s'.held) (hr : ∀ z, r ∈ s.held z → z.Kept) (hkept : r ∈ xs → x.Kept → y.Kept) :
    ∀ z, r ∈ s'.held z → z.Kept := by
  intro z hz
  by_cases hxs : r ∈ xs
  · rw [hm.eq_target hplaced hxs hz]
    exact hkept hxs (hr x (hm.mem_source hxs))
  · exact hr z ((hm.mem_iff hxs z).mp hz)

inductive Hop : Event → Place → Place → Prop
  | arrive (r : Nat) (status : Status) (flags len buf data : Nat) (side : Side) :
    Hop (.complete r status flags len buf data) .outstanding (.fabric side)
  | read (i : Nat) (accept : Bool) (side : Side) : Hop (.run i accept) (.fabric side) (.hand i)
  | queue (i : Nat) (accept : Bool) (cq : Cq) : Hop (.run i accept) (.hand i) (.queue cq)
  | accept (i : Nat) (accept : Bool) : Hop (.run i accept) (.hand i) .done
  | pop (i : Nat) (accept : Bool) (side : Side) : Hop (.run i accept) (.queue ⟨i, side⟩) (.drain i)
  | swap (i : Nat) (accept : Bool) (side : Side) : Hop (.run i accept) (.drain i) (.queue ⟨i, side⟩)
  | acceptOld (i : Nat) (accept : Bool) : Hop (.run i accept) (.drain i) .done

inductive Follows (s : State) (e : Event) (s' : State) : Prop
  | same (h : ∀ x, s'.held x = s.held x)
  | post (hnew : s'.held .outstanding = s.held .outstanding ++ [s.ops.length])
    (h : ∀ x, x ≠ .outstanding → s'.held x = s.held x)
  | move (x y : Place) (xs : List Nat) (hop : Hop e x y) (h : Moves x y xs s.held s'.held)

/-- The invariant is kept, and the completions go where the event sends them. -/
def Steps (s : State) (e : Event) (s' : State) : Prop := Inv s' ∧ Follows s e s'

structure Frame (i : Nat) (s s' : State) : Prop where
  ops : s'.ops = s.ops
  comms : s'.comms = s.comms
  members : s'.members = s.members
  pc : ∀ j, j ≠ i → s'.pc j = s.pc j
  fabric : ∀ side, s'.fabric side ⊆ s.fabric side

theorem Inv.thread (h : Inv s) (hf : Frame i s s') (hi : i ∈ s.comms) (hplaced : Placed (· < s.ops.length) s'.held)
    (hqueue : ∀ cq, ∀ c ∈ s'.completions cq, Owns s.ops cq c) (hpc : PcOk s.ops i (s'.pc i))
    (hold : ∀ j r, (s.pc j).releasing = some r → (∀ x, r ∈ s.held x → x.Kept) → ∀ x, r ∈ s'.held x → x.Kept)
    (hnew : ∀ r, (s'.pc i).releasing = some r → r < s.ops.length ∧ ∀ x, r ∈ s'.held x → x.Kept)
    (hdelivers : s'.Delivers) : Inv s' := by
  refine ⟨hf.ops ▸ hplaced, ?_, ?_, fun side c hc => ?_, hf.ops ▸ hqueue, fun j => ?_, fun j hj => ?_, fun j r hr => ?_,
    hdelivers⟩
  · rw [hf.ops, hf.comms]
    exact h.ops
  · rw [hf.comms, hf.members]
    exact h.members
  · rw [hf.ops]
    exact h.fabric side c (hf.fabric side hc)
  · rw [hf.ops]
    by_cases hj : j = i
    · exact hj ▸ hpc
    · exact hf.pc j hj ▸ h.pc j
  · rw [hf.comms]
    by_cases hji : j = i
    · exact hji ▸ hi
    · exact h.polling j (hf.pc j hji ▸ hj)
  · rw [hf.ops]
    by_cases hj : j = i
    · exact hnew r (hj ▸ hr)
    · rw [hf.pc j hj] at hr
      obtain ⟨hlt, hkept⟩ := h.releasing j r hr
      exact ⟨hlt, hold j r hr hkept⟩

theorem frame_setPc (s : State) (i : Nat) (p : Pc) : Frame i s (s.setPc i p) :=
  ⟨rfl, rfl, rfl, fun _ hj => update_of_ne hj _ _, fun _ => List.Subset.refl _⟩

theorem pc_setPc (s : State) (i : Nat) (p : Pc) : (s.setPc i p).pc i = p := update_self _ _ _

theorem Inv.goto (h : Inv s) (hi : i ∈ s.comms) (hhand : p.inHand = (s.pc i).inHand)
    (hdrain : p.drained = (s.pc i).drained) (hok : PcOk s.ops i p) (hrel : p.releasing = none) : Inv (s.setPc i p) := by
  have hsame := held_setPc hhand hdrain
  refine h.thread (frame_setPc s i p) hi (h.placed.congr hsame) h.queue ?_ (fun _ r _ hkept x hx => ?_) (fun r hr => ?_)
    (h.delivers.congr rfl rfl rfl rfl rfl)
  · rw [pc_setPc]
    exact hok
  · exact hkept x (hsame x ▸ hx)
  · rw [pc_setPc, hrel] at hr
    cases hr

theorem args_context (cb : Callback) (c : Completion) : (cb.args c).context = c.entry.opContext := by
  cases cb <;> rfl

theorem Inv.offer (h : Inv s) (cb : Callback) (hop : op ∈ s.ops[recordOf c]?) (hcomm : op.comm = i) :
    ∀ o ∈ (s.offer i cb op.record c accept).offers,
      ∃ op ∈ s.ops[o.record]?, op.comm = o.comm ∧ o.args.context = op.record.context := by
  intro o ho
  obtain ho | ho := List.mem_append.mp ho
  · exact h.delivers.offered o ho
  · obtain rfl := List.mem_singleton.mp ho
    exact ⟨op, hop, hcomm, args_context _ _⟩

theorem Inv.offer_false (h : Inv s) (cb : Callback) (hop : op ∈ s.ops[recordOf c]?) (hcomm : op.comm = i) :
    Inv (s.offer i cb op.record c false) := by
  have hsame := held_offer s i cb op.record c false
  have haccepted : (s.offer i cb op.record c false).accepted = s.accepted := by
    simp [State.accepted, State.offer]
  refine ⟨h.placed.congr hsame, h.ops, h.members, h.fabric, h.queue, h.pc, h.polling, fun j r hr => ?_, ?_⟩
  · obtain ⟨hlt, hkept⟩ := h.releasing j r hr
    exact ⟨hlt, fun x hx => hkept x (hsame x ▸ hx)⟩
  · refine ⟨h.offer cb hop hcomm, ?_, ?_, h.delivers.fault, h.delivers.owned⟩
    · rw [haccepted]
      exact h.delivers.once
    · rw [haccepted]
      exact h.delivers.freed

theorem Inv.offer_true (h : Inv s) (cb : Callback) (hi : i ∈ s.comms) (hop : op ∈ s.ops[recordOf c]?) (hcomm : op.comm = i)
    (hm : Moves x .done [recordOf c] s.held (((s.offer i cb op.record c true).free (recordOf c)).setPc i p).held)
    (hok : PcOk s.ops i p) (hrel : p.releasing = none)
    (hsafe : x.Kept → ∀ j ∈ s.comms, (s.pc j).releasing ≠ some (recordOf c)) :
    Inv (((s.offer i cb op.record c true).free (recordOf c)).setPc i p) := by
  have hplaced := h.placed.move hm
  refine h.thread ⟨rfl, rfl, rfl, (frame_setPc s i p).pc, fun _ => List.Subset.refl _⟩ hi hplaced h.queue ?_ ?_
    (fun r hr => ?_) ⟨h.offer cb hop hcomm, ?_, ?_, h.delivers.fault, h.delivers.owned⟩
  · rw [pc_setPc]
    exact hok
  · -- a thread that has yet to release the record would keep the owner from accepting it
    intro j r hr hkept
    refine kept_of_moves h.placed hm hkept fun hxs hx => ?_
    have hj : j ∈ s.comms := h.polling j fun hidle => by rw [hidle] at hr; cases hr
    exact absurd (List.mem_singleton.mp hxs ▸ hr) (hsafe hx j hj)
  · rw [pc_setPc, hrel] at hr
    cases hr
  · have hfresh : recordOf c ∉ s.accepted := by
      rw [← h.delivers.freed]
      exact fun hdone => hm.ne (h.placed.unique _ _ _ (hm.mem_source (List.mem_singleton_self _)) hdone)
    have haccepted : (s.accepted ++ [recordOf c]).Nodup :=
      h.delivers.once.append (List.nodup_singleton _) (List.disjoint_singleton.mpr hfresh)
    simpa [State.accepted, State.offer, State.free, State.setPc] using haccepted
  · simpa [State.accepted, State.offer, State.free, State.setPc] using h.delivers.freed

theorem Inv.at (h : Inv s) (hpc : s.pc i = p) (hp : p ≠ .idle) :
    i ∈ s.comms ∧ (s.pc i).inHand = p.inHand ∧ (s.pc i).drained = p.drained ∧ PcOk s.ops i p :=
  hpc ▸ ⟨h.polling i (hpc ▸ hp), rfl, rfl, h.pc i⟩

theorem frame_setCompletions (s : State) (i : Nat) (cq : Cq) (cs : List Completion) (p : Pc) :
    Frame i s ((s.setCompletions cq cs).setPc i p) :=
  ⟨rfl, rfl, rfl, (frame_setPc s i p).pc, fun _ => List.Subset.refl _⟩

theorem owns_setCompletions (h : Inv s) (hcs : ∀ c ∈ cs, Owns s.ops cq c) :
    ∀ cq', ∀ c ∈ (s.setCompletions cq cs).completions cq', Owns s.ops cq' c := by
  intro cq' c hc
  by_cases hcq : cq' = cq
  · subst hcq
    change c ∈ update s.completions cq' cs cq' at hc
    rw [update_self] at hc
    exact hcs c hc
  · change c ∈ update s.completions cq cs cq' at hc
    rw [update_of_ne hcq] at hc
    exact h.queue cq' c hc

variable {cb : Callback} {l : List Completion}

section

variable (h : Inv s)
include h

/-- Thread `i` takes completions from one place to another and goes on at `p`. -/
theorem Inv.carry {t : State} {x y : Place} {xs : List Nat} (hi : i ∈ s.comms) (hf : Frame i s (t.setPc i p))
    (hm : Moves x y xs s.held (t.setPc i p).held) (hhop : Hop (.run i accept) x y) (hxy : x.Kept → y.Kept)
    (hqueue : ∀ cq, ∀ c ∈ t.completions cq, Owns s.ops cq c) (hok : PcOk s.ops i p)
    (hrel : ∀ r, p.releasing = some r → r ∈ xs ∧ y.Kept) (hdelivers : t.Delivers) :
    Steps s (.run i accept) (t.setPc i p) := by
  refine ⟨h.thread hf hi (h.placed.move hm) hqueue ?_
    (fun _ r _ hkept => kept_of_moves h.placed hm hkept fun _ => hxy) (fun r hr => ?_)
    (hdelivers.congr rfl rfl rfl rfl rfl), .move _ _ _ hhop hm⟩
  · rw [pc_setPc]
    exact hok
  · rw [pc_setPc] at hr
    obtain ⟨hxs, hy⟩ := hrel r hr
    refine ⟨h.placed.sound _ _ (hm.mem_source hxs), fun z hz => ?_⟩
    rw [hm.eq_target h.placed hxs hz]
    exact hy

theorem drainOldCompletions_steps {deferred : List Completion}
    (hpc : s.pc i = .draining cb side deferred) (hl : s.completions ⟨i, side⟩ = l) :
    Steps s (.run i accept) (drainOldCompletions i cb side deferred s l) := by
  obtain ⟨hi, hhand, hdrained, hdeferred⟩ := h.at hpc nofun
  cases l with
  | nil =>
    unfold drainOldCompletions
    generalize hp : (if tentative cb then Pc.idle else .reading cb side) = p
    have hend : p.inHand = [] ∧ p.drained = [] ∧ PcOk s.ops i p ∧ p.releasing = none := by
      rw [← hp]
      split <;> exact ⟨rfl, rfl, trivial, rfl⟩
    have hm := moves_swap hl (hend.1.trans hhand.symm) hend.2.1
    rw [hdrained] at hm
    exact h.carry hi (frame_setCompletions s i _ _ p) hm (.swap i accept side) (fun _ => trivial)
      (owns_setCompletions h hdeferred) hend.2.2.1 (fun r hr => nomatch hend.2.2.2.symm.trans hr)
      (h.delivers.congr rfl rfl rfl rfl rfl)
  | cons c cs =>
    have hm := moves_pop (p := .popped cb side deferred c) hl hhand.symm (congrArg (· ++ [c]) hdrained.symm)
    have hcs : ∀ x ∈ c :: cs, Owns s.ops ⟨i, side⟩ x := hl ▸ h.queue ⟨i, side⟩
    unfold drainOldCompletions
    exact h.carry hi (frame_setCompletions s i _ _ _) hm (.pop i accept side) (fun _ => trivial)
      (owns_setCompletions h fun x hx => hcs x (List.mem_cons_of_mem c hx))
      (List.forall_mem_append.mpr ⟨hdeferred, List.forall_mem_singleton.mpr (hcs c List.mem_cons_self)⟩) nofun
      (h.delivers.congr rfl rfl rfl rfl rfl)

theorem Inv.owner_eq (hop : op ∈ s.ops[recordOf c]?) : op.record.cq = ⟨op.comm, op.post.arrives⟩ ∧ op.comm ∈ s.comms :=
  h.ops op (List.mem_of_getElem? hop)

theorem offerOld_steps {deferred : List Completion}
    (hpc : s.pc i = .popped cb side deferred c) (hsafe : Released s accept (s.pc i)) :
    Steps s (.run i accept) (offerOld i cb side deferred c accept s (s.deref (recordOf c))) := by
  obtain ⟨hi, hhand, hdrained, hok⟩ := h.at hpc nofun
  rw [hpc] at hsafe
  obtain ⟨hdeferred, hown⟩ := List.forall_mem_append.mp hok
  obtain ⟨op, hop, hcq⟩ := List.forall_mem_singleton.mp hown
  have hcomm : op.comm = i := congrArg Cq.comm ((h.owner_eq hop).1.symm.trans hcq)
  have hheld : recordOf c ∈ s.held (.drain i) := by
    change recordOf c ∈ (s.pc i).drained.map recordOf
    rw [hdrained]
    exact List.mem_map_of_mem (List.mem_append_right _ (List.mem_singleton_self c))
  rw [h.deref_eq hheld nofun hop]
  by_cases hdefers : Defers cb accept
  · simp only [offerOld, if_pos hdefers]
    have hoffer := h.offer_false cb hop hcomm
    refine ⟨hoffer.goto hi hhand.symm hdrained.symm hok rfl, .same fun x => ?_⟩
    rw [← held_offer s i cb op.record c false x]
    exact held_setPc (p := .draining cb side (deferred ++ [c])) hhand.symm hdrained.symm x
  · simp only [offerOld, if_neg hdefers]
    have hm := moves_acceptOld (s := s.offer i cb op.record c true) (p := .draining cb side deferred) hhand.symm hdrained
    rw [funext (held_offer s i cb op.record c true)] at hm
    refine ⟨h.offer_true cb hi hop hcomm hm hdeferred rfl fun _ => ?_, .move _ _ _ (.acceptOld i accept) hm⟩
    exact hsafe.resolve_left hdefers

theorem inv_read (hi : i ∈ s.comms) (hhand : (s.pc i).inHand = [])
    (hdrained : (s.pc i).drained = []) (hl : s.fabric side = c :: cs) :
    Steps s (.run i accept) ((s.setFabric side cs).setPc i (.got cb side c)) := by
  have hm := moves_read (p := .got cb side c) hl hhand rfl hdrained.symm
  have hframe : Frame i s ((s.setFabric side cs).setPc i (.got cb side c)) := by
    refine ⟨rfl, rfl, rfl, (frame_setPc s i _).pc, fun side' => ?_⟩
    by_cases hside : side' = side
    · subst hside
      change update s.fabric side' cs side' ⊆ _
      rw [update_self, hl]
      exact List.subset_cons_self c cs
    · change update s.fabric side cs side' ⊆ _
      rw [update_of_ne hside]
      exact List.Subset.refl _
  exact h.carry hi hframe hm (.read i accept side) False.elim h.queue (h.fabric side c (hl ▸ List.mem_cons_self)) nofun
    (h.delivers.congr rfl rfl rfl rfl rfl)

theorem Inv.wander (hi : i ∈ s.comms) (hhand : (s.pc i).inHand = []) (hdrained : (s.pc i).drained = [])
    (hp : p.inHand = [] ∧ p.drained = []) (hok : PcOk s.ops i p) (hrel : p.releasing = none) :
    Steps s e (s.setPc i p) := by
  have hhand' := hp.1.trans hhand.symm
  have hdrained' := hp.2.trans hdrained.symm
  exact ⟨h.goto hi hhand' hdrained' hok hrel, .same (held_setPc hhand' hdrained')⟩

theorem cqRead_steps (hpc : s.pc i = .reading cb side)
    (hl : s.fabric side = l) : Steps s (.run i accept) (cqRead i cb side s l) := by
  obtain ⟨hi, hhand, hdrained, -⟩ := h.at hpc nofun
  cases l with
  | nil =>
    by_cases ht : tentative cb = true
    · simp only [cqRead, if_pos ht]
      exact h.wander (p := .draining cb side []) hi hhand hdrained ⟨rfl, rfl⟩ nofun rfl
    · simp only [cqRead, if_neg ht]
      exact h.wander (p := .idle) hi hhand hdrained ⟨rfl, rfl⟩ trivial rfl
  | cons c cs =>
    by_cases hfail : c.status = .fail
    · simp only [cqRead, if_pos hfail]
      exact h.wander (p := .failed cb side) hi hhand hdrained ⟨rfl, rfl⟩ trivial rfl
    · simp only [cqRead, if_neg hfail]
      exact inv_read h hi hhand hdrained hl

theorem getCqCompErr_steps (hpc : s.pc i = .failed cb side) (hl : s.fabric side = l) :
    Steps s (.run i accept) (getCqCompErr i cb side s l) := by
  obtain ⟨hi, hhand, hdrained, -⟩ := h.at hpc nofun
  cases l with
  | nil => exact h.wander (p := .idle) hi hhand hdrained ⟨rfl, rfl⟩ trivial rfl
  | cons c cs =>
    by_cases hfail : c.status = .fail
    · simp only [getCqCompErr, if_pos hfail]
      exact inv_read h hi hhand hdrained hl
    · simp only [getCqCompErr, if_neg hfail]
      exact h.wander (p := .idle) hi hhand hdrained ⟨rfl, rfl⟩ trivial rfl

end

theorem held_of_inHand (hhand : (s.pc i).inHand = [c]) : recordOf c ∈ s.held (.hand i) := by
  change recordOf c ∈ (s.pc i).inHand.map recordOf
  rw [hhand]
  exact List.mem_singleton_self _

theorem processOrQueueCompletion_steps (h : Inv s) (hpc : s.pc i = .got cb side c) :
    Steps s (.run i accept) (processOrQueueCompletion i cb side c accept s (s.deref (recordOf c))) := by
  obtain ⟨hi, hhand, hdrained, op, hop, hside⟩ := h.at hpc nofun
  rw [h.deref_eq (held_of_inHand hhand) nofun hop]
  by_cases hcq : op.record.cq = ⟨i, side⟩
  · have hcomm : op.comm = i := congrArg Cq.comm ((h.owner_eq hop).1.symm.trans hcq)
    by_cases hdefers : Defers cb accept
    · simp only [processOrQueueCompletion, if_pos hcq, if_pos hdefers]
      have hoffer := h.offer_false cb hop hcomm
      refine ⟨hoffer.goto hi hhand.symm hdrained.symm ⟨op, hop, hside⟩ rfl, .same fun x => ?_⟩
      rw [← held_offer s i cb op.record c false x]
      exact held_setPc (p := .queueing cb side c) hhand.symm hdrained.symm x
    · simp only [processOrQueueCompletion, if_pos hcq, if_neg hdefers]
      have hm := moves_accept (s := s.offer i cb op.record c true) (p := .reading cb side) hhand rfl rfl hdrained.symm
      rw [funext (held_offer s i cb op.record c true)] at hm
      exact ⟨h.offer_true cb hi hop hcomm hm trivial rfl fun hx => hx.elim, .move _ _ _ (.accept i accept) hm⟩
  · simp only [processOrQueueCompletion, if_neg hcq]
    exact ⟨h.goto hi hhand.symm hdrained.symm ⟨op, hop, hside⟩ rfl, .same (held_setPc hhand.symm hdrained.symm)⟩

theorem queueCompletion_steps (h : Inv s) (hpc : s.pc i = .queueing cb side c) :
    Steps s (.run i accept) (queueCompletion i cb side c s (s.deref (recordOf c))) := by
  obtain ⟨hi, hhand, hdrained, op, hop, hside⟩ := h.at hpc nofun
  obtain ⟨hcq, hcomm⟩ := h.owner_eq hop
  have hheld := held_of_inHand hhand
  have hmember : op.record.cq ∈ s.members side := by
    rw [hcq, hside]
    exact h.members _ hcomm side
  rw [h.deref_eq hheld nofun hop]
  simp only [queueCompletion, if_pos hmember]
  generalize hp : (if tentative cb then Pc.handed cb side c else .reading cb side) = p
  have hend : p.inHand = [] ∧ p.drained = [] ∧ PcOk s.ops i p ∧ ∀ r, p.releasing = some r → r = recordOf c := by
    rw [← hp]
    split
    · exact ⟨rfl, rfl, trivial, fun r hr => (Option.some.inj hr).symm⟩
    · exact ⟨rfl, rfl, trivial, nofun⟩
  have hm := moves_queue op.record.cq hhand hend.1 (hend.2.1.trans hdrained.symm)
  have hcs : ∀ x ∈ s.completions op.record.cq ++ [c], Owns s.ops op.record.cq x :=
    List.forall_mem_append.mpr ⟨h.queue _, List.forall_mem_singleton.mpr ⟨op, hop, rfl⟩⟩
  -- what was just handed over is in the queue of its owner
  exact h.carry hi (frame_setCompletions s i _ _ p) hm (.queue i accept _) False.elim (owns_setCompletions h hcs)
    hend.2.2.1 (fun r hr => ⟨List.mem_singleton.mpr (hend.2.2.2 r hr), trivial⟩)
    (h.delivers.congr rfl rfl rfl rfl rfl)

theorem redirected_steps (h : Inv s) (hpc : s.pc i = .handed cb side c) :
    Steps s (.run i accept) (redirected i cb side s (s.deref (recordOf c))) := by
  obtain ⟨hi, hhand, hdrained, -⟩ := h.at hpc nofun
  obtain ⟨hlt, hkept⟩ := h.releasing i (recordOf c) (by rw [hpc]; rfl)
  obtain ⟨x, hx⟩ := h.placed.total _ hlt
  have hdone : x ≠ .done := fun hd => by
    subst hd
    exact hkept _ hx
  rw [h.deref_eq hx hdone (List.getElem?_eq_getElem hlt)]
  exact h.wander (p := .reading cb side) hi hhand hdrained ⟨rfl, rfl⟩ trivial rfl

theorem advance_steps (h : Inv s) (hsafe : Released s accept (s.pc i)) (hpc : s.pc i = p)
    (hs' : advance i accept s p = some s') : Steps s (.run i accept) s' := by
  cases p with
  | idle => cases hs'
  | draining cb side deferred =>
    cases hs'
    exact drainOldCompletions_steps h hpc rfl
  | popped cb side deferred c =>
    cases hs'
    exact offerOld_steps h hpc hsafe
  | reading cb side =>
    cases hs'
    exact cqRead_steps h hpc rfl
  | failed cb side =>
    cases hs'
    exact getCqCompErr_steps h hpc rfl
  | got cb side c =>
    cases hs'
    exact processOrQueueCompletion_steps h hpc
  | queueing cb side c =>
    cases hs'
    exact queueCompletion_steps h hpc
  | handed cb side c =>
    cases hs'
    exact redirected_steps h hpc

theorem allocateGroup_steps (h : Inv s) (i : Nat) : Steps s e (allocateGroup i s) := by
  have hsame (x : Place) : (allocateGroup i s).held x = s.held x := by cases x <;> rfl
  refine ⟨⟨h.placed.congr hsame, fun op hop => ?_, fun j hj side => ?_, h.fabric, h.queue, h.pc,
    fun j hj => List.mem_append_left _ (h.polling j hj), fun j r hr => ?_, h.delivers.congr rfl rfl rfl rfl rfl⟩,
    .same hsame⟩
  · obtain ⟨hcq, hcomm⟩ := h.ops op hop
    exact ⟨hcq, List.mem_append_left _ hcomm⟩
  · obtain hj | hj := List.mem_append.mp hj
    · exact List.mem_append_left _ (h.members j hj side)
    · obtain rfl := List.mem_singleton.mp hj
      exact List.mem_append_right _ (List.mem_singleton_self _)
  · obtain ⟨hlt, hkept⟩ := h.releasing j r hr
    exact ⟨hlt, fun x hx => hkept x (hsame x ▸ hx)⟩

theorem owner_eq_arrives {p : Post} (hp : p ≠ .recvDesc) : p.owner = p.arrives := by
  cases p with
  | recvDesc => exact absurd rfl hp
  | _ => rfl

theorem post_steps {post' : Post} (h : Inv s) (hi : i ∈ s.comms) (hp : post' ≠ .recvDesc) (context : Nat) :
    Steps s e (post i post' context s) := by
  have hother (x : Place) (hx : x ≠ .outstanding) : (post i post' context s).held x = s.held x := by
    cases x with
    | outstanding => exact absurd rfl hx
    | _ => rfl
  have hknown (r : Nat) : r < (post i post' context s).ops.length ↔ r < s.ops.length ∨ r = s.ops.length := by
    change r < (s.ops ++ [_]).length ↔ _
    rw [List.length_append, List.length_singleton, Nat.lt_succ_iff_lt_or_eq]
  refine ⟨⟨h.placed.add (Nat.lt_irrefl _) hknown rfl hother, fun op hop => ?_, h.members,
    fun side c hc => (h.fabric side c hc).append _, fun cq c hc => (h.queue cq c hc).append _,
    fun j => (h.pc j).append _, h.polling, fun j r hr => ?_, fun o ho => ?_, h.delivers.once, h.delivers.freed,
    h.delivers.fault, h.delivers.owned⟩, .post rfl hother⟩
  · obtain hop | hop := List.mem_append.mp hop
    · exact h.ops op hop
    · obtain rfl := List.mem_singleton.mp hop
      exact ⟨congrArg (Cq.mk i) (owner_eq_arrives hp), hi⟩
  · obtain ⟨hlt, hkept⟩ := h.releasing j r hr
    refine ⟨(hknown r).mpr (.inl hlt), fun x hx => ?_⟩
    by_cases hout : x = .outstanding
    · subst hout
      obtain hx | hx := List.mem_append.mp hx
      · exact hkept _ hx
      · exact absurd (List.mem_singleton.mp hx) (Nat.ne_of_lt hlt)
    · exact hkept x (hother x hout ▸ hx)
  · obtain ⟨op, hop, hcomm⟩ := h.delivers.offered o ho
    exact ⟨op, List.getElem?_append_left (List.getElem?_eq_some_iff.mp hop).1 ▸ hop, hcomm⟩

theorem complete_steps (h : Inv s) (hr : recordOf c ∈ s.outstanding) (hop : op ∈ s.ops[recordOf c]?)
    (hhop : Hop e .outstanding (.fabric op.post.arrives)) : Steps s e (complete c s op) := by
  have hm := moves_complete op hr
  refine ⟨⟨h.placed.move hm, h.ops, h.members, fun side x hx => ?_, h.queue, h.pc, h.polling, fun j r hr => ?_,
    h.delivers.congr rfl rfl rfl rfl rfl⟩, .move _ _ _ hhop hm⟩
  · by_cases hside : side = op.post.arrives
    · subst hside
      change x ∈ update s.fabric _ _ _ at hx
      rw [update_self] at hx
      obtain hx | hx := List.mem_append.mp hx
      · exact h.fabric _ x hx
      · obtain rfl := List.mem_singleton.mp hx
        exact ⟨op, hop, rfl⟩
    · change x ∈ update s.fabric _ _ _ at hx
      rw [update_of_ne hside] at hx
      exact h.fabric side x hx
  · obtain ⟨hlt, hkept⟩ := h.releasing j r hr
    exact ⟨hlt, kept_of_moves h.placed hm hkept fun _ hx => hx.elim⟩

theorem poll_steps (h : Inv s) (hi : i ∈ s.comms) (hidle : s.pc i = .idle) :
    Steps s e (s.setPc i (startOf cb side)) := by
  have hhand : (s.pc i).inHand = [] := hidle ▸ rfl
  have hdrained : (s.pc i).drained = [] := hidle ▸ rfl
  unfold startOf
  by_cases ht : tentative cb = true
  · rw [if_pos ht]
    exact h.wander hi hhand hdrained ⟨rfl, rfl⟩ trivial rfl
  · rw [if_neg ht]
    exact h.wander (p := .draining cb side []) hi hhand hdrained ⟨rfl, rfl⟩ nofun rfl

inductive StepCase (s : State) : Event → State → Prop
  | allocateGroup (i : Nat) : StepCase s (.allocateGroup i) (allocateGroup i s)
  | post (i : Nat) (p : Post) (context : Nat) (hi : i ∈ s.comms) : StepCase s (.post i p context) (post i p context s)
  | complete (r : Nat) (status : Status) (flags len buf data : Nat) (op : Op) (hr : r ∈ s.outstanding)
    (hop : op ∈ s.ops[r]?) :
    StepCase s (.complete r status flags len buf data) (complete ⟨status, ⟨r, flags, len, buf, data⟩⟩ s op)
  | poll (i : Nat) (cb : Callback) (side : Side) (hi : i ∈ s.comms) (hidle : s.pc i = .idle) :
    StepCase s (.poll i cb side) (s.setPc i (startOf cb side))
  | run (i : Nat) (accept : Bool) (s' : State) (hs' : advance i accept s (s.pc i) = some s') :
    StepCase s (.run i accept) s'
  | interrupted (i : Nat) : StepCase s (.interrupted i) s

theorem step_cases (hs' : s' ∈ step s e) : StepCase s e s' := by
  obtain ⟨-, halive⟩ := Option.ite_none_left_eq_some.mp hs'
  clear hs'
  cases e with
  | run i accept => exact .run i accept s' halive
  | complete r status flags len buf data =>
    obtain ⟨hr, hmap⟩ := Option.ite_none_right_eq_some.mp halive
    obtain ⟨op, hop, rfl⟩ := Option.map_eq_some_iff.mp hmap
    exact .complete r status flags len buf data op hr hop
  | allocateGroup i =>
    obtain ⟨-, hs'⟩ := Option.ite_none_left_eq_some.mp halive
    exact Option.some.inj hs' ▸ .allocateGroup i
  | post i p context =>
    obtain ⟨hi, hs'⟩ := Option.ite_none_right_eq_some.mp halive
    exact Option.some.inj hs' ▸ .post i p context hi
  | poll i cb side =>
    obtain ⟨⟨hi, hidle⟩, hs'⟩ := Option.ite_none_right_eq_some.mp halive
    exact Option.some.inj hs' ▸ .poll i cb side hi hidle
  | interrupted i =>
    obtain ⟨-, hs'⟩ := Option.ite_none_right_eq_some.mp halive
    exact Option.some.inj hs' ▸ .interrupted i

theorem step_steps (h : Inv s) (hsafe : Safe s e) (hs' : s' ∈ step s e) : Steps s e s' := by
  cases step_cases hs' with
  | allocateGroup i => exact allocateGroup_steps h i
  | post i p context hi => exact post_steps h hi hsafe context
  | complete r status flags len buf data op hr hop =>
    exact complete_steps h hr hop (.arrive r status flags len buf data _)
  | poll i cb side hi hidle => exact poll_steps h hi hidle
  | run i accept s' hs' => exact advance_steps h hsafe rfl hs'
  | interrupted i => exact ⟨h, .same fun _ => rfl⟩

theorem holds_throughout {es : List Event} (h : Inv s) (hsafe : Throughout step Safe s es) :
    Throughout step Holds s es :=
  hsafe.imp (I := Inv) (fun _ _ hs he _ hs' => (step_steps hs he hs').1.delivers)
    (fun _ _ _ hs he hs' => (step_steps hs he hs').1) h

end Invariant

end Comanche.Net.FabricGrouped
