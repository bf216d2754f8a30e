import Comanche.Lib.Run
import Comanche.Lib.Places
import Comanche.Lib.Bytes
import Comanche.Lib.MpmcRing

/-!
# Channels in shared memory

A UIPC channel is a ring of pointers for each direction, a ring of free message slots, and their slab.
-/

namespace Comanche.Core.Uipc

open Lib Lib.MpmcRing
open Function (update)

inductive RingId where
  | m2s
  | s2m
  | slab
  deriving DecidableEq

/-- A queue size of `2 ^ (sizeLog + 1)` and a message size of `8 * words`. -/
structure Config where
  sizeLog : Nat
  words : Nat

namespace Config

def queueSize (c : Config) : Nat := 2 ^ (c.sizeLog + 1)

def messageSize (c : Config) : Nat := 8 * c.words

/-- An `unsigned`. -/
def slabSlots (c : Config) : Nat := c.queueSize * 2 % 2 ^ 32

def pageSize : Nat := 4096

def slabBytes (c : Config) : Nat := (c.messageSize * c.queueSize * 2 + (pageSize - 1)) / pageSize * pageSize

def ringSize (c : Config) : RingId → Nat
  | .m2s | .s2m => c.queueSize
  | .slab => c.slabSlots

end Config

structure Thread where
  master : Bool
  n : Nat
  deriving DecidableEq

/-- What a thread does with a ring. The constructor of the master fills the slab ring. -/
inductive Op where
  | alloc
  | free (slot : Nat)
  | send (slot : Nat)
  | recv
  | fill (slot : Nat)
  deriving DecidableEq

def Op.ring (master : Bool) : Op → RingId
  | .alloc | .free _ | .fill _ => .slab
  | .send _ => if master then .m2s else .s2m
  | .recv => if master then .s2m else .m2s

def Op.item : Op → Option Nat
  | .free slot | .send slot | .fill slot => some slot
  | .alloc | .recv => none

inductive ThreadPc where
  | idle
  | call (op : Op) (pc : Pc Nat)
  deriving DecidableEq

inductive MasterPc where
  | offer (k : Nat)
  | openShm (k : Nat)
  | header (id : RingId)
  | seqs (id : RingId) (i : Nat)
  | fill (i : Nat)
  | done
  deriving DecidableEq

inductive SlavePc where
  | connect (k : Nat)
  | openShm (k : Nat)
  | sleep
  | done
  deriving DecidableEq

/-- `hand` are the slots a thread holds, `lost` those that `free_msg` could not put back. For each ring, `sent` are the
bytes of the items by position, `claimed` the positions as consumed, and `received` what `recv` returned. -/
structure State where
  config : Config
  master : MasterPc
  slave : SlavePc
  rings : RingId → Queue Nat
  built : RingId → Bool
  slabAddr : Nat
  mem : Nat → Bytes
  pc : Thread → ThreadPc
  hand : Thread → List Nat
  lost : List Nat
  slots : List Nat
  sent : RingId → List Bytes
  claimed : RingId → List Nat
  received : RingId → List (Nat × Nat × Bytes)

def zeroRing : Queue Nat := ⟨0, 0, 0, fun _ => 0, fun _ => 0, []⟩

def State.init (config : Config) : State :=
  ⟨config, .offer 0, .connect 0, fun _ => zeroRing, fun _ => false, 0, fun _ => [], fun _ => .idle, fun _ => [], [], [],
    fun _ => [], fun _ => [], fun _ => []⟩

def ctor : Thread := ⟨true, 0⟩

def SlavePc.rank : SlavePc → Nat
  | .connect k => 2 * k
  | .openShm k => 2 * k + 1
  | .sleep => 8
  | .done => 9

def RingId.ofShm : Nat → Option RingId
  | 0 => some .m2s
  | 1 => some .s2m
  | 2 => some .slab
  | _ => none

namespace State

def setRing (s : State) (id : RingId) (r : Queue Nat) : State := { s with rings := update s.rings id r }

def setMaster (s : State) (pc : MasterPc) : State := { s with master := pc }

def setSlave (s : State) (pc : SlavePc) : State := { s with slave := pc }

def setPc (s : State) (t : Thread) (pc : ThreadPc) : State := { s with pc := update s.pc t pc }

def setHand (s : State) (t : Thread) (hand : List Nat) : State := { s with hand := update s.hand t hand }

def clear (s : State) (k : Nat) : State :=
  match RingId.ofShm k with
  | some id => { s.setRing id zeroRing with built := update s.built id false }
  | none => { s with mem := fun _ => List.replicate s.config.messageSize 0 }

def slotAddrs (s : State) : List Nat := (List.range s.config.slabSlots).map fun i => s.slabAddr + i * s.config.messageSize

def header (s : State) (id : RingId) : State :=
  { s.setRing id { s.rings id with mask := s.config.ringSize id - 1, head := 0, tail := 0, log := [] } with
    built := update s.built id true }

def nextRing (s : State) : RingId → State
  | .m2s => s.setMaster (.header .s2m)
  | .s2m => s.setMaster (.header .slab)
  | .slab => { s.setMaster (.fill 0) with hand := update s.hand ctor s.slotAddrs, slots := s.slotAddrs }

end State

def vaddrBase : Nat := 0x8000000000

/-- A step of the constructor of the master. The slab comes to lie at the `n`-th address that is tried; a slab without
pages cannot be mapped, and a ring without slots fails its assertion. -/
def State.masterStep (s : State) (n : Nat) : MasterPc → Option State
  | .offer k =>
    if 2 * k < s.slave.rank ∧ (k = 3 → 0 < s.config.slabBytes) then
      some { s.setMaster (.openShm k) with slabAddr := if k = 3 then vaddrBase + n * s.config.slabBytes else s.slabAddr }
    else none
  | .openShm k => some ((s.clear k).setMaster (if k < 3 then .offer (k + 1) else .header .m2s))
  | .header id => if s.config.ringSize id = 0 then none else some ((s.header id).setMaster (.seqs id 0))
  | .seqs id i =>
    if i < s.config.ringSize id then
      some ((s.setRing id { s.rings id with seq := update (s.rings id).seq i i }).setMaster (.seqs id (i + 1)))
    else some (s.nextRing id)
  | .fill i =>
    if s.pc ctor ≠ .idle then none
    else if i < s.config.slabSlots then
      some ((s.setPc ctor (.call (.fill (s.slabAddr + i * s.config.messageSize))
        (.enqLoad (s.slabAddr + i * s.config.messageSize)))).setMaster (.fill (i + 1)))
    else some (s.setMaster .done)
  | .done => none

def State.slaveStep (s : State) : SlavePc → Option State
  | .connect k => if s.master = .offer k then some (s.setSlave (.openShm k)) else none
  | .openShm k => some ((s.clear k).setSlave (if k < 3 then .connect (k + 1) else .sleep))
  | .sleep => some (s.setSlave .done)
  | .done => none

def State.Ready (s : State) (t : Thread) : Prop := if t.master then s.master = .done else s.slave = .done

instance (s : State) (t : Thread) : Decidable (s.Ready t) := by
  unfold State.Ready
  infer_instance

/-- A position claimed by a producer takes the slot from the thread, one claimed by a consumer gives it one, and
`free_msg` does not notice that the ring has no place. -/
def State.exchange (s : State) (t : Thread) (op : Op) (id : RingId) : Pc Nat → Next Nat → State
  | .enqCas x _, .go (.enqData _ _) =>
    { s.setHand t ((s.hand t).erase x) with sent := update s.sent id (s.sent id ++ [s.mem x]) }
  | .deqCas _, .go (.deqData p) =>
    { s.setHand t (s.hand t ++ [(s.rings id).data ((s.rings id).cell p)]) with
      claimed := update s.claimed id (s.claimed id ++ [p]) }
  | _, .full =>
    match op with
    | .free x | .fill x => { s.setHand t ((s.hand t).erase x) with lost := s.lost ++ [x] }
    | _ => s
  | _, .popped p x =>
    match op with
    | .recv => { s with received := update s.received id (s.received id ++ [(p, x, s.mem x)]) }
    | _ => s
  | _, _ => s

def Op.goOn (op : Op) (next : Next Nat) : ThreadPc := next.pc?.elim .idle (.call op)

def State.callStep (s : State) (t : Thread) (op : Op) (fails : Bool) (pc : Pc Nat) : State :=
  let id := op.ring t.master
  let r := (s.rings id).step fails pc
  ((s.exchange t op id pc r.2).setRing id r.1).setPc t (op.goOn r.2)

def State.go (s : State) (t : Thread) (fails : Bool) : Option State :=
  match s.pc t with
  | .idle => none
  | .call op pc => if s.built (op.ring t.master) then some (s.callStep t op fails pc) else none

def State.begin (s : State) (t : Thread) (op : Op) (pc : Pc Nat) : Option State :=
  if s.Ready t ∧ s.pc t = .idle then some (s.setPc t (.call op pc)) else none

inductive Event where
  | master (n : Nat)
  | slave
  | alloc (t : Thread)
  | free (t : Thread) (slot : Nat)
  | send (t : Thread) (slot : Nat)
  | recv (t : Thread)
  | write (t : Thread) (slot : Nat) (bytes : Bytes)
  | give (t t' : Thread) (slot : Nat)
  | go (t : Thread) (fails : Bool)

def step (s : State) : Event → Option State
  | .master n => s.masterStep n s.master
  | .slave => s.slaveStep s.slave
  | .alloc t => s.begin t .alloc .deqLoad
  | .free t slot => if slot ∈ s.hand t then s.begin t (.free slot) (.enqLoad slot) else none
  | .send t slot => if slot ∈ s.hand t then s.begin t (.send slot) (.enqLoad slot) else none
  | .recv t => s.begin t .recv .deqLoad
  | .write t slot bytes =>
    if s.Ready t ∧ s.pc t = .idle ∧ slot ∈ s.hand t ∧ bytes.length = s.config.messageSize then
      some { s with mem := update s.mem slot bytes }
    else none
  | .give t t' slot =>
    if s.Ready t ∧ s.pc t = .idle ∧ slot ∈ s.hand t ∧ t' ≠ t ∧ t'.master = t.master then
      some ((s.setHand t ((s.hand t).erase slot)).setHand t' (s.hand t' ++ [slot]))
    else none
  | .go t fails => s.go t fails

/-- No two threads hold a slot, the slots lie in the slab, and what is received are messages sent, with their bytes,
once each; receivers claim them in the order of their positions. -/
structure State.Fine (s : State) : Prop where
  once : ∀ t, (s.hand t).Nodup
  apart : ∀ t t' slot, slot ∈ s.hand t → slot ∈ s.hand t' → t = t'
  inside : ∀ t, ∀ slot ∈ s.hand t, s.slabAddr ≤ slot ∧ slot + s.config.messageSize ≤ s.slabAddr + s.config.slabBytes
  order : ∀ id, s.claimed id = List.range (s.rings id).tail
  single : ∀ id, ((s.received id).map Prod.fst).Nodup
  intact : ∀ id, ∀ m ∈ s.received id, m.1 ∈ s.claimed id ∧ (s.rings id).log[m.1]? = some m.2.1 ∧ (s.sent id)[m.1]? = some m.2.2

def Holds (s : State) (e : Event) : Prop := ∀ s' ∈ step s e, s'.Fine

/-- The slave clears the slab before the constructor of the master returns, and its sleep ends afterwards. -/
def Safe (s : State) : Event → Prop
  | .slave =>
    match s.slave with
    | .openShm 3 => s.master ≠ .done
    | .sleep => s.master = .done
    | _ => True
  | _ => True

end Comanche.Core.Uipc
