import Comanche.Lib.Run
import Comanche.Lib.Memory
import Mathlib.Algebra.Group.Nat.Defs
import Mathlib.Data.List.Forall2

/-!
# The user-level file stack

`Ustack` is a FUSE daemon that keeps each file as a value of a key-value store.
-/

namespace Comanche.Fuse.Ustack

open Lib
open Function (comp_def forall_update_iff update update_eq_self update_of_ne update_self)

/-- What `put` of the store does. When it fails it may have erased the old value. -/
inductive PutResult where
  | ok
  | failed (erased : Bool)

/-- What a call meets outside of the daemon: the result of `put`, whether `get` returns a value that there is, and the
bytes in memory behind that value. -/
structure Outside where
  put : PutResult
  get : Bool
  behind : Memory

/-- `IO_memory_instance`. The bytes from `size` on are those behind the buffer. -/
structure Iomem where
  size : Nat
  bytes : Memory

/-- The daemon, with `KV_ustack_info`. `names` are the paths that files were created with, by their handles. -/
structure State where
  items : Nat → Option String
  fileSize : Nat → Nat
  assignedIds : Nat
  store : String → Option Bytes
  iomem : Nat → List Iomem
  names : Nat → Option String

def State.init : State := ⟨fun _ => none, fun _ => 0, 0, fun _ => none, fun _ => [], fun _ => none⟩

namespace State

def key (s : State) (id : Nat) : String := (s.items id).getD ""

def access (s : State) (id : Nat) : State := { s with items := update s.items id (some (s.key id)) }

def setValue (s : State) (key : String) (value : Option Bytes) : State := { s with store := update s.store key value }

def write (s : State) (id : Nat) (value : Bytes) (put : PutResult) : State :=
  match put with
  | .ok => (s.access id).setValue (s.key id) (some value)
  | .failed true => (s.access id).setValue (s.key id) none
  | .failed false => s.access id

def copied (value : Bytes) (behind : Memory) (size : Nat) : Bytes := (List.range size).map fun i => value.getD i (behind i)

def read (s : State) (id size : Nat) (outside : Outside) : Option Bytes × State :=
  match s.store (s.key id), outside.get with
  | some value, true => (some (copied value outside.behind size), s.access id)
  | _, _ => (none, s.access id)

def setItemSize (s : State) (id size : Nat) : State := { s with fileSize := update s.fileSize id size }

/-- `kvfs_ustack_create`, with `alloc_id` and `insert_item`, which leaves an item alone. -/
def create (s : State) (path : String) : State :=
  { s with
    items := update s.items (s.assignedIds + 1) (some ((s.items (s.assignedIds + 1)).getD path))
    assignedIds := s.assignedIds + 1
    names := update s.names (s.assignedIds + 1) (some path) }

def fuseWrite (s : State) (id : Nat) (value : Bytes) (put : PutResult) : State :=
  (s.write id value put).setItemSize id value.length

end State

def ioTypeRead : UInt8 := 1
def ioTypeWrite : UInt8 := 2
def ioWrongType : UInt8 := -1
def ioWriteFail : UInt8 := -3
def ioReadFail : UInt8 := -4
def ioWriteOk : UInt8 := 3
def ioReadOk : UInt8 := 4

structure IoCommand where
  type : UInt8
  offset : UInt16
  szBytes : UInt16
  fuseFh : Nat

namespace State

def setFirst (s : State) (client : Nat) (bytes : Memory) : State :=
  { s with iomem := update s.iomem client ((s.iomem client).modifyHead fun m => { m with bytes := bytes }) }

/-- There is no result if the assertion of `offset_to_virt` fails. -/
def doKvWrite (s : State) (client fuseFh offset ioSz : Nat) (outside : Outside) : Option (Bool × State) :=
  match s.iomem client with
  | [] => some (false, s)
  | m :: _ =>
    if offset < m.size then
      some (true, (s.write fuseFh (m.bytes.slice offset ioSz) outside.put).setItemSize fuseFh ioSz)
    else none

/-- `KV_ustack_info::read` into the IO memory with `bytes`. `do_kv_read` does not look at its result. -/
def readInto (s : State) (client fuseFh offset ioSz : Nat) (bytes : Memory) (outside : Outside) : State :=
  match s.read fuseFh ioSz outside with
  | (some value, s') => s'.setFirst client (bytes.store offset value)
  | (none, s') => s'

def doKvRead (s : State) (client fuseFh offset ioSz : Nat) (outside : Outside) : Option (Bool × State) :=
  match s.iomem client with
  | [] => some (false, s)
  | m :: _ =>
    if offset < m.size then
      if s.fileSize fuseFh < ioSz then some (false, s)
      else some (true, s.readInto client fuseFh offset ioSz m.bytes outside)
    else none

def serve (s : State) (client : Nat) (cmd : IoCommand) (outside : Outside) : Option (UInt8 × State) :=
  if cmd.type = ioTypeWrite then
    (s.doKvWrite client cmd.fuseFh cmd.offset.toNat cmd.szBytes.toNat outside).map fun r =>
      (if r.1 then ioWriteOk else ioWriteFail, r.2)
  else if cmd.type = ioTypeRead then
    (s.doKvRead client cmd.fuseFh cmd.offset.toNat cmd.szBytes.toNat outside).map fun r =>
      (if r.1 then ioReadOk else ioReadFail, r.2)
  else some (ioWrongType, s)

/-- `Ustack_client::write` of a tracked file, with a buffer at `offset` in the client's IO memory. -/
def clientWrite (s : State) (client fuseFh offset count : Nat) (outside : Outside) : Option (Bool × State) :=
  (s.serve client ⟨ioTypeWrite, .ofNat offset, .ofNat count, fuseFh⟩ outside).map fun r => (r.1 = ioWriteOk, r.2)

def clientRead (s : State) (client fuseFh offset count : Nat) (outside : Outside) : Option (Bool × State) :=
  (s.serve client ⟨ioTypeRead, .ofNat offset, .ofNat count, fuseFh⟩ outside).map fun r => (r.1 = ioReadOk, r.2)

def clientBytes (s : State) (client j : Nat) : Memory := ((s.iomem client)[j]?.getD ⟨0, fun _ => 0⟩).bytes

end State

section RoundTrip

variable {s : State} {client fuseFh j a b count : Nat} {m : Iomem} {ms : List Iomem} {o o' : Outside}

/-- A write that reports success has put the value into the store; a read that follows copies one buffer to the other
and reports success only with a value from the store; the file has the size of the write. The buffers are in the IO
memory `j`. -/
def RoundTrip (s : State) (client j fuseFh a b count : Nat) (o o' : Outside) : Prop :=
  ∀ r ∈ s.clientWrite client fuseFh a count o, r.1 = true →
    o.put = .ok ∧
      ∀ r' ∈ r.2.clientRead client fuseFh b count o',
        (r'.1 = true → o'.get = true) ∧
          (r'.2.clientBytes client j).slice b count = (s.clientBytes client j).slice a count ∧
            r'.2.fileSize fuseFh = count

theorem serve_write_cons {cmd : IoCommand} (htype : cmd.type = ioTypeWrite) (hm : s.iomem client = m :: ms) :
    s.serve client cmd o = if cmd.offset.toNat < m.size then
        some (ioWriteOk, (s.write cmd.fuseFh (m.bytes.slice cmd.offset.toNat cmd.szBytes.toNat) o.put).setItemSize
          cmd.fuseFh cmd.szBytes.toNat)
      else none := by
  unfold State.serve State.doKvWrite
  rw [if_pos htype, hm]
  dsimp only
  split
  · rfl
  · rfl

theorem not_write_of_read {cmd : IoCommand} (htype : cmd.type = ioTypeRead) : cmd.type ≠ ioTypeWrite :=
  fun hwrite => absurd (htype.symm.trans hwrite) (by decide)

theorem serve_read_cons {cmd : IoCommand} (htype : cmd.type = ioTypeRead) (hm : s.iomem client = m :: ms) :
    s.serve client cmd o = if cmd.offset.toNat < m.size then
        if s.fileSize cmd.fuseFh < cmd.szBytes.toNat then some (ioReadFail, s)
        else some (ioReadOk, s.readInto client cmd.fuseFh cmd.offset.toNat cmd.szBytes.toNat m.bytes o)
      else none := by
  unfold State.serve State.doKvRead
  rw [if_neg (not_write_of_read htype), if_pos htype, hm]
  dsimp only
  split
  · split
    · rfl
    · rfl
  · rfl

theorem clientWrite_eq (hm : s.iomem client = m :: ms) : s.clientWrite client fuseFh a count o =
      if a % 2 ^ 16 < m.size then
        some (true, (s.write fuseFh (m.bytes.slice (a % 2 ^ 16) (count % 2 ^ 16)) o.put).setItemSize fuseFh (count % 2 ^ 16))
      else none := by
  unfold State.clientWrite
  rw [serve_write_cons rfl hm]
  exact apply_ite (Option.map _) _ _ _

theorem clientRead_eq (hm : s.iomem client = m :: ms) (hsize : s.fileSize fuseFh = count % 2 ^ 16) :
    s.clientRead client fuseFh b count o =
      if b % 2 ^ 16 < m.size then some (true, s.readInto client fuseFh (b % 2 ^ 16) (count % 2 ^ 16) m.bytes o) else none := by
  unfold State.clientRead
  rw [serve_read_cons rfl hm]
  dsimp only
  rw [if_neg (show ¬ s.fileSize fuseFh < (UInt16.ofNat count).toNat from Nat.not_lt.mpr hsize.ge)]
  exact apply_ite (Option.map _) _ _ _

theorem copied_eq_take {value : Bytes} {n : Nat} (hn : n ≤ value.length) (behind : Memory) :
    State.copied value behind n = value.take n := by
  refine List.ext_getElem (by simp [State.copied, hn]) fun i hi hi' => ?_
  have hvalue : i < value.length := by
    rw [List.length_take] at hi'
    omega
  simp only [State.copied, List.getElem_map, List.getElem_range, List.getElem_take]
  exact List.getD_eq_getElem _ _ hvalue

theorem readInto_of_value (client b : Nat) {value : Bytes} (hvalue : s.store (s.key fuseFh) = some value) (hget : o.get = true) (bytes : Memory) :
    s.readInto client fuseFh b value.length bytes o = (s.access fuseFh).setFirst client (bytes.store b value) := by
  unfold State.readInto State.read
  rw [hvalue, hget]
  exact congrArg (fun bs => (s.access fuseFh).setFirst client (bytes.store b bs))
    ((copied_eq_take le_rfl o.behind).trans List.take_length)

theorem write_ok (s : State) (fuseFh : Nat) (value : Bytes) (n : Nat) :
    (((s.write fuseFh value .ok).setItemSize fuseFh n).key fuseFh = s.key fuseFh) ∧
      ((s.write fuseFh value .ok).setItemSize fuseFh n).store (s.key fuseFh) = some value := by
  refine ⟨?_, update_self ..⟩
  change (update s.items fuseFh (some (s.key fuseFh)) fuseFh).getD "" = s.key fuseFh
  rw [update_self]
  rfl

def landed (bytes : Memory) (a b count : Nat) : Memory :=
  bytes.store (b % 2 ^ 16) (bytes.slice (a % 2 ^ 16) (count % 2 ^ 16))

theorem clientBytes_setFirst (hm : s.iomem client = m :: ms) (bytes : Memory) (j : Nat) :
    (s.setFirst client bytes).clientBytes client j = if j = 0 then bytes else s.clientBytes client j := by
  have hfirst : (s.setFirst client bytes).iomem client = { m with bytes := bytes } :: ms := by
    change update s.iomem client ((s.iomem client).modifyHead _) client = _
    rw [update_self, hm]
    rfl
  unfold State.clientBytes
  rw [hfirst, hm]
  cases j with
  | zero => rfl
  | succ j => rfl

theorem clientRead_iff (hm : s.iomem client = m :: ms) (hsize : s.fileSize fuseFh = count % 2 ^ 16)
    (hvalue : s.store (s.key fuseFh) = some (m.bytes.slice (a % 2 ^ 16) (count % 2 ^ 16))) {expected : Bytes} :
    (∀ r' ∈ s.clientRead client fuseFh b count o',
        (r'.1 = true → o'.get = true) ∧ (r'.2.clientBytes client j).slice b count = expected ∧ r'.2.fileSize fuseFh = count) ↔
      (b % 2 ^ 16 < m.size → o'.get = true ∧
        (if j = 0 then landed m.bytes a b count else s.clientBytes client j).slice b count = expected ∧
          count % 2 ^ 16 = count) := by
  rw [clientRead_eq hm hsize]
  by_cases hb : b % 2 ^ 16 < m.size
  swap
  · rw [if_neg hb]
    exact ⟨fun _ h => absurd h hb, fun _ r hr => nomatch hr⟩
  rw [if_pos hb]
  simp only [hb, true_implies, Option.mem_def, Option.some.injEq, forall_eq']
  refine and_congr_right fun hget => ?_
  have hread := readInto_of_value client (b % 2 ^ 16) hvalue hget m.bytes
  rw [Memory.length_slice] at hread
  rw [hread, clientBytes_setFirst (s := s.access fuseFh) hm]
  exact and_congr_right fun _ => iff_of_eq (congrArg (· = count) hsize)

theorem roundTrip_iff (hm : s.iomem client = m :: ms) : RoundTrip s client j fuseFh a b count o o' ↔
      (a % 2 ^ 16 < m.size → o.put = .ok ∧ (b % 2 ^ 16 < m.size → o'.get = true ∧
        (if j = 0 then landed m.bytes a b count else s.clientBytes client j).slice b count =
          (s.clientBytes client j).slice a count ∧ count % 2 ^ 16 = count)) := by
  unfold RoundTrip
  rw [clientWrite_eq hm]
  by_cases ha : a % 2 ^ 16 < m.size
  swap
  · rw [if_neg ha]
    exact ⟨fun _ h => absurd h ha, fun _ r hr => nomatch hr⟩
  rw [if_pos ha]
  simp only [ha, true_implies, Option.mem_def, Option.some.injEq, forall_eq']
  refine and_congr_right fun hput => ?_
  rw [hput]
  obtain ⟨hkey, hstore⟩ := write_ok s fuseFh (m.bytes.slice (a % 2 ^ 16) (count % 2 ^ 16)) (count % 2 ^ 16)
  exact clientRead_iff (s := (s.write fuseFh _ .ok).setItemSize fuseFh _) hm (update_self ..) (hkey.symm ▸ hstore)

def marked (a : Nat) : Memory := fun x => if x = a then 1 else 0

theorem marked_of_ne {x : Nat} (hx : x ≠ a) : marked a x = 0 := if_neg hx

theorem landed_eq (bytes : Memory) :
    landed bytes a b count = bytes.blit (b % 2 ^ 16) bytes (a % 2 ^ 16) (count % 2 ^ 16) := Memory.store_slice

theorem landed_marked (hcount : count < 2 ^ 16) (hzero : 0 < count) (hab : a ≠ b) (hsmall : ¬ (a < 2 ^ 16 ∧ b < 2 ^ 16)) :
    landed (marked a) a b count b = 0 := by
  rw [landed_eq, Nat.mod_eq_of_lt hcount]
  by_cases hb : b < 2 ^ 16
  · have ha : a % 2 ^ 16 ≠ a := fun h => hsmall ⟨h ▸ Nat.mod_lt a (by decide), hb⟩
    rw [Nat.mod_eq_of_lt hb]
    exact (Memory.blit_add (x := 0) hzero).trans (marked_of_ne ha)
  · -- the bytes have landed below, at a distance of at least 2^16
    have hfar : b % 2 ^ 16 + count ≤ b := by omega
    rw [Memory.blit_of_apart (Or.inr hfar), marked_of_ne hab.symm]

theorem landed_iff (hcount : count < 2 ^ 16) :
    (∀ bytes : Memory, (landed bytes a b count).slice b count = bytes.slice a count) ↔
      count = 0 ∨ a = b ∨ (a < 2 ^ 16 ∧ b < 2 ^ 16) := by
  constructor
  · intro h
    by_contra hne
    obtain ⟨hzero, hab, hsmall⟩ : count ≠ 0 ∧ a ≠ b ∧ ¬ (a < 2 ^ 16 ∧ b < 2 ^ 16) := by
      simpa only [not_or] using hne
    have hpos := Nat.pos_of_ne_zero hzero
    have hfirst := Memory.slice_eq_slice_iff.mp (h (marked a)) 0 hpos
    rw [Nat.add_zero, landed_marked hcount hpos hab hsmall] at hfirst
    exact absurd (hfirst.trans (if_pos rfl)) (by decide)
  · rintro (rfl | rfl | ⟨ha, hb⟩) bytes
    · rfl
    · rw [landed_eq, Memory.blit_self]
    · rw [landed_eq, Nat.mod_eq_of_lt ha, Nat.mod_eq_of_lt hb, Nat.mod_eq_of_lt hcount]
      exact Memory.slice_blit (x := 0) (Nat.le_of_eq (Nat.zero_add count))

theorem slice_eq_iff_eq : (∀ bytes : Memory, bytes.slice b count = bytes.slice a count) ↔ count = 0 ∨ a = b := by
  constructor
  · intro h
    by_contra hne
    obtain ⟨hzero, hab⟩ := not_or.mp hne
    have hfirst := Memory.slice_eq_slice_iff.mp (h (marked a)) 0 (Nat.pos_of_ne_zero hzero)
    rw [Nat.add_zero, marked_of_ne (Ne.symm hab)] at hfirst
    exact absurd (hfirst.trans (if_pos rfl)) (by decide)
  · rintro (rfl | rfl) bytes
    · rfl
    · rfl

/-- A client whose IO memories have the given sizes and all the same bytes. -/
def filled (client : Nat) (sizes : List Nat) (bytes : Memory) : State :=
  { State.init with iomem := fun c => if c = client then sizes.map (⟨·, bytes⟩) else [] }

theorem filled_iomem (n : Nat) (ns : List Nat) (bytes : Memory) :
    (filled client (n :: ns) bytes).iomem client = ⟨n, bytes⟩ :: ns.map (⟨·, bytes⟩) := if_pos rfl

theorem clientBytes_filled {n : Nat} {ns : List Nat} (hj : j < ns.length + 1) (bytes : Memory) :
    (filled client (n :: ns) bytes).clientBytes client j = bytes := by
  unfold State.clientBytes
  rw [filled_iomem]
  cases j with
  | zero => rfl
  | succ j =>
    rw [List.getElem?_cons_succ, List.getElem?_map, List.getElem?_eq_getElem (Nat.lt_of_succ_lt_succ hj)]
    rfl

theorem delivered_iff (hcount : count < 2 ^ 16) (j : Nat) :
    (∀ bytes : Memory, (if j = 0 then landed bytes a b count else bytes).slice b count = bytes.slice a count) ↔
      count = 0 ∨ a = b ∨ (j = 0 ∧ a < 2 ^ 16 ∧ b < 2 ^ 16) := by
  by_cases hj : j = 0
  · simp only [hj, if_true, true_and]
    exact landed_iff hcount
  · simp only [hj, if_false, false_and, or_false]
    exact slice_eq_iff_eq

end RoundTrip

inductive Event where
  /-- `IO_buffer_request`, for memory that has these bytes. -/
  | ioBuffer (client nPages : Nat) (bytes : Memory)
  | fill (client j : Nat) (bytes : Memory)
  | create (path : String)
  /-- `kvfs_ustack_open`, when `get_id` finds `id`. -/
  | openFile (path : String) (id : Nat)
  | fuseRead (id size : Nat) (outside : Outside)
  | fuseWrite (id : Nat) (value : Bytes) (outside : Outside)
  | command (client : Nat) (cmd : IoCommand) (outside : Outside)

namespace State

def ioBuffer (s : State) (client nPages : Nat) (bytes : Memory) : State :=
  { s with iomem := update s.iomem client (s.iomem client ++ [⟨nPages * 4096, bytes⟩]) }

def fill (s : State) (client j : Nat) (bytes : Memory) : State :=
  { s with
    iomem := update s.iomem client ((s.iomem client).modify j fun m =>
      { m with bytes := fun i => if i < m.size then bytes i else m.bytes i }) }

end State

/-- FUSE passes on the handles it was given by `create` and `open`. -/
def step (s : State) : Event → Option State
  | .ioBuffer client nPages bytes => some (s.ioBuffer client nPages bytes)
  | .fill client j bytes => some (s.fill client j bytes)
  | .create path => some (s.create path)
  | .openFile path id => if id ≠ 0 ∧ s.items id = some path then some s else none
  | .fuseRead id size outside => if (s.items id).isSome then some (s.read id size outside).2 else none
  | .fuseWrite id value outside => if (s.items id).isSome then some (s.fuseWrite id value outside.put) else none
  | .command client cmd outside => (s.serve client cmd outside).map Prod.snd

/-- The range of a command lies in an IO memory. -/
def Inside (cmd : IoCommand) (m : Iomem) : Prop := cmd.szBytes.toNat = 0 ∨ cmd.offset.toNat + cmd.szBytes.toNat ≤ m.size

instance (cmd : IoCommand) (m : Iomem) : Decidable (Inside cmd m) := inferInstanceAs (Decidable (_ ∨ _))

/-- Two memories that differ at most in front of the end. -/
def Iomem.SameBehind (m m' : Iomem) : Prop := m'.size = m.size ∧ ∀ i, m.size ≤ i → m'.bytes i = m.bytes i

/-- Two memories that differ at most behind the end. -/
def Iomem.SameInside (m m' : Iomem) : Prop := m'.size = m.size ∧ ∀ i < m.size, m'.bytes i = m.bytes i

/-- A daemon that differs at most in what is not IO memory of `client`. -/
def State.SameFor (s : State) (client : Nat) (s' : State) : Prop :=
  ∃ iomem, s' = { s with iomem := iomem } ∧ List.Forall₂ Iomem.SameInside (s.iomem client) (iomem client)

def Delivered (s : State) (id : Nat) (bytes : Bytes) : Prop :=
  ∃ path ∈ s.names id, ∃ value ∈ s.store path, bytes = value.take bytes.length

/-- A command writes only IO memory of its client, and its answer and the values in the store do not depend on other
memory; one with a handle that was never created fails and changes no value; and a read delivers bytes of the value of
its file. -/
structure Served (s : State) (client : Nat) (cmd : IoCommand) (outside : Outside) (r : UInt8 × State) : Prop where
  others : ∀ c, c ≠ client → r.2.iomem c = s.iomem c
  behind : List.Forall₂ Iomem.SameBehind (s.iomem client) (r.2.iomem client)
  reads : ∀ s₁, s.SameFor client s₁ → ∃ r₁ ∈ s₁.serve client cmd outside, r₁.1 = r.1 ∧ r₁.2.store = r.2.store
  unknown : s.names cmd.fuseFh = none → r.1 ≠ ioWriteOk ∧ r.1 ≠ ioReadOk ∧ r.2.store = s.store
  delivered : r.1 = ioReadOk → Delivered s cmd.fuseFh ((r.2.clientBytes client 0).slice cmd.offset.toNat cmd.szBytes.toNat)

def Holds (s : State) : Event → Prop
  | .command client cmd outside => ∀ r ∈ s.serve client cmd outside, Served s client cmd outside r
  | .fuseRead id size outside => (s.items id).isSome → ∀ bytes ∈ (s.read id size outside).1, Delivered s id bytes
  | _ => True

/-- Writes have a handle that was created and a range in the buffer. So have reads that pass the test of the file's
size, and `get` returns a value that is long enough. -/
def Safe (s : State) : Event → Prop
  | .command client cmd outside =>
    ∀ m ∈ (s.iomem client).head?, cmd.offset.toNat < m.size →
      (cmd.type = ioTypeWrite → (s.names cmd.fuseFh).isSome ∧ Inside cmd m) ∧
        (cmd.type = ioTypeRead → cmd.szBytes.toNat ≤ s.fileSize cmd.fuseFh →
          (∃ path ∈ s.names cmd.fuseFh, ∃ value ∈ s.store path, cmd.szBytes.toNat ≤ value.length) ∧
            outside.get = true ∧ Inside cmd m)
  | .fuseRead id size outside =>
    outside.get = true → ∀ path ∈ s.names id, ∀ value ∈ s.store path, size ≤ value.length
  | _ => True

section Runs

variable {s s' : State} {e : Event} {client id : Nat} {m : Iomem} {ms : List Iomem} {o : Outside} {path : String}

structure State.Inv (s : State) : Prop where
  items : s.items = s.names
  assigned : ∀ id, (s.names id).isSome → id ≤ s.assignedIds
  fileSize : ∀ id, s.names id = none → s.fileSize id = 0

theorem init_inv : State.init.Inv := ⟨rfl, fun _ h => (nomatch h), fun _ _ => rfl⟩

theorem State.Inv.key (h : s.Inv) (hname : s.names id = some path) : s.key id = path := by
  unfold State.key
  rw [h.items, hname]
  rfl

theorem State.Inv.access (h : s.Inv) (hname : (s.names id).isSome) : s.access id = s := by
  obtain ⟨path, hname⟩ := Option.isSome_iff_exists.mp hname
  have hitem : update s.items id (some (s.key id)) = s.items := by
    rw [h.key hname, ← hname, ← h.items, update_eq_self]
  unfold State.access
  rw [hitem]

theorem State.Inv.write (h : s.Inv) (hname : (s.names id).isSome) (value : Bytes) (put : PutResult) :
    (s.write id value put).Inv ∧ (s.write id value put).names = s.names := by
  unfold State.write
  rw [h.access hname]
  split
  · exact ⟨⟨h.items, h.assigned, h.fileSize⟩, rfl⟩
  · exact ⟨⟨h.items, h.assigned, h.fileSize⟩, rfl⟩
  · exact ⟨h, rfl⟩

theorem State.Inv.setItemSize (h : s.Inv) (hname : (s.names id).isSome) (n : Nat) : (s.setItemSize id n).Inv := by
  refine ⟨h.items, h.assigned, fun id' hnone => ?_⟩
  have hne : id' ≠ id := by
    rintro rfl
    rw [show s.names id' = none from hnone] at hname
    cases hname
  exact (update_of_ne hne ..).trans (h.fileSize id' hnone)

theorem State.Inv.create (h : s.Inv) (path : String) : (s.create path).Inv := by
  have hfree : s.names (s.assignedIds + 1) = none := by
    rw [← Option.not_isSome_iff_eq_none]
    exact fun hsome => Nat.not_succ_le_self _ (h.assigned _ hsome)
  refine ⟨?_, ?_, ?_⟩
  · change update s.items (s.assignedIds + 1) (some ((s.items (s.assignedIds + 1)).getD path)) = _
    rw [h.items, hfree]
    rfl
  · exact (forall_update_iff s.names fun id name => name.isSome → id ≤ s.assignedIds + 1).mpr
      ⟨fun _ => Nat.le_refl _, fun id _ hsome => Nat.le_succ_of_le (h.assigned id hsome)⟩
  · exact (forall_update_iff s.names fun id name => name = none → s.fileSize id = 0).mpr
      ⟨fun hnone => absurd hnone (Option.some_ne_none path), fun id _ => h.fileSize id⟩

theorem State.Inv.read (h : s.Inv) {value : Bytes} {n : Nat} (hname : s.names id = some path)
    (hvalue : s.store path = some value) (hget : o.get = true) (hn : n ≤ value.length) :
    s.read id n o = (some (value.take n), s) := by
  unfold State.read
  rw [h.key hname, hvalue, hget, h.access (Option.isSome_iff_exists.mpr ⟨path, hname⟩)]
  exact congrArg (fun bs => (some bs, s)) (copied_eq_take hn o.behind)

theorem delivered_take {value : Bytes} (hname : s.names id = some path) (hvalue : s.store path = some value) {n : Nat}
    (hn : n ≤ value.length) : Delivered s id (value.take n) :=
  ⟨path, hname, value, hvalue, by rw [List.length_take, Nat.min_eq_left hn]⟩

theorem forall₂_sameBehind_refl (ms : List Iomem) : List.Forall₂ Iomem.SameBehind ms ms := by
  induction ms with
  | nil => exact .nil
  | cons m ms ih => exact .cons ⟨rfl, fun _ _ => rfl⟩ ih

/-- Bytes that are stored inside the first IO memory change nothing else. -/
theorem setFirst_sameBehind {bytes : Bytes} {offset : Nat} (hm : s.iomem client = m :: ms)
    (hinside : bytes.length = 0 ∨ offset + bytes.length ≤ m.size) :
    List.Forall₂ Iomem.SameBehind (s.iomem client) ((s.setFirst client (m.bytes.store offset bytes)).iomem client) := by
  change List.Forall₂ _ _ (update s.iomem client ((s.iomem client).modifyHead _) client)
  rw [update_self, hm]
  refine .cons ⟨rfl, fun i hi => ?_⟩ (forall₂_sameBehind_refl ms)
  exact if_neg (by omega)

theorem slice_sameInside {m' : Iomem} {cmd : IoCommand} (hsame : m.SameInside m') (hinside : Inside cmd m) :
    m'.bytes.slice cmd.offset.toNat cmd.szBytes.toNat = m.bytes.slice cmd.offset.toNat cmd.szBytes.toNat :=
  Memory.slice_congr fun i hi => hsame.2 _ (by unfold Inside at hinside; omega)

theorem served_of_failed {cmd : IoCommand} {type : UInt8} (htype : type ≠ ioWriteOk ∧ type ≠ ioReadOk)
    (hreads : ∀ s₁, s.SameFor client s₁ → s₁.serve client cmd o = some (type, s₁)) : Served s client cmd o (type, s) := by
  refine ⟨fun _ _ => rfl, forall₂_sameBehind_refl _, fun s₁ hs₁ => ⟨_, hreads s₁ hs₁, rfl, ?_⟩,
    fun _ => ⟨htype.1, htype.2, rfl⟩, fun h => absurd h htype.2⟩
  obtain ⟨iomem, rfl, -⟩ := hs₁
  rfl

theorem write_store (s : State) (iomem : Nat → List Iomem) (id : Nat) (value : Bytes) (put : PutResult) :
    ({ s with iomem := iomem }.write id value put).store = (s.write id value put).store ∧
      (s.write id value put).iomem = s.iomem := by
  unfold State.write
  split
  · exact ⟨rfl, rfl⟩
  · exact ⟨rfl, rfl⟩
  · exact ⟨rfl, rfl⟩

section Commands

variable {cmd : IoCommand}

theorem serve_write_nil (htype : cmd.type = ioTypeWrite) (hm : s.iomem client = []) :
    s.serve client cmd o = some (ioWriteFail, s) := by
  unfold State.serve State.doKvWrite
  rw [if_pos htype, hm]
  rfl

theorem serve_read_nil (htype : cmd.type = ioTypeRead) (hm : s.iomem client = []) :
    s.serve client cmd o = some (ioReadFail, s) := by
  unfold State.serve State.doKvRead
  rw [if_neg (not_write_of_read htype), if_pos htype, hm]
  rfl

theorem State.Inv.serve_write (h : s.Inv) (hsafe : Safe s (.command client cmd o)) (htype : cmd.type = ioTypeWrite)
    {r : UInt8 × State} (hr : r ∈ s.serve client cmd o) : Served s client cmd o r ∧ r.2.Inv := by
  cases hm : s.iomem client with
  | nil =>
    rw [serve_write_nil htype hm] at hr
    cases hr
    refine ⟨served_of_failed (by decide) ?_, h⟩
    rintro s₁ ⟨iomem, rfl, hsame⟩
    rw [hm, List.forall₂_nil_left_iff] at hsame
    exact serve_write_nil htype hsame
  | cons m ms =>
    rw [serve_write_cons htype hm] at hr
    obtain ⟨hoffset, hr⟩ := Option.ite_none_right_eq_some.mp hr
    cases hr
    obtain ⟨hname, hinside⟩ := (hsafe m (by rw [hm]; rfl) hoffset).1 htype
    obtain ⟨hwrite, hnames⟩ := h.write hname (m.bytes.slice cmd.offset.toNat cmd.szBytes.toNat) o.put
    have hiomem := (write_store s s.iomem cmd.fuseFh (m.bytes.slice cmd.offset.toNat cmd.szBytes.toNat) o.put).2
    refine ⟨⟨fun c _ => congrFun hiomem c, ?_, ?_, fun hnone => ?_, fun h => absurd h (show ioWriteOk ≠ ioReadOk by decide)⟩,
      hwrite.setItemSize (hnames ▸ hname) _⟩
    · change List.Forall₂ _ _ ((s.write _ _ _).iomem client)
      rw [hiomem]
      exact forall₂_sameBehind_refl _
    · -- the value that is stored is read inside
      rintro s₁ ⟨iomem, rfl, hsame⟩
      obtain ⟨m', ms', hfirst, -, hm'⟩ := List.forall₂_cons_left_iff.mp (hm ▸ hsame)
      rw [serve_write_cons htype hm', if_pos (hfirst.1 ▸ hoffset), slice_sameInside hfirst hinside]
      exact ⟨_, rfl, rfl, (write_store s iomem _ _ _).1⟩
    · rw [hnone] at hname
      cases hname

/-- A read of a value that is long enough, into the range of the command. -/
theorem State.Inv.readInto (h : s.Inv) {value : Bytes} (bytes : Memory) (hname : s.names cmd.fuseFh = some path)
    (hvalue : s.store path = some value) (hlen : cmd.szBytes.toNat ≤ value.length) (hget : o.get = true) :
    s.readInto client cmd.fuseFh cmd.offset.toNat cmd.szBytes.toNat bytes o =
      s.setFirst client (bytes.store cmd.offset.toNat (value.take cmd.szBytes.toNat)) := by
  unfold State.readInto
  rw [h.read hname hvalue hget hlen]

theorem State.Inv.served_read (h : s.Inv) (htype : cmd.type = ioTypeRead) (hm : s.iomem client = m :: ms)
    (hoffset : cmd.offset.toNat < m.size) (hsize : ¬ s.fileSize cmd.fuseFh < cmd.szBytes.toNat) {value : Bytes}
    (hname : s.names cmd.fuseFh = some path) (hvalue : s.store path = some value)
    (hlen : cmd.szBytes.toNat ≤ value.length) (hget : o.get = true) (hinside : Inside cmd m) :
    Served s client cmd o
      (ioReadOk, s.setFirst client (m.bytes.store cmd.offset.toNat (value.take cmd.szBytes.toNat))) := by
  have htake : (value.take cmd.szBytes.toNat).length = cmd.szBytes.toNat := List.length_take_of_le hlen
  refine ⟨fun c hc => update_of_ne hc .., setFirst_sameBehind hm (htake.symm ▸ hinside), ?_, fun hnone => ?_, fun _ => ?_⟩
  · rintro s₁ ⟨iomem, rfl, hsame⟩
    have h₁ : State.Inv { s with iomem := iomem } := ⟨h.items, h.assigned, h.fileSize⟩
    obtain ⟨m', ms', hfirst, -, hm'⟩ := List.forall₂_cons_left_iff.mp (hm ▸ hsame)
    rw [serve_read_cons htype hm', if_pos (hfirst.1 ▸ hoffset), if_neg hsize, h₁.readInto _ hname hvalue hlen hget]
    exact ⟨_, rfl, rfl, rfl⟩
  · exact absurd (hnone.symm.trans hname) (Option.some_ne_none path).symm
  · have hslice : Memory.slice (m.bytes.store cmd.offset.toNat (value.take cmd.szBytes.toNat)) _ _ = _ := Memory.slice_store_self
    rw [htake] at hslice
    rw [clientBytes_setFirst hm, if_pos rfl, hslice]
    exact delivered_take hname hvalue hlen

theorem State.Inv.serve_read (h : s.Inv) (hsafe : Safe s (.command client cmd o)) (htype : cmd.type = ioTypeRead)
    {r : UInt8 × State} (hr : r ∈ s.serve client cmd o) : Served s client cmd o r ∧ r.2.Inv := by
  cases hm : s.iomem client with
  | nil =>
    rw [serve_read_nil htype hm] at hr
    cases hr
    refine ⟨served_of_failed (by decide) ?_, h⟩
    rintro s₁ ⟨iomem, rfl, hsame⟩
    rw [hm, List.forall₂_nil_left_iff] at hsame
    exact serve_read_nil htype hsame
  | cons m ms =>
    rw [serve_read_cons htype hm] at hr
    obtain ⟨hoffset, hr⟩ := Option.ite_none_right_eq_some.mp hr
    split at hr
    · next hsize =>
      cases hr
      refine ⟨served_of_failed (by decide) ?_, h⟩
      rintro s₁ ⟨iomem, rfl, hsame⟩
      obtain ⟨m', ms', hfirst, -, hm'⟩ := List.forall₂_cons_left_iff.mp (hm ▸ hsame)
      rw [serve_read_cons htype hm', if_pos (hfirst.1 ▸ hoffset)]
      exact if_pos hsize
    · next hsize =>
      obtain ⟨⟨path, hname, value, hvalue, hlen⟩, hget, hinside⟩ :=
        (hsafe m (by rw [hm]; rfl) hoffset).2 htype (Nat.le_of_not_lt hsize)
      rw [h.readInto _ hname hvalue hlen hget] at hr
      cases hr
      exact ⟨h.served_read htype hm hoffset hsize hname hvalue hlen hget hinside, h.items, h.assigned, h.fileSize⟩

end Commands

theorem State.Inv.serve (h : s.Inv) {cmd : IoCommand} (hsafe : Safe s (.command client cmd o)) {r : UInt8 × State}
    (hr : r ∈ s.serve client cmd o) : Served s client cmd o r ∧ r.2.Inv := by
  by_cases hwrite : cmd.type = ioTypeWrite
  · exact h.serve_write hsafe hwrite hr
  by_cases hread : cmd.type = ioTypeRead
  · exact h.serve_read hsafe hread hr
  have hserve (s₁ : State) : s₁.serve client cmd o = some (ioWrongType, s₁) := by
    unfold State.serve
    rw [if_neg hwrite, if_neg hread]
  rw [hserve] at hr
  cases hr
  exact ⟨served_of_failed (by decide) fun s₁ _ => hserve s₁, h⟩

theorem State.Inv.fuseRead (h : s.Inv) {n : Nat} (hsafe : Safe s (.fuseRead id n o)) (hitem : (s.items id).isSome) :
    (∀ bytes ∈ (s.read id n o).1, Delivered s id bytes) ∧ (s.read id n o).2 = s := by
  rw [h.items] at hitem
  have haccess := h.access hitem
  obtain ⟨path, hname⟩ := Option.isSome_iff_exists.mp hitem
  unfold State.read
  rw [h.key hname, haccess]
  split
  · rename_i value hvalue hget
    have hlen := hsafe hget path hname value hvalue
    refine ⟨fun bytes hbytes => ?_, rfl⟩
    cases hbytes
    rw [copied_eq_take hlen]
    exact delivered_take hname hvalue hlen
  · exact ⟨fun bytes hbytes => (nomatch hbytes), rfl⟩

theorem State.Inv.step (h : s.Inv) (hsafe : Safe s e) (hs' : s' ∈ step s e) : s'.Inv := by
  cases e with
  | create path => exact Option.some.inj hs' ▸ h.create path
  | openFile path id =>
    obtain ⟨-, hs'⟩ := Option.ite_none_right_eq_some.mp hs'
    exact Option.some.inj hs' ▸ h
  | fuseRead id n o =>
    obtain ⟨hitem, hs'⟩ := Option.ite_none_right_eq_some.mp hs'
    exact Option.some.inj hs' ▸ (h.fuseRead hsafe hitem).2.symm ▸ h
  | fuseWrite id value o =>
    obtain ⟨hitem, hs'⟩ := Option.ite_none_right_eq_some.mp hs'
    rw [h.items] at hitem
    obtain ⟨hwrite, hnames⟩ := h.write hitem value o.put
    exact Option.some.inj hs' ▸ hwrite.setItemSize (hnames ▸ hitem) _
  | command client cmd o =>
    obtain ⟨r, hr, rfl⟩ := Option.map_eq_some_iff.mp hs'
    exact (h.serve hsafe hr).2
  | _ => exact Option.some.inj hs' ▸ ⟨h.items, h.assigned, h.fileSize⟩

theorem State.Inv.holds (h : s.Inv) (hsafe : Safe s e) : Holds s e := by
  cases e with
  | ioBuffer client nPages bytes | fill client j bytes | create path | openFile path id | fuseWrite id value o => trivial
  | fuseRead id n o => exact fun hitem => (h.fuseRead hsafe hitem).1
  | command client cmd o => exact fun r hr => (h.serve hsafe hr).1

/-- Clients are confined in every run from a daemon without files whose steps are safe. -/
theorem confined_of_safe (es : List Event) (h : Throughout step Safe .init es) : Throughout step Holds .init es :=
  Throughout.imp (I := State.Inv) (fun _ _ h hsafe => h.holds hsafe) (fun _ _ _ h hsafe hs' => h.step hsafe hs') init_inv h

instance (s : State) (e : Event) : Decidable (Safe s e) := by
  unfold Safe
  split <;> infer_instance

/-- A file that is written by one client and read by another one and through FUSE, and a handle that nobody has. -/
def sharedEvents : List Event :=
  let outside : Outside := ⟨.ok, true, fun _ => 0⟩
  [.ioBuffer 1 1 fun _ => 0, .ioBuffer 2 1 fun _ => 0, .create "f", .fill 1 0 fun i => .ofNat i,
    .command 1 ⟨ioTypeWrite, 16, 4, 1⟩ outside, .openFile "f" 1, .command 2 ⟨ioTypeRead, 8, 4, 1⟩ outside,
    .fuseRead 1 2 outside, .command 2 ⟨ioTypeRead, 0, 1, 9⟩ outside]

theorem confined_shared :
    (runs step .init sharedEvents).map (fun s => (s.clientBytes 2 0).slice 8 4) = some [16, 17, 18, 19] ∧
      Throughout step Holds .init sharedEvents :=
  ⟨by decide +kernel, confined_of_safe sharedEvents (by decide +kernel)⟩

def beyondEvents : List Event :=
  let outside : Outside := ⟨.ok, true, fun _ => 0⟩
  [.ioBuffer 1 1 fun _ => 0, .create "f", .fuseWrite 1 [7, 8] outside, .command 1 ⟨ioTypeRead, 4095, 2, 1⟩ outside]

/-- The second byte of the file is written behind the IO memory. -/
theorem not_confined : ¬ Throughout step Holds .init beyondEvents := by
  intro h
  have hserved := h.nth 3 (Option.get_mem (by decide +kernel)) rfl _ (Option.get_mem (by decide +kernel))
  cases hserved.behind with
  | cons hfirst _ => exact absurd (hfirst.2 4096 (by decide +kernel)) (by decide +kernel)

end Runs

end Comanche.Fuse.Ustack
