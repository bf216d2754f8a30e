import Comanche.Lib.Bytes
import Comanche.Lib.Run
import Mathlib.Algebra.Group.Int.Defs
import Mathlib.Algebra.Group.Nat.Defs
import Mathlib.Data.List.Nodup

/-!
# Fixed-size metadata records

The metadata store keeps records of 256 bytes in memory and on a block device, a queue of the free ones, and
a lock for each.
-/

namespace Comanche.Metadata

open Lib
open Function (update update_of_ne update_self)

def ascii (s : String) : Bytes := s.toList.map fun ch => UInt8.ofNat ch.toNat

def strncpy (dst src : Bytes) (n : Nat) : Bytes :=
  (cString src).take n ++ List.replicate (n - ((cString src).take n).length) 0 ++ dst.drop n

inductive Status where
  | notAssign
  | free
  | used
  deriving DecidableEq

/-- `__md_record`, without what is written only once. `blockSize` is a field of one bit. -/
structure Record where
  status : Status
  blockSize : Bool
  index : Nat
  startLba : UInt64
  lbaCount : UInt64
  id : Bytes
  owner : Bytes
  datatype : Bytes

structure Entry where
  startLba : UInt64
  lbaCount : UInt64
  id : Bytes
  owner : Bytes
  datatype : Bytes
  id_le : id.length ≤ 63
  owner_le : owner.length ≤ 63
  datatype_le : datatype.length ≤ 31

namespace Record

def setId (r : Record) (param : Bytes) : Record := { r with id := (strncpy r.id param 63).set 63 0 }

def setOwner (r : Record) (param : Bytes) : Record :=
  { r with owner := strncpy r.owner param 63, id := r.id.set 63 0 }

def setDatatype (r : Record) (param : Bytes) : Record :=
  { r with datatype := strncpy r.datatype param 31, id := r.id.set 31 0 }

def isFree (r : Record) : Bool := r.status == .free

def cleared (managed index : Nat) : Record where
  status := .free
  blockSize := managed ≠ 512
  index := index % 2 ^ 32
  startLba := 0
  lbaCount := 0
  id := List.replicate 64 0
  owner := List.replicate 64 0
  datatype := List.replicate 32 0

/-- A record as `allocate` fills it. The block size is cut to one bit. -/
def fill (r : Record) (managed : Nat) (e : Entry) : Record :=
  (({ r with blockSize := managed % 2 = 1, status := .used, startLba := e.startLba, lbaCount := e.lbaCount }.setId
    e.id).setOwner e.owner).setDatatype e.datatype

end Record

/-- The device of the records, and the block size of what they describe. -/
structure Setup where
  managed : Nat
  volBlockSize : Nat
  blockCount : Nat
  managed_eq : managed = 512 ∨ managed = 4096
  vol_eq : volBlockSize = 512 ∨ volBlockSize = 4096

namespace Setup

def perBlock (c : Setup) : Nat := c.volBlockSize / 256

def nRecords (c : Setup) : Nat := c.blockCount * c.perBlock

def nLocks (c : Setup) : Nat := c.nRecords % 2 ^ 32

/-- A lock that is held is waited for forever by its only thread, and an index without a lock ends in an
assertion. -/
def lock (c : Setup) (held : Nat → Bool) (i : Nat) : Option (Nat → Bool) :=
  if i < c.nLocks ∧ held i = false then some (update held i true) else none

end Setup

def unlock (held : Nat → Bool) (i : Nat) : Nat → Bool := update held i false

structure Store where
  records : List Record
  disk : List Record
  freeList : List Nat
  held : Nat → Bool

namespace Store

variable (c : Setup) (s : Store)

def batch (j : Nat) : List Nat := ((s.records.drop (j / c.perBlock * c.perBlock)).take c.perBlock).map Record.index

def writeBlock (j : Nat) : List Record :=
  s.disk.take (j / c.perBlock * c.perBlock) ++
    (s.records.drop (j / c.perBlock * c.perBlock)).take c.perBlock ++
    s.disk.drop (j / c.perBlock * c.perBlock + c.perBlock)

def flushRecord (j : Nat) : Option Store :=
  ((s.batch c j).foldlM c.lock s.held).map fun held =>
    { s with disk := s.writeBlock c j, held := (s.batch c j).foldl unlock held }

def empty : Int := 24

def fillRecord (j : Nat) (r : Record) (rest : List Nat) (e : Entry) (held : Nat → Bool) : Store where
  records := s.records.set j (r.fill c.managed e)
  disk := s.disk
  freeList := rest
  held := unlock held r.index

def allocate (e : Entry) : Option (Int × Store) :=
  match s.freeList with
  | [] => some (empty, s)
  | j :: rest => do
    let r ← s.records[j]?
    let held ← c.lock s.held r.index
    let flushed ← (s.fillRecord c j r rest e held).flushRecord c j
    some (r.index, flushed)

def freeRecord (i : Nat) (r : Record) (held : Nat → Bool) : Store where
  records := s.records.set i { r with status := .free }
  disk := s.disk
  freeList := s.freeList ++ [i]
  held := unlock held i

/-- The index is compared without its sign, and the lock is not given back before the throw. -/
def free (index : Int) : Option (Except String Unit × Store) :=
  let i := (index % 2 ^ 64).toNat
  if c.nRecords < i then some (.error "invalid parameter", s)
  else do
    let r ← s.records[i]?
    let held ← c.lock s.held i
    if r.isFree then some (.error "invalid parameter; record already free", { s with held := held })
    else do
      let flushed ← (s.freeRecord i r held).flushRecord c i
      some (.ok (), flushed)

def freeRecords (records : List Record) : List Nat :=
  (List.range records.length).filter fun j => (records[j]?).any Record.isFree

def reopen : Store where
  records := s.disk
  disk := s.disk
  freeList := freeRecords s.disk
  held := fun _ => false

def carries (id owner : Bytes) (r : Record) : Bool :=
  cString r.id == id && (owner.isEmpty || cString r.owner == owner)

def checkExists (id owner : Bytes) : Option UInt64 :=
  (s.records.find? (carries id owner)).map fun r => if r.blockSize then r.lbaCount * 512 else r.lbaCount * 4096

def text (id owner datatype : Bytes) : Bytes :=
  ascii "\x7b\"id\": \"" ++ id ++ ascii "\",\"owner\":\"" ++ owner ++ ascii "\",\"datatype\":\"" ++ datatype ++
    ascii "\",\"utc_modified\":\"\",\"utc_created\":\"\"\x7d"

structure Item where
  index : Nat
  metadata : Bytes
  lba : UInt64
  lbaCount : UInt64

/-- `__iterator_t`. A regular expression that was not set matches nothing. -/
structure Iterator where
  pos : Nat
  idFilter : Option (Bytes → Bool)
  ownerFilter : Option (Bytes → Bool)

def Iterator.matches (i : Iterator) (r : Record) : Bool :=
  (i.idFilter.any fun filter => filter (cString r.id)) || (i.ownerFilter.any fun filter => filter (cString r.owner))

def scan (i : Iterator) : List Record → Nat → Option (Item × Nat)
  | [], _ => none
  | r :: rs, pos =>
    if r.isFree then scan i rs (pos + 1)
    else if i.matches r then
      some (⟨pos, text (cString r.id) (cString r.owner) (cString r.datatype), r.startLba, r.lbaCount⟩, pos + 1)
    else scan i rs (pos + 1)

def openIterator (filter : Bytes → Bool) : Iterator := ⟨0, some filter, none⟩

def iteratorGet (i : Iterator) : Option (Item × Iterator) :=
  (scan i (s.records.drop i.pos) i.pos).map fun r => (r.1, { i with pos := r.2 })

/-- What `iterator_get` returns until it says `E_EMPTY`, in up to `fuel` calls. -/
def drain : Nat → Iterator → List Item
  | 0, _ => []
  | fuel + 1, i =>
    match s.iteratorGet i with
    | none => []
    | some (item, i') => item :: drain fuel i'

def format : Store where
  records := (List.range c.nRecords).map (Record.cleared c.managed)
  disk := (List.range c.nRecords).map (Record.cleared c.managed)
  freeList := List.range c.nRecords
  held := fun _ => false

end Store

/-- The store, and what was given for the records that are allocated and not freed. -/
structure State where
  store : Store
  live : Nat → Option Entry

inductive Event where
  | allocate (e : Entry)
  | free (index : Int)
  | reopen
  | check (id owner : Bytes)
  | iterate (filter : Bytes → Bool)

def State.allocated (s : State) (e : Entry) (store : Store) : State :=
  match s.store.freeList with
  | [] => ⟨store, s.live⟩
  | j :: _ => ⟨store, update s.live j (some e)⟩

def State.freed (s : State) (index : Int) (result : Except String Unit) (store : Store) : State :=
  match result with
  | .ok _ => ⟨store, update s.live (index % 2 ^ 64).toNat none⟩
  | .error _ => ⟨store, s.live⟩

def step (c : Setup) (s : State) : Event → Option State
  | .allocate e => (s.store.allocate c e).map fun r => s.allocated e r.2
  | .free index => (s.store.free c index).map fun r => s.freed index r.1 r.2
  | .reopen => some ⟨s.store.reopen, s.live⟩
  | .check .. | .iterate _ => some s

def State.format (c : Setup) : State := ⟨Store.format c, fun _ => none⟩

def State.Exists (s : State) (id owner : Bytes) (e : Entry) : Prop :=
  (∃ j, s.live j = some e) ∧ e.id = id ∧ e.owner = owner

def State.matching (c : Setup) (s : State) (filter : Bytes → Bool) : List Store.Item :=
  (List.range c.nRecords).filterMap fun j => (s.live j).bind fun e =>
    if filter e.id then some ⟨j, Store.text e.id e.owner e.datatype, e.startLba, e.lbaCount⟩ else none

def Reflects (c : Setup) (s : State) : Event → Prop
  | .allocate e => ∃ result store, s.store.allocate c e = some (result, store) ∧
      ((∃ j, result = (j : Nat) ∧ j < c.nRecords ∧ s.live j = none ∧ (s.allocated e store).live j = some e) ∨
        ¬ (0 ≤ result ∧ result < c.nRecords))
  | .check id owner =>
    (∀ size, s.store.checkExists id owner = some size →
      ∃ e, s.Exists id owner e ∧ size.toNat = e.lbaCount.toNat * c.managed) ∧
      ∀ e, s.Exists id owner e → (s.store.checkExists id owner).isSome
  | .iterate filter => s.store.drain (c.nRecords + 1) (Store.openIterator filter) = s.matching c filter
  | .free _ | .reopen => True

def Holds (c : Setup) (s : State) (e : Event) : Prop :=
  Reflects c s e ∧ ∀ s' ∈ step c s e, ∀ i, s'.store.held i = false

/-- The id keeps its length when the data type is set, the strings end where they should, and the size of
the object is a number of 64 bits. -/
def Entry.Plain (e : Entry) : Prop :=
  e.id.length ≤ 31 ∧ 0 ∉ e.id ∧ 0 ∉ e.owner ∧ 0 ∉ e.datatype ∧ e.lbaCount.toNat * 4096 < 2 ^ 64

instance (e : Entry) : Decidable e.Plain := inferInstanceAs (Decidable (_ ∧ _))

/-- Indices fit their field; a plain entry is allocated while a record is free, or `-E_EMPTY` is no index; no free
record is freed; every record that the scan for an id and owner stops at is in use and has that owner; managed blocks
have 4096 bytes. -/
def Safe (c : Setup) (s : State) : Event → Prop
  | .allocate e => c.nRecords < 2 ^ 32 ∧ e.Plain ∧ (s.store.freeList ≠ [] ∨ c.nRecords ≤ 24)
  | .free index => c.nRecords < 2 ^ 32 ∧ ∀ r ∈ s.store.records[(index % 2 ^ 64).toNat]?, r.isFree = false
  | .check id owner => c.managed = 4096 ∧
      ∀ r ∈ s.store.records, Store.carries id owner r → r.isFree = false ∧ cString r.owner = owner
  | .reopen | .iterate _ => True

instance (c : Setup) (s : State) (e : Event) : Decidable (Safe c s e) := by
  unfold Safe
  split <;> infer_instance

section Strings

variable {src dst rest : Bytes} {n k : Nat}

theorem cString_append_zero (h : 0 ∉ src) : cString (src ++ 0 :: rest) = src := by
  unfold cString
  rw [List.takeWhile_append_of_pos]
  · simp
  · intro b hb
    simpa using ne_of_mem_of_not_mem hb h

theorem strncpy_eq (h : 0 ∉ src) (hlen : src.length ≤ n) :
    strncpy dst src n = src ++ List.replicate (n - src.length) 0 ++ dst.drop n := by
  unfold strncpy
  rw [(cString_eq_self_iff src).mpr h, List.take_of_length_le hlen]

theorem set_zero_of_le (hk : src.length ≤ k) : (src ++ List.replicate n 0).set k 0 = src ++ List.replicate n 0 := by
  rw [List.set_append_right _ _ hk]
  congr 1
  exact List.set_replicate_self

theorem strncpy_field (h : 0 ∉ src) (hlen : src.length ≤ n) (hdst : dst.drop n = [0]) :
    strncpy dst src n = src ++ List.replicate (n + 1 - src.length) 0 := by
  rw [strncpy_eq h hlen, hdst, List.append_assoc, ← List.replicate_succ', Nat.sub_add_comm hlen]

theorem cString_field (h : 0 ∉ src) (hlen : src.length < n) :
    cString (src ++ List.replicate (n - src.length) 0) = src := by
  obtain ⟨m, hm⟩ : ∃ m, n - src.length = m + 1 := ⟨n - src.length - 1, by omega⟩
  rw [hm, List.replicate_succ]
  exact cString_append_zero h

end Strings

structure Record.Formed (r : Record) : Prop where
  id : r.id.length = 64
  owner : r.owner.drop 63 = [0]
  datatype : r.datatype.drop 31 = [0]

structure Record.Stores (r : Record) (e : Entry) : Prop where
  used : r.status = .used
  blockSize : r.blockSize = false
  startLba : r.startLba = e.startLba
  lbaCount : r.lbaCount = e.lbaCount
  id : cString r.id = e.id
  owner : cString r.owner = e.owner
  datatype : cString r.datatype = e.datatype
  size : e.lbaCount.toNat * 4096 < 2 ^ 64

theorem drop_field {src : Bytes} {n : Nat} (hlen : src.length ≤ n) :
    (src ++ List.replicate (n + 1 - src.length) (0 : UInt8)).drop n = [0] := by
  rw [List.drop_append, List.drop_eq_nil_of_le hlen, List.nil_append, List.drop_replicate]
  have : n + 1 - src.length - (n - src.length) = 1 := by omega
  rw [this]
  rfl

theorem Record.cleared_formed (managed index : Nat) : (Record.cleared managed index).Formed :=
  ⟨List.length_replicate, rfl, rfl⟩

variable {r : Record} {e : Entry}

theorem Record.fill_id {managed : Nat} (hr : r.Formed) (he : e.Plain) :
    (r.fill managed e).id = e.id ++ List.replicate (64 - e.id.length) 0 := by
  obtain ⟨hid, hzero, -⟩ := he
  obtain ⟨last, hlast⟩ : ∃ last, r.id.drop 63 = [last] := by
    refine List.length_eq_one_iff.mp ?_
    rw [List.length_drop, hr.id]
  change ((((strncpy r.id e.id 63).set 63 0).set 63 0).set 31 0) = _
  have hfield : (strncpy r.id e.id 63).set 63 0 = e.id ++ List.replicate (64 - e.id.length) 0 := by
    rw [strncpy_eq hzero e.id_le, hlast, List.set_append_right _ _ (by simp; omega)]
    have hlen : (e.id ++ List.replicate (63 - e.id.length) (0 : UInt8)).length = 63 := by
      simp
      have := e.id_le
      omega
    rw [hlen, Nat.sub_self, List.set_cons_zero, List.append_assoc, ← List.replicate_succ']
    congr 2
    have := e.id_le
    omega
  rw [hfield, set_zero_of_le (by have := e.id_le; omega), set_zero_of_le hid]

theorem Record.fill_spec {managed : Nat} (hmanaged : managed % 2 = 0) (hr : r.Formed)
    (he : e.Plain) : (r.fill managed e).Formed ∧ (r.fill managed e).Stores e := by
  have hid : (r.fill managed e).id = e.id ++ List.replicate (64 - e.id.length) 0 := fill_id hr he
  have howner : (r.fill managed e).owner = e.owner ++ List.replicate (63 + 1 - e.owner.length) 0 :=
    strncpy_field he.2.2.1 e.owner_le hr.owner
  have hdatatype : (r.fill managed e).datatype = e.datatype ++ List.replicate (31 + 1 - e.datatype.length) 0 :=
    strncpy_field he.2.2.2.1 e.datatype_le hr.datatype
  constructor
  · refine ⟨?_, ?_, ?_⟩
    · rw [hid]
      simp
      have := e.id_le
      omega
    · rw [howner]
      exact drop_field e.owner_le
    · rw [hdatatype]
      exact drop_field e.datatype_le
  · refine ⟨rfl, ?_, rfl, rfl, ?_, ?_, ?_, he.2.2.2.2⟩
    · change decide (managed % 2 = 1) = false
      simp [hmanaged]
    · rw [hid]
      exact cString_field he.2.1 (Nat.lt_succ_of_le e.id_le)
    · rw [howner]
      exact cString_field he.2.2.1 (Nat.lt_succ_of_le e.owner_le)
    · rw [hdatatype]
      exact cString_field he.2.2.2.1 (Nat.lt_succ_of_le e.datatype_le)

section Flush

variable {c : Setup} {s : Store}

theorem Setup.perBlock_pos (c : Setup) : 0 < c.perBlock := by
  unfold Setup.perBlock
  rcases c.vol_eq with h | h
  · rw [h]
    decide
  · rw [h]
    decide

theorem lockAll {is : List Nat} {held : Nat → Bool} (hnodup : is.Nodup)
    (hfree : ∀ i ∈ is, i < c.nLocks ∧ held i = false) :
    is.foldlM c.lock held = some fun i => held i || decide (i ∈ is) := by
  induction is generalizing held with
  | nil => simp
  | cons i is ih =>
    obtain ⟨hi, hrest⟩ := List.nodup_cons.mp hnodup
    have hlock : c.lock held i = some (update held i true) := if_pos (hfree i List.mem_cons_self)
    rw [List.foldlM_cons, hlock]
    change is.foldlM c.lock (update held i true) = _
    rw [ih hrest]
    · congr 1
      funext k
      by_cases hk : k = i
      · simp [hk]
      · simp [hk]
    · intro k hk
      have hne : k ≠ i := fun h => hi (h ▸ hk)
      rw [update_of_ne hne]
      exact hfree k (List.mem_cons_of_mem i hk)

theorem unlockAll (is : List Nat) (held : Nat → Bool) : is.foldl unlock held = fun i => held i && !decide (i ∈ is) := by
  induction is generalizing held with
  | nil => simp
  | cons i is ih =>
    rw [List.foldl_cons, ih]
    funext k
    unfold unlock
    by_cases hk : k = i
    · simp [hk]
    · simp [hk]

theorem Store.flushRecord_eq {j : Nat} (hindex : s.records.map Record.index = List.range c.nRecords)
    (hlt : c.nRecords < 2 ^ 32) (hheld : s.held = fun _ => false) :
    s.flushRecord c j = some { s with disk := s.writeBlock c j } := by
  have hbatch : s.batch c j = ((List.range c.nRecords).drop (j / c.perBlock * c.perBlock)).take c.perBlock := by
    unfold Store.batch
    rw [List.map_take, List.map_drop, hindex]
  have hsub : (s.batch c j).Sublist (List.range c.nRecords) := by
    rw [hbatch]
    exact (List.take_sublist _ _).trans (List.drop_sublist _ _)
  have hfree : ∀ i ∈ s.batch c j, i < c.nLocks ∧ s.held i = false := by
    intro i hi
    rw [hheld]
    refine ⟨?_, rfl⟩
    unfold Setup.nLocks
    rw [Nat.mod_eq_of_lt hlt]
    exact List.mem_range.mp (hsub.subset hi)
  unfold Store.flushRecord
  rw [lockAll (hsub.nodup List.nodup_range) hfree]
  simp only [Option.map_some, unlockAll, hheld]
  congr 2
  funext i
  simp

theorem Store.writeBlock_set {j : Nat} {r : Record} {records : List Record} (hdisk : s.disk = records)
    (hrecords : s.records = records.set j r) : s.writeBlock c j = s.records := by
  have hpos := c.perBlock_pos
  have hle := Nat.div_mul_le_self j c.perBlock
  have hlt := Nat.lt_div_mul_add hpos (a := j)
  unfold Store.writeBlock
  generalize j / c.perBlock * c.perBlock = base at *
  have htake : s.disk.take base = s.records.take base := by
    rw [hdisk, hrecords, List.take_set_of_le hle]
  have hdrop : s.disk.drop (base + c.perBlock) = (s.records.drop base).drop c.perBlock := by
    rw [hdisk, hrecords, List.drop_drop, List.drop_set_of_lt hlt]
  rw [htake, hdrop, List.append_assoc, List.take_append_drop, List.take_append_drop]

end Flush

def Record.Reflects (r : Record) : Option Entry → Prop
  | none => r.isFree = true
  | some e => r.Stores e

theorem Record.Stores.not_free (h : r.Stores e) : r.isFree = false := by
  unfold Record.isFree
  rw [h.used]
  rfl

structure State.Inv (c : Setup) (s : State) : Prop where
  length : s.store.records.length = c.nRecords
  disk : s.store.disk = s.store.records
  held : s.store.held = fun _ => false
  index : c.nRecords < 2 ^ 32 → s.store.records.map Record.index = List.range c.nRecords
  formed : ∀ r ∈ s.store.records, r.Formed
  reflects : ∀ j, ∀ r : Record, s.store.records[j]? = some r → r.Reflects (s.live j)
  nodup : s.store.freeList.Nodup
  mem_free : ∀ j, j ∈ s.store.freeList ↔ ∃ r, s.store.records[j]? = some r ∧ r.isFree = true
  live_lt : ∀ j e, s.live j = some e → j < c.nRecords

section Steps

variable {c : Setup} {s : State}

variable {j : Nat} {r : Record}

theorem State.Inv.index_eq (h : s.Inv c) (hlt : c.nRecords < 2 ^ 32)
    (hr : s.store.records[j]? = some r) : r.index = j ∧ j < c.nRecords := by
  have hj : j < s.store.records.length := (List.getElem?_eq_some_iff.mp hr).1
  have hmap : (s.store.records.map Record.index)[j]? = some r.index := by
    rw [List.getElem?_map, hr]
    rfl
  rw [h.length] at hj
  rw [h.index hlt, List.getElem?_range hj] at hmap
  exact ⟨(Option.some.inj hmap).symm, hj⟩

theorem State.Inv.lock (h : s.Inv c) (hlt : c.nRecords < 2 ^ 32) {i : Nat} (hi : i < c.nRecords) :
    c.lock s.store.held i = some (update s.store.held i true) := by
  refine if_pos ⟨?_, ?_⟩
  · unfold Setup.nLocks
    rwa [Nat.mod_eq_of_lt hlt]
  · rw [h.held]

theorem State.Inv.unlock (h : s.Inv c) (i : Nat) : unlock (update s.store.held i true) i = fun _ => false := by
  funext k
  unfold Metadata.unlock
  rw [h.held]
  by_cases hk : k = i
  · simp [hk]
  · simp [hk]

def Store.replaced (s : Store) (j : Nat) (r : Record) (freeList : List Nat) : Store where
  records := s.records.set j r
  disk := s.records.set j r
  freeList := freeList
  held := fun _ => false

theorem State.Inv.flush (h : s.Inv c) (hlt : c.nRecords < 2 ^ 32) (r' : Record)
    (freeList : List Nat) (hr : s.store.records[j]? = some r) (hindex : r'.index = r.index) :
    Store.flushRecord c ⟨s.store.records.set j r', s.store.disk, freeList, fun _ => false⟩ j =
      some (s.store.replaced j r' freeList) := by
  have hmap : (s.store.records.set j r').map Record.index = List.range c.nRecords := by
    rw [List.map_set, hindex, ← h.index hlt]
    refine List.ext_getElem? fun k => ?_
    by_cases hk : k = j
    · subst hk
      rw [List.getElem?_set_self', List.getElem?_map, hr]
      rfl
    · rw [List.getElem?_set_ne (Ne.symm hk)]
  have hwrite : Store.writeBlock c ⟨s.store.records.set j r', s.store.disk, freeList, fun _ => false⟩ j =
      s.store.records.set j r' := Store.writeBlock_set h.disk rfl
  rw [Store.flushRecord_eq hmap hlt rfl, hwrite]
  rfl

theorem State.Inv.allocate (h : s.Inv c) (hlt : c.nRecords < 2 ^ 32) (e : Entry) :
    (s.store.freeList = [] ∧ s.store.allocate c e = some (Store.empty, s.store)) ∨
      ∃ j rest r, s.store.freeList = j :: rest ∧ s.store.records[j]? = some r ∧ r.isFree = true ∧
        s.store.allocate c e = some ((j : Int), s.store.replaced j (r.fill c.managed e) rest) := by
  unfold Store.allocate
  cases hfree : s.store.freeList with
  | nil => exact .inl ⟨rfl, rfl⟩
  | cons j rest =>
    obtain ⟨r, hr, hisfree⟩ := (h.mem_free j).mp (by rw [hfree]; exact List.mem_cons_self)
    obtain ⟨hindex, hj⟩ := h.index_eq hlt hr
    refine .inr ⟨j, rest, r, rfl, hr, hisfree, ?_⟩
    dsimp only
    rw [hr, Option.bind_eq_bind, Option.bind_some, hindex, h.lock hlt hj, Option.bind_eq_bind, Option.bind_some]
    unfold Store.fillRecord
    rw [hindex, h.unlock, h.flush hlt (r.fill c.managed e) rest hr rfl]
    rfl

theorem State.Inv.free (h : s.Inv c) (hlt : c.nRecords < 2 ^ 32) {index : Int}
    (hsafe : ∀ r ∈ s.store.records[(index % 2 ^ 64).toNat]?, r.isFree = false) :
    s.store.free c index = none ∨ s.store.free c index = some (.error "invalid parameter", s.store) ∨
      ∃ r, s.store.records[(index % 2 ^ 64).toNat]? = some r ∧ r.isFree = false ∧
        s.store.free c index = some (.ok (), s.store.replaced (index % 2 ^ 64).toNat
          { r with status := .free } (s.store.freeList ++ [(index % 2 ^ 64).toNat])) := by
  unfold Store.free
  dsimp only
  generalize (index % 2 ^ 64).toNat = i at *
  split
  · exact .inr (.inl rfl)
  · cases hr : s.store.records[i]? with
    | none => exact .inl rfl
    | some r =>
      obtain ⟨-, hi⟩ := h.index_eq hlt hr
      have hused := hsafe r hr
      refine .inr (.inr ⟨r, rfl, hused, ?_⟩)
      rw [Option.bind_eq_bind, Option.bind_some, h.lock hlt hi, Option.bind_eq_bind, Option.bind_some, hused]
      simp only [Bool.false_eq_true, if_false]
      unfold Store.freeRecord
      rw [h.unlock, h.flush hlt { r with status := .free } _ hr rfl]
      rfl

theorem State.Inv.replace (h : s.Inv c) {r' : Record} {live : Option Entry} {freeList : List Nat}
    (hr : s.store.records[j]? = some r) (hindex : r'.index = r.index) (hformed : r'.Formed)
    (hreflects : r'.Reflects live) (hnodup : freeList.Nodup)
    (hfree : ∀ k, k ∈ freeList ↔ if k = j then r'.isFree = true else k ∈ s.store.freeList) :
    State.Inv c ⟨s.store.replaced j r' freeList, update s.live j live⟩ := by
  have hj : j < s.store.records.length := (List.getElem?_eq_some_iff.mp hr).1
  have hget : ∀ k, (s.store.records.set j r')[k]? = if k = j then some r' else s.store.records[k]? := by
    intro k
    by_cases hk : k = j
    · rw [if_pos hk, hk, List.getElem?_set_self hj]
    · rw [if_neg hk, List.getElem?_set_ne (Ne.symm hk)]
  constructor
  case length => exact (List.length_set ..).trans h.length
  case disk => rfl
  case held => rfl
  case index =>
    intro hlt
    rw [← h.index hlt]
    refine List.ext_getElem? fun k => ?_
    change ((s.store.records.set j r').map Record.index)[k]? = _
    rw [List.getElem?_map, hget, List.getElem?_map]
    split
    · next hk =>
      rw [hk, hr]
      exact congrArg some hindex
    · rfl
  case formed =>
    intro q hq
    rcases List.mem_or_eq_of_mem_set hq with hmem | rfl
    · exact h.formed q hmem
    · exact hformed
  case reflects =>
    intro k q hq
    change (s.store.records.set j r')[k]? = some q at hq
    rw [hget] at hq
    dsimp only
    by_cases hk : k = j
    · rw [if_pos hk] at hq
      rw [hk, update_self, ← Option.some.inj hq]
      exact hreflects
    · rw [if_neg hk] at hq
      rw [update_of_ne hk]
      exact h.reflects k q hq
  case nodup => exact hnodup
  case mem_free =>
    intro k
    change k ∈ freeList ↔ ∃ q, (s.store.records.set j r')[k]? = some q ∧ _
    rw [hfree k]
    by_cases hk : k = j
    · rw [if_pos hk, hget, if_pos hk]
      simp
    · rw [if_neg hk, hget, if_neg hk]
      exact h.mem_free k
  case live_lt =>
    intro k e hk
    by_cases hkj : k = j
    · rw [hkj, ← h.length]
      exact hj
    · dsimp only at hk
      rw [update_of_ne hkj] at hk
      exact h.live_lt k e hk

theorem Setup.managed_even (c : Setup) : c.managed % 2 = 0 := by
  rcases c.managed_eq with h | h
  · rw [h]
  · rw [h]

theorem State.Inv.allocated (h : s.Inv c) {e : Entry} (he : e.Plain) {rest : List Nat}
    (hfree : s.store.freeList = j :: rest) (hr : s.store.records[j]? = some r) :
    (s.allocated e (s.store.replaced j (r.fill c.managed e) rest)).Inv c := by
  unfold State.allocated
  rw [hfree]
  obtain ⟨hformed, hstores⟩ := Record.fill_spec c.managed_even (h.formed r (List.mem_of_getElem? hr)) he
  have hnodup := h.nodup
  rw [hfree] at hnodup
  obtain ⟨hj, hrest⟩ := List.nodup_cons.mp hnodup
  refine h.replace hr rfl hformed hstores hrest fun k => ?_
  rw [hfree, hstores.not_free]
  by_cases hk : k = j
  · simp [hk, hj]
  · simp [hk]

theorem State.Inv.freed (h : s.Inv c) {index : Int}
    (hr : s.store.records[(index % 2 ^ 64).toNat]? = some r) (hused : r.isFree = false) :
    (s.freed index (.ok ()) (s.store.replaced (index % 2 ^ 64).toNat { r with status := .free }
      (s.store.freeList ++ [(index % 2 ^ 64).toNat]))).Inv c := by
  unfold State.freed
  dsimp only
  generalize (index % 2 ^ 64).toNat = i at *
  have hi : i ∉ s.store.freeList := fun hmem => by
    obtain ⟨q, hq, hfree⟩ := (h.mem_free i).mp hmem
    obtain rfl : q = r := Option.some.inj (hq.symm.trans hr)
    rw [hused] at hfree
    cases hfree
  have hformed := h.formed r (List.mem_of_getElem? hr)
  refine h.replace hr rfl ⟨hformed.id, hformed.owner, hformed.datatype⟩ rfl ?_ fun k => ?_
  · exact h.nodup.append (List.nodup_singleton i) (List.disjoint_singleton.mpr hi)
  · by_cases hk : k = i
    · simp [hk, Record.isFree]
    · simp [hk]

theorem mem_freeRecords {records : List Record} :
    j ∈ Store.freeRecords records ↔ ∃ r, records[j]? = some r ∧ r.isFree = true := by
  unfold Store.freeRecords
  rw [List.mem_filter, List.mem_range]
  cases hr : records[j]? with
  | none => simp
  | some r => simp [(List.getElem?_eq_some_iff.mp hr).1]

theorem State.Inv.reopened (h : s.Inv c) : State.Inv c ⟨s.store.reopen, s.live⟩ := by
  unfold Store.reopen
  rw [h.disk]
  exact ⟨h.length, rfl, rfl, h.index, h.formed, h.reflects, List.nodup_range.filter _, fun j => mem_freeRecords, h.live_lt⟩

theorem State.format_inv (c : Setup) : (State.format c).Inv c := by
  have hget : ∀ j r, ((List.range c.nRecords).map (Record.cleared c.managed))[j]? = some r →
      j < c.nRecords ∧ r = Record.cleared c.managed j := by
    intro j r hr
    rw [List.getElem?_map] at hr
    obtain ⟨k, hk, rfl⟩ := Option.map_eq_some_iff.mp hr
    obtain ⟨hj, rfl⟩ := List.getElem?_eq_some_iff.mp hk
    rw [List.length_range] at hj
    rw [List.getElem_range]
    exact ⟨hj, rfl⟩
  constructor
  case length => exact (List.length_map _).trans List.length_range
  case disk => rfl
  case held => rfl
  case index =>
    intro hlt
    change ((List.range c.nRecords).map _).map _ = _
    rw [List.map_map]
    conv_rhs => rw [← List.map_id (List.range c.nRecords)]
    refine List.map_congr_left fun j hj => ?_
    exact Nat.mod_eq_of_lt (Nat.lt_trans (List.mem_range.mp hj) hlt)
  case formed =>
    intro r hr
    obtain ⟨j, -, rfl⟩ := List.mem_map.mp hr
    exact Record.cleared_formed c.managed j
  case reflects =>
    intro j r hr
    rw [(hget j r hr).2]
    rfl
  case nodup => exact List.nodup_range
  case mem_free =>
    intro j
    change j ∈ List.range c.nRecords ↔ _
    rw [List.mem_range]
    constructor
    · intro hj
      refine ⟨Record.cleared c.managed j, ?_, rfl⟩
      change ((List.range c.nRecords).map _)[j]? = _
      rw [List.getElem?_map, List.getElem?_range hj]
      rfl
    · rintro ⟨r, hr, -⟩
      exact (hget j r hr).1
  case live_lt =>
    intro j e hj
    cases hj

theorem step_inv {s' : State} {e : Event} (h : s.Inv c) (hsafe : Safe c s e) (hstep : s' ∈ step c s e) : s'.Inv c := by
  cases e with
  | allocate e =>
    obtain ⟨⟨result, store⟩, hres, rfl⟩ := Option.map_eq_some_iff.mp hstep
    rcases h.allocate hsafe.1 e with ⟨hnil, halloc⟩ | ⟨j, rest, r, hfree, hr, -, halloc⟩
    · obtain ⟨-, rfl⟩ := Prod.mk.inj (Option.some.inj (hres.symm.trans halloc))
      unfold State.allocated
      rw [hnil]
      exact h
    · obtain ⟨-, rfl⟩ := Prod.mk.inj (Option.some.inj (hres.symm.trans halloc))
      exact h.allocated hsafe.2.1 hfree hr
  | free index =>
    obtain ⟨⟨result, store⟩, hres, rfl⟩ := Option.map_eq_some_iff.mp hstep
    rcases h.free hsafe.1 hsafe.2 with hnone | herror | ⟨r, hr, hused, hok⟩
    · rw [hnone] at hres
      cases hres
    · obtain ⟨rfl, rfl⟩ := Prod.mk.inj (Option.some.inj (hres.symm.trans herror))
      exact h
    · obtain ⟨rfl, rfl⟩ := Prod.mk.inj (Option.some.inj (hres.symm.trans hok))
      exact h.freed hr hused
  | reopen =>
    cases hstep
    exact h.reopened
  | _ =>
    cases hstep
    exact h

end Steps

section Lookups

variable {c : Setup} {s : State}

theorem State.Inv.live_of_used (h : s.Inv c) {r : Record} (hr : r ∈ s.store.records) (hused : r.isFree = false) :
    ∃ j e, s.live j = some e ∧ r.Stores e := by
  obtain ⟨j, hj⟩ := List.mem_iff_getElem?.mp hr
  have hreflects := h.reflects j r hj
  cases hlive : s.live j with
  | none =>
    rw [hlive] at hreflects
    exact absurd (hused.symm.trans hreflects) Bool.false_ne_true
  | some e =>
    rw [hlive] at hreflects
    exact ⟨j, e, hlive, hreflects⟩

theorem State.Inv.record_of_live (h : s.Inv c) {j : Nat} {e : Entry} (hlive : s.live j = some e) :
    ∃ r ∈ s.store.records, r.Stores e := by
  have hj := h.live_lt j e hlive
  rw [← h.length] at hj
  have hreflects := h.reflects j _ (List.getElem?_eq_getElem hj)
  rw [hlive] at hreflects
  exact ⟨_, List.getElem_mem hj, hreflects⟩

theorem State.Inv.check (h : s.Inv c) {id owner : Bytes} (hsafe : Safe c s (.check id owner)) :
    Metadata.Reflects c s (.check id owner) := by
  obtain ⟨hmanaged, hsafe⟩ := hsafe
  constructor
  · intro size hsize
    obtain ⟨r, hfind, rfl⟩ := Option.map_eq_some_iff.mp hsize
    have hmem := List.mem_of_find?_eq_some hfind
    have hcarries := List.find?_some hfind
    obtain ⟨hused, howner⟩ := hsafe r hmem hcarries
    obtain ⟨j, e, hlive, hstores⟩ := h.live_of_used hmem hused
    have hid : cString r.id = id := by
      unfold Store.carries at hcarries
      simp only [Bool.and_eq_true, beq_iff_eq] at hcarries
      exact hcarries.1
    refine ⟨e, ⟨⟨j, hlive⟩, hstores.id.symm.trans hid, hstores.owner.symm.trans howner⟩, ?_⟩
    rw [hstores.blockSize, hstores.lbaCount, hmanaged]
    simp only [Bool.false_eq_true, if_false]
    rw [UInt64.toNat_mul]
    exact Nat.mod_eq_of_lt hstores.size
  · rintro e ⟨⟨j, hlive⟩, rfl, rfl⟩
    obtain ⟨r, hmem, hstores⟩ := h.record_of_live hlive
    unfold Store.checkExists
    rw [Option.isSome_map, List.find?_isSome]
    refine ⟨r, hmem, ?_⟩
    unfold Store.carries
    rw [hstores.id, hstores.owner]
    simp

def Store.items (p : Record → Bool) : List Record → Nat → List Store.Item
  | [], _ => []
  | r :: rs, pos =>
    if r.isFree = false ∧ p r = true then
      ⟨pos, Store.text (cString r.id) (cString r.owner) (cString r.datatype), r.startLba, r.lbaCount⟩ ::
        items p rs (pos + 1)
    else items p rs (pos + 1)

theorem Store.scan_spec (i : Store.Iterator) (rs : List Record) (pos : Nat) :
    (Store.scan i rs pos = none ∧ Store.items i.matches rs pos = []) ∨
      ∃ item k, k < rs.length ∧ Store.scan i rs pos = some (item, pos + (k + 1)) ∧
        Store.items i.matches rs pos = item :: Store.items i.matches (rs.drop (k + 1)) (pos + (k + 1)) := by
  induction rs generalizing pos with
  | nil => exact .inl ⟨rfl, rfl⟩
  | cons r rs ih =>
    -- a record that is passed over leaves the rest to be scanned
    have hnext : (Store.scan i rs (pos + 1) = none ∧ Store.items i.matches rs (pos + 1) = []) ∨
        ∃ item k, k < (r :: rs).length ∧ Store.scan i rs (pos + 1) = some (item, pos + (k + 1)) ∧
          Store.items i.matches rs (pos + 1) = item :: Store.items i.matches ((r :: rs).drop (k + 1)) (pos + (k + 1)) := by
      rcases ih (pos + 1) with hnone | ⟨item, k, hk, hscan, hitems⟩
      · exact .inl hnone
      · have hpos : pos + 1 + (k + 1) = pos + (k + 1 + 1) := by omega
        rw [hpos] at hscan hitems
        exact .inr ⟨item, k + 1, Nat.succ_lt_succ hk, hscan, hitems⟩
    by_cases hfree : r.isFree = true
    · rw [Store.scan, Store.items, if_pos hfree, if_neg (by simp [hfree])]
      exact hnext
    · by_cases hmatch : i.matches r = true
      · rw [Store.scan, Store.items, if_neg hfree, if_pos hmatch, if_pos ⟨by simpa using hfree, hmatch⟩]
        exact .inr ⟨_, 0, Nat.succ_pos _, rfl, rfl⟩
      · rw [Store.scan, Store.items, if_neg hfree, if_neg hmatch, if_neg (fun h => hmatch h.2)]
        exact hnext

theorem Store.drain_eq (s : Store) {fuel : Nat} (i : Store.Iterator) (hfuel : (s.records.drop i.pos).length < fuel) :
    s.drain fuel i = Store.items i.matches (s.records.drop i.pos) i.pos := by
  induction fuel generalizing i with
  | zero => exact absurd hfuel (Nat.not_lt_zero _)
  | succ fuel ih =>
    unfold Store.drain Store.iteratorGet
    rcases Store.scan_spec i (s.records.drop i.pos) i.pos with ⟨hscan, hitems⟩ | ⟨item, k, hk, hscan, hitems⟩
    · rw [hscan, hitems]
      rfl
    · rw [hscan, hitems]
      change item :: s.drain fuel { i with pos := i.pos + (k + 1) } = _
      rw [ih, List.drop_drop]
      · rfl
      · rw [List.length_drop] at *
        change s.records.length - (i.pos + (k + 1)) < fuel
        omega

theorem Store.items_eq {p : Record → Bool} {rs : List Record} {pos : Nat} {g : Nat → Option Store.Item}
    (h : ∀ k r, rs[k]? = some r → g (pos + k) = if r.isFree = false ∧ p r = true then
      some ⟨pos + k, Store.text (cString r.id) (cString r.owner) (cString r.datatype), r.startLba, r.lbaCount⟩
      else none) : Store.items p rs pos = (List.range' pos rs.length).filterMap g := by
  induction rs generalizing pos with
  | nil => rfl
  | cons r rs ih =>
    have hhead := h 0 r rfl
    have htail : Store.items p rs (pos + 1) = (List.range' (pos + 1) rs.length).filterMap g := ih fun k q hq => by
      have := h (k + 1) q hq
      rwa [← Nat.add_assoc, Nat.add_right_comm] at this
    rw [Store.items, List.length_cons, List.range'_succ, List.filterMap_cons, ← Nat.add_zero pos, hhead, htail]
    split
    · rfl
    · rfl

theorem State.Inv.iterate (h : s.Inv c) (filter : Bytes → Bool) : Metadata.Reflects c s (.iterate filter) := by
  have hdrain : s.store.drain (c.nRecords + 1) (Store.openIterator filter) =
      Store.items (Store.openIterator filter).matches s.store.records 0 := by
    refine Store.drain_eq s.store (Store.openIterator filter) ?_
    change s.store.records.length < _
    rw [h.length]
    exact Nat.lt_succ_self _
  change s.store.drain (c.nRecords + 1) (Store.openIterator filter) = s.matching c filter
  rw [hdrain]
  unfold State.matching
  rw [List.range_eq_range', ← h.length]
  refine Store.items_eq fun k r hr => ?_
  rw [Nat.zero_add]
  have hreflects := h.reflects k r hr
  cases hlive : s.live k with
  | none =>
    rw [hlive] at hreflects
    have hfree : r.isFree = true := hreflects
    simp [hfree]
  | some e =>
    rw [hlive] at hreflects
    have hstores : r.Stores e := hreflects
    have hmatch : (Store.openIterator filter).matches r = filter e.id := by
      unfold Store.Iterator.matches Store.openIterator
      rw [hstores.id]
      simp
    rw [hmatch, hstores.not_free, hstores.id, hstores.owner, hstores.datatype, hstores.startLba, hstores.lbaCount]
    simp

end Lookups

theorem State.Inv.holds {c : Setup} {s : State} {e : Event} (h : s.Inv c) (hsafe : Safe c s e) : Holds c s e := by
  refine ⟨?_, fun s' hstep i => ?_⟩
  · cases e with
    | allocate e =>
      rcases h.allocate hsafe.1 e with ⟨hnil, halloc⟩ | ⟨j, rest, r, hfree, hr, hisfree, halloc⟩
      · refine ⟨_, _, halloc, .inr ?_⟩
        have hsmall := hsafe.2.2.resolve_left (fun hne => hne hnil)
        unfold Store.empty
        omega
      · refine ⟨_, _, halloc, .inl ⟨j, rfl, (h.index_eq hsafe.1 hr).2, ?_, ?_⟩⟩
        · -- a record that is free is not live
          have hreflects := h.reflects j r hr
          cases hlive : s.live j with
          | none => rfl
          | some e' =>
            rw [hlive] at hreflects
            exact absurd (hreflects.not_free.symm.trans hisfree) Bool.false_ne_true
        · unfold State.allocated
          rw [hfree]
          exact update_self ..
    | check id owner => exact h.check hsafe
    | iterate filter => exact h.iterate filter
    | _ => trivial
  · rw [(step_inv h hsafe hstep).held]

/-- In every safe run, also across re-openings, the calls answer as the ledger of live entries does, and no record stays
locked. -/
theorem reflects_of_safe (c : Setup) (es : List Event) (h : Throughout (step c) (Safe c) (State.format c) es) :
    Throughout (step c) (Holds c) (State.format c) es :=
  h.imp (I := State.Inv c) (fun _ _ hs hsafe => hs.holds hsafe) (fun _ _ _ hs hsafe => step_inv hs hsafe)
    (State.format_inv c)

def oneBlock : Setup := ⟨4096, 512, 1, .inr rfl, .inl rfl⟩

def entryA : Entry := ⟨10, 3, [97], [111], [116], by decide, by decide, by decide⟩

theorem reflects_allocated : Throughout (step oneBlock) (Safe oneBlock) (State.format oneBlock)
        [.allocate entryA, .check [97] [111], .reopen, .check [98] [111], .free 0] ∧
      Throughout (step oneBlock) (Holds oneBlock) (State.format oneBlock)
        [.allocate entryA, .check [97] [111], .reopen, .check [98] [111], .free 0] := by
  have hsafe : Throughout (step oneBlock) (Safe oneBlock) (State.format oneBlock)
      [.allocate entryA, .check [97] [111], .reopen, .check [98] [111], .free 0] := by
    decide +kernel
  exact ⟨hsafe, reflects_of_safe oneBlock _ hsafe⟩

/-- A record that was freed is still found. -/
theorem not_reflects_freed : ¬ Throughout (step oneBlock) (Holds oneBlock) (State.format oneBlock)
      [.allocate entryA, .free 0, .check [97] [111]] := by
  rintro ⟨-, h⟩
  obtain ⟨-, h⟩ := h _ (Option.get_mem (by decide +kernel))
  obtain ⟨⟨⟨hfound, -⟩, -⟩, -⟩ := h _ (Option.get_mem (by decide +kernel))
  obtain ⟨e, ⟨⟨j, hlive⟩, -⟩, -⟩ := hfound 12288 (by decide +kernel)
  cases j with
  | zero => exact Option.some_ne_none e (hlive.symm.trans (by decide +kernel))
  | succ j => cases hlive

end Comanche.Metadata
