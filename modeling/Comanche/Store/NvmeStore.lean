import Comanche.Block.BitmapIkv
import Comanche.Store.NvmeIo

/-!
# The NVMe store

One `persist_session`: the object of a key is kept in the metadata store, its value in a region of blocks
of the device, which comes from `BlockAlloc_ikv`.
-/

namespace Comanche.Store.Nvme

open Lib Lib.Bitmap
open Function (update update_eq_self update_idem update_of_ne update_self)
open Block.BitmapIkv (capacity pack)

/-- The metadata of an object. `size` is an `int` in the source, and lengths are below `2 ^ 31`. -/
structure ObjInfo where
  size : Nat
  lbaStart : Nat
  blockRegion : Nat
  deriving DecidableEq

structure Value where
  bytes : Bytes
  pos : 0 < bytes.length
  lt : bytes.length < 2 ^ 31

def Device.nrIoBlocks (d : Device) (valueLen : Nat) : Nat := (valueLen + d.blkSz - 1) / d.blkSz

/-- The blocks that `BlockAlloc_ikv` marks for a value: a power of two, rounded down. -/
def Device.markedBlocks (d : Device) (valueLen : Nat) : Nat := 2 ^ Block.BitmapIkv.orderOf (d.nrIoBlocks valueLen)

/-- A session, with the objects of its metadata pool and the handles whose state is write-locked. A new io
buffer holds `fresh`. -/
structure Session where
  device : Device
  words : Words
  metaPool : String → Option ObjInfo
  locked : List Nat
  ioMem : Buffer
  fresh : Memory

inductive Outcome where
  | ok
  | value (bytes : Bytes)
  | keyNotFound
  | throws
  | crashes

/-- Memory for `get_direct`, and the handle of the registration that it is in. -/
structure Destination where
  outValue : Nat
  buffer : Buffer
  memoryHandle : Option (Nat × Nat)

def defaultIoMemSize : Nat := 8 * 2 ^ 20

def grow (valueLen : Nat) : Nat → Nat → Nat
  | 0, size => size
  | rounds + 1, size => if size < valueLen then grow valueLen rounds (size * 2) else size

namespace Session

def mayAdjustIoMem (s : Session) (valueLen : Nat) : Session :=
  if s.ioMem.size < valueLen then
    { s with ioMem := ⟨grow valueLen valueLen s.ioMem.size, s.fresh⟩ }
  else s

def allocNewObject (s : Session) (key : String) (valueLen random : Nat) :
    Except Outcome (ObjInfo × Session) :=
  match Block.BitmapIkv.alloc s.words (s.device.nrIoBlocks valueLen) random with
  | .returns lba handle words =>
    let objinfo := ⟨valueLen, lba, handle⟩
    .ok (objinfo, { s with words, metaPool := update s.metaPool key (some objinfo) })
  | .throws => .error .throws
  | .crashes => .error .crashes

/-- The object is removed before the blocks are freed, and `lba_start` is `unsigned`. -/
def erase (s : Session) (key : String) : Outcome × Session :=
  match s.metaPool key with
  | none => (.keyNotFound, s)
  | some objinfo =>
    if objinfo.blockRegion ∈ s.locked then (.throws, s)
    else
      let metaPool := update s.metaPool key none
      match Block.BitmapIkv.free s.words (objinfo.lbaStart % 2 ^ 32) objinfo.blockRegion with
      | none => (.throws, { s with metaPool, locked := objinfo.blockRegion :: s.locked })
      | some words => (.ok, { s with metaPool, words })

def get (s : Session) (key : String) : Outcome × Session :=
  match s.metaPool key with
  | none => (.keyNotFound, s)
  | some objinfo =>
    let s := s.mayAdjustIoMem objinfo.size
    match readBlocks s.device s.ioMem objinfo.lbaStart (s.device.nrIoBlocks objinfo.size) with
    | (true, ioMem) => (.value (ioMem.bytes.slice 0 objinfo.size), { s with ioMem })
    | (false, ioMem) => (.throws, { s with ioMem })

def registered (out : Destination) (valLen : Nat) : Bool :=
  match out.memoryHandle with
  | none => true
  | some (startVaddr, length) =>
    decide (startVaddr ≤ out.outValue ∧ valLen + (out.outValue - startVaddr) ≤ length)

def getDirect (s : Session) (key : String) (out : Destination) : Outcome :=
  match s.metaPool key with
  | none => .keyNotFound
  | some objinfo =>
    if registered out objinfo.size then
      match readBlocks s.device out.buffer objinfo.lbaStart (s.device.nrIoBlocks objinfo.size) with
      | (true, mem) => .value (mem.bytes.slice 0 objinfo.size)
      | (false, _) => .throws
    else .throws

def putNew (s : Session) (key : String) (value : Bytes) (random : Nat) : Outcome × Session :=
  let s := s.mayAdjustIoMem value.length
  match s.allocNewObject key value.length random with
  | .error outcome => (outcome, s)
  | .ok (objinfo, s) =>
    let ioMem := { s.ioMem with bytes := s.ioMem.bytes.store 0 value }
    match writeBlocks s.device ioMem objinfo.lbaStart (s.device.nrIoBlocks value.length) with
    | (true, device) => (.ok, { s with ioMem, device })
    | (false, device) => (.throws, { s with ioMem, device })

def put (s : Session) (key : String) (value : Bytes) (random : Nat) : Outcome × Session :=
  match s.metaPool key with
  | none => s.putNew key value random
  | some _ =>
    match s.erase key with
    | (.throws, s) => (.throws, s)
    | (_, s) => s.putNew key value random

end Session

structure State where
  session : Session
  contents : String → Option Bytes

inductive Event where
  | put (key : String) (value : Value) (random : Nat)
  | get (key : String)
  | getDirect (key : String) (out : Destination)
  | erase (key : String)

def answer : Option Bytes → Outcome
  | none => .keyNotFound
  | some v => .value v

namespace State

def init (device : Device) (ioMem fresh : Memory) : State :=
  ⟨⟨device, fun _ => 0#64, fun _ => none, [], ⟨defaultIoMemSize, ioMem⟩, fresh⟩, fun _ => none⟩

def step (s : State) : Event → Option State
  | .put key value random =>
    match s.session.put key value.bytes random with
    | (.crashes, _) => none
    | (.ok, session) => some ⟨session, update s.contents key (some value.bytes)⟩
    | (_, session) => some ⟨session, s.contents⟩
  | .get key => some ⟨(s.session.get key).2, s.contents⟩
  | .getDirect _ _ => some s
  | .erase key =>
    match s.session.erase key with
    | (.ok, session) => some ⟨session, update s.contents key none⟩
    | (_, session) => some ⟨session, s.contents⟩

def LargeEnough (s : State) (key : String) (out : Destination) : Prop :=
  ∀ v ∈ s.contents key, Session.registered out v.length = true ∧
    s.session.device.nrIoBlocks v.length * s.session.device.blkSz ≤ out.buffer.size

def Frames (s : State) (key : String) (session : Session) : Prop :=
  ∀ k ≠ key, (session.get k).1 = (s.session.get k).1

def Holds (s : State) : Event → Prop
  | .put key value random =>
    (s.session.put key value.bytes random).1 = .ok ∧
      s.Frames key (s.session.put key value.bytes random).2
  | .get key => (s.session.get key).1 = answer (s.contents key)
  | .getDirect key out => s.LargeEnough key out → s.session.getDirect key out = answer (s.contents key)
  | .erase key => s.Frames key (s.session.erase key).2

end State

namespace Session

def Erasable (s : Session) (key : String) : Prop :=
  ∀ o ∈ s.metaPool key, ¬ (o.lbaStart = 0 ∧ s.device.nrIoBlocks o.size = 1)

def Unmarked (s : Session) (pos count : Nat) : Prop := ∀ b, pos ≤ b → b < pos + count → bit s.words b = false

/-- The first region of `2 ^ order` unmarked blocks from the random origin on, with the order rounded down. The chunks
of the transfer end on the device, and none of their blocks holds another value. -/
def Placeable (s : Session) (valueLen random : Nat) : Prop :=
  let n := s.device.nrIoBlocks valueLen
  let order := Block.BitmapIkv.orderOf n
  let tab := Block.BitmapIkv.State.tab order random
  ∃ t < capacity / 2 ^ order, s.Unmarked (tab t) (2 ^ order) ∧ (∀ t' < t, ¬ s.Unmarked (tab t') (2 ^ order)) ∧
    tab t + extent n ≤ s.device.blocks ∧
    ∀ k, ∀ o ∈ s.metaPool k,
      tab t + extent n ≤ o.lbaStart ∨ o.lbaStart + s.device.nrIoBlocks o.size ≤ tab t

/-- As `Placeable`, but of the stored values only the blocks are asked for that the allocator has not marked: a block
behind the marked ones of the new value or of a stored one is not in both. -/
def Fits (s : Session) (valueLen random : Nat) : Prop :=
  let n := s.device.nrIoBlocks valueLen
  let order := Block.BitmapIkv.orderOf n
  let tab := Block.BitmapIkv.State.tab order random
  ∃ t < capacity / 2 ^ order, s.Unmarked (tab t) (2 ^ order) ∧ (∀ t' < t, ¬ s.Unmarked (tab t') (2 ^ order)) ∧
    tab t + extent n ≤ s.device.blocks ∧
    ∀ k, ∀ o ∈ s.metaPool k, ∀ b, tab t + 2 ^ order ≤ b ∨ o.lbaStart + s.device.markedBlocks o.size ≤ b →
      tab t ≤ b → b < tab t + extent n → o.lbaStart ≤ b → o.lbaStart + s.device.nrIoBlocks o.size ≤ b

end Session

/-- A put is safe if the object that it replaces can be erased and the new one fits then; a read into memory of the
caller, if the whole transfer has room there. -/
def State.Safe (s : State) : Event → Prop
  | .put key value random =>
    s.session.Erasable key ∧ (s.session.erase key).2.Fits value.bytes.length random
  | .get _ => True
  | .getDirect key out => ∀ o ∈ s.session.metaPool key,
    extent (s.session.device.nrIoBlocks o.size) * s.session.device.blkSz ≤ out.buffer.size
  | .erase key => s.session.Erasable key

structure ObjInfo.Stores (o : ObjInfo) (d : Device) (v : Bytes) : Prop where
  size : o.size = v.length
  pos : 0 < v.length
  device : o.lbaStart + extent (d.nrIoBlocks v.length) ≤ d.blocks
  bytes : d.bytes.slice (o.lbaStart * d.blkSz) v.length = v
  order : Block.BitmapIkv.orderOf (d.nrIoBlocks v.length) ≤ 25
  lba : o.lbaStart < 2 ^ 25
  aligned : d.markedBlocks v.length ∣ o.lbaStart
  handle : o.blockRegion = pack o.lbaStart (Block.BitmapIkv.orderOf (d.nrIoBlocks v.length))

def ObjInfo.Apart (o : ObjInfo) (d : Device) (o' : ObjInfo) : Prop :=
  o.lbaStart + d.nrIoBlocks o.size ≤ o'.lbaStart ∨ o'.lbaStart + d.nrIoBlocks o'.size ≤ o.lbaStart

def ObjInfo.Marked (o : ObjInfo) (d : Device) (words : Words) : Prop :=
  ∀ b, o.lbaStart ≤ b → b < o.lbaStart + d.markedBlocks o.size → bit words b = true

structure Inv (s : Session) (contents : String → Option Bytes) : Prop where
  absent : ∀ k, s.metaPool k = none → contents k = none
  present : ∀ k, ∀ o ∈ s.metaPool k, ∃ v, contents k = some v ∧ o.Stores s.device v
  apart : ∀ k k' o o', k ≠ k' → s.metaPool k = some o → s.metaPool k' = some o' → o.Apart s.device o'
  marked : ∀ k, ∀ o ∈ s.metaPool k, o.Marked s.device s.words
  unlocked : s.locked = []
  ioMem : defaultIoMemSize ∣ s.ioMem.size
  ioMem_pos : 0 < s.ioMem.size

section Sizes

variable {d : Device} {len size rounds : Nat}

theorem le_grow (h : len ≤ size * 2 ^ rounds) : len ≤ grow len rounds size := by
  induction rounds generalizing size with
  | zero => simpa [grow] using h
  | succ rounds ih =>
    unfold grow
    split
    · refine ih (h.trans (Nat.le_of_eq ?_))
      rw [Nat.pow_succ]
      ring
    · next hle => exact Nat.le_of_not_lt hle

theorem dvd_grow : size ∣ grow len rounds size := by
  induction rounds generalizing size with
  | zero => exact dvd_rfl
  | succ rounds ih =>
    unfold grow
    split
    · exact (Nat.dvd_mul_right size 2).trans ih
    · exact dvd_rfl

theorem Device.le_nrIoBlocks (d : Device) (len : Nat) : len ≤ d.nrIoBlocks len * d.blkSz := by
  have hpos := d.blkSz_pos
  have hmod := Nat.mod_lt (len + d.blkSz - 1) hpos
  have hdiv := Nat.div_add_mod (len + d.blkSz - 1) d.blkSz
  unfold Device.nrIoBlocks
  rw [Nat.mul_comm]
  omega

theorem Device.nrIoBlocks_le (d : Device) {n : Nat} (h : len ≤ n * d.blkSz) : d.nrIoBlocks len ≤ n := by
  have hpos := d.blkSz_pos
  unfold Device.nrIoBlocks
  refine Nat.lt_succ_iff.mp ((Nat.div_lt_iff_lt_mul hpos).mpr ?_)
  rw [Nat.succ_mul]
  omega

theorem Device.nrIoBlocks_pos (d : Device) (h : 0 < len) : 0 < d.nrIoBlocks len := by
  have hle := d.le_nrIoBlocks len
  by_contra hzero
  rw [Nat.eq_zero_of_not_pos hzero, Nat.zero_mul] at hle
  omega

theorem Device.markedBlocks_le (d : Device) (h : 0 < len) : d.markedBlocks len ≤ d.nrIoBlocks len :=
  Nat.log2_self_le (d.nrIoBlocks_pos h).ne'

theorem extent_le_ioMem (hdvd : defaultIoMemSize ∣ size) (hle : len ≤ size) :
    extent (d.nrIoBlocks len) * d.blkSz ≤ size := by
  have hmb : 8 * 2 ^ 18 ∣ defaultIoMemSize := by decide
  have hchunk : 8 * d.blkSz ∣ size := (Nat.mul_dvd_mul_left 8 d.blkSz_dvd).trans (hmb.trans hdvd)
  obtain ⟨k, hk⟩ := hchunk
  have hsize : size = 8 * k * d.blkSz := by
    rw [hk]
    ring
  rw [hsize] at hle ⊢
  have hn := d.nrIoBlocks_le hle
  refine Nat.mul_le_mul_right _ ?_
  unfold extent
  split <;> omega

end Sizes

section Invariant

variable {s : Session} {contents : String → Option Bytes} {key : String} {v : Bytes} {o : ObjInfo}
  {out : Destination} {random : Nat}

theorem mayAdjustIoMem_eq (hdvd : defaultIoMemSize ∣ s.ioMem.size) (hpos : 0 < s.ioMem.size) (len : Nat) :
    ∃ m : Buffer, s.mayAdjustIoMem len = { s with ioMem := m } ∧ defaultIoMemSize ∣ m.size ∧ 0 < m.size ∧
      len ≤ m.size := by
  unfold Session.mayAdjustIoMem
  split
  · next hlt =>
    have hle : len ≤ grow len len s.ioMem.size :=
      le_grow (Nat.lt_two_pow_self.le.trans (Nat.le_mul_of_pos_left _ hpos))
    exact ⟨_, rfl, hdvd.trans dvd_grow, by dsimp only; omega, hle⟩
  · next hge => exact ⟨s.ioMem, rfl, hdvd, hpos, Nat.le_of_not_lt hge⟩

theorem Inv.setIoMem (h : Inv s contents) {m : Buffer} (hdvd : defaultIoMemSize ∣ m.size) (hpos : 0 < m.size) :
    Inv { s with ioMem := m } contents := { h with ioMem := hdvd, ioMem_pos := hpos }

theorem Inv.stores (h : Inv s contents) (ho : s.metaPool key = some o) :
    contents key = some ((contents key).getD []) ∧ o.Stores s.device ((contents key).getD []) := by
  obtain ⟨v, hv, hstores⟩ := h.present key o ho
  rw [hv]
  exact ⟨rfl, hstores⟩

theorem ObjInfo.Stores.read {d : Device} (h : o.Stores d v) {m : Buffer}
    (hroom : extent (d.nrIoBlocks v.length) * d.blkSz ≤ m.size) :
    ∃ m' : Buffer, readBlocks d m o.lbaStart (d.nrIoBlocks o.size) = (true, m') ∧ m'.size = m.size ∧
      m'.bytes.slice 0 o.size = v := by
  rw [h.size, readBlocks_eq ⟨hroom, h.device⟩]
  refine ⟨_, rfl, rfl, ?_⟩
  have hin : 0 + v.length ≤ extent (d.nrIoBlocks v.length) * d.blkSz := by
    rw [Nat.zero_add]
    exact (d.le_nrIoBlocks v.length).trans (Nat.mul_le_mul_right _ le_extent)
  exact (Memory.slice_blit hin).trans h.bytes

theorem Inv.get (h : Inv s contents) (key : String) :
    (s.get key).1 = answer (contents key) ∧ Inv (s.get key).2 contents := by
  unfold Session.get
  cases ho : s.metaPool key with
  | none =>
    rw [h.absent key ho]
    exact ⟨rfl, h⟩
  | some o =>
    obtain ⟨hv, hstores⟩ := h.stores ho
    obtain ⟨m, hm, hdvd, hpos, hle⟩ := mayAdjustIoMem_eq h.ioMem h.ioMem_pos o.size
    obtain ⟨m', hread, hsize, hslice⟩ := hstores.read (extent_le_ioMem hdvd (hstores.size ▸ hle))
    dsimp only
    rw [hm]
    dsimp only
    rw [hread, hv]
    exact ⟨congrArg Outcome.value hslice, h.setIoMem (hsize ▸ hdvd) (hsize ▸ hpos)⟩

theorem Inv.getDirect (h : Inv s contents)
    (hroom : ∀ o ∈ s.metaPool key, extent (s.device.nrIoBlocks o.size) * s.device.blkSz ≤ out.buffer.size)
    (hreg : ∀ v ∈ contents key, Session.registered out v.length = true) :
    s.getDirect key out = answer (contents key) := by
  unfold Session.getDirect
  cases ho : s.metaPool key with
  | none => rw [h.absent key ho]; rfl
  | some o =>
    obtain ⟨hv, hstores⟩ := h.stores ho
    obtain ⟨m', hread, -, hslice⟩ := hstores.read (hstores.size ▸ hroom o ho)
    dsimp only
    rw [hstores.size, if_pos (hreg _ hv), ← hstores.size, hread, hv]
    exact congrArg Outcome.value hslice

/-- The object of one key is replaced by a new one, or by none, and the others keep their bytes and their marks. -/
theorem Inv.set (h : Inv s contents) (key : String) (new : Option (ObjInfo × Bytes)) {bytes : Memory} {words : Words}
    {m : Buffer} (hnew : ∀ n ∈ new, n.1.Stores { s.device with bytes } n.2 ∧ n.1.Marked s.device words)
    (hother : ∀ k ≠ key, ∀ o ∈ s.metaPool k, (∀ v, o.Stores s.device v → o.Stores { s.device with bytes } v) ∧
      o.Marked s.device words ∧ ∀ n ∈ new, n.1.Apart s.device o)
    (hdvd : defaultIoMemSize ∣ m.size) (hpos : 0 < m.size) :
    Inv { s with
        device := { s.device with bytes }
        metaPool := update s.metaPool key (new.map Prod.fst), words := words, ioMem := m }
      (update contents key (new.map Prod.snd)) := by
  have hcases {k : String} {o : ObjInfo} (ho : update s.metaPool key (new.map Prod.fst) k = some o) :
      (k = key ∧ ∃ v, new = some (o, v)) ∨ k ≠ key ∧ s.metaPool k = some o := by
    by_cases hk : k = key
    · subst hk
      rw [update_self] at ho
      obtain ⟨⟨_, v⟩, hv, rfl⟩ := Option.map_eq_some_iff.mp ho
      exact Or.inl ⟨rfl, v, hv⟩
    · exact Or.inr ⟨hk, (update_of_ne hk ..).symm.trans ho⟩
  refine ⟨fun k hk => ?_, fun k o ho => ?_, fun k k' o o' hne ho ho' => ?_, fun k o ho => ?_, h.unlocked, hdvd, hpos⟩
  · by_cases hself : k = key
    · subst hself
      have hnone := (update_self ..).symm.trans hk
      rw [update_self, Option.map_eq_none_iff.mp hnone]
      rfl
    · rw [update_of_ne hself]
      exact h.absent k ((update_of_ne hself ..).symm.trans hk)
  · obtain ⟨rfl, v, rfl⟩ | ⟨hk, ho⟩ := hcases ho
    · exact ⟨v, update_self .., (hnew _ rfl).1⟩
    · obtain ⟨v, hv, hstores⟩ := h.present k o ho
      exact ⟨v, (update_of_ne hk ..).trans hv, (hother k hk o ho).1 v hstores⟩
  · obtain ⟨rfl, v, rfl⟩ | ⟨hk, hold⟩ := hcases ho
    · obtain ⟨rfl, -⟩ | ⟨hk', hold'⟩ := hcases ho'
      · exact absurd rfl hne
      · exact (hother k' hk' o' hold').2.2 _ rfl
    · obtain ⟨rfl, v, rfl⟩ | ⟨-, hold'⟩ := hcases ho'
      · exact ((hother k hk o hold).2.2 _ rfl).symm
      · exact h.apart k k' o o' hne hold hold'
  · obtain ⟨rfl, v, rfl⟩ | ⟨hk, ho⟩ := hcases ho
    · exact (hnew _ rfl).2
    · exact (hother k hk o ho).2.1

theorem ObjInfo.Stores.free {d : Device} (h : o.Stores d v) (w : Words)
    (hnull : ¬ (o.lbaStart = 0 ∧ d.nrIoBlocks o.size = 1)) :
    ∃ words, Block.BitmapIkv.free w (o.lbaStart % 2 ^ 32) o.blockRegion = some words ∧ ∀ b, bit words b = true ↔
      bit w b = true ∧ ¬ (o.lbaStart ≤ b ∧ b < o.lbaStart + d.markedBlocks o.size) := by
  have hlba := h.lba
  have horder := h.order
  have hpos := d.nrIoBlocks_pos h.pos
  have hrelease := Block.BitmapIkv.bit_regOp_release (w := w) h.aligned
  rw [h.size] at hnull ⊢
  rw [Nat.mod_eq_of_lt (by omega), h.handle]
  refine ⟨_, Block.BitmapIkv.free_pack (by omega) (by omega) ?_, hrelease⟩
  -- The order of a region is 0 only for a single block.
  rintro ⟨hzero, hlog⟩
  have hlt := (Nat.log2_lt (Nat.ne_of_gt hpos)).mp (Nat.lt_succ_of_le (Nat.le_of_eq hlog))
  exact hnull ⟨hzero, by omega⟩

theorem Inv.erase (h : Inv s contents) (hsafe : s.Erasable key) :
    (s.erase key).1 = (if s.metaPool key = none then .keyNotFound else .ok) ∧
      (s.erase key).2.metaPool key = none ∧ Inv (s.erase key).2 (update contents key none) := by
  unfold Session.erase
  cases ho : s.metaPool key with
  | none =>
    refine ⟨(if_pos rfl).symm, ho, ?_⟩
    rw [← h.absent key ho, update_eq_self]
    exact h
  | some o =>
    obtain ⟨hv, hstores⟩ := h.stores ho
    obtain ⟨words, hfree, hbits⟩ := hstores.free s.words (hsafe o ho)
    -- the blocks that are marked for another object stay so
    have hwords : ∀ k ≠ key, ∀ o' ∈ s.metaPool k, o'.Marked s.device words := by
      intro k hk o' ho' b hlo hhi
      have happart := h.apart k key o' o hk ho' ho
      unfold ObjInfo.Apart at happart
      have hle := s.device.markedBlocks_le (hstores.size ▸ hstores.pos)
      have hle' := s.device.markedBlocks_le ((h.stores ho').2.size ▸ (h.stores ho').2.pos)
      exact (hbits b).mpr ⟨h.marked k o' ho' b hlo hhi, by omega⟩
    dsimp only
    rw [h.unlocked, if_neg List.not_mem_nil, hfree]
    refine ⟨rfl, update_self .., ?_⟩
    have hinv := h.set key none nofun (fun k hk o ho => ⟨fun _ hv => hv, hwords k hk o ho, nofun⟩) h.ioMem h.ioMem_pos
    rw [h.unlocked] at hinv
    exact hinv

theorem ObjInfo.Stores.write {d : Device} (h : o.Stores d v) {src : Memory} {lba n : Nat}
    (happart : lba + n ≤ o.lbaStart ∨ o.lbaStart + d.nrIoBlocks o.size ≤ lba) :
    o.Stores { d with bytes := d.bytes.blit (lba * d.blkSz) src 0 (n * d.blkSz) } v := by
  refine { h with bytes := ?_ }
  refine (Memory.slice_blit_of_apart ?_).trans h.bytes
  obtain hbehind | hbefore := happart
  · refine Or.inl ?_
    rw [← Nat.add_mul]
    exact Nat.mul_le_mul_right _ hbehind
  · refine Or.inr ?_
    rw [h.size] at hbefore
    have hlen := d.le_nrIoBlocks v.length
    calc o.lbaStart * d.blkSz + v.length
        ≤ o.lbaStart * d.blkSz + d.nrIoBlocks v.length * d.blkSz := Nat.add_le_add_left hlen _
      _ = (o.lbaStart + d.nrIoBlocks v.length) * d.blkSz := (Nat.add_mul ..).symm
      _ ≤ lba * d.blkSz := Nat.mul_le_mul_right _ hbefore

theorem Inv.putNew (h : Inv s contents) (hv : 0 < v.length) (hsafe : s.Placeable v.length random) :
    (s.putNew key v random).1 = .ok ∧ Inv (s.putNew key v random).2 (update contents key (some v)) := by
  obtain ⟨m, hm, hdvd, hpos, hle⟩ := mayAdjustIoMem_eq h.ioMem h.ioMem_pos v.length
  obtain ⟨t, ht, hfree, hfirst, hdevice, happart⟩ := hsafe
  have halloc := Block.BitmapIkv.alloc_first ht hfree hfirst
  have horder := Block.BitmapIkv.order_le ht
  have htab : Block.BitmapIkv.State.tab _ random t + _ ≤ _ := Block.BitmapIkv.tab_le horder
  have haligned : 2 ^ _ ∣ Block.BitmapIkv.State.tab _ random t := Block.BitmapIkv.tab_aligned horder
  generalize Block.BitmapIkv.State.tab _ random t = lba at halloc hdevice happart htab haligned
  have hlba : lba < 2 ^ 25 := by
    rw [Block.BitmapIkv.capacity_eq] at htab
    have := Nat.two_pow_pos (Block.BitmapIkv.orderOf (s.device.nrIoBlocks v.length))
    omega
  have hroom : s.device.Room ⟨m.size, m.bytes.store 0 v⟩ lba (s.device.nrIoBlocks v.length) :=
    ⟨extent_le_ioMem hdvd hle, hdevice⟩
  unfold Session.putNew Session.allocNewObject
  rw [hm]
  dsimp only
  rw [halloc]
  dsimp only
  rw [writeBlocks_eq hroom]
  have hwords := Block.BitmapIkv.bit_regOp_alloc (w := s.words) haligned
  refine ⟨rfl, h.set key (some (⟨v.length, lba, _⟩, v)) ?_ (fun k hk o ho => ⟨fun _ hv => hv.write (happart k o ho),
    fun b hlo hhi => (hwords b).mpr (Or.inl (h.marked k o ho b hlo hhi)), ?_⟩) hdvd hpos⟩
  swap
  · rintro _ ⟨⟩
    exact (happart k o ho).imp_left ((Nat.add_le_add_left le_extent _).trans ·)
  rintro _ ⟨⟩
  refine ⟨⟨rfl, hv, hdevice, ?_, horder, hlba, haligned, rfl⟩, fun b hlo hhi => (hwords b).mpr (Or.inr ⟨hlo, hhi⟩)⟩
  -- The value is at the start of the io buffer, and so of the blocks that are written.
  have hin : 0 + v.length ≤ extent (s.device.nrIoBlocks v.length) * s.device.blkSz := by
    rw [Nat.zero_add]
    exact (s.device.le_nrIoBlocks v.length).trans (Nat.mul_le_mul_right _ le_extent)
  exact (Memory.slice_blit hin).trans Memory.slice_store_self

/-- The marked blocks of a stored value are not in a region without marks. -/
theorem Inv.placeable (h : Inv s contents) {len : Nat} (hlen : 0 < len) (hfits : s.Fits len random) : s.Placeable len random := by
  obtain ⟨t, ht, hfree, hfirst, hdevice, htails⟩ := hfits
  refine ⟨t, ht, hfree, hfirst, hdevice, fun k o ho => ?_⟩
  obtain ⟨-, hstores⟩ := h.stores ho
  have hpos := s.device.nrIoBlocks_pos (hstores.size ▸ hstores.pos : 0 < o.size)
  have hext : 0 < extent (s.device.nrIoBlocks len) := (s.device.nrIoBlocks_pos hlen).trans_le le_extent
  generalize Block.BitmapIkv.State.tab _ random t = lba at hfree hdevice htails ⊢
  by_contra hnot
  push Not at hnot
  -- the larger of the two first blocks is in both
  have hmax := htails k o ho (max lba o.lbaStart)
  by_cases hbehind : lba + 2 ^ Block.BitmapIkv.orderOf (s.device.nrIoBlocks len) ≤ max lba o.lbaStart ∨
      o.lbaStart + s.device.markedBlocks o.size ≤ max lba o.lbaStart
  · have hend := hmax hbehind (le_max_left ..) (by omega) (le_max_right ..)
    omega
  · have hbit := h.marked k o ho (max lba o.lbaStart) (le_max_right ..) (by omega)
    rw [hfree _ (le_max_left ..) (by omega)] at hbit
    cases hbit

theorem Inv.put (h : Inv s contents) (hv : 0 < v.length) (herase : s.Erasable key)
    (hsafe : (s.erase key).2.Fits v.length random) :
    (s.put key v random).1 = .ok ∧ Inv (s.put key v random).2 (update contents key (some v)) := by
  obtain ⟨hout, -, hinv⟩ := h.erase herase
  have hnew : ((s.erase key).2.putNew key v random).1 = .ok ∧ Inv ((s.erase key).2.putNew key v random).2 _ :=
    hinv.putNew hv (hinv.placeable hv hsafe)
  rw [update_idem] at hnew
  unfold Session.put
  cases ho : s.metaPool key with
  | none =>
    have hsame : (s.erase key).2 = s := by
      unfold Session.erase
      rw [ho]
    rw [hsame] at hnew
    exact hnew
  | some o =>
    rw [ho] at hout
    have hres : s.erase key = (.ok, (s.erase key).2) := Prod.ext hout rfl
    rw [hres]
    exact hnew

theorem Inv.frames {σ : State} (h : Inv σ.session σ.contents) {session : Session} {key : String}
    {v : Option Bytes} (h' : Inv session (update σ.contents key v)) : σ.Frames key session := by
  intro k hk
  rw [(h'.get k).1, (h.get k).1, update_of_ne hk]

theorem inv_init (device : Device) (ioMem fresh : Memory) :
    Inv (State.init device ioMem fresh).session (State.init device ioMem fresh).contents where
  absent _ _ := rfl
  present k o ho := by cases ho
  apart k k' o o' hne ho := by cases ho
  marked k o ho := by cases ho
  unlocked := rfl
  ioMem := dvd_rfl
  ioMem_pos := Nat.mul_pos (by decide) (Nat.two_pow_pos 20)

theorem Inv.step {σ : State} (h : Inv σ.session σ.contents) (e : Event) (hsafe : σ.Safe e) :
    σ.Holds e ∧ ∀ σ' ∈ σ.step e, Inv σ'.session σ'.contents := by
  cases e with
  | put key value random =>
    obtain ⟨hout, hinv⟩ := h.put value.pos hsafe.1 hsafe.2
    refine ⟨⟨hout, h.frames hinv⟩, ?_⟩
    unfold State.step
    dsimp only
    generalize σ.session.put key value.bytes random = res at hout hinv ⊢
    obtain ⟨out, session⟩ := res
    obtain rfl : out = .ok := hout
    rintro σ' ⟨⟩
    exact hinv
  | get key =>
    obtain ⟨hget, hinv⟩ := h.get key
    refine ⟨hget, ?_⟩
    rintro σ' ⟨⟩
    exact hinv
  | getDirect key out =>
    refine ⟨fun hlarge => h.getDirect hsafe fun v hv => (hlarge v hv).1, ?_⟩
    rintro σ' ⟨⟩
    exact h
  | erase key =>
    obtain ⟨hout, -, hinv⟩ := h.erase hsafe
    refine ⟨h.frames hinv, ?_⟩
    unfold State.step
    dsimp only
    generalize σ.session.erase key = res at hout hinv ⊢
    obtain ⟨out, session⟩ := res
    by_cases hnone : σ.session.metaPool key = none
    · obtain rfl : out = .keyNotFound := hout.trans (if_pos hnone)
      rintro σ' ⟨⟩
      rwa [← h.absent key hnone, update_eq_self] at hinv
    · obtain rfl : out = .ok := hout.trans (if_neg hnone)
      rintro σ' ⟨⟩
      exact hinv

end Invariant

/-- In every safe run a key reads back what was last put under it, and a call for one key changes the answer for no
other. -/
theorem nvme_holds_of_safe (device : Device) (ioMem fresh : Memory) (es : List Event)
    (h : Throughout State.step State.Safe (.init device ioMem fresh) es) :
    Throughout State.step State.Holds (.init device ioMem fresh) es := by
  refine h.imp (I := fun σ => Inv σ.session σ.contents) (fun σ e hinv hsafe => (hinv.step e hsafe).1)
    (fun σ e σ' hinv hsafe hσ' => (hinv.step e hsafe).2 σ' hσ') (inv_init device ioMem fresh)

def smallDevice : Device := ⟨512, 64, fun _ => 0, sector_pos, sector_dvd⟩

def threeBlocks : Value := ⟨List.replicate 1025 1, by decide +kernel, by decide +kernel⟩

def oneByte : Value := ⟨[2], by decide, by decide⟩

def twoBlocks : Value := ⟨List.replicate 600 3, by decide +kernel, by decide +kernel⟩

/-- Two objects next to each other, of one and of two blocks. -/
theorem nvme_holds_twoKeys : Throughout State.step State.Holds (.init smallDevice (fun _ => 0) (fun _ => 0))
      [.put "a" oneByte 1, .put "b" twoBlocks 1, .get "a", .get "b"] := by
  refine nvme_holds_of_safe smallDevice _ _ _
    ⟨⟨fun o ho => (by cases ho), 0, by decide, fun b _ _ => ?_, fun t ht => ?_, by decide, ?_⟩, fun σ hσ => ?_⟩
  · simp [State.init, Session.erase, bit]
  · cases ht
  · intro k o ho
    cases ho
  have hmeta : σ.session.metaPool = update (fun _ => none) "a" (some ⟨1, 1, 2 ^ 32⟩) := by
    cases hσ
    rfl
  have hdevice : σ.session.device.blkSz = 512 ∧ σ.session.device.blocks = 64 := by
    cases hσ
    exact ⟨rfl, rfl⟩
  have hbits : bit σ.session.words 2 = false ∧ bit σ.session.words 3 = false := by
    cases hσ
    decide +kernel
  have hblocks : σ.session.device.nrIoBlocks 600 = 2 ∧ σ.session.device.nrIoBlocks 1 = 1 := by
    rw [Device.nrIoBlocks, Device.nrIoBlocks, hdevice.1]
    decide
  have herase : σ.session.erase "b" = (.keyNotFound, σ.session) := by
    simp [Session.erase, hmeta]
  have htab : Block.BitmapIkv.State.tab 1 1 0 = 2 := by decide
  have hlength : twoBlocks.bytes.length = 600 := by decide +kernel
  have hlog : Block.BitmapIkv.orderOf 2 = 1 := by decide
  refine ⟨⟨fun o ho => ?_, ?_⟩, fun _ _ => ⟨trivial, fun _ _ => ⟨trivial, fun _ _ => trivial⟩⟩⟩
  · simp [hmeta] at ho
  rw [herase]
  simp only [Session.Fits, hlength, hblocks.1, hlog]
  refine ⟨0, by decide, fun b hlo hhi => ?_, fun t ht => (by cases ht), ?_, fun k o ho b hb => ?_⟩
  · rw [htab] at hlo hhi
    obtain rfl | rfl : b = 2 ∨ b = 3 := by omega
    · exact hbits.1
    · exact hbits.2
  · rw [htab, hdevice.2]
    decide
  · have ho : o = ⟨1, 1, 2 ^ 32⟩ := by
      by_cases hk : k = "a"
      · simpa [hmeta, hk, eq_comm] using ho
      · simp [hmeta, update_of_ne hk] at ho
    rw [ho, htab] at *
    simp only [hblocks.2]
    omega

/-- Only two of the three blocks are marked, and another key is put into the third one. -/
theorem not_nvme_holds_threeBlocks : ¬ Throughout State.step State.Holds (.init smallDevice (fun _ => 0) (fun _ => 0))
      [.put "a" threeBlocks 0, .put "b" oneByte 2, .get "a"] := by
  rintro ⟨-, hfirst⟩
  obtain ⟨-, hsecond⟩ := hfirst _ (Option.get_mem (by decide +kernel))
  obtain ⟨hget, -⟩ := hsecond _ (Option.get_mem (by decide +kernel))
  -- The last byte of the value is the one of the other key.
  have hlast := congrArg (fun out => match out with | .value bytes => bytes[1024]? | _ => none) hget
  revert hlast
  decide +kernel

end Comanche.Store.Nvme
