import Comanche.Store.MapStore
import Comanche.Store.NvmeStore

/-!
# Locks of the NVMe store

`persist_session::lock` maps a buffer of whole huge pages at a fixed address and reads blocks into it;
`unlock` writes the buffer back.
-/

namespace Comanche.Store.Nvme

open Lib Lib.Bitmap
open Block.BitmapIkv (pack)

def hugePage : Nat := 2 * 2 ^ 20

def targetAddr : Nat := 0x900000000

def roundUp (p alignment : Nat) : Nat :=
  let rdown := p / alignment * alignment
  if rdown = p then p else rdown + alignment

def dataSize (valueLen : Nat) : Nat := roundUp valueLen hugePage

def Device.dataBlocks (d : Device) (valueLen : Nat) : Nat := dataSize valueLen / d.blkSz

/-- A session with the locks of its objects. The write locks are in the session; `memory` is what is at `targetAddr`,
and `lockedRegion` its entry of `_locked_regions`. -/
structure Locker where
  session : Session
  readLocked : List Nat
  memory : Memory
  registered : Bool
  lockedRegion : Option String

inductive LockOutcome where
  | locked (addr len : Nat)
  | refused
  | throws
  | crashes
  deriving DecidableEq

namespace Locker

/-- `state_get_read_lock` and `state_get_write_lock`; nothing if the lock is not obtained. -/
def getLock (l : Locker) (type : LockType) (handle : Nat) : Option Locker :=
  match type with
  | .read =>
    if handle ∈ l.session.locked then none else some { l with readLocked := handle :: l.readLocked }
  | _ =>
    if handle ∈ l.session.locked ∨ handle ∈ l.readLocked then none
    else some { l with session := { l.session with locked := handle :: l.session.locked } }

/-- `state_unlock`; nothing if it throws. -/
def stateUnlock (l : Locker) (handle : Nat) : Option Locker :=
  if handle ∈ l.readLocked then some { l with readLocked := l.readLocked.erase handle }
  else if handle ∈ l.session.locked then
    some { l with session := { l.session with locked := l.session.locked.erase handle } }
  else none

def objectOf (l : Locker) (key : String) (outValueLen random : Nat) :
    Except LockOutcome (Bool × ObjInfo × Locker) :=
  match l.session.metaPool key with
  | some objinfo => .ok (true, objinfo, l)
  | none =>
    if outValueLen = 0 then .error .throws
    else
      match l.session.allocNewObject key outValueLen random with
      | .ok (objinfo, session) => .ok (false, objinfo, { l with session })
      | .error .crashes => .error .crashes
      | .error _ => .error .throws

/-- The io memory of a locked object. `mmap` at the fixed address replaces what is mapped there, `spdk_mem_register`
fails for registered memory, and `emplace` leaves an entry that is there. -/
def fill (l : Locker) (key : String) (existed : Bool) (objinfo : ObjInfo) : LockOutcome × Locker :=
  let zeroed := l.memory.blit 0 (fun _ => 0) 0 (dataSize objinfo.size)
  let lockedRegion := some (l.lockedRegion.getD key)
  if l.registered then (.refused, { l with memory := zeroed })
  else if existed then
    match readBlocks l.session.device ⟨dataSize objinfo.size, zeroed⟩ objinfo.lbaStart
      (l.session.device.dataBlocks objinfo.size) with
    | (true, m) =>
      (.locked targetAddr objinfo.size, { l with memory := m.bytes, registered := true, lockedRegion })
    | (false, m) => (.throws, { l with memory := m.bytes, registered := true })
  else (.locked targetAddr objinfo.size, { l with memory := zeroed, registered := true, lockedRegion })

def lock (l : Locker) (key : String) (type : LockType) (outValueLen random : Nat) : LockOutcome × Locker :=
  match l.objectOf key outValueLen random with
  | .error out => (out, l)
  | .ok (existed, objinfo, l) =>
    match l.getLock type objinfo.blockRegion with
    | none => (.throws, l)
    | some l => l.fill key existed objinfo

def setDevice (l : Locker) (device : Device) : Locker :=
  { l with session := { l.session with device } }

/-- The end of `unlock`: the assertions unregister and unmap the memory, and the lock is given back. -/
def release (l : Locker) (objinfo : ObjInfo) : Outcome × Locker :=
  if l.registered then
    let l := { l with registered := false }
    match l.stateUnlock objinfo.blockRegion with
    | none => (.throws, l)
    | some l => (.ok, { l with lockedRegion := none })
  else (.crashes, l)

def written (l : Locker) (objinfo : ObjInfo) : Bool × Device → Outcome × Locker
  | (false, device) => (.throws, l.setDevice device)
  | (true, device) => (l.setDevice device).release objinfo

def writeBack (l : Locker) (objinfo : ObjInfo) : Outcome × Locker :=
  l.written objinfo (writeBlocks l.session.device ⟨dataSize objinfo.size, l.memory⟩ objinfo.lbaStart
    (l.session.device.dataBlocks objinfo.size))

def unlock (l : Locker) (keyHandle : Nat) : Outcome × Locker :=
  match if keyHandle = targetAddr then l.lockedRegion else none with
  | none => (.throws, l)
  | some key =>
    match l.session.metaPool key with
    | none => (.keyNotFound, l)
    | some objinfo => l.writeBack objinfo

end Locker

structure Held where
  key : String
  addr : Nat
  content : Bytes

structure LockState where
  locker : Locker
  held : List Held

inductive LockEvent where
  | lock (key : String) (type : LockType) (outValueLen random : Nat)
  | modify (i off : Nat) (bytes : Bytes)
  | unlock (i : Nat)

def ObjInfo.value (o : ObjInfo) (d : Device) : Bytes := d.bytes.slice (o.lbaStart * d.blkSz) o.size

def ObjInfo.Owns (o : ObjInfo) (d : Device) (a : Nat) : Prop :=
  o.lbaStart * d.blkSz ≤ a ∧ a < (o.lbaStart + d.nrIoBlocks o.size) * d.blkSz

namespace LockState

def init (device : Device) (words : Words) (metaPool : String → Option ObjInfo) (ioMem : Buffer)
    (fresh memory : Memory) : LockState :=
  ⟨⟨⟨device, words, metaPool, [], ioMem, fresh⟩, [], memory, false, none⟩, []⟩

/-- A modification is one of the buffer of a held lock, within the length of the value. -/
def step (s : LockState) : LockEvent → Option LockState
  | .lock key type outValueLen random =>
    match s.locker.lock key type outValueLen random with
    | (.crashes, _) => none
    | (.locked addr len, locker) => some ⟨locker, ⟨key, addr, locker.memory.slice 0 len⟩ :: s.held⟩
    | (_, locker) => some ⟨locker, s.held⟩
  | .modify i off bytes =>
    match s.held[i]? with
    | none => some s
    | some h =>
      if off + bytes.length ≤ h.content.length then
        some ⟨{ s.locker with memory := s.locker.memory.store off bytes },
          s.held.set i { h with content := writeAt h.content off bytes }⟩
      else some s
  | .unlock i =>
    match s.held[i]? with
    | none => some s
    | some h => some ⟨(s.locker.unlock h.addr).2, s.held.eraseIdx i⟩

/-- A lock changes no block; unless another holder has locked the object it delivers the value, in a buffer that shares
no byte with another. An unlock stores the buffer, and changes no block of another region. -/
def Holds (s : LockState) : LockEvent → Prop
  | .lock key type outValueLen random =>
    let res := s.locker.lock key type outValueLen random
    res.2.session.device.bytes = s.locker.session.device.bytes ∧
      ∀ o ∈ s.locker.session.metaPool key, s.locker.getLock type o.blockRegion ≠ none →
        ∃ addr, res.1 = .locked addr o.size ∧
          res.2.memory.slice 0 o.size = o.value s.locker.session.device ∧
          ∀ h ∈ s.held, addr + o.size ≤ h.addr ∨ h.addr + h.content.length ≤ addr
  | .modify _ _ _ => True
  | .unlock i => ∀ h ∈ s.held[i]?, ∀ o ∈ s.locker.session.metaPool h.key,
      let res := s.locker.unlock h.addr
      res.1 = .ok ∧ o.value res.2.session.device = h.content ∧
        ∀ a, ¬ o.Owns s.locker.session.device a →
          res.2.session.device.bytes a = s.locker.session.device.bytes a

/-- No other lock is held, and the pages that are transferred end on the device; a key that does not exist has
a length of whole huge pages and can be placed. Or the lock is not obtained. -/
def Safe (s : LockState) : LockEvent → Prop
  | .lock key type outValueLen random =>
    let session := s.locker.session
    match session.metaPool key with
    | some o => s.locker.getLock type o.blockRegion = none ∨
        (s.held = [] ∧ o.lbaStart + session.device.dataBlocks o.size ≤ session.device.blocks)
    | none => outValueLen = 0 ∨
        (s.held = [] ∧ hugePage ∣ outValueLen ∧ session.Placeable outValueLen random)
  | .modify _ _ _ => True
  | .unlock _ => True

end LockState

/-- The buffer of the lock holds what its holder has, and behind the blocks of the value what is on the
device. -/
structure Locker.Lends (l : Locker) (h : Held) (o : ObjInfo) : Prop where
  addr : h.addr = targetAddr
  object : l.session.metaPool h.key = some o
  region : l.lockedRegion = some h.key
  registered : l.registered = true
  length : h.content.length = o.size
  content : l.memory.slice 0 o.size = h.content
  behind : ∀ i, l.session.device.nrIoBlocks o.size * l.session.device.blkSz ≤ i → i < dataSize o.size →
    l.memory i = l.session.device.bytes (o.lbaStart * l.session.device.blkSz + i)
  device : o.lbaStart + l.session.device.dataBlocks o.size ≤ l.session.device.blocks
  locks : (l.session.locked = [o.blockRegion] ∧ l.readLocked = []) ∨
    (l.session.locked = [] ∧ l.readLocked = [o.blockRegion])

inductive LockInv : LockState → Prop where
  | free {l : Locker} (registered : l.registered = false) (region : l.lockedRegion = none)
      (write : l.session.locked = []) (read : l.readLocked = []) : LockInv ⟨l, []⟩
  | one {l : Locker} {h : Held} {o : ObjInfo} (lends : l.Lends h o) : LockInv ⟨l, [h]⟩

section LockInvariant

variable {d : Device} {len : Nat} {l : Locker} {h : Held} {o : ObjInfo} {key : String} {type : LockType}

theorem le_dataSize : len ≤ dataSize len := by
  unfold dataSize roundUp
  have hpos : 0 < hugePage := by decide
  have hmod := Nat.mod_lt len hpos
  have hdiv := Nat.div_add_mod' len hugePage
  dsimp only
  split <;> omega

theorem hugePage_dvd_dataSize : hugePage ∣ dataSize len := by
  unfold dataSize roundUp
  dsimp only
  split
  · next heq => exact heq ▸ Nat.dvd_mul_left ..
  · exact (Nat.dvd_add_right (Nat.dvd_mul_left ..)).mpr dvd_rfl

theorem dataSize_eq_self (h : hugePage ∣ len) : dataSize len = len := by
  unfold dataSize roundUp
  exact if_pos (Nat.div_mul_cancel h)

theorem Device.chunk_dvd (d : Device) (h : hugePage ∣ len) : 8 * d.blkSz ∣ len := by
  have hpage : 8 * 2 ^ 18 ∣ hugePage := by decide
  exact (Nat.mul_dvd_mul_left 8 d.blkSz_dvd).trans (hpage.trans h)

theorem extent_dataBlocks : extent (d.dataBlocks len) = d.dataBlocks len := by
  obtain ⟨k, hk⟩ : 8 * d.blkSz ∣ dataSize len := d.chunk_dvd hugePage_dvd_dataSize
  have hblocks : d.dataBlocks len = 8 * k := by
    unfold Device.dataBlocks
    rw [hk, Nat.mul_right_comm]
    exact Nat.mul_div_cancel _ d.blkSz_pos
  rw [hblocks]
  unfold extent
  split <;> omega

theorem dataBlocks_mul : d.dataBlocks len * d.blkSz = dataSize len := by
  have hdvd : d.blkSz ∣ dataSize len := (Nat.dvd_mul_left ..).trans (d.chunk_dvd hugePage_dvd_dataSize)
  unfold Device.dataBlocks
  generalize dataSize len = size at hdvd
  exact Nat.div_mul_cancel hdvd

theorem Device.room_dataBlocks {m : Memory} {size lba : Nat} (hsize : dataSize len = size)
    (hdevice : lba + d.dataBlocks len ≤ d.blocks) : d.Room ⟨size, m⟩ lba (d.dataBlocks len) := by
  refine ⟨?_, ?_⟩
  · rw [extent_dataBlocks, dataBlocks_mul, hsize]
  · rwa [extent_dataBlocks]

def Locker.setLocks (l : Locker) (w r : List Nat) : Locker :=
  { l with session := { l.session with locked := w }, readLocked := r }

theorem getLock_free (type : LockType) (hwrite : l.session.locked = []) (hread : l.readLocked = []) (handle : Nat) :
    ∃ w r, l.getLock type handle = some (l.setLocks w r) ∧ ((w = [handle] ∧ r = []) ∨ (w = [] ∧ r = [handle])) := by
  have hw : handle ∉ l.session.locked := hwrite ▸ List.not_mem_nil
  have hr : handle ∉ l.readLocked := hread ▸ List.not_mem_nil
  cases type with
  | read => exact ⟨_, _, if_neg hw, Or.inr ⟨hwrite, congrArg (handle :: ·) hread⟩⟩
  | _ => exact ⟨_, _, if_neg (not_or.mpr ⟨hw, hr⟩), Or.inl ⟨congrArg (handle :: ·) hwrite, hread⟩⟩

section

variable (hlocks : (l.session.locked = [o.blockRegion] ∧ l.readLocked = []) ∨
  (l.session.locked = [] ∧ l.readLocked = [o.blockRegion]))
include hlocks

theorem release_held (hregistered : l.registered = true) :
    ∃ l', l.release o = (.ok, l') ∧ l'.session.device = l.session.device ∧ LockInv ⟨l', []⟩ := by
  unfold Locker.release Locker.stateUnlock
  rw [if_pos hregistered]
  dsimp only
  obtain ⟨hwrite, hread⟩ | ⟨hwrite, hread⟩ := hlocks
  · rw [hwrite, hread, if_neg List.not_mem_nil, if_pos (List.mem_singleton_self _)]
    exact ⟨_, rfl, rfl, .free rfl rfl (List.erase_cons_head ..) rfl⟩
  · rw [hread, if_pos (List.mem_singleton_self _)]
    exact ⟨_, rfl, rfl, .free rfl rfl hwrite (List.erase_cons_head ..)⟩

variable (hregistered : l.registered = false) (hregion : l.lockedRegion = none) (hobject : l.session.metaPool key = some o)
include hregistered hregion hobject

theorem fill_existing (hdevice : o.lbaStart + l.session.device.dataBlocks o.size ≤ l.session.device.blocks) :
    ∃ l', l.fill key true o = (.locked targetAddr o.size, l') ∧ l'.session = l.session ∧
      l'.memory.slice 0 o.size = o.value l.session.device ∧ l'.Lends ⟨key, targetAddr, l'.memory.slice 0 o.size⟩ o := by
  have hroom {m : Memory} : l.session.device.Room ⟨dataSize o.size, m⟩ o.lbaStart
      (l.session.device.dataBlocks o.size) := Device.room_dataBlocks rfl hdevice
  unfold Locker.fill
  dsimp only
  rw [hregistered, hregion, if_neg Bool.false_ne_true, if_pos rfl, readBlocks_eq hroom, extent_dataBlocks, dataBlocks_mul]
  refine ⟨_, rfl, rfl, ?_, ⟨rfl, hobject, rfl, rfl, Memory.length_slice, rfl, fun i _ hi => ?_, hdevice, hlocks⟩⟩
  · exact Memory.slice_blit ((Nat.zero_add _).le.trans le_dataSize)
  · have hbyte : Memory.blit (l.memory.blit 0 (fun _ => 0) 0 (dataSize o.size)) 0 l.session.device.bytes
        (o.lbaStart * l.session.device.blkSz) (dataSize o.size) (0 + i) = _ := Memory.blit_add hi
    rwa [Nat.zero_add] at hbyte

theorem fill_new (hpages : hugePage ∣ o.size)
    (hdevice : o.lbaStart + l.session.device.nrIoBlocks o.size ≤ l.session.device.blocks) :
    ∃ l', l.fill key false o = (.locked targetAddr o.size, l') ∧ l'.session = l.session ∧
      l'.Lends ⟨key, targetAddr, l'.memory.slice 0 o.size⟩ o := by
  have hsize := dataSize_eq_self hpages
  have hblocks := l.session.device.le_nrIoBlocks o.size
  have hle : l.session.device.dataBlocks o.size ≤ l.session.device.nrIoBlocks o.size := by
    refine Nat.le_of_mul_le_mul_right ?_ l.session.device.blkSz_pos
    rwa [dataBlocks_mul, hsize]
  unfold Locker.fill
  dsimp only
  rw [hregistered, hregion, if_neg Bool.false_ne_true, if_neg Bool.false_ne_true]
  refine ⟨_, rfl, rfl, ⟨rfl, hobject, rfl, rfl, Memory.length_slice, rfl, fun i hi hlt => ?_,
    (Nat.add_le_add_left hle _).trans hdevice, hlocks⟩⟩
  have hi : l.session.device.nrIoBlocks o.size * l.session.device.blkSz ≤ i := hi
  omega

end

theorem writeBlocks_pages {m : Memory} {lba : Nat} (hdevice : lba + d.dataBlocks len ≤ d.blocks) :
    ∃ d', writeBlocks d ⟨dataSize len, m⟩ lba (d.dataBlocks len) = (true, d') ∧ d'.blkSz = d.blkSz ∧
      d'.bytes = d.bytes.blit (lba * d.blkSz) m 0 (dataSize len) := by
  have hwrite := writeBlocks_eq (Device.room_dataBlocks (m := m) rfl hdevice)
  rw [extent_dataBlocks, dataBlocks_mul] at hwrite
  exact ⟨_, hwrite, rfl, rfl⟩

theorem Locker.Lends.unlock (hl : l.Lends h o) :
    ∃ l', l.unlock h.addr = (.ok, l') ∧ LockInv ⟨l', []⟩ ∧ o.value l'.session.device = h.content ∧
      ∀ a, ¬ o.Owns l.session.device a → l'.session.device.bytes a = l.session.device.bytes a := by
  obtain ⟨d, hwrite, hsz, hbytes⟩ := writeBlocks_pages (m := l.memory) hl.device
  obtain ⟨l', hrelease, hdevice, hinv⟩ := release_held (l := l.setDevice d) hl.locks hl.registered
  have hregion : (if h.addr = targetAddr then l.lockedRegion else none) = some h.key :=
    (if_pos hl.addr).trans hl.region
  have hdevice : l'.session.device = d := hdevice
  refine ⟨l', ?_, hinv, ?_, fun a ha => ?_⟩
  · have hback : l.writeBack o = (.ok, l') := by
      unfold Locker.writeBack
      rw [hwrite]
      exact hrelease
    unfold Locker.unlock
    rw [hregion]
    dsimp only
    rw [hl.object]
    exact hback
  · unfold ObjInfo.value
    rw [hdevice, hbytes, hsz]
    exact (Memory.slice_blit ((Nat.zero_add _).le.trans le_dataSize)).trans hl.content
  · rw [hdevice, hbytes]
    by_cases hin : o.lbaStart * l.session.device.blkSz ≤ a ∧ a < o.lbaStart * l.session.device.blkSz + dataSize o.size
    · -- Behind the blocks of the value the buffer has what was read.
      obtain ⟨i, rfl⟩ := Nat.exists_eq_add_of_le hin.1
      have hi : i < dataSize o.size := by omega
      refine (Memory.blit_add hi).trans ?_
      rw [Nat.zero_add]
      refine hl.behind i ?_ hi
      by_contra hlt
      refine ha ⟨hin.1, ?_⟩
      rw [Nat.add_mul]
      omega
    · exact Memory.blit_of_apart (by omega)

theorem lock_existing (type : LockType) {outValueLen random : Nat} (hinv : LockInv ⟨l, []⟩)
    (hobject : l.session.metaPool key = some o)
    (hdevice : o.lbaStart + l.session.device.dataBlocks o.size ≤ l.session.device.blocks) :
    ∃ l', l.lock key type outValueLen random = (.locked targetAddr o.size, l') ∧
      l'.session.device = l.session.device ∧ l'.memory.slice 0 o.size = o.value l.session.device ∧
      LockInv ⟨l', [⟨key, targetAddr, l'.memory.slice 0 o.size⟩]⟩ := by
  cases hinv with
  | free hregistered hregion hwrite hread =>
    obtain ⟨w, r, hlock, hlocks⟩ := getLock_free type hwrite hread o.blockRegion
    obtain ⟨l', hfill, hsession, hvalue, hlends⟩ := fill_existing
      (l := l.setLocks w r) hlocks hregistered hregion hobject hdevice
    have hof : l.objectOf key outValueLen random = .ok (true, o, l) := by
      unfold Locker.objectOf
      rw [hobject]
    refine ⟨l', ?_, (congrArg Session.device hsession).trans rfl, hvalue, .one hlends⟩
    unfold Locker.lock
    rw [hof]
    dsimp only
    rw [hlock]
    exact hfill

theorem lock_new (type : LockType) {outValueLen random : Nat} (hinv : LockInv ⟨l, []⟩)
    (habsent : l.session.metaPool key = none) (hlen : outValueLen ≠ 0) (hpages : hugePage ∣ outValueLen)
    (hsafe : l.session.Placeable outValueLen random) :
    ∃ l', l.lock key type outValueLen random = (.locked targetAddr outValueLen, l') ∧
      l'.session.device = l.session.device ∧ LockInv ⟨l', [⟨key, targetAddr, l'.memory.slice 0 outValueLen⟩]⟩ := by
  obtain ⟨t, ht, hfree, hfirst, hdevice, -⟩ := hsafe
  have halloc := Block.BitmapIkv.alloc_first ht hfree hfirst
  generalize Block.BitmapIkv.State.tab _ random t = lba at halloc hdevice
  generalize pack lba _ = handle at halloc
  generalize (Block.BitmapIkv.regOp _ _ _ _).2 = words at halloc
  cases hinv with
  | free hregistered hregion hwrite hread =>
    let session := { l.session with
      words := words, metaPool := Function.update l.session.metaPool key (some ⟨outValueLen, lba, handle⟩) }
    have hof : l.objectOf key outValueLen random =
        .ok (false, ⟨outValueLen, lba, handle⟩, { l with session := session }) := by
      unfold Locker.objectOf Session.allocNewObject
      rw [habsent]
      dsimp only
      rw [if_neg hlen, halloc]
    obtain ⟨w, r, hlock, hlocks⟩ := getLock_free (l := { l with session := session }) type
      hwrite hread handle
    obtain ⟨l', hfill, hsession, hlends⟩ := fill_new (o := ⟨outValueLen, lba, handle⟩)
      (l := Locker.setLocks { l with session := session } w r) hlocks hregistered hregion (Function.update_self ..)
      hpages ((Nat.add_le_add_left le_extent _).trans hdevice)
    refine ⟨l', ?_, (congrArg Session.device hsession).trans rfl, .one hlends⟩
    unfold Locker.lock
    rw [hof]
    dsimp only
    rw [hlock]
    exact hfill

theorem lock_taken {outValueLen random : Nat} (hobject : l.session.metaPool key = some o)
    (hlock : l.getLock type o.blockRegion = none) : l.lock key type outValueLen random = (.throws, l) := by
  have hof : l.objectOf key outValueLen random = .ok (true, o, l) := by
    unfold Locker.objectOf
    rw [hobject]
  unfold Locker.lock
  rw [hof]
  dsimp only
  rw [hlock]

theorem lock_empty {random : Nat} (habsent : l.session.metaPool key = none) :
    l.lock key type 0 random = (.throws, l) := by
  have hof : l.objectOf key 0 random = .error .throws := by
    unfold Locker.objectOf
    rw [habsent]
    exact if_pos rfl
  unfold Locker.lock
  rw [hof]

theorem Locker.Lends.modify (hl : l.Lends h o) {off : Nat} {bytes : Bytes}
    (hin : off + bytes.length ≤ h.content.length) : Locker.Lends { l with memory := l.memory.store off bytes }
      { h with content := writeAt h.content off bytes } o := by
  have hsize : off + bytes.length ≤ o.size := hl.length ▸ hin
  have hcontent : (l.memory.store off bytes).slice 0 o.size = writeAt h.content off bytes := by
    rw [Memory.slice_store hsize, hl.content]
  refine { hl with length := ?_, content := hcontent, behind := fun i hi hlt => ?_ }
  · rw [← hcontent, Memory.length_slice]
  · refine Eq.trans ?_ (hl.behind i hi hlt)
    have hblocks := l.session.device.le_nrIoBlocks o.size
    have hi : l.session.device.nrIoBlocks o.size * l.session.device.blkSz ≤ i := hi
    exact if_neg (by omega)

theorem LockInv.lock {s : LockState} (hinv : LockInv s) {outValueLen random : Nat}
    (hsafe : s.Safe (.lock key type outValueLen random)) : s.Holds (.lock key type outValueLen random) ∧
      ∀ s' ∈ s.step (.lock key type outValueLen random), LockInv s' := by
  obtain ⟨l, held⟩ := s
  unfold LockState.Safe at hsafe
  unfold LockState.Holds LockState.step
  dsimp only at hsafe ⊢
  cases ho : l.session.metaPool key with
  | none =>
    rw [ho] at hsafe
    obtain rfl | ⟨rfl, hpages, hplace⟩ := hsafe
    · rw [lock_empty ho]
      refine ⟨⟨rfl, fun o ho => (by cases ho)⟩, ?_⟩
      rintro s' ⟨⟩
      exact hinv
    · by_cases hlen : outValueLen = 0
      · subst hlen
        rw [lock_empty ho]
        refine ⟨⟨rfl, fun o ho => (by cases ho)⟩, ?_⟩
        rintro s' ⟨⟩
        exact hinv
      · obtain ⟨l', hlock, hdevice, hinv'⟩ := lock_new type hinv ho hlen hpages hplace
        rw [hlock]
        refine ⟨⟨congrArg Device.bytes hdevice, fun o ho => (by cases ho)⟩, ?_⟩
        rintro s' ⟨⟩
        exact hinv'
  | some o =>
    rw [ho] at hsafe
    obtain hnone | ⟨rfl, hroom⟩ := hsafe
    · rw [lock_taken ho hnone]
      refine ⟨⟨rfl, ?_⟩, ?_⟩
      · rintro o' ⟨⟩ hlock
        exact absurd hnone hlock
      · rintro s' ⟨⟩
        exact hinv
    · obtain ⟨l', hlock, hdevice, hvalue, hinv'⟩ := lock_existing type hinv ho hroom
      rw [hlock]
      refine ⟨⟨congrArg Device.bytes hdevice, ?_⟩, ?_⟩
      · rintro o' ⟨⟩ -
        exact ⟨targetAddr, rfl, hvalue, fun h hh => absurd hh List.not_mem_nil⟩
      · rintro s' ⟨⟩
        exact hinv'

theorem LockInv.step {s : LockState} (hinv : LockInv s) (e : LockEvent) (hsafe : s.Safe e) :
    s.Holds e ∧ ∀ s' ∈ s.step e, LockInv s' := by
  cases e with
  | lock key type outValueLen random => exact hinv.lock hsafe
  | modify i off bytes =>
    refine ⟨trivial, ?_⟩
    unfold LockState.step
    dsimp only
    split
    · rintro s' ⟨⟩
      exact hinv
    · next h hh =>
      split
      · next hin =>
        rintro s' ⟨⟩
        cases hinv with
        | free => cases hh
        | one lends =>
          -- The only lock that is held is the first one.
          cases i with
          | zero =>
            cases hh
            exact .one (lends.modify hin)
          | succ i => cases hh
      · rintro s' ⟨⟩
        exact hinv
  | unlock i =>
    unfold LockState.Holds LockState.step
    dsimp only
    cases hinv with
    | free hregistered hregion hwrite hread =>
      refine ⟨fun h hh => (by cases hh), ?_⟩
      rintro s' ⟨⟩
      exact .free hregistered hregion hwrite hread
    | one lends =>
      cases i with
      | zero =>
        obtain ⟨l', hunlock, hinv', hvalue, hframe⟩ := lends.unlock
        refine ⟨?_, ?_⟩
        · rintro h ⟨⟩ o ho
          obtain rfl := Option.some.inj (lends.object.symm.trans ho)
          rw [hunlock]
          exact ⟨rfl, hvalue, hframe⟩
        · rintro s' ⟨⟩
          rw [hunlock]
          exact hinv'
      | succ i =>
        refine ⟨fun h hh => (by cases hh), ?_⟩
        rintro s' ⟨⟩
        exact .one lends

end LockInvariant

/-- In safe runs locks deliver the values and unlocks store the buffers, and nothing else changes. -/
theorem nvmeLocks_hold_of_safe (device : Device) (words : Words) (metaPool : String → Option ObjInfo)
    (ioMem : Buffer) (fresh memory : Memory) (es : List LockEvent)
    (h : Throughout LockState.step LockState.Safe (.init device words metaPool ioMem fresh memory) es) :
    Throughout LockState.step LockState.Holds (.init device words metaPool ioMem fresh memory) es :=
  h.imp (I := LockInv) (fun _ e hinv hsafe => (hinv.step e hsafe).1)
    (fun _ e s' hinv hsafe hs' => (hinv.step e hsafe).2 s' hs') (.free rfl rfl rfl rfl)

def twoObjects : LockState :=
  .init ⟨4096, 1024, fun _ => 1, Nat.succ_pos _, by decide⟩ (fun _ => 0#64)
    (fun k => if k = "a" then some ⟨100, 1, pack 1 0⟩
      else if k = "b" then some ⟨100, 2, pack 2 0⟩ else none)
    ⟨defaultIoMemSize, fun _ => 0⟩ (fun _ => 0) (fun _ => 0)

theorem nvmeLocks_hold_one : Throughout LockState.step LockState.Holds twoObjects
      [.lock "a" .write 0 0, .modify 0 0 [7], .unlock 0] := by
  refine nvmeLocks_hold_of_safe _ _ _ _ _ _ _ ⟨Or.inr ⟨rfl, ?_⟩, ?_⟩
  · decide +kernel
  · exact fun _ _ => ⟨trivial, fun _ _ => ⟨trivial, fun _ _ => trivial⟩⟩

/-- The second lock maps its buffer over the one of the first. -/
theorem not_nvmeLocks_hold_two :
    ¬ Throughout LockState.step LockState.Holds twoObjects [.lock "a" .write 0 0, .lock "b" .write 0 0] := by
  rintro ⟨-, hrest⟩
  obtain ⟨⟨-, hdelivers⟩, -⟩ := hrest _ (Option.get_mem (by decide +kernel))
  generalize hs : Option.get _ _ = s at hdelivers
  have hobject : s.locker.session.metaPool "b" = some ⟨100, 2, pack 2 0⟩ := by
    rw [← hs]
    decide +kernel
  have hfree : (s.locker.getLock .write (pack 2 0)).isSome := by
    rw [← hs]
    decide +kernel
  have hrefused : (s.locker.lock "b" .write 0 0).1 = .refused := by
    rw [← hs]
    decide +kernel
  obtain ⟨addr, hlocked, -⟩ := hdelivers _ hobject (Option.isSome_iff_ne_none.mp hfree)
  cases hrefused.symm.trans hlocked

end Comanche.Store.Nvme
