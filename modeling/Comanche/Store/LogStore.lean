import Comanche.Lib.Memory
import Comanche.Lib.Run
import Mathlib.Algebra.Group.Nat.Defs

/-!
# The log store

`Log_store` appends records of one size to a block device.
-/

namespace Comanche.Store.LogStore

open Lib

def ioBufferSize : Nat := 4096

/-- `sizeof(Store_master_block)`. -/
def masterBlockSize : Nat := 1072

/-- The device and the parameters of the store, with what the constructor of `Header` asserts about the blocks.
`crc32` is that of zlib. -/
structure Config where
  blockSize : Nat
  fixedSize : Nat
  useCrc : Bool
  crc32 : Bytes → UInt32
  block : blockSize = 4096 ∨ blockSize = 512
  header : masterBlockSize ≤ blockSize
  fixed : 0 < fixedSize

structure Mb where
  nextFreeLba : Nat
  maxLba : Nat
  tail : Nat
  deriving DecidableEq

/-- `mbDisk` is the header as last written, and `buf` what the current I/O buffer holds. `written` are the
records written and the indexes returned. `fault` is set by a failed assertion, and by a copy beyond the
buffer. -/
structure State where
  mb : Mb
  mbDisk : Mb
  disk : Memory
  buf : Bytes
  shadowTail : Nat
  written : List (Nat × Bytes)
  fault : Bool

def State.remaining (s : State) : Nat := ioBufferSize - s.buf.length

variable (cfg : Config)

def State.format (maxLba : Nat) (disk : Memory) : State := ⟨⟨1, maxLba, 0⟩, ⟨1, maxLba, 0⟩, disk, [], 0, [], false⟩

/-- `Header::allocate` of one I/O buffer. It throws when there are no more blocks. -/
def allocate (mb : Mb) : Option (Nat × Mb) :=
  if mb.maxLba - mb.nextFreeLba < ioBufferSize / cfg.blockSize then none
  else some (mb.nextFreeLba,
    { mb with nextFreeLba := mb.nextFreeLba + ioBufferSize / cfg.blockSize, tail := mb.tail + ioBufferSize })

def postBuffer (s : State) : Option State :=
  (allocate cfg s.mb).map fun (lba, mb) =>
    { s with mb := mb, disk := s.disk.store (lba * cfg.blockSize) s.buf, buf := [] }

/-- `flush_buffer`: the rest of the buffer is zero, and the buffer stays the current one. -/
def flushBuffer (s : State) : Option State :=
  (allocate cfg s.mb).map fun (lba, mb) =>
    { s with
      mb := mb
      disk := s.disk.store (lba * cfg.blockSize) (s.buf ++ List.replicate s.remaining 0) }

/-- `memcpy` into the current buffer. -/
def State.copy (s : State) (bytes : Bytes) : State :=
  { s with buf := s.buf ++ bytes, fault := s.fault || decide (s.remaining < bytes.length) }

def State.advance (s : State) (n : Nat) : State := { s with shadowTail := s.shadowTail + n }

/-- `write_out` of data. The length of the second part is an `unsigned`. -/
def writeOut (data : Bytes) (s : State) : Option State :=
  (if s.remaining = data.length then postBuffer cfg (s.copy data)
    else if data.length < s.remaining then some (s.copy data)
    else (postBuffer cfg (s.copy (data.take s.remaining))).map fun s' =>
      s'.copy ((data.drop s.remaining).take ((data.length - s.remaining) % 2 ^ 32))).map
    (State.advance · data.length)

def uint32Bytes (value : UInt32) : Bytes := (List.range 4).map fun k => UInt8.ofNat (value.toNat / 256 ^ k)

def State.abort (s : State) : State := { s with fault := true }

/-- `write_out` of an integer. After a split it asserts that the second part is longer than the new buffer. -/
def writeOutValue (value : UInt32) (s : State) : Option State :=
  let data := uint32Bytes value
  (if s.remaining = data.length then postBuffer cfg (s.copy data)
    else if data.length < s.remaining then some (s.copy data)
    else (postBuffer cfg (s.copy (data.take s.remaining))).map fun s' =>
      if s'.remaining < data.length - s.remaining then s'.copy (data.drop s.remaining)
      else (s'.copy (data.drop s.remaining)).abort).map
    (State.advance · data.length)

def State.record (s : State) (index : Nat) (data : Bytes) : State :=
  { s with written := s.written ++ [(index / cfg.fixedSize, data)] }

/-- Records of another size, and of more than `INT32_MAX` bytes, are refused. -/
def write (data : Bytes) (s : State) : Option State :=
  if 2 ^ 31 ≤ data.length ∨ data.length ≠ cfg.fixedSize then some s
  else if cfg.useCrc then
    (writeOutValue cfg (cfg.crc32 data) s).bind fun s₁ =>
      (writeOut cfg data s₁).map fun s₂ => s₂.record cfg s₁.shadowTail data
  else (writeOut cfg data s).map fun s₁ => s₁.record cfg s₁.shadowTail data

def flush (s : State) : Option State :=
  (flushBuffer cfg s).map fun s' => { s' with mbDisk := s'.mb }

/-- The destructor flushes the buffer and not the header, and the constructor reads the header. -/
def reopen (s : State) : Option State :=
  (flushBuffer cfg s).map fun s' => { s' with mb := s'.mbDisk, buf := [], shadowTail := s'.mbDisk.tail }

def read (s : State) (index : Nat) : Bytes :=
  let recordPos := index * cfg.fixedSize
  let bottomLba := recordPos / cfg.blockSize
  s.disk.slice ((bottomLba + 1) * cfg.blockSize + recordPos % cfg.blockSize) cfg.fixedSize

inductive Event where
  | write (data : Bytes)
  | flush
  | reopen

def step (s : State) (e : Event) : Option State :=
  if s.fault then none
  else match e with
    | .write data => write cfg data s
    | .flush => flush cfg s
    | .reopen => reopen cfg s

/-- After a flush, or when the store is opened again, the records that were written are read at their indexes. -/
def Holds (s : State) (e : Event) : Prop :=
  ∀ s' ∈ step cfg s e, s'.fault = false ∧
    match e with
    | .write _ => True
    | .flush | .reopen => ∀ w ∈ s'.written, read cfg s' w.1 = w.2

/-- With checksums, the next record starts at a multiple of the record size, nothing was flushed since the store was
opened, the checksum is not split, and the record fits a buffer. The store is closed after a flush. -/
def Safe (s : State) : Event → Prop
  | .write data => data.length = cfg.fixedSize → cfg.useCrc = true ∧ cfg.fixedSize ∣ s.shadowTail + 4 ∧
      s.mb.tail + s.buf.length = s.shadowTail ∧ 4 ≤ s.remaining ∧ cfg.fixedSize ≤ ioBufferSize
  | .flush => True
  | .reopen => s.shadowTail ≤ s.mb.tail ∧ s.mbDisk = s.mb

instance (s : State) (e : Event) : Decidable (Safe cfg s e) := by
  unfold Safe
  split <;> infer_instance

def State.image (s : State) : Memory := s.disk.store (cfg.blockSize + s.mb.tail) s.buf

structure State.Sound (s : State) : Prop where
  next : s.mb.nextFreeLba * cfg.blockSize = cfg.blockSize + s.mb.tail
  length_le : s.buf.length ≤ ioBufferSize

section Bytes

variable {cfg} {s s' : State} {data : Bytes}

theorem blocks_mul (cfg : Config) : ioBufferSize / cfg.blockSize * cfg.blockSize = ioBufferSize := by
  obtain h | h := cfg.block <;> rw [h] <;> rfl

theorem State.Sound.allocate {lba : Nat} {mb : Mb} (h : s.Sound cfg) (ha : allocate cfg s.mb = some (lba, mb)) :
    lba * cfg.blockSize = cfg.blockSize + s.mb.tail ∧ mb.tail = s.mb.tail + ioBufferSize ∧
      mb.nextFreeLba * cfg.blockSize = cfg.blockSize + mb.tail := by
  unfold LogStore.allocate at ha
  split at ha
  · cases ha
  · obtain ⟨rfl, rfl⟩ := Prod.mk.inj (Option.some.inj ha)
    refine ⟨h.next, rfl, ?_⟩
    change (s.mb.nextFreeLba + _) * _ = _ + (s.mb.tail + _)
    rw [Nat.add_mul, blocks_mul, h.next, Nat.add_assoc]

structure Appended (cfg : Config) (s s' : State) (data : Bytes) : Prop where
  sound : s'.Sound cfg
  image : s'.image cfg = (s.image cfg).store (cfg.blockSize + s.mb.tail + s.buf.length) data
  place : s'.mb.tail + s'.buf.length = s.mb.tail + s.buf.length + data.length
  shadowTail : s'.shadowTail = s.shadowTail
  written : s'.written = s.written
  fault : s'.fault = s.fault

theorem Appended.trans {s'' : State} {more : Bytes} (h : Appended cfg s s' data) (h' : Appended cfg s' s'' more) :
    Appended cfg s s'' (data ++ more) := by
  refine ⟨h'.sound, ?_, ?_, h'.shadowTail.trans h.shadowTail, h'.written.trans h.written, h'.fault.trans h.fault⟩
  · have hplace : cfg.blockSize + s'.mb.tail + s'.buf.length = cfg.blockSize + s.mb.tail + s.buf.length + data.length := by
      have hplace := h.place
      omega
    rw [h'.image, h.image, Memory.store_append, hplace]
  · rw [h'.place, h.place, List.length_append, Nat.add_assoc]

theorem appended_copy (h : s.Sound cfg) (hlen : data.length ≤ s.remaining) : Appended cfg s (s.copy data) data := by
  refine ⟨⟨h.next, ?_⟩, Memory.store_append, ?_, rfl, rfl, ?_⟩
  · change (s.buf ++ data).length ≤ _
    have hle := h.length_le
    unfold State.remaining at hlen
    rw [List.length_append]
    omega
  · change s.mb.tail + (s.buf ++ data).length = _
    rw [List.length_append, Nat.add_assoc]
  · change (s.fault || decide (s.remaining < data.length)) = s.fault
    rw [decide_eq_false (by omega), Bool.or_false]

theorem appended_postBuffer (h : s.Sound cfg) (hfull : s.buf.length = ioBufferSize) (hp : postBuffer cfg s = some s') :
    Appended cfg s s' [] ∧ s'.buf = [] := by
  obtain ⟨⟨lba, mb⟩, ha, rfl⟩ := Option.map_eq_some_iff.mp hp
  obtain ⟨hlba, htail, hnext⟩ := h.allocate ha
  refine ⟨⟨⟨hnext, Nat.zero_le _⟩, ?_, ?_, rfl, rfl, rfl⟩, rfl⟩
  · change Memory.store (Memory.store s.disk (lba * cfg.blockSize) s.buf) _ [] = _
    rw [Memory.store_nil, Memory.store_nil, hlba]
    rfl
  · change mb.tail + 0 = s.mb.tail + s.buf.length + 0
    rw [htail, hfull]

theorem remaining_copy (s : State) (data : Bytes) : (s.copy data).buf.length = s.buf.length + data.length :=
  List.length_append

theorem appended_writeOut (h : s.Sound cfg) (hlen : data.length ≤ s.remaining + ioBufferSize)
    (hw : writeOut cfg data s = some s') : ∃ s₁, Appended cfg s s₁ data ∧ s' = s₁.advance data.length ∧
      (data.length ≠ s.remaining + ioBufferSize → s₁.buf.length < ioBufferSize) := by
  obtain ⟨s₁, hs₁, rfl⟩ := Option.map_eq_some_iff.mp hw
  refine ⟨s₁, ?_⟩
  rw [and_iff_right rfl]
  have hle := h.length_le
  have hrem : s.buf.length + s.remaining = ioBufferSize := Nat.add_sub_cancel' hle
  have hpos : 0 < ioBufferSize := by decide
  split at hs₁
  · -- the data fills the buffer
    have hcopy := appended_copy h (Nat.le_of_eq (Eq.symm ‹s.remaining = data.length›))
    obtain ⟨hpost, hbuf⟩ := appended_postBuffer hcopy.sound (by rw [remaining_copy]; omega) hs₁
    rw [← List.append_nil data]
    exact ⟨hcopy.trans hpost, fun _ => hbuf ▸ hpos⟩
  split at hs₁
  · cases hs₁
    exact ⟨appended_copy h (Nat.le_of_lt ‹data.length < s.remaining›), fun _ => by rw [remaining_copy]; omega⟩
  · -- the data is split
    have htake : (data.take s.remaining).length = s.remaining := List.length_take_of_le (by omega)
    obtain ⟨s₂, hs₂, rfl⟩ := Option.map_eq_some_iff.mp hs₁
    have hcopy := appended_copy h (Nat.le_of_eq htake)
    obtain ⟨hpost, hbuf⟩ := appended_postBuffer hcopy.sound (by rw [remaining_copy, htake, hrem]) hs₂
    have hwhole : (data.drop s.remaining).take ((data.length - s.remaining) % 2 ^ 32) = data.drop s.remaining := by
      refine List.take_of_length_le ?_
      unfold ioBufferSize at hlen
      rw [List.length_drop]
      omega
    have hrest : (data.drop s.remaining).length ≤ s₂.remaining := by
      have hfresh : s₂.remaining = ioBufferSize := by
        rw [State.remaining, hbuf]
        rfl
      rw [List.length_drop, hfresh]
      omega
    have hall := (hcopy.trans hpost).trans (appended_copy hpost.sound hrest)
    rw [List.append_nil, List.take_append_drop] at hall
    rw [hwhole]
    refine ⟨hall, fun hne => ?_⟩
    rw [remaining_copy, hbuf, List.length_drop]
    change 0 + _ < _
    omega

theorem length_uint32Bytes (value : UInt32) : (uint32Bytes value).length = 4 := by
  rw [uint32Bytes, List.length_map, List.length_range]

theorem writeOutValue_eq (value : UInt32) (hrem : 4 ≤ s.remaining) :
    writeOutValue cfg value s = writeOut cfg (uint32Bytes value) s := by
  have hlen := length_uint32Bytes value
  unfold writeOutValue writeOut
  by_cases heq : s.remaining = (uint32Bytes value).length
  · simp only [if_pos heq]
  · simp only [if_neg heq, if_pos (show (uint32Bytes value).length < s.remaining by omega)]

end Bytes

def Stored (m : Memory) (written : List (Nat × Bytes)) : Prop :=
  ∀ w ∈ written, m.slice (cfg.blockSize + w.1 * cfg.fixedSize) cfg.fixedSize = w.2

/-- The records lie below the shadow tail. Either the shadow tail is the end of the bytes in the buffer, or all
bytes below it are on the device. -/
structure Inv (s : State) : Prop where
  sound : s.Sound cfg
  fault : s.fault = false
  below : ∀ w ∈ s.written, w.1 * cfg.fixedSize + cfg.fixedSize ≤ s.shadowTail
  stored : (s.mb.tail + s.buf.length = s.shadowTail ∧ Stored cfg (s.image cfg) s.written) ∨
    (s.shadowTail ≤ s.mb.tail ∧ Stored cfg s.disk s.written)

section Records

variable {cfg} {s s' : State} {data : Bytes} {e : Event}

theorem inv_format (cfg : Config) (maxLba : Nat) (disk : Memory) : Inv cfg (.format maxLba disk) :=
  ⟨⟨Nat.one_mul _, Nat.zero_le _⟩, rfl, nofun, .inl ⟨rfl, nofun⟩⟩

theorem Stored.store {m : Memory} {written : List (Nat × Bytes)} {a end_ : Nat} (h : Stored cfg m written)
    (hbelow : ∀ w ∈ written, w.1 * cfg.fixedSize + cfg.fixedSize ≤ end_) (ha : cfg.blockSize + end_ ≤ a) (bytes : Bytes) :
    Stored cfg (m.store a bytes) written := by
  intro w hw
  have hw' := hbelow w hw
  rw [Memory.slice_store_of_apart (by omega)]
  exact h w hw

theorem read_eq (cfg : Config) (s : State) (index : Nat) :
    read cfg s index = s.disk.slice (cfg.blockSize + index * cfg.fixedSize) cfg.fixedSize := by
  unfold read
  have hplace : (index * cfg.fixedSize / cfg.blockSize + 1) * cfg.blockSize + index * cfg.fixedSize % cfg.blockSize =
      cfg.blockSize + index * cfg.fixedSize := by
    rw [Nat.add_mul, Nat.one_mul, Nat.add_right_comm, Nat.div_add_mod', Nat.add_comm]
  exact congrArg (s.disk.slice · cfg.fixedSize) hplace

section

variable (h : Inv cfg s)
include h

theorem Inv.stored_image (hplace : s.mb.tail + s.buf.length = s.shadowTail) : Stored cfg (s.image cfg) s.written := by
  obtain ⟨-, himage⟩ | ⟨hle, hdisk⟩ := h.stored
  · exact himage
  · have hbuf : s.buf = [] := List.eq_nil_of_length_eq_zero (by omega)
    rw [State.image, hbuf, Memory.store_nil]
    exact hdisk

theorem Inv.stored_disk (hle : s.shadowTail ≤ s.mb.tail) : Stored cfg s.disk s.written := by
  obtain ⟨hplace, himage⟩ | ⟨-, hdisk⟩ := h.stored
  · have hbuf : s.buf = [] := List.eq_nil_of_length_eq_zero (by omega)
    rw [State.image, hbuf, Memory.store_nil] at himage
    exact himage
  · exact hdisk

theorem inv_write (hsafe : Safe cfg s (.write data)) (hw : write cfg data s = some s') : Inv cfg s' := by
  unfold write at hw
  split at hw
  · cases hw
    exact h
  · have hlen : data.length = cfg.fixedSize := not_not.mp (not_or.mp ‹_›).2
    obtain ⟨hcrc, hdvd, hplace, hrem, hfits⟩ := hsafe hlen
    rw [if_pos hcrc] at hw
    obtain ⟨s₁, hs₁, hw⟩ := Option.bind_eq_some_iff.mp hw
    obtain ⟨s₂, hs₂, rfl⟩ := Option.map_eq_some_iff.mp hw
    rw [writeOutValue_eq _ hrem] at hs₁
    obtain ⟨t₁, h₁, rfl, -⟩ := appended_writeOut h.sound (by rw [length_uint32Bytes]; omega) hs₁
    have hsound : (t₁.advance (uint32Bytes (cfg.crc32 data)).length).Sound cfg := ⟨h₁.sound.next, h₁.sound.length_le⟩
    obtain ⟨t₂, h₂, rfl, -⟩ := appended_writeOut hsound (by omega) hs₂
    -- the three counters after the checksum and after the record
    have hplace₁ := h₁.place
    have hplace₂ : t₂.mb.tail + t₂.buf.length = t₁.mb.tail + t₁.buf.length + data.length := h₂.place
    have hshadow₁ : (t₁.advance (uint32Bytes (cfg.crc32 data)).length).shadowTail = s.shadowTail + 4 := by
      change t₁.shadowTail + _ = _
      rw [h₁.shadowTail, length_uint32Bytes]
    have hshadow₂ : t₂.shadowTail = s.shadowTail + 4 := h₂.shadowTail.trans hshadow₁
    have hwritten : t₂.written = s.written := h₂.written.trans h₁.written
    rw [length_uint32Bytes] at hplace₁
    refine ⟨⟨h₂.sound.next, h₂.sound.length_le⟩, h₂.fault.trans (h₁.fault.trans h.fault), fun w hw => ?_, .inl ⟨?_, fun w hw => ?_⟩⟩
    · change w ∈ t₂.written ++ [_] at hw
      change _ ≤ t₂.shadowTail + data.length
      rw [hwritten] at hw
      obtain hw | hw := List.mem_append.mp hw
      · have hbelow := h.below w hw
        omega
      · obtain rfl := List.mem_singleton.mp hw
        rw [hshadow₁, Nat.div_mul_cancel hdvd, hshadow₂, hlen]
    · change t₂.mb.tail + t₂.buf.length = t₂.shadowTail + data.length
      omega
    · change w ∈ t₂.written ++ [_] at hw
      change (t₂.image cfg).slice _ _ = _
      have himage : t₂.image cfg = (t₁.image cfg).store (cfg.blockSize + t₁.mb.tail + t₁.buf.length) data := h₂.image
      rw [himage, h₁.image]
      rw [hwritten] at hw
      obtain hw | hw := List.mem_append.mp hw
      · -- an older record
        have hcheck := (h.stored_image hplace).store h.below (a := cfg.blockSize + s.mb.tail + s.buf.length) (by omega)
          (uint32Bytes (cfg.crc32 data))
        exact hcheck.store h.below (by omega) data w hw
      · obtain rfl := List.mem_singleton.mp hw
        rw [hshadow₁, Nat.div_mul_cancel hdvd, ← hlen, show cfg.blockSize + (s.shadowTail + 4) =
          cfg.blockSize + t₁.mb.tail + t₁.buf.length by omega]
        exact Memory.slice_store_self

theorem Inv.flushBuffer (hf : flushBuffer cfg s = some s') :
    s'.Sound cfg ∧ s'.fault = false ∧ s'.written = s.written ∧ s'.shadowTail = s.shadowTail ∧ s'.mbDisk = s.mbDisk ∧
      s.shadowTail ≤ s'.mb.tail ∧ Stored cfg s'.disk s.written := by
  obtain ⟨⟨lba, mb⟩, ha, rfl⟩ := Option.map_eq_some_iff.mp hf
  obtain ⟨hlba, htail, hnext⟩ := h.sound.allocate ha
  have hle := h.sound.length_le
  refine ⟨⟨hnext, hle⟩, h.fault, rfl, rfl, rfl, ?_⟩
  change s.shadowTail ≤ mb.tail ∧ Stored cfg (s.disk.store (lba * cfg.blockSize) _) _
  rw [hlba, htail]
  obtain ⟨hplace, himage⟩ | ⟨hle', hdisk⟩ := h.stored
  · refine ⟨by omega, ?_⟩
    rw [Memory.store_append]
    exact himage.store h.below (by omega) _
  · exact ⟨by omega, hdisk.store h.below (by omega) _⟩

theorem inv_flush (hf : flush cfg s = some s') : Inv cfg s' ∧ s'.shadowTail ≤ s'.mb.tail := by
  obtain ⟨s₁, hs₁, rfl⟩ := Option.map_eq_some_iff.mp hf
  obtain ⟨hsound, hfault, hwritten, hshadow, -, hle, hdisk⟩ := h.flushBuffer hs₁
  have hle' : s₁.shadowTail ≤ s₁.mb.tail := hshadow.trans_le hle
  refine ⟨⟨⟨hsound.next, hsound.length_le⟩, hfault, ?_, .inr ⟨hle', hwritten ▸ hdisk⟩⟩, hle'⟩
  change ∀ w ∈ s₁.written, _ ≤ s₁.shadowTail
  rw [hwritten, hshadow]
  exact h.below

theorem inv_reopen (hsafe : Safe cfg s .reopen) (hr : reopen cfg s = some s') :
    Inv cfg s' ∧ s'.shadowTail ≤ s'.mb.tail := by
  obtain ⟨s₁, hs₁, rfl⟩ := Option.map_eq_some_iff.mp hr
  obtain ⟨hsound, hfault, hwritten, hshadow, hmb, -, hdisk⟩ := h.flushBuffer hs₁
  obtain ⟨hle, hflushed⟩ := hsafe
  have hmb' : s₁.mbDisk = s.mb := hmb.trans hflushed
  refine ⟨⟨⟨?_, Nat.zero_le _⟩, hfault, ?_, .inr ⟨Nat.le_refl _, hwritten ▸ hdisk⟩⟩, Nat.le_refl _⟩
  · change s₁.mbDisk.nextFreeLba * _ = _ + s₁.mbDisk.tail
    rw [hmb']
    exact h.sound.next
  · change ∀ w ∈ s₁.written, _ ≤ s₁.mbDisk.tail
    rw [hwritten, hmb']
    exact fun w hw => (h.below w hw).trans hle

theorem Inv.step_eq (e : Event) : step cfg s e =
    match e with
    | .write data => write cfg data s
    | .flush => flush cfg s
    | .reopen => reopen cfg s :=
  if_neg (by rw [h.fault]; exact Bool.false_ne_true)

theorem inv_step (hsafe : Safe cfg s e) (hs' : s' ∈ step cfg s e) : Inv cfg s' := by
  rw [h.step_eq] at hs'
  cases e with
  | write data => exact inv_write h hsafe hs'
  | flush => exact (inv_flush h hs').1
  | reopen => exact (inv_reopen h hsafe hs').1

theorem holds_of_inv (hsafe : Safe cfg s e) : Holds cfg s e := by
  intro s' hs'
  have h' := inv_step h hsafe hs'
  refine ⟨h'.fault, ?_⟩
  rw [h.step_eq] at hs'
  cases e with
  | write data => trivial
  | flush =>
    intro w hw
    rw [read_eq]
    exact h'.stored_disk (inv_flush h hs').2 w hw
  | reopen =>
    intro w hw
    rw [read_eq]
    exact h'.stored_disk (inv_reopen h hsafe hs').2 w hw

end

end Records

def words (useCrc : Bool) : Config := ⟨4096, 4, useCrc, fun _ => 0, .inl rfl, by decide, by decide⟩

inductive Call where
  | data (bytes : Bytes)
  | value (n : UInt32)

def Call.bytes : Call → Bytes
  | .data bytes => bytes
  | .value n => uint32Bytes n

def Call.run : Call → State → Option State
  | .data bytes => writeOut cfg bytes
  | .value n => writeOutValue cfg n

/-- A store with all bytes that were written to it. -/
structure Log where
  state : State
  all : Bytes

def Log.step (l : Log) (c : Call) : Option Log :=
  if l.state.fault then none else (c.run cfg l.state).map (⟨·, l.all ++ c.bytes⟩)

/-- There is room in the buffer, and what was posted and what is in the buffer are the bytes that were written. -/
structure Log.Lossless (l : Log) : Prop where
  fault : l.state.fault = false
  room : l.state.buf.length < ioBufferSize
  bytes : l.state.disk.slice cfg.blockSize l.state.mb.tail ++ l.state.buf = l.all

/-- Data ends before the end of the next buffer, and integers are not split. -/
def Log.Safe (l : Log) : Call → Prop
  | .data bytes => bytes.length < l.state.remaining + ioBufferSize
  | .value _ => 4 ≤ l.state.remaining

instance (l : Log) : (c : Call) → Decidable (l.Safe c)
  | .data _ => inferInstanceAs (Decidable (_ < _))
  | .value _ => inferInstanceAs (Decidable (4 ≤ _))

section Calls

variable {cfg} {s s' : State} {data : Bytes} {l l' : Log} {c : Call}

theorem slice_image (s : State) : (s.image cfg).slice cfg.blockSize (s.mb.tail + s.buf.length) =
    s.disk.slice cfg.blockSize s.mb.tail ++ s.buf := by
  unfold State.image
  rw [Memory.slice_add, Memory.slice_store_self, Memory.slice_store_of_apart (Or.inr (Nat.le_refl _))]

theorem Appended.bytes (h : Appended cfg s s' data) : s'.disk.slice cfg.blockSize s'.mb.tail ++ s'.buf =
    s.disk.slice cfg.blockSize s.mb.tail ++ s.buf ++ data := by
  rw [← slice_image, ← slice_image, h.image, h.place, Nat.add_assoc cfg.blockSize, Memory.slice_add,
    Memory.slice_store_self, Memory.slice_store_of_apart (Or.inr (Nat.le_refl _))]

theorem Log.Safe.run (h : l.Safe c) : c.run cfg l.state = writeOut cfg c.bytes l.state ∧
    c.bytes.length < l.state.remaining + ioBufferSize := by
  cases c with
  | data bytes => exact ⟨rfl, h⟩
  | value n =>
    refine ⟨writeOutValue_eq n h, ?_⟩
    change (uint32Bytes n).length < _
    rw [length_uint32Bytes]
    exact Nat.lt_add_left _ (by decide)

theorem Log.Lossless.step (h : l.Lossless cfg) (hs : l.state.Sound cfg) (hsafe : l.Safe c) (hl : l' ∈ l.step cfg c) :
    l'.Lossless cfg ∧ l'.state.Sound cfg := by
  obtain ⟨hrun, hlen⟩ : c.run cfg l.state = _ ∧ _ := hsafe.run
  unfold Log.step at hl
  rw [if_neg (by simp [h.fault]), hrun] at hl
  obtain ⟨s', hs', rfl⟩ := Option.map_eq_some_iff.mp hl
  obtain ⟨s₁, happ, rfl, hroom⟩ := appended_writeOut hs (Nat.le_of_lt hlen) hs'
  refine ⟨⟨happ.fault.trans h.fault, hroom (Nat.ne_of_lt hlen), ?_⟩, happ.sound.next, happ.sound.length_le⟩
  rw [← h.bytes]
  exact happ.bytes

end Calls

/-- Nothing is lost in every run of safe calls. -/
theorem lossless_of_safe (maxLba : Nat) (disk : Memory) (cs : List Call)
    (hsafe : Throughout (Log.step cfg) Log.Safe ⟨.format maxLba disk, []⟩ cs) :
    Throughout (Log.step cfg) (fun l c => ∀ l' ∈ l.step cfg c, l'.Lossless cfg) ⟨.format maxLba disk, []⟩ cs :=
  hsafe.imp (I := fun l => l.Lossless cfg ∧ l.state.Sound cfg)
    (fun _ _ h hsafe _ hl => (h.1.step h.2 hsafe hl).1) (fun _ _ _ h hsafe hl => h.1.step h.2 hsafe hl)
    ⟨⟨rfl, show 0 < ioBufferSize by decide, rfl⟩, (inv_format cfg maxLba disk).sound⟩

theorem lossless_split : Throughout (Log.step (words true)) (fun l c => ∀ l' ∈ l.step (words true) c,
      l'.Lossless (words true)) ⟨.format 64 fun _ => 0, []⟩ [.value 7, .data (List.replicate 5000 1), .value 8] :=
  lossless_of_safe _ _ _ _ (by decide +kernel)

/-- Data that fills the next buffer as well leaves no room in it. -/
theorem not_lossless_twoBuffers : ¬ Throughout (Log.step (words true)) (fun l c => ∀ l' ∈ l.step (words true) c,
      l'.Lossless (words true)) ⟨.format 64 fun _ => 0, []⟩ [.data (List.replicate 8192 1)] :=
  fun h => absurd (h.1 _ (Option.get_mem (by decide +kernel))).room (by decide +kernel)

end Comanche.Store.LogStore
