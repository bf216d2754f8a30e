import Comanche.Lib.Memory
import Mathlib.Algebra.Group.Nat.Defs

/-!
# Transfers between io memory and the block device

`Block_manager::do_block_io`.
-/

namespace Comanche.Store.Nvme

open Lib

/-- A block device. Eight blocks divide the 2 MB of a huge page, of which io buffers have whole numbers. -/
structure Device where
  blkSz : Nat
  blocks : Nat
  bytes : Memory
  blkSz_pos : 0 < blkSz
  blkSz_dvd : blkSz ∣ 2 ^ 18

/-- Memory for io, from its first address on. -/
structure Buffer where
  size : Nat
  bytes : Memory

def chunkSizeInBlocks : Nat := 8

structure Chunk where
  offset : Nat
  count : Nat
  deriving DecidableEq

/-- The `do` loop and the leftover, with the number of rounds that are left. -/
def submit (nrIoBlocks : Nat) : Nat → Nat → List Chunk
  | 0, _ => []
  | rounds + 1, offset =>
    let next := offset + chunkSizeInBlocks
    ⟨offset, chunkSizeInBlocks⟩ ::
      if next < nrIoBlocks then submit nrIoBlocks rounds next
      else if nrIoBlocks < next then [⟨offset, nrIoBlocks - offset⟩]
      else []

def chunks (nrIoBlocks : Nat) : List Chunk :=
  if nrIoBlocks < chunkSizeInBlocks then [⟨0, nrIoBlocks⟩] else submit nrIoBlocks nrIoBlocks 0

def Device.Fits (d : Device) (m : Buffer) (lba : Nat) (c : Chunk) : Prop :=
  (c.offset + c.count) * d.blkSz ≤ m.size ∧ lba + c.offset + c.count ≤ d.blocks

instance (d : Device) (m : Buffer) (lba : Nat) (c : Chunk) : Decidable (d.Fits m lba c) :=
  inferInstanceAs (Decidable (_ ∧ _))

def writeChunks (m : Buffer) (lba : Nat) : List Chunk → Device → Bool × Device
  | [], d => (true, d)
  | c :: cs, d =>
    if d.Fits m lba c then
      writeChunks m lba cs { d with
        bytes := d.bytes.blit (lba * d.blkSz + c.offset * d.blkSz) m.bytes (0 + c.offset * d.blkSz)
          (c.count * d.blkSz) }
    else (false, d)

def readChunks (d : Device) (lba : Nat) : List Chunk → Buffer → Bool × Buffer
  | [], m => (true, m)
  | c :: cs, m =>
    if d.Fits m lba c then
      readChunks d lba cs { m with
        bytes := m.bytes.blit (0 + c.offset * d.blkSz) d.bytes (lba * d.blkSz + c.offset * d.blkSz)
          (c.count * d.blkSz) }
    else (false, m)

/-- `do_block_io(BLOCK_IO_WRITE, ..)`. -/
def writeBlocks (d : Device) (m : Buffer) (lba nrIoBlocks : Nat) : Bool × Device :=
  writeChunks m lba (chunks nrIoBlocks) d

/-- `do_block_io(BLOCK_IO_READ, ..)`. -/
def readBlocks (d : Device) (m : Buffer) (lba nrIoBlocks : Nat) : Bool × Buffer :=
  readChunks d lba (chunks nrIoBlocks) m

/-- The tag that is waited for, where `tag k` is what the call number `k` of the device returns. -/
def waitedTag (tag : Nat → Nat) (nrIoBlocks : Nat) : Nat → Nat → Nat → Option Nat
  | 0, _, _ => none
  | rounds + 1, offset, k =>
    let next := offset + chunkSizeInBlocks
    if next < nrIoBlocks then waitedTag tag nrIoBlocks rounds next (k + 1)
    else if nrIoBlocks < next then some (tag (k + 1))
    else some (tag k)

def extent (nrIoBlocks : Nat) : Nat :=
  if nrIoBlocks < 8 then nrIoBlocks else (nrIoBlocks + 7) / 8 * 8

section Transfer

variable {d : Device} {m : Buffer} {dst src : Memory} {lba a b sz n q rounds : Nat} {cs : List Chunk} {c : Chunk}

def blitChunks (a : Nat) (src : Memory) (b sz : Nat) (cs : List Chunk) (dst : Memory) : Memory :=
  cs.foldl (fun dst c => dst.blit (a + c.offset * sz) src (b + c.offset * sz) (c.count * sz)) dst

theorem blitChunks_cons : blitChunks a src b sz (c :: cs) dst =
    blitChunks a src b sz cs (dst.blit (a + c.offset * sz) src (b + c.offset * sz) (c.count * sz)) := rfl

theorem blitChunks_submit (hq : 8 * q < n) (hrounds : n ≤ 8 * q + 8 * rounds) :
    blitChunks a src b sz (submit n rounds (8 * q)) (dst.blit a src b (8 * q * sz)) =
      dst.blit a src b ((n + 7) / 8 * 8 * sz) := by
  induction rounds generalizing q with
  | zero => omega
  | succ rounds ih =>
    have hstep : (dst.blit a src b (8 * q * sz)).blit (a + 8 * q * sz) src (b + 8 * q * sz)
        (chunkSizeInBlocks * sz) = dst.blit a src b (8 * (q + 1) * sz) := by
      rw [Memory.blit_blit_append, ← Nat.add_mul]
      rfl
    have hnext : 8 * q + chunkSizeInBlocks = 8 * (q + 1) := rfl
    unfold submit
    dsimp only
    rw [blitChunks_cons, hstep, hnext]
    split
    · next hlt => exact ih hlt (by omega)
    · next hge =>
      have hlast : (n + 7) / 8 * 8 = 8 * (q + 1) := by omega
      rw [hlast]
      split
      · rw [blitChunks_cons]
        refine Memory.blit_blit_within ?_
        rw [← Nat.add_mul]
        exact Nat.mul_le_mul_right sz (by dsimp only; omega)
      · rfl

theorem blitChunks_chunks : blitChunks a src b sz (chunks n) dst = dst.blit a src b (extent n * sz) := by
  unfold chunks extent
  split
  · next hlt =>
    have hlt : n < 8 := hlt
    rw [if_pos hlt, blitChunks_cons]
    dsimp only
    rw [Nat.zero_mul, Nat.add_zero, Nat.add_zero]
    rfl
  · next hge =>
    have hge : ¬ n < 8 := hge
    have hloop : blitChunks a src b sz (submit n n (8 * 0)) (dst.blit a src b (8 * 0 * sz)) = _ :=
      blitChunks_submit (by omega) (by omega)
    rw [Nat.mul_zero, Nat.zero_mul, Memory.blit_zero] at hloop
    rw [if_neg hge, hloop]

theorem mem_submit (hq : 8 * q < n) (hc : c ∈ submit n rounds (8 * q)) : c.offset + c.count ≤ (n + 7) / 8 * 8 := by
  induction rounds generalizing q with
  | zero => cases hc
  | succ rounds ih =>
    have hnext : 8 * q + chunkSizeInBlocks = 8 * (q + 1) := rfl
    unfold submit at hc
    dsimp only at hc
    rw [hnext] at hc
    obtain rfl | hc := List.mem_cons.mp hc
    · change 8 * q + 8 ≤ _
      omega
    · split at hc
      · next hlt => exact ih hlt hc
      · split at hc
        · obtain rfl := List.mem_singleton.mp hc
          dsimp only
          omega
        · cases hc

theorem mem_chunks (hc : c ∈ chunks n) : c.offset + c.count ≤ extent n := by
  unfold chunks at hc
  unfold extent
  split at hc
  · next hlt =>
    have hlt : n < 8 := hlt
    rw [if_pos hlt]
    obtain rfl := List.mem_singleton.mp hc
    exact Nat.le_of_eq (Nat.zero_add n)
  · next hge =>
    have hge : ¬ n < 8 := hge
    rw [if_neg hge]
    have hzero : submit n n 0 = submit n n (8 * 0) := rfl
    exact mem_submit (by omega) (hzero ▸ hc)

theorem exists_mem_submit (hq : 8 * q < n) (hrounds : n ≤ 8 * q + 8 * rounds) :
    ∃ c ∈ submit n rounds (8 * q), c.offset + c.count = (n + 7) / 8 * 8 := by
  induction rounds generalizing q with
  | zero => omega
  | succ rounds ih =>
    unfold submit
    dsimp only
    split
    · next hlt =>
      obtain ⟨c, hc, hend⟩ := ih (q := q + 1) hlt (by omega)
      exact ⟨c, List.mem_cons_of_mem _ hc, hend⟩
    · next hge =>
      have hlast : n ≤ 8 * q + 8 := Nat.not_lt.mp hge
      refine ⟨_, List.mem_cons_self, ?_⟩
      change 8 * q + 8 = _
      omega

theorem waitedTag_submit {tag : Nat → Nat} {k : Nat} (hq : 8 * q < n) (hrounds : n ≤ 8 * q + 8 * rounds) :
    waitedTag tag n rounds (8 * q) k = some (tag (k + (submit n rounds (8 * q)).length - 1)) := by
  induction rounds generalizing q k with
  | zero => omega
  | succ rounds ih =>
    have hnext : 8 * q + chunkSizeInBlocks = 8 * (q + 1) := rfl
    unfold waitedTag submit
    dsimp only
    rw [hnext]
    split
    · next hlt =>
      rw [ih hlt (by omega), List.length_cons]
      congr 2
      omega
    · split <;> rfl

theorem le_extent : n ≤ extent n := by
  unfold extent
  split <;> omega

theorem writeChunks_eq (h : ∀ c ∈ cs, d.Fits m lba c) : writeChunks m lba cs d =
    (true, { d with bytes := blitChunks (lba * d.blkSz) m.bytes 0 d.blkSz cs d.bytes }) := by
  induction cs generalizing d with
  | nil => rfl
  | cons c cs ih =>
    unfold writeChunks
    rw [if_pos (h c List.mem_cons_self)]
    exact ih fun c hc => h c (List.mem_cons_of_mem _ hc)

theorem readChunks_eq (h : ∀ c ∈ cs, d.Fits m lba c) : readChunks d lba cs m =
    (true, { m with bytes := blitChunks 0 d.bytes (lba * d.blkSz) d.blkSz cs m.bytes }) := by
  induction cs generalizing m with
  | nil => rfl
  | cons c cs ih =>
    unfold readChunks
    rw [if_pos (h c List.mem_cons_self)]
    exact ih fun c hc => h c (List.mem_cons_of_mem _ hc)

structure Device.Room (d : Device) (m : Buffer) (lba n : Nat) : Prop where
  buffer : extent n * d.blkSz ≤ m.size
  device : lba + extent n ≤ d.blocks

theorem Device.Room.fits (h : d.Room m lba n) (hc : c ∈ chunks n) : d.Fits m lba c := by
  have hle := mem_chunks hc
  have hdevice := h.device
  exact ⟨(Nat.mul_le_mul_right _ hle).trans h.buffer, by omega⟩

theorem writeBlocks_eq (h : d.Room m lba n) : writeBlocks d m lba n =
    (true, { d with bytes := d.bytes.blit (lba * d.blkSz) m.bytes 0 (extent n * d.blkSz) }) := by
  unfold writeBlocks
  rw [writeChunks_eq fun c hc => h.fits hc, blitChunks_chunks]

theorem readBlocks_eq (h : d.Room m lba n) : readBlocks d m lba n =
    (true, { m with bytes := m.bytes.blit 0 d.bytes (lba * d.blkSz) (extent n * d.blkSz) }) := by
  unfold readBlocks
  rw [readChunks_eq fun c hc => h.fits hc, blitChunks_chunks]

structure Exact (d : Device) (m : Buffer) (lba n : Nat) : Prop where
  within : ∀ c ∈ chunks n, c.offset + c.count ≤ n
  write : writeBlocks d m lba n =
    (true, { d with bytes := d.bytes.blit (lba * d.blkSz) m.bytes 0 (n * d.blkSz) })
  read : readBlocks d m lba n =
    (true, { m with bytes := m.bytes.blit 0 d.bytes (lba * d.blkSz) (n * d.blkSz) })
  tag : chunkSizeInBlocks ≤ n → ∀ tag, waitedTag tag n n 0 0 = some (tag ((chunks n).length - 1))

theorem waitedTag_chunks (hn : chunkSizeInBlocks ≤ n) (tag : Nat → Nat) :
    waitedTag tag n n 0 0 = some (tag ((chunks n).length - 1)) := by
  have hn' : 8 ≤ n := hn
  have hloop : waitedTag tag n n (8 * 0) 0 = _ := waitedTag_submit (by omega) (by omega)
  rw [Nat.zero_add] at hloop
  rw [chunks, if_neg (Nat.not_lt.mpr hn)]
  exact hloop

/-- From eight blocks on, the last chunk of the loop goes beyond the blocks unless they are a multiple of
eight. -/
theorem exact_iff (hbuffer : n * d.blkSz ≤ m.size) (hdevice : lba + n ≤ d.blocks) :
    Exact d m lba n ↔ n < 8 ∨ 8 ∣ n := by
  constructor
  · intro h
    by_contra hnot
    obtain ⟨c, hc, hend⟩ : ∃ c ∈ submit n n (8 * 0), c.offset + c.count = (n + 7) / 8 * 8 :=
      exists_mem_submit (by omega) (by omega)
    have hlarge : ¬ n < chunkSizeInBlocks := fun hlt => hnot (Or.inl hlt)
    have hwithin := h.within c (by rw [chunks, if_neg hlarge]; exact hc)
    omega
  · intro h
    have hextent : extent n = n := by
      unfold extent
      split <;> omega
    have hroom : d.Room m lba n := ⟨hextent.symm ▸ hbuffer, hextent.symm ▸ hdevice⟩
    refine ⟨fun c hc => hextent ▸ mem_chunks hc, ?_, ?_, waitedTag_chunks⟩
    · rw [writeBlocks_eq hroom, hextent]
    · rw [readBlocks_eq hroom, hextent]

theorem sector_pos : 0 < 512 := by decide

theorem sector_dvd : 512 ∣ 2 ^ 18 := by decide

/-- A device of 32 blocks of 512 bytes. -/
def ioDevice : Device := ⟨512, 32, fun _ => 0, sector_pos, sector_dvd⟩

theorem exact_ioDevice : Exact ioDevice ⟨8192, fun _ => 1⟩ 3 16 :=
  (exact_iff (by decide) (by decide)).mpr (Or.inr (by decide))

/-- Nine blocks: a second chunk of eight is submitted. -/
theorem not_exact_ioDevice : ¬ Exact ioDevice ⟨8192, fun _ => 1⟩ 3 9 := by
  intro h
  exact absurd (h.within ⟨8, 8⟩ (by decide)) (by decide)

end Transfer

end Comanche.Store.Nvme
