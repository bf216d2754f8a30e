import Mathlib

/-!
# Partition windows

`Region_session` and `Partition_session` forward requests on a window of a block device to the device
below.
-/

namespace Comanche.Block

structure Window where
  firstLba : BitVec 64
  lastLba : BitVec 64
  le : firstLba ≤ lastLba

def Window.capacity (w : Window) : BitVec 64 := w.lastLba - w.firstLba + 1

def Window.blocks (w : Window) : Nat := w.lastLba.toNat - w.firstLba.toNat + 1

structure Request where
  bufferOffset : BitVec 64
  lba : BitVec 64
  lbaCount : BitVec 64
  pos : 0 < lbaCount.toNat

structure Forwarded where
  bufferOffset : BitVec 64
  lba : BitVec 64
  lbaCount : BitVec 64
  deriving DecidableEq

def Window.forward (w : Window) (r : Request) : Forwarded :=
  ⟨r.bufferOffset, r.lba + w.firstLba, r.lbaCount⟩

/-- A call that is forwarded unless `last` is above the capacity. -/
def Window.forwardUpTo (w : Window) (r : Request) (last : BitVec 64) (message : String) :
    Except String Forwarded :=
  if w.capacity < last then .error message else .ok (w.forward r)

namespace RegionSession

def asyncRead (w : Window) (r : Request) : Except String Forwarded :=
  w.forwardUpTo r (r.lba + r.lbaCount - 1) "async_read: out of bounds"

def asyncWrite (w : Window) (r : Request) : Except String Forwarded :=
  w.forwardUpTo r (r.lba + r.lbaCount - 1) "async_write: out of bounds"

def read (w : Window) (r : Request) : Except String Forwarded := .ok (w.forward r)

def write (w : Window) (r : Request) : Except String Forwarded := .ok (w.forward r)

end RegionSession

namespace PartitionSession

def asyncRead (w : Window) (r : Request) : Except String Forwarded :=
  w.forwardUpTo r (r.lba + r.lbaCount + r.bufferOffset - 1) "async_read: out of bounds"

def asyncWrite (w : Window) (r : Request) : Except String Forwarded :=
  w.forwardUpTo r (r.lba + r.lbaCount + r.bufferOffset - 1) "async_write: out of bounds"

end PartitionSession

inductive Entry where
  | regionRead
  | regionWrite
  | regionAsyncRead
  | regionAsyncWrite
  | partitionAsyncRead
  | partitionAsyncWrite

def Entry.call : Entry → Window → Request → Except String Forwarded
  | .regionRead => RegionSession.read
  | .regionWrite => RegionSession.write
  | .regionAsyncRead => RegionSession.asyncRead
  | .regionAsyncWrite => RegionSession.asyncWrite
  | .partitionAsyncRead => PartitionSession.asyncRead
  | .partitionAsyncWrite => PartitionSession.asyncWrite

def Window.Addresses (w : Window) (f : Forwarded) : Prop :=
  ∀ i < f.lbaCount.toNat, w.firstLba.toNat ≤ f.lba.toNat + i ∧ f.lba.toNat + i ≤ w.lastLba.toNat

def Window.Within (w : Window) (r : Request) : Prop := r.lba.toNat + r.lbaCount.toNat ≤ w.blocks

/-- What is forwarded stays in the window, and what ends in the window is forwarded. -/
def Entry.Confines (e : Entry) (w : Window) (r : Request) : Prop :=
  (∀ f, e.call w r = .ok f → w.Addresses f) ∧ (w.Within r → ∃ f, e.call w r = .ok f)

/-- The end `lba + lba_count` of an asynchronous request of a `Region_session`: not one block behind the window, and
beyond 2^64 only where the wrapped end is behind the window again. The capacity of the window of all blocks is 0. -/
def Window.EndsWell (w : Window) (r : Request) : Prop :=
  let stop := r.lba.toNat + r.lbaCount.toNat
  if w.blocks = 2 ^ 64 then stop = 1 ∨ 2 ^ 64 + 1 < stop
  else stop ≤ 2 ^ 64 ∧ stop ≠ w.blocks + 1 ∨ 2 ^ 64 + w.blocks + 1 < stop

/-- The same for a `Partition_session`, which adds the offset in the buffer: the sum of a request in the window stays
at most one above the block count or wraps, and the sum of any other one is above it after each wrap. -/
def Window.EndsWellWith (w : Window) (r : Request) : Prop :=
  let stop := r.lba.toNat + r.lbaCount.toNat
  let sum := stop + r.bufferOffset.toNat
  if w.blocks = 2 ^ 64 then
    stop ≤ 2 ^ 64 ∧ (sum = 1 ∨ sum = 2 ^ 64 + 1) ∨ 2 ^ 64 < stop ∧ sum ≠ 2 ^ 64 + 1 ∧ sum ≠ 2 * 2 ^ 64 + 1
  else
    stop ≤ w.blocks ∧ (sum ≤ w.blocks + 1 ∨ 2 ^ 64 < sum) ∨
      w.blocks < stop ∧ (w.blocks + 1 < sum ∧ sum ≤ 2 ^ 64 ∨
        2 ^ 64 + w.blocks + 1 < sum ∧ sum ≤ 2 * 2 ^ 64 ∨ 2 * 2 ^ 64 + w.blocks + 1 < sum)

def Entry.Sound : Entry → Window → Request → Prop
  | .regionRead, w, r | .regionWrite, w, r => w.Within r
  | .regionAsyncRead, w, r | .regionAsyncWrite, w, r => w.EndsWell r
  | .partitionAsyncRead, w, r | .partitionAsyncWrite, w, r => w.EndsWellWith r

section Confinement

variable {w : Window} {r : Request}

theorem Window.toNat_le (w : Window) : w.firstLba.toNat ≤ w.lastLba.toNat := BitVec.le_def.mp w.le

theorem Window.toNat_capacity (w : Window) : w.capacity.toNat = w.blocks % 2 ^ 64 := by
  have hle := w.toNat_le
  have hlast := w.lastLba.isLt
  unfold Window.capacity Window.blocks
  rw [BitVec.toNat_add, BitVec.toNat_sub]
  have hone : (1 : BitVec 64).toNat = 1 := rfl
  omega

theorem addresses_forward_iff : w.Addresses (w.forward r) ↔ w.Within r := by
  have hle := w.toNat_le
  have hlast := w.lastLba.isLt
  have hlba := r.lba.isLt
  have hpos := r.pos
  unfold Window.Addresses Window.Within Window.forward Window.blocks
  dsimp only
  rw [BitVec.toNat_add]
  constructor
  · intro h
    have hfirst := h 0 hpos
    have hend := h (r.lbaCount.toNat - 1) (by omega)
    omega
  · intro h i hi
    omega

theorem forwardUpTo_ok_iff {last : BitVec 64} {message : String} {f : Forwarded} :
    w.forwardUpTo r last message = .ok f ↔ last.toNat ≤ w.blocks % 2 ^ 64 ∧ w.forward r = f := by
  unfold Window.forwardUpTo
  rw [← w.toNat_capacity]
  split
  · next h => simp [Nat.not_le.mpr (BitVec.lt_def.mp h)]
  · next h => simp [Nat.not_lt.mp (fun hlt => h (BitVec.lt_def.mpr hlt))]

theorem confines_iff {e : Entry} {P : Prop} (h : ∀ f, e.call w r = .ok f ↔ P ∧ w.forward r = f) :
    e.Confines w r ↔ (P ↔ w.Within r) := by
  unfold Entry.Confines
  simp only [h]
  constructor
  · rintro ⟨haddresses, hforwards⟩
    refine ⟨fun hP => ?_, fun hwithin => ?_⟩
    · exact addresses_forward_iff.mp (haddresses _ ⟨hP, rfl⟩)
    · obtain ⟨f, hP, -⟩ := hforwards hwithin
      exact hP
  · intro hiff
    refine ⟨?_, fun hwithin => ⟨_, hiff.mpr hwithin, rfl⟩⟩
    rintro f ⟨hP, rfl⟩
    exact addresses_forward_iff.mpr (hiff.mp hP)

theorem Window.blocks_le (w : Window) : 0 < w.blocks ∧ w.blocks ≤ 2 ^ 64 := by
  have hlast := w.lastLba.isLt
  unfold Window.blocks
  omega

theorem endsWell_iff :
    w.EndsWell r ↔ ((r.lba.toNat + r.lbaCount.toNat - 1) % 2 ^ 64 ≤ w.blocks % 2 ^ 64 ↔ w.Within r) := by
  have hblocks := w.blocks_le
  have hlba := r.lba.isLt
  have hcount := r.lbaCount.isLt
  have hpos := r.pos
  unfold Window.EndsWell Window.Within
  dsimp only
  split
  · next hall =>
    -- the compared capacity is 0
    rw [hall]
    omega
  · next hsome =>
    rw [Nat.mod_eq_of_lt (show w.blocks < 2 ^ 64 by omega)]
    omega

theorem endsWellWith_iff : w.EndsWellWith r ↔
    ((r.lba.toNat + r.lbaCount.toNat + r.bufferOffset.toNat - 1) % 2 ^ 64 ≤ w.blocks % 2 ^ 64 ↔ w.Within r) := by
  have hblocks := w.blocks_le
  have hlba := r.lba.isLt
  have hcount := r.lbaCount.isLt
  have hoffset := r.bufferOffset.isLt
  have hpos := r.pos
  unfold Window.EndsWellWith Window.Within
  dsimp only
  split
  · next hall =>
    rw [hall]
    omega
  · next hsome =>
    rw [Nat.mod_eq_of_lt (show w.blocks < 2 ^ 64 by omega)]
    omega

theorem forward_confines_iff {e : Entry} (h : e.call w r = .ok (w.forward r)) : e.Confines w r ↔ w.Within r := by
  rw [confines_iff (P := True) (fun f => by rw [h]; simp)]
  rw [true_iff]

theorem toNat_last (r : Request) :
    (r.lba + r.lbaCount - 1).toNat = (r.lba.toNat + r.lbaCount.toNat - 1) % 2 ^ 64 := by
  have hpos := r.pos
  rw [BitVec.toNat_sub, BitVec.toNat_add]
  have hone : (1 : BitVec 64).toNat = 1 := rfl
  omega

theorem toNat_last_offset (r : Request) : (r.lba + r.lbaCount + r.bufferOffset - 1).toNat =
      (r.lba.toNat + r.lbaCount.toNat + r.bufferOffset.toNat - 1) % 2 ^ 64 := by
  have hpos := r.pos
  rw [BitVec.toNat_sub, BitVec.toNat_add, BitVec.toNat_add]
  have hone : (1 : BitVec 64).toNat = 1 := rfl
  omega

theorem forwardUpTo_confines_iff {e : Entry} {last : BitVec 64} {message : String}
    (h : e.call w r = w.forwardUpTo r last message) :
    e.Confines w r ↔ (last.toNat ≤ w.blocks % 2 ^ 64 ↔ w.Within r) := by
  refine confines_iff fun f => ?_
  rw [h]
  exact forwardUpTo_ok_iff

theorem endsWell_confines_iff {e : Entry} {message : String}
    (h : e.call w r = w.forwardUpTo r (r.lba + r.lbaCount - 1) message) : e.Confines w r ↔ w.EndsWell r := by
  rw [forwardUpTo_confines_iff h, toNat_last, endsWell_iff]

theorem endsWellWith_confines_iff {e : Entry} {message : String}
    (h : e.call w r = w.forwardUpTo r (r.lba + r.lbaCount + r.bufferOffset - 1) message) :
    e.Confines w r ↔ w.EndsWellWith r := by
  rw [forwardUpTo_confines_iff h, toNat_last_offset, endsWellWith_iff]

end Confinement

/-- A window confines the I/O through an entry point exactly for the requests that end where `Entry.Sound` says: the
synchronous calls of a `Region_session` are not tested at all, and the asynchronous ones by a sum that may wrap. -/
theorem confines_iff_sound (e : Entry) (w : Window) (r : Request) : e.Confines w r ↔ e.Sound w r := by
  cases e with
  | regionRead => exact forward_confines_iff rfl
  | regionWrite => exact forward_confines_iff rfl
  | regionAsyncRead => exact endsWell_confines_iff rfl
  | regionAsyncWrite => exact endsWell_confines_iff rfl
  | _ => exact endsWellWith_confines_iff rfl

/-- A read of the block behind a window of four blocks is forwarded. -/
theorem not_confines_behind : ¬ Entry.Confines .regionAsyncRead ⟨100, 103, by decide⟩ ⟨0, 4, 1, by decide⟩ := by
  rintro ⟨haddresses, -⟩
  have hblock := haddresses ⟨0, 104, 1⟩ (by decide) 0 (by decide)
  exact absurd hblock.2 (by decide)

end Comanche.Block
