import Comanche.Block.Window
import Comanche.Lib.Memory

/-!
# Fixed persistent memory

`Pmem_fixed_component` reads a region of a block device to memory and writes it, or a range of it, back
through the session of the region.
-/

namespace Comanche.Pmem.Fixed

open Lib Block

def pageSize : Nat := 4096

def roundUpPage (a : Nat) : Nat :=
  if a % pageSize = 0 then a else (a / pageSize * pageSize + pageSize) % 2 ^ 64

def roundDown (p alignment : Nat) : Nat := p / alignment * alignment

def blocksFor (blkSz n : Nat) : Nat := if n % blkSz = 0 then n / blkSz else n / blkSz + 1

structure Component where
  blkSz : Nat
  pos : 0 < blkSz
  dvd : blkSz ∣ pageSize

/-- A region of the region manager: its blocks, and its load address. -/
structure Region where
  window : Window
  vaddr : Nat

structure Handle where
  region : Region
  ptr : Nat
  size : Nat
  iob : Memory
  ptr_pos : 0 < ptr
  ptr_aligned : pageSize ∣ ptr
  size_pos : 0 < size
  size_aligned : pageSize ∣ size
  fits : ptr + size ≤ 2 ^ 64

theorem roundUpPage_aligned (a : Nat) : pageSize ∣ roundUpPage a := by
  unfold roundUpPage
  split
  · next h => exact Nat.dvd_of_mod_eq_zero h
  · refine Nat.dvd_of_mod_eq_zero ?_
    rw [Nat.mod_mod_of_dvd _ (by decide), Nat.add_mod_right, Nat.mul_mod_left]

/-- `open` of a region, which is found by its name or is new. What it holds is read from the device
whatever the size of the region is, and `mmap` takes only whole pages. -/
def Component.openRegion (c : Component) (r : Region) (size : Nat) (device : Memory) : Option Handle :=
  if h : 0 < r.vaddr ∧ pageSize ∣ r.vaddr ∧ 0 < roundUpPage size ∧ r.vaddr + roundUpPage size ≤ 2 ^ 64 then
    some {
      region := r
      ptr := r.vaddr
      size := roundUpPage size
      iob := fun i => device (r.window.firstLba.toNat * c.blkSz + i)
      ptr_pos := h.1
      ptr_aligned := h.2.1
      size_pos := h.2.2.1
      size_aligned := roundUpPage_aligned size
      fits := h.2.2.2 }
  else none

/-- The call of `write` of the session: what the device is asked for, if there is a block to write. -/
def Handle.write (h : Handle) (offset lba lbaCount : Nat) : Option Forwarded :=
  if hpos : 0 < (BitVec.ofNat 64 lbaCount).toNat then
    (RegionSession.write h.region.window ⟨.ofNat 64 offset, .ofNat 64 lba, .ofNat 64 lbaCount, hpos⟩).toOption
  else none

inductive Call where
  | persist
  | persistScoped (ptr size : Nat)
  | close (noflush : Bool)

def Component.persist (c : Component) (h : Handle) : Except String (Option Forwarded) :=
  if h.size = 0 then .error "bad handle" else .ok (h.write 0 0 (blocksFor c.blkSz h.size))

def Component.persistScoped (c : Component) (h : Handle) (ptr size : Nat) : Except String (Option Forwarded) :=
  let vaddr := roundDown ptr c.blkSz
  if h.ptr = 0 ∨ h.size = 0 then .error "bad handle"
  else if ¬ (vaddr ≤ ptr ∧ ptr ≤ vaddr + size) then .error "out of bounds"
  else .ok (h.write (vaddr - h.ptr) (blocksFor c.blkSz (vaddr - h.ptr)) (blocksFor c.blkSz size))

def Component.close (c : Component) (h : Handle) (noflush : Bool) : Except String (Option Forwarded) :=
  if noflush then .ok none else c.persist h

def Call.run (c : Component) (h : Handle) : Call → Except String (Option Forwarded)
  | .persist => c.persist h
  | .persistScoped ptr size => c.persistScoped h ptr size
  | .close noflush => c.close h noflush

def Component.written (c : Component) (h : Handle) (device : Memory) : Option Forwarded → Memory
  | none => device
  | some f => device.blit (f.lba.toNat * c.blkSz) h.iob f.bufferOffset.toNat (f.lbaCount.toNat * c.blkSz)

def Call.Inside (h : Handle) : Call → Prop
  | .persistScoped ptr size => h.ptr ≤ ptr ∧ ptr + size ≤ h.ptr + h.size
  | _ => True

def Component.OnDevice (c : Component) (h : Handle) (device : Memory) (x : Nat) : Prop :=
  device (h.region.window.firstLba.toNat * c.blkSz + (x - h.ptr)) = h.iob (x - h.ptr)

def Call.Persists (c : Component) (h : Handle) (device : Memory) : Call → Prop
  | .persistScoped ptr size => ∀ x, ptr ≤ x → x < ptr + size → c.OnDevice h device x
  | _ => True

/-- The call returns, only blocks of the region are written, and the range is on the device. -/
def Call.Holds (c : Component) (h : Handle) (device : Memory) (call : Call) : Prop :=
  ∃ w, call.run c h = .ok w ∧ (∀ f ∈ w, h.region.window.Addresses f) ∧
    call.Persists c h (c.written h device w)

def Component.Fits (c : Component) (h : Handle) : Prop := h.size / c.blkSz ≤ h.region.window.blocks

/-- The block behind those that `persist_scoped` writes: it starts with the block of `ptr` and counts the
blocks of the size. -/
def Component.stop (c : Component) (h : Handle) (ptr size : Nat) : Nat :=
  (ptr - h.ptr) / c.blkSz + blocksFor c.blkSz size

/-- The place of `ptr` in its block is not above the size, the blocks that are written are blocks of the
region, and what lies behind them is on the device already. -/
def Call.Sound (c : Component) (h : Handle) (device : Memory) : Call → Prop
  | .persist => c.Fits h
  | .persistScoped ptr size =>
    (ptr - h.ptr) % c.blkSz ≤ size ∧ (0 < size → c.stop h ptr size ≤ h.region.window.blocks) ∧
      ∀ x, h.ptr + c.stop h ptr size * c.blkSz ≤ x → x < ptr + size → c.OnDevice h device x
  | .close noflush => noflush = false → c.Fits h

section Calls

variable {c : Component} {h : Handle}

variable {blkSz n lbaCount lba ptr : Nat}

theorem blocksFor_pos (hn : 0 < n) : 0 < blocksFor blkSz n := by
  unfold blocksFor
  split
  · next hmod =>
    have := Nat.div_add_mod n blkSz
    refine Nat.pos_of_ne_zero fun hzero => ?_
    rw [hzero, hmod] at this
    omega
  · exact Nat.succ_pos _

theorem blocksFor_le : blocksFor blkSz n ≤ n := by
  unfold blocksFor
  have := Nat.div_le_self n blkSz
  split
  · exact this
  · next hmod =>
    have hlt : n / blkSz ≠ n := fun heq => hmod (by
      rcases Nat.div_eq_self.mp heq with rfl | rfl
      · exact Nat.zero_mod _
      · exact Nat.mod_one _)
    omega

theorem le_blocksFor_mul (hpos : 0 < blkSz) : n ≤ blocksFor blkSz n * blkSz := by
  unfold blocksFor
  have hdiv := Nat.div_add_mod' n blkSz
  split
  · omega
  · have hmod := Nat.mod_lt n hpos
    rw [Nat.add_mul]
    omega

theorem blocksFor_of_dvd (hdvd : blkSz ∣ n) : blocksFor blkSz n = n / blkSz :=
  if_pos (Nat.mod_eq_zero_of_dvd hdvd)

theorem Handle.write_eq (offset lba : Nat) (hpos : 0 < lbaCount) (hlt : lbaCount < 2 ^ 64) :
    ∃ r : Request, h.write offset lba lbaCount = some (h.region.window.forward r) ∧
      r.bufferOffset = .ofNat 64 offset ∧ r.lba = .ofNat 64 lba ∧ r.lbaCount = .ofNat 64 lbaCount := by
  have hcount : 0 < (BitVec.ofNat 64 lbaCount).toNat := by
    rw [BitVec.toNat_ofNat, Nat.mod_eq_of_lt hlt]
    exact hpos
  unfold Handle.write
  rw [dif_pos hcount]
  exact ⟨⟨_, _, _, hcount⟩, rfl, rfl, rfl, rfl⟩

theorem Handle.write_zero {offset : Nat} : h.write offset lba 0 = none := dif_neg (by simp)

theorem Handle.write_addresses {offset : Nat} (hlba : lba < 2 ^ 64) (hlt : lbaCount < 2 ^ 64) :
    (∀ f ∈ h.write offset lba lbaCount, h.region.window.Addresses f) ↔
      (0 < lbaCount → lba + lbaCount ≤ h.region.window.blocks) := by
  rcases Nat.eq_zero_or_pos lbaCount with rfl | hpos
  · rw [Handle.write_zero]
    simp
  · obtain ⟨r, hr, -, hrlba, hrcount⟩ := h.write_eq offset lba hpos hlt
    rw [hr]
    have hwithin : h.region.window.Within r ↔ lba + lbaCount ≤ h.region.window.blocks := by
      unfold Window.Within
      rw [hrlba, hrcount, BitVec.toNat_ofNat, BitVec.toNat_ofNat, Nat.mod_eq_of_lt hlba, Nat.mod_eq_of_lt hlt]
    simp only [Option.mem_some_iff, forall_eq', addresses_forward_iff, hwithin, hpos, true_imp_iff]

theorem Component.written_byte {device : Memory} {y : Nat} (hoffset : lba * c.blkSz < 2 ^ 64)
    (hlt : lbaCount < 2 ^ 64) (hwithin : 0 < lbaCount → lba + lbaCount ≤ h.region.window.blocks) :
    c.written h device (h.write (lba * c.blkSz) lba lbaCount) (h.region.window.firstLba.toNat * c.blkSz + y) =
      if lba * c.blkSz ≤ y ∧ y < (lba + lbaCount) * c.blkSz then h.iob y
      else device (h.region.window.firstLba.toNat * c.blkSz + y) := by
  rcases Nat.eq_zero_or_pos lbaCount with rfl | hpos
  · rw [Handle.write_zero, Nat.add_zero, if_neg (by omega)]
    rfl
  · obtain ⟨r, hr, hroffset, hrlba, hrcount⟩ := h.write_eq (lba * c.blkSz) lba hpos hlt
    have hle := h.region.window.toNat_le
    have hlast := h.region.window.lastLba.isLt
    have hin := hwithin hpos
    unfold Window.blocks at hin
    have hlba : (h.region.window.forward r).lba.toNat = lba + h.region.window.firstLba.toNat := by
      unfold Window.forward
      rw [BitVec.toNat_add, hrlba, BitVec.toNat_ofNat]
      omega
    have hbuffer : (h.region.window.forward r).bufferOffset.toNat = lba * c.blkSz := by
      unfold Window.forward
      rw [hroffset, BitVec.toNat_ofNat, Nat.mod_eq_of_lt hoffset]
    have hcount : (h.region.window.forward r).lbaCount.toNat = lbaCount := by
      unfold Window.forward
      rw [hrcount, BitVec.toNat_ofNat, Nat.mod_eq_of_lt hlt]
    rw [hr]
    unfold Component.written
    dsimp only
    rw [hlba, hbuffer, hcount, Nat.add_mul, Nat.add_mul]
    generalize h.region.window.firstLba.toNat * c.blkSz = first, lba * c.blkSz = start, lbaCount * c.blkSz = len
    unfold Memory.blit
    by_cases hy : start ≤ y ∧ y < start + len
    · rw [if_pos (by omega), if_pos hy]
      congr 1
      omega
    · rw [if_neg (by omega), if_neg hy]

theorem Component.persist_holds_iff : (∃ w, c.persist h = .ok w ∧ ∀ f ∈ w, h.region.window.Addresses f) ↔ c.Fits h := by
  have hsize := h.size_pos
  have hptr := h.ptr_pos
  have hfits := h.fits
  have hdvd : c.blkSz ∣ h.size := c.dvd.trans h.size_aligned
  have hblocks : 0 < h.size / c.blkSz := Nat.div_pos (Nat.le_of_dvd hsize hdvd) c.pos
  have hle := Nat.div_le_self h.size c.blkSz
  have hrun : c.persist h = .ok (h.write 0 0 (h.size / c.blkSz)) := by
    unfold Component.persist
    rw [if_neg (by omega), blocksFor_of_dvd hdvd]
  rw [hrun]
  unfold Component.Fits
  simp only [Except.ok.injEq, exists_eq_left']
  rw [Handle.write_addresses (by decide) (by omega), Nat.zero_add]
  exact ⟨fun hw => hw hblocks, fun hw _ => hw⟩

theorem Component.roundDown_sub (hptr : h.ptr ≤ ptr) :
    roundDown ptr c.blkSz - h.ptr = (ptr - h.ptr) / c.blkSz * c.blkSz ∧
      roundDown ptr c.blkSz + (ptr - h.ptr) % c.blkSz = ptr := by
  obtain ⟨k, hk⟩ := c.dvd.trans h.ptr_aligned
  obtain ⟨off, rfl⟩ := Nat.exists_eq_add_of_le hptr
  have hdiv : (h.ptr + off) / c.blkSz = k + off / c.blkSz := by
    rw [hk, Nat.mul_add_div c.pos]
  have hoff := Nat.div_add_mod' off c.blkSz
  unfold roundDown
  rw [hdiv, Nat.add_mul, Nat.mul_comm k, ← hk, Nat.add_sub_cancel_left, Nat.add_sub_cancel_left]
  exact ⟨rfl, by omega⟩

theorem Component.persistScoped_eq {size : Nat} (hptr : h.ptr ≤ ptr) : c.persistScoped h ptr size =
      if (ptr - h.ptr) % c.blkSz ≤ size then
        .ok (h.write ((ptr - h.ptr) / c.blkSz * c.blkSz) ((ptr - h.ptr) / c.blkSz) (blocksFor c.blkSz size))
      else .error "out of bounds" := by
  obtain ⟨hsub, hadd⟩ := c.roundDown_sub hptr
  have hhandle : ¬ (h.ptr = 0 ∨ h.size = 0) := by
    have := h.ptr_pos
    have := h.size_pos
    omega
  unfold Component.persistScoped
  dsimp only
  rw [if_neg hhandle, hsub, blocksFor_of_dvd (Nat.dvd_mul_left _ _), Nat.mul_div_cancel _ c.pos]
  by_cases hd : (ptr - h.ptr) % c.blkSz ≤ size
  · rw [if_pos hd, if_neg (by omega)]
  · rw [if_neg hd, if_pos (by omega)]

theorem Component.persistScoped_holds_iff {device : Memory} {size : Nat}
    (hin : (Call.persistScoped ptr size).Inside h) :
    (Call.persistScoped ptr size).Holds c h device ↔ (Call.persistScoped ptr size).Sound c h device := by
  obtain ⟨hptr, hend⟩ := hin
  have hpos := h.ptr_pos
  have hfits := h.fits
  have hblocks : blocksFor c.blkSz size ≤ size := blocksFor_le
  have hoff := Nat.div_mul_le_self (ptr - h.ptr) c.blkSz
  have hlba := Nat.div_le_self (ptr - h.ptr) c.blkSz
  unfold Call.Holds Call.Sound Call.run
  dsimp only
  rw [c.persistScoped_eq hptr]
  by_cases hd : (ptr - h.ptr) % c.blkSz ≤ size
  · rw [if_pos hd]
    simp only [Except.ok.injEq, exists_eq_left', hd, true_and]
    rw [Handle.write_addresses (by omega) (by omega)]
    have hcount : 0 < blocksFor c.blkSz size ↔ 0 < size := ⟨fun hc => by omega, blocksFor_pos⟩
    rw [hcount]
    refine and_congr_right fun hwithin => ?_
    -- a byte of the range lies in the written blocks, or behind them
    have hbyte : ∀ x, ptr ≤ x → (c.OnDevice h (c.written h device (h.write ((ptr - h.ptr) / c.blkSz * c.blkSz)
        ((ptr - h.ptr) / c.blkSz) (blocksFor c.blkSz size))) x ↔
        (h.ptr + c.stop h ptr size * c.blkSz ≤ x → c.OnDevice h device x)) := by
      intro x hx
      unfold Component.OnDevice Component.stop
      rw [Component.written_byte (by omega) (by omega) (fun hc => hwithin (hcount.mp hc))]
      generalize hstop : ((ptr - h.ptr) / c.blkSz + blocksFor c.blkSz size) * c.blkSz = stop
      by_cases hbehind : h.ptr + stop ≤ x
      · rw [if_neg (by omega)]
        simp [hbehind]
      · rw [if_pos (by omega)]
        simp [hbehind]
    unfold Call.Persists
    constructor
    · intro hw x hstop hx
      have hbehind : ptr ≤ x := by
        have hsize : size ≤ blocksFor c.blkSz size * c.blkSz := le_blocksFor_mul c.pos
        have hdiv := Nat.div_add_mod' (ptr - h.ptr) c.blkSz
        unfold Component.stop at hstop
        rw [Nat.add_mul] at hstop
        omega
      exact (hbyte x hbehind).mp (hw x hbehind hx) hstop
    · intro hw x hx hlt
      exact (hbyte x hx).mpr fun hstop => hw x hstop hlt
  · rw [if_neg hd]
    simp [hd]

end Calls

/-- A call persists what is asked exactly if the region has the blocks that are written, and these are the blocks of the
range. -/
theorem fixed_holds_iff_sound (c : Component) (r : Region) (size : Nat) (before : Memory) (iob device : Memory)
    (call : Call) : ∀ h ∈ c.openRegion r size before, call.Inside h →
      (call.Holds c { h with iob := iob } device ↔ call.Sound c { h with iob := iob } device) := by
  intro h _ hin
  cases call with
  | persist =>
    rw [show Call.Sound c { h with iob := iob } device .persist = c.Fits { h with iob := iob } from rfl,
      ← Component.persist_holds_iff]
    simp [Call.Holds, Call.run, Call.Persists]
  | persistScoped ptr size => exact Component.persistScoped_holds_iff hin
  | close noflush =>
    cases noflush with
    | true => simp [Call.Holds, Call.run, Call.Persists, Component.close, Call.Sound]
    | false =>
      rw [show Call.Sound c { h with iob := iob } device (.close false) ↔ c.Fits { h with iob := iob } from
        ⟨fun hs => hs rfl, fun hs _ => hs⟩, ← Component.persist_holds_iff]
      simp [Call.Holds, Call.run, Call.Persists, Component.close]

def regionTo (last : BitVec 64) (hlast : 1 ≤ last) : Region := ⟨⟨1, last, hlast⟩, 0x900000000⟩

def pageBlocks : Component := ⟨4096, by decide, by decide⟩

theorem fixed_holds_wholeBlock : ∃ h ∈ pageBlocks.openRegion (regionTo 2 (by decide)) 8192 (fun _ => 0),
      (Call.persistScoped 0x900001000 4096).Holds pageBlocks { h with iob := fun _ => 7 } (fun _ => 0) := by
  have hopen := Option.get_mem (o := pageBlocks.openRegion (regionTo 2 (by decide)) 8192 (fun _ => 0))
    (by decide +kernel)
  refine ⟨_, hopen, (fixed_holds_iff_sound _ _ _ _ (fun _ => 7) (fun _ => 0) _ _ hopen ?_).mpr ?_⟩
  · exact ⟨by decide +kernel, by decide +kernel⟩
  · refine ⟨by decide +kernel, fun _ => by decide +kernel, fun x hstop hx => ?_⟩
    exact absurd (Nat.lt_of_le_of_lt hstop hx) (by decide +kernel)

/-- One block is written for a range that goes on in the next, and a region that is opened with more than
its own size is written beyond its end. -/
theorem not_fixed_holds : (∃ h ∈ pageBlocks.openRegion (regionTo 2 (by decide)) 8192 (fun _ => 0),
      ¬ (Call.persistScoped 0x900000001 4096).Holds pageBlocks { h with iob := fun _ => 7 } (fun _ => 0)) ∧
    ∃ h ∈ pageBlocks.openRegion (regionTo 1 (by decide)) 8192 (fun _ => 0),
      ¬ Call.persist.Holds pageBlocks h (fun _ => 0) := by
  constructor
  · refine ⟨_, Option.get_mem (by decide +kernel), ?_⟩
    rintro ⟨w, hrun, -, hbytes⟩
    obtain rfl : some ⟨0, 1, 1⟩ = w := Except.ok.inj ((by decide +kernel : _ = _).trans hrun)
    exact absurd (hbytes 0x900001000 (by decide) (by decide)) (by unfold Component.OnDevice; decide +kernel)
  · refine ⟨_, Option.get_mem (by decide +kernel), ?_⟩
    rintro ⟨w, hrun, haddresses, -⟩
    obtain rfl : some ⟨0, 1, 2⟩ = w := Except.ok.inj ((by decide +kernel : _ = _).trans hrun)
    exact absurd (haddresses _ rfl 1 (by decide)).2 (by decide +kernel)

end Comanche.Pmem.Fixed
