import Mathlib.Logic.Function.Basic
import Mathlib.Algebra.Group.Nat.Defs

/-!
# The region table of a devdax device

`DM_region_header` of `nupm/dax_data.h`: a table of regions, measured in gigabytes, and an undo log of
four entries.
-/

namespace Comanche.Nupm

inductive Exc where
  | invalidRegionId
  | regionNotFound
  | badAlloc
  | noMoreRegions
  | undoLogFull

structure DmRegion where
  offsetGB : Nat
  lengthGB : Nat
  regionId : Nat
  deriving DecidableEq, Inhabited

/-- `undoLog` are the lengths in the log. Zero indicates an entry that is freed. -/
structure RegionHeader where
  undoLog : Nat → Nat
  regions : Nat → DmRegion
  deriving Inhabited

def maxLogCount : Nat := 4

def regionCount : Nat := 1024

namespace RegionHeader

def setRegion (h : RegionHeader) (r : Nat) (reg : DmRegion) : RegionHeader :=
  { h with regions := Function.update h.regions r reg }

def setLog (h : RegionHeader) (i length : Nat) : RegionHeader :=
  { h with undoLog := Function.update h.undoLog i length }

def freeLog (h : RegionHeader) : Option Nat :=
  (List.range maxLogCount).find? fun i => h.undoLog i == 0

def clearLog (h : RegionHeader) : RegionHeader where
  undoLog i := if i < maxLogCount then 0 else h.undoLog i
  regions := h.regions

end RegionHeader

/-- A call of the table. What it has written stays when it throws. -/
abbrev Call : Type → Type := EStateM Exc RegionHeader

def read {α : Type} (f : RegionHeader → α) : Call α := fun h => .ok (f h) h

def log (length : Nat) : Call Unit := do
  match ← read fun h => h.freeLog with
  | none => throw .undoLogFull
  | some i => modify fun h => h.setLog i length

def txAtomicWriteId (dst regionId : Nat) : Call Unit := do
  log 8
  modify fun h => h.setRegion dst { h.regions dst with regionId }
  modify RegionHeader.clearLog

def txAtomicWrite (dst0 offset0 size0 dst1 offset1 size1 regionId1 : Nat) : Call Unit := do
  log 16
  log 16
  modify fun h => h.setRegion dst0 { h.regions dst0 with offsetGB := offset0, lengthGB := size0 }
  modify fun h => h.setRegion dst1 ⟨offset1, size1, regionId1⟩
  modify RegionHeader.clearLog

namespace RegionHeader

def find (h : RegionHeader) (regionId : Nat) : Option Nat :=
  (List.range regionCount).find? fun r => (h.regions r).regionId == regionId

def spare (h : RegionHeader) : Option Nat :=
  (List.range regionCount).find? fun r =>
    (h.regions r).regionId == 0 && (h.regions r).lengthGB == 0

end RegionHeader

def eraseRegion (regionId : Nat) : Call Unit := do
  if regionId = 0 then throw .invalidRegionId
  else
    match ← read fun h => h.find regionId with
    | none => throw .regionNotFound
    | some r => modify fun h => h.setRegion r { h.regions r with regionId := 0 }

/-- The loop of `allocate_region` over the table: the offset of the new region. The remainder of an
entry that is cut is computed in 16 bits. -/
def allocateFrom (regionId sizeGB : Nat) : List Nat → Call Nat
  | [] => throw .noMoreRegions
  | r :: rs => do
      let reg ← read fun h => h.regions r
      if reg.regionId = 0 ∧ sizeGB ≤ reg.lengthGB then
        if reg.lengthGB = sizeGB then do
          txAtomicWriteId r regionId
          pure reg.offsetGB
        else
          let newOffset := reg.offsetGB
          let changedLength := (reg.lengthGB - sizeGB) % 2 ^ 16
          let changedOffset := (reg.offsetGB + sizeGB) % 2 ^ 16
          match ← read fun h => h.spare with
          | some n => do
              txAtomicWrite n changedOffset changedLength r newOffset sizeGB regionId
              pure newOffset
          | none => allocateFrom regionId sizeGB rs
      else allocateFrom regionId sizeGB rs

def allocateRegion (regionId sizeGB : Nat) : Call Nat := do
  if regionId = 0 then throw .invalidRegionId
  else
    match ← read fun h => h.find regionId with
    | some _ => throw .badAlloc
    | none => allocateFrom regionId sizeGB (List.range regionCount)

/-- The rebuilding constructor, over whatever the device held before. -/
def rebuild (old : RegionHeader) (deviceSize : Nat) : RegionHeader where
  undoLog := old.clearLog.undoLog
  regions r :=
    if r = 0 then ⟨0, (deviceSize - 2 ^ 30) / 2 ^ 30 % 2 ^ 32, 0⟩
    else if r < regionCount then { old.regions r with lengthGB := 0, regionId := 0 }
    else old.regions r

end Comanche.Nupm
