import Comanche.Core.AvlTree

/-!
# The AVL range allocator

`AVL_range_allocator` of `core/avl_malloc.h`.
-/

namespace Comanche.Core

open Function (comp_update update update_apply update_eq_self)

def add64 (a b : Nat) : Nat := (a + b) % 2 ^ 64

def sub64 (a b : Nat) : Nat := (a + 2 ^ 64 - b) % 2 ^ 64

theorem add64_of_lt {a b : Nat} (h : a + b < 2 ^ 64) : add64 a b = a + b := Nat.mod_eq_of_lt h

theorem sub64_of_le {a b : Nat} (h : b ≤ a) (ha : a < 2 ^ 64) : sub64 a b = a - b := by
  unfold sub64
  omega

def roundUp (p alignment : Nat) : Nat :=
  let rdown := p / alignment * alignment
  if rdown = p then p else add64 rdown alignment

theorem roundUp_spec {p alignment : Nat} (hpos : 0 < alignment) (hp : p % alignment ≠ 0)
    (hlt : p + alignment ≤ 2 ^ 64) :
    ∃ n, 0 < n ∧ n < alignment ∧ roundUp p alignment = p + n ∧ (p + n) % alignment = 0 := by
  have hdiv : p / alignment * alignment + p % alignment = p := Nat.div_add_mod' p alignment
  have hmod : p % alignment < alignment := Nat.mod_lt p hpos
  have hsum : p + (alignment - p % alignment) = p / alignment * alignment + alignment := by omega
  refine ⟨alignment - p % alignment, by omega, by omega, ?_, ?_⟩
  · unfold roundUp
    rw [if_neg (by omega), add64_of_lt (by omega), hsum]
  · rw [hsum, Nat.add_mod_right, Nat.mul_mod_left]

def checkAligned (p alignment : Nat) : Bool := p % alignment == 0

structure MemoryRegion where
  addr : Nat
  size : Nat
  free : Bool
  next : Option Nat
  prev : Option Nat
  deriving Inhabited

def MemoryRegion.new (addr size : Nat) : MemoryRegion := ⟨addr, size, true, none, none⟩

structure RangeAllocator where
  region : Nat → MemoryRegion
  tree : AvlNode Nat
  slab : Nat

namespace RangeAllocator

def addr (a : RangeAllocator) (i : Nat) : Nat := (a.region i).addr

def size (a : RangeAllocator) (i : Nat) : Nat := (a.region i).size

def isFree (a : RangeAllocator) (i : Nat) : Bool := (a.region i).free

def next (a : RangeAllocator) (i : Nat) : Option Nat := (a.region i).next

def prev (a : RangeAllocator) (i : Nat) : Option Nat := (a.region i).prev

def set (a : RangeAllocator) (i : Nat) (r : MemoryRegion) : RangeAllocator :=
  { a with region := update a.region i r }

def setSize (a : RangeAllocator) (i size : Nat) : RangeAllocator :=
  a.set i { a.region i with size }

def setFree (a : RangeAllocator) (i : Nat) (free : Bool) : RangeAllocator :=
  a.set i { a.region i with free }

def setNext (a : RangeAllocator) (i : Nat) (next : Option Nat) : RangeAllocator :=
  a.set i { a.region i with next }

def setPrev (a : RangeAllocator) (i : Nat) (prev : Option Nat) : RangeAllocator :=
  a.set i { a.region i with prev }

def setPrevOf (a : RangeAllocator) (p : Option Nat) (prev : Option Nat) : RangeAllocator :=
  match p with
  | none => a
  | some i => a.setPrev i prev

def allocNode (a : RangeAllocator) (addr size : Nat) : RangeAllocator :=
  { a.set a.slab (.new addr size) with slab := a.slab + 1 }

section Fields

variable (a : RangeAllocator) (i : Nat)

@[simp] theorem region_fields :
    (a.region i).addr = a.addr i ∧ (a.region i).size = a.size i ∧ (a.region i).free = a.isFree i ∧
      (a.region i).next = a.next i ∧ (a.region i).prev = a.prev i :=
  ⟨rfl, rfl, rfl, rfl, rfl⟩

@[simp] theorem set_fields (r : MemoryRegion) : (a.set i r).addr = update a.addr i r.addr ∧
      (a.set i r).size = update a.size i r.size ∧ (a.set i r).isFree = update a.isFree i r.free ∧
      (a.set i r).next = update a.next i r.next ∧ (a.set i r).prev = update a.prev i r.prev ∧
      (a.set i r).tree = a.tree ∧ (a.set i r).slab = a.slab :=
  ⟨comp_update MemoryRegion.addr a.region i r, comp_update MemoryRegion.size a.region i r,
    comp_update MemoryRegion.free a.region i r,
    comp_update MemoryRegion.next a.region i r,
    comp_update MemoryRegion.prev a.region i r, rfl, rfl⟩

@[simp] theorem setSize_fields (n : Nat) : (a.setSize i n).addr = a.addr ∧ (a.setSize i n).size = update a.size i n ∧
      (a.setSize i n).isFree = a.isFree ∧ (a.setSize i n).next = a.next ∧
      (a.setSize i n).prev = a.prev ∧ (a.setSize i n).tree = a.tree ∧ (a.setSize i n).slab = a.slab := by
  simp [setSize]

@[simp] theorem setFree_fields (f : Bool) : (a.setFree i f).addr = a.addr ∧ (a.setFree i f).size = a.size ∧
      (a.setFree i f).isFree = update a.isFree i f ∧ (a.setFree i f).next = a.next ∧
      (a.setFree i f).prev = a.prev ∧ (a.setFree i f).tree = a.tree ∧ (a.setFree i f).slab = a.slab := by
  simp [setFree]

@[simp] theorem setNext_fields (n : Option Nat) : (a.setNext i n).addr = a.addr ∧ (a.setNext i n).size = a.size ∧
      (a.setNext i n).isFree = a.isFree ∧ (a.setNext i n).next = update a.next i n ∧
      (a.setNext i n).prev = a.prev ∧ (a.setNext i n).tree = a.tree ∧ (a.setNext i n).slab = a.slab := by
  simp [setNext]

@[simp] theorem setPrev_fields (n : Option Nat) : (a.setPrev i n).addr = a.addr ∧ (a.setPrev i n).size = a.size ∧
      (a.setPrev i n).isFree = a.isFree ∧ (a.setPrev i n).next = a.next ∧
      (a.setPrev i n).prev = update a.prev i n ∧ (a.setPrev i n).tree = a.tree ∧ (a.setPrev i n).slab = a.slab := by
  simp [setPrev]

@[simp] theorem setPrevOf_fields (p n : Option Nat) :
    (a.setPrevOf p n).addr = a.addr ∧ (a.setPrevOf p n).size = a.size ∧
      (a.setPrevOf p n).isFree = a.isFree ∧ (a.setPrevOf p n).next = a.next ∧
      (a.setPrevOf p n).tree = a.tree ∧ (a.setPrevOf p n).slab = a.slab := by
  cases p <;> simp [setPrevOf]

theorem setPrev_self : a.setPrev i (a.prev i) = a := by
  change ({ a with region := update a.region i (a.region i) } : RangeAllocator) = a
  rw [update_eq_self]

theorem setPrevOf_prev (p n : Option Nat) (j : Nat) :
    (a.setPrevOf p n).prev j = if p = some j then n else a.prev j := by
  cases p with
  | none => simp [setPrevOf]
  | some i => simp [setPrevOf, update_apply, eq_comm]

@[simp] theorem allocNode_fields (base n : Nat) : (a.allocNode base n).addr = update a.addr a.slab base ∧
      (a.allocNode base n).size = update a.size a.slab n ∧ (a.allocNode base n).isFree = update a.isFree a.slab true ∧
      (a.allocNode base n).next = update a.next a.slab none ∧ (a.allocNode base n).prev = update a.prev a.slab none ∧
      (a.allocNode base n).tree = a.tree ∧ (a.allocNode base n).slab = a.slab + 1 :=
  have h := a.set_fields a.slab (.new base n)
  ⟨h.1, h.2.1, h.2.2.1, h.2.2.2.1, h.2.2.2.2.1, rfl, rfl⟩

end Fields

def insertNode (a : RangeAllocator) (i : Nat) : Except Exc RangeAllocator := do
  let (tree, _) ← a.tree.insert a.addr i
  return { a with tree }

def removeNode (a : RangeAllocator) (i : Nat) : Except Exc RangeAllocator := do
  let (_, tree, _) ← a.tree.remove a.addr i .eq
  return { a with tree }

def create (start size : Nat) : RangeAllocator where
  region := update (fun _ => default) 0 (.new start size)
  tree := .node .null 0 0 .null
  slab := 1

def find (a : RangeAllocator) (addr : Nat) : Option Nat :=
  a.tree.search fun i => a.addr i == addr

def findFreeRegion (a : RangeAllocator) (size alignment : Nat) : Option Nat :=
  a.tree.search fun i => decide (size ≤ a.size i) && a.isFree i &&
    (alignment == 0 || checkAligned (a.addr i) alignment)

def findContainingRegion (a : RangeAllocator) (addr : Nat) : Option Nat :=
  a.tree.search fun i => decide (a.addr i ≤ addr) && decide (addr < add64 (a.addr i) (a.size i))

def allocSplit (a : RangeAllocator) (region size alignment : Nat) :
    Except Exc (Nat × RangeAllocator) := do
  let base := a.addr region
  let leftSplitSize := sub64 (roundUp base alignment) base
  let centerSplitBase := add64 base leftSplitSize
  let rightSplitBase := add64 centerSplitBase size
  let rightSplitSize := sub64 (sub64 (a.size region) leftSplitSize) size
  if rightSplitSize = 0 ∨ leftSplitSize = 0 ∨ size = 0 then
    .error .assertion
  else
    let center := a.slab
    let right := a.slab + 1
    let adjacentRight := a.next region
    let a := (a.allocNode centerSplitBase size).allocNode rightSplitBase rightSplitSize
    let a := ((a.setSize region leftSplitSize).setNext region (some center)).setPrev center region
    let a := ((a.setFree center false).setNext center (some right)).setPrev right (some center)
    let a := (a.setNext right adjacentRight).setPrevOf adjacentRight (some right)
    let a ← a.insertNode center
    let a ← a.insertNode right
    return (center, a)

def allocFront (a : RangeAllocator) (region size : Nat) : Except Exc (Nat × RangeAllocator) :=
  if a.size region = size then .ok (region, a.setFree region false)
  else do
    let leftOver := a.slab
    let rest := sub64 (a.size region) size
    let a := a.allocNode (add64 (a.addr region) size) rest
    let a := (a.setSize region size).setFree region false
    let tmp := a.next region
    let a := ((a.setNext region (some leftOver)).setPrev leftOver (some region)).setNext leftOver tmp
    let a := (a.setFree leftOver true).setPrevOf tmp (some leftOver)
    let a ← a.insertNode leftOver
    return (region, a)

def alloc (a : RangeAllocator) (size alignment : Nat) : Except Exc (Nat × RangeAllocator) :=
  match a.findFreeRegion size alignment with
  | some region => a.allocFront region size
  | none =>
      if alignment = 0 then .error .assertion
      else
        match a.findFreeRegion (add64 size alignment) 8 with
        | none => .error .failedToAllocate
        | some region => a.allocSplit region size alignment

/-- The part of `alloc_at` that cuts `region` before `addr`: the node that starts there. -/
def splitFront (a : RangeAllocator) (region addr : Nat) : Except Exc (Nat × RangeAllocator) :=
  if a.addr region = addr then .ok (region, a)
  else do
    let leftSize := sub64 addr (a.addr region)
    let middle := a.slab
    let a := a.allocNode addr (sub64 (a.size region) leftSize)
    let a := ((a.setSize region leftSize).setNext middle (a.next region)).setPrev middle (some region)
    let a := a.setNext region (some middle)
    let a ← a.insertNode middle
    return (middle, a)

def splitBack (a : RangeAllocator) (middle size : Nat) : Except Exc RangeAllocator :=
  if a.size middle ≤ size then .ok a
  else do
    let right := a.slab
    let rightSize := sub64 (a.size middle) size
    let a := a.allocNode (add64 (a.addr middle) size) rightSize
    let a := (a.setNext right (a.next middle)).setPrev right (some middle)
    let a := (a.setNext middle (some right)).setSize middle size
    a.insertNode right

def takeAt (a : RangeAllocator) (region addr size : Nat) : Except Exc (Nat × RangeAllocator) := do
  let (middle, a) ← a.splitFront region addr
  let a ← (a.setFree middle false).splitBack middle size
  return (middle, a)

def allocAt (a : RangeAllocator) (addr size : Nat) : Except Exc (Nat × RangeAllocator) :=
  match a.findContainingRegion addr with
  | none => .error .noContainingRegion
  | some region =>
      if a.size region < size then .error .insufficientRegion
      else if a.isFree region = false then .error .assertion
      else a.takeAt region addr size

def allocAtUnchecked (a : RangeAllocator) (addr size : Nat) : Except Exc (Nat × RangeAllocator) :=
  match a.findContainingRegion addr with
  | none => .error .noContainingRegion
  | some region =>
      if a.size region < size then .error .insufficientRegion else a.takeAt region addr size

def addNewRegion (a : RangeAllocator) (addr size : Nat) : Except Exc RangeAllocator :=
  if addr = 0 ∨ size = 0 then .error .assertion
  else
    let a' := a.allocNode addr size
    a'.insertNode a.slab

/-- `right` is merged into `left`, the node before it. -/
def absorb (a : RangeAllocator) (left right : Nat) : Except Exc RangeAllocator :=
  let a := a.setSize left (add64 (a.size left) (a.size right))
  let a := a.setNext left (a.next right)
  let a := a.setPrevOf (a.next right) (some left)
  a.removeNode right

/-- The right neighbour of `region` is merged into it if it is free. -/
def coalesceRight (a : RangeAllocator) (region : Nat) : Except Exc RangeAllocator :=
  match a.next region with
  | none => .ok a
  | some right => if a.isFree right then a.absorb region right else .ok a

/-- `region` is merged into its left neighbour if that is free. -/
def coalesceLeft (a : RangeAllocator) (region : Nat) : Except Exc RangeAllocator :=
  match a.prev region with
  | none => .ok a
  | some left => if a.isFree left then a.absorb left region else .ok a

def free (a : RangeAllocator) (addr : Nat) : Except Exc (Nat × RangeAllocator) :=
  match a.find addr with
  | none => .ok (2 ^ 64 - 1, a)
  | some region => do
      let returnCount := a.size region
      let a ← (a.setFree region true).coalesceRight region
      let a ← a.coalesceLeft region
      return (returnCount, a)

end RangeAllocator

end Comanche.Core
