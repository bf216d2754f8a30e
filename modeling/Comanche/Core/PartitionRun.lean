import Comanche.Core.Operations

/-!
# Runs of the range allocator

A run is a list of calls of `alloc`, `free` and `add_new_region`, each in the state that the call before
it has left.
-/

namespace Comanche.Core

namespace RangeAllocator

inductive Op where
  | alloc (size alignment : Nat)
  | free (addr : Nat)
  | addNewRegion (addr size : Nat)

def after (a : RangeAllocator) : Op → RangeAllocator
  | .alloc size alignment =>
    match a.alloc size alignment with
    | .ok (_, a') => a'
    | .error _ => a
  | .free addr =>
    match a.free addr with
    | .ok (_, a') => a'
    | .error _ => a
  | .addNewRegion addr size =>
    match a.addNewRegion addr size with
    | .ok a' => a'
    | .error _ => a

def managedAfter (a : RangeAllocator) (ranges : List Range) : Op → List Range
  | .addNewRegion addr size =>
    match a.addNewRegion addr size with
    | .ok _ => (addr, size) :: ranges
    | .error _ => ranges
  | _ => ranges

/-- The calls that are asked for: a positive size and alignment, and new ranges that have nothing in
common with those already managed. -/
def Op.Valid (ranges : List Range) : Op → Prop
  | .alloc size alignment => 0 < size ∧ size < 2 ^ 64 ∧ 0 < alignment ∧ alignment < 2 ^ 64
  | .free addr => addr < 2 ^ 64
  | .addNewRegion addr size =>
    Range.Valid (addr, size) ∧ ∀ s ∈ ranges, Range.Apart (addr, size) s

instance (ranges : List Range) (op : Op) : Decidable (op.Valid ranges) := by
  unfold Op.Valid
  split <;> infer_instance

def Answers (a : RangeAllocator) : Op → Prop
  | .alloc size alignment =>
    ∀ i a', a.alloc size alignment = .ok (i, a') →
      i ∈ a'.tree.toList ∧ a'.size i = size ∧ a'.addr i % alignment = 0 ∧
        a'.isFree i = false ∧ a.FreeAt (a'.addr i) size
  | .free addr =>
    (∀ i ∈ a.tree.toList, a.addr i ≠ addr) → a.free addr = .ok (2 ^ 64 - 1, a)
  | .addNewRegion _ _ => True

def AllOps (P : RangeAllocator → List Range → Op → Prop) :
    RangeAllocator → List Range → List Op → Prop
  | _, _, [] => True
  | a, ranges, op :: ops =>
    P a ranges op ∧ AllOps P (a.after op) (a.managedAfter ranges op) ops

instance AllOps.decidable {P : RangeAllocator → List Range → Op → Prop}
    [hP : ∀ a ranges op, Decidable (P a ranges op)] :
    (a : RangeAllocator) → (ranges : List Range) → (ops : List Op) → Decidable (AllOps P a ranges ops)
  | _, _, [] => isTrue trivial
  | a, ranges, op :: ops =>
    have := AllOps.decidable (P := P) (a.after op) (a.managedAfter ranges op) ops
    inferInstanceAs (Decidable (_ ∧ _))

/-- In every state of the run the memory is partitioned, and every call is answered rightly. -/
def Partitions : RangeAllocator → List Range → List Op → Prop
  | a, ranges, [] => Partitioned a ranges
  | a, ranges, op :: ops =>
    Partitioned a ranges ∧ Answers a op ∧ Partitions (a.after op) (a.managedAfter ranges op) ops

def Op.Unwrapped (a : RangeAllocator) : Op → Prop
  | .alloc size alignment => a.Unwrapped size alignment
  | _ => True

variable {a : RangeAllocator} {ranges : List Range} {ops : List Op}

theorem Used.node {i x n : Nat} (hsorted : AvlNode.Sorted a.addr a.tree) (hi : i ∈ a.tree.toList)
    (hx : a.addr i = x) (hused : a.Used x n) : a.isFree i = false ∧ a.size i = n := by
  obtain ⟨j, hj, hfree, hjx, hsize⟩ := hused
  have hji : j = i := hsorted.inj hj hi (hjx.trans hx.symm)
  exact ⟨hji ▸ hfree, hji ▸ hsize⟩

theorem Partitioned.after {op : Op} (h : Partitioned a ranges) (hvalid : op.Valid ranges) (hwrap : op.Unwrapped a) :
    Answers a op ∧ Partitioned (a.after op) (a.managedAfter ranges op) := by
  cases op with
  | alloc size alignment =>
    rcases alloc_spec h hvalid.1 hvalid.2.2.1 hwrap with
      herr | ⟨i, a', heq, hpart, hi, haligned, halloc⟩
    · simp only [Answers, RangeAllocator.after, managedAfter, herr]
      exact ⟨fun i a' heq => (by cases heq), h⟩
    · have hnode := Used.node hpart.sorted hi rfl ((halloc.used _ size).mpr (Or.inr ⟨rfl, rfl⟩))
      simp only [Answers, RangeAllocator.after, managedAfter, heq]
      refine ⟨fun j b hb => ?_, hpart⟩
      cases hb
      exact ⟨hi, hnode.2, haligned, hnode.1, halloc.free⟩
  | free addr =>
    by_cases hno : ∀ i ∈ a.tree.toList, a.addr i ≠ addr
    · have heq : a.free addr = .ok (2 ^ 64 - 1, a) := by rw [free, find_eq_none hno]
      simp only [Answers, RangeAllocator.after, managedAfter, heq]
      exact ⟨fun _ => trivial, h⟩
    · push Not at hno
      obtain ⟨i, hi, rfl⟩ := hno
      obtain ⟨a', heq, hpart, -⟩ := free_spec h hi
      simp only [Answers, RangeAllocator.after, managedAfter, heq]
      exact ⟨fun hno => absurd rfl (hno i hi), hpart⟩
  | addNewRegion addr size =>
    refine ⟨trivial, ?_⟩
    by_cases hzero : addr = 0
    · have heq : a.addNewRegion addr size = .error .assertion := by
        rw [addNewRegion, if_pos (Or.inl hzero)]
      simp only [RangeAllocator.after, managedAfter, heq]
      exact h
    · obtain ⟨a', heq, hpart⟩ :=
        addNewRegion_spec (r := (addr, size)) h (Nat.pos_of_ne_zero hzero) hvalid.1 hvalid.2
      simp only [RangeAllocator.after, managedAfter, heq]
      exact hpart

theorem Partitioned.run (h : Partitioned a ranges) (hvalid : AllOps (fun _ ranges op => op.Valid ranges) a ranges ops)
    (hwrap : AllOps (fun a _ op => op.Unwrapped a) a ranges ops) : Partitions a ranges ops := by
  induction ops generalizing a ranges with
  | nil => exact h
  | cons op ops ih =>
    obtain ⟨hanswers, hafter⟩ := h.after hvalid.1 hwrap.1
    exact ⟨h, hanswers, ih hafter hvalid.2 hwrap.2⟩

/-- The nodes tile exactly the managed ranges, and every call is answered rightly. -/
theorem allocator_partitions (r : Range) (hr : Range.Valid r) (ops : List Op)
    (hvalid : AllOps (fun _ ranges op => op.Valid ranges) (create r.1 r.2) [r] ops)
    (hwrap : AllOps (fun a _ op => op.Unwrapped a) (create r.1 r.2) [r] ops) : Partitions (create r.1 r.2) [r] ops :=
  (create_partitioned hr).run hvalid hwrap

def pageOps : List Op :=
  [.alloc 16 8, .alloc 32 24, .addNewRegion 0x3000 0x1000, .free 0x1000, .free 0x1008]

theorem allocator_partitions_pageOps : Partitions (create 0x1000 0x1000) [(0x1000, 0x1000)] pageOps := by
  refine allocator_partitions (0x1000, 0x1000) (by decide) pageOps ?_ ?_
  · decide +kernel
  · exact ⟨Or.inl (by decide), Or.inl (by decide), trivial, trivial, trivial, trivial⟩

/-- An alignment of almost 2^64 bytes: the sum wraps to zero, and the block that is handed out lies
outside the page. -/
theorem not_partitions_wrappedSum :
    AllOps (fun _ ranges op => op.Valid ranges) (create 0x1000 0x1000) [(0x1000, 0x1000)] [.alloc 8 (2 ^ 64 - 8)] ∧
    ¬ Partitions (create 0x1000 0x1000) [(0x1000, 0x1000)] [.alloc 8 (2 ^ 64 - 8)] := by
  refine ⟨by decide +kernel, ?_⟩
  rintro ⟨-, hanswers, -⟩
  have hcall : (match (create 0x1000 0x1000).alloc 8 (2 ^ 64 - 8) with
      | .ok (i, a') => decide ((create 0x1000 0x1000).FreeAt (a'.addr i) 8)
      | .error _ => true) = false := by decide +kernel
  split at hcall
  case h_1 i a' heq => exact of_decide_eq_false hcall (hanswers i a' heq).2.2.2.2
  case h_2 => cases hcall

end RangeAllocator

end Comanche.Core
