import Comanche.Hstore.Table

/-!
# Strings with counted references

Keys and values are `persist_fixed_string`s.
-/

namespace Comanche.Hstore

open Function (update update_self)

/-- `rep`. The characters of a block never change while it is shared, so that they are kept with the
pointer here. -/
inductive FixedString where
  | small (value : List UInt8)
  | large (ptr : Nat) (value : List UInt8)

instance : Inhabited FixedString := ⟨.small []⟩

namespace FixedString

def smallSize : Nat := 23

/-- `rep(first_, last_, al_)`, where the allocator gives the block at `ptr` if one is needed. -/
def ofData (ptr : Nat) (value : List UInt8) : FixedString :=
  if value.length ≤ smallSize then .small value else .large ptr value

def data : FixedString → List UInt8
  | .small value => value
  | .large _ value => value

def blocks : FixedString → List Nat
  | .small _ => []
  | .large ptr _ => [ptr]

end FixedString

def pairBlocks (kv : FixedString × FixedString) : List Nat := kv.1.blocks ++ kv.2.blocks

/-- The heap as far as `fixed_string`s go. `_ref_count` is a plain number here, which counts below 0 as an `unsigned`. -/
structure StringHeap where
  refCount : Nat → Nat
  allocated : Nat → Bool

namespace StringHeap

def empty : StringHeap := ⟨fun _ => 0, fun _ => false⟩

def construct (h : StringHeap) : FixedString → StringHeap
  | .small _ => h
  | .large ptr _ =>
      ⟨update h.refCount ptr 1, update h.allocated ptr true⟩

def copy (h : StringHeap) : FixedString → StringHeap
  | .small _ => h
  | .large ptr _ => { h with refCount := update h.refCount ptr (h.refCount ptr + 1) }

def destroy (h : StringHeap) : FixedString → StringHeap
  | .small _ => h
  | .large ptr _ =>
      let count := if h.refCount ptr = 0 then 2 ^ 32 - 1 else h.refCount ptr - 1
      if count = 0 then ⟨update h.refCount ptr 0, update h.allocated ptr false⟩
      else { h with refCount := update h.refCount ptr count }

/-- `rep::reconstitute`: the first reference that is found makes the block known again. -/
def reconstitute (h : StringHeap) (s : FixedString) : StringHeap :=
  match s with
  | .small _ => h
  | .large ptr _ => if h.allocated ptr then h.copy s else h.construct s

/-- What a call of the table means for the heap. Members of a pair are built in order and destroyed
in the reverse order. -/
def call (h : StringHeap) : Call FixedString FixedString → StringHeap
  | .construct kv => (h.construct kv.1).construct kv.2
  | .copy kv => (h.copy kv.1).copy kv.2
  | .destroy kv => (h.destroy kv.2).destroy kv.1
  | .reconstitute kv => (h.reconstitute kv.1).reconstitute kv.2
  | _ => h

def step (h : StringHeap) : Step FixedString FixedString → StringHeap
  | .write _ => h
  | .call c => h.call c

def ofLog (l : List (Step FixedString FixedString)) : StringHeap :=
  l.foldr (fun s h => h.step s) empty

def Sound (h : StringHeap) : Prop := ∀ p, h.allocated p = decide (0 < h.refCount p)

variable {h : StringHeap}

attribute [local simp] FixedString.blocks

theorem destroy_large {ptr : Nat} {value : List UInt8}
    (hlive : ∀ p, (FixedString.large ptr value).blocks.count p ≤ h.refCount p) :
    h.destroy (.large ptr value) = if h.refCount ptr - 1 = 0 then
      ⟨update h.refCount ptr 0, update h.allocated ptr false⟩
    else { h with refCount := update h.refCount ptr (h.refCount ptr - 1) } := by
  have hpos : 1 ≤ h.refCount ptr := by simpa using hlive ptr
  simp only [destroy, if_neg (Nat.one_le_iff_ne_zero.mp hpos)]

theorem refCount_construct (s : FixedString) (p : Nat) :
    (h.construct s).refCount p = if p ∈ s.blocks then 1 else h.refCount p := by
  cases s with
  | small value => simp [construct]
  | large ptr value => by_cases heq : p = ptr <;> simp [construct, heq]

theorem refCount_copy (s : FixedString) (p : Nat) : (h.copy s).refCount p = h.refCount p + s.blocks.count p := by
  cases s with
  | small value => simp [copy]
  | large ptr value =>
    by_cases heq : p = ptr
    · simp [copy, heq]
    · simp [copy, heq, Ne.symm heq]

theorem refCount_destroy {s : FixedString} (hlive : ∀ p, s.blocks.count p ≤ h.refCount p) (p : Nat) :
    (h.destroy s).refCount p = h.refCount p - s.blocks.count p := by
  cases s with
  | small value => simp [destroy]
  | large ptr value =>
    rw [destroy_large hlive]
    by_cases heq : p = ptr
    · subst heq
      split
      · rename_i hzero
        simp [hzero]
      · simp
    · split <;> simp [heq, Ne.symm heq]

theorem Sound.construct (hs : h.Sound) (s : FixedString) : (h.construct s).Sound := by
  intro p
  rw [refCount_construct]
  cases s with
  | small value => simpa [StringHeap.construct] using hs p
  | large ptr value =>
    by_cases heq : p = ptr
    · simp [StringHeap.construct, heq]
    · simpa [StringHeap.construct, heq] using hs p

theorem Sound.copy (hs : h.Sound) {s : FixedString} (hlive : ∀ p ∈ s.blocks, 0 < h.refCount p) : (h.copy s).Sound := by
  intro p
  rw [refCount_copy]
  cases s with
  | small value => simpa [StringHeap.copy] using hs p
  | large ptr value =>
    have hpos : 0 < h.refCount ptr := hlive ptr (by simp)
    change h.allocated p = _
    rw [hs p]
    by_cases heq : p = ptr
    · subst heq
      simp [hpos]
    · simp [Ne.symm heq]

theorem Sound.destroy (hs : h.Sound) {s : FixedString} (hlive : ∀ p, s.blocks.count p ≤ h.refCount p) :
    (h.destroy s).Sound := by
  intro p
  cases s with
  | small value => exact hs p
  | large ptr value =>
    rw [destroy_large hlive]
    by_cases heq : p = ptr
    · subst heq
      split
      · simp
      · rename_i hne
        have hpos : 0 < h.refCount p := by omega
        simp only [update_self]
        rw [hs p, decide_eq_true hpos]
        exact (decide_eq_true (by omega)).symm
    · split <;> simpa [heq] using hs p

theorem refCount_call_construct {kv : FixedString × FixedString}
    (hfresh : ∀ p ∈ pairBlocks kv, h.refCount p = 0) (hnodup : (pairBlocks kv).Nodup) (p : Nat) :
    (h.call (.construct kv)).refCount p = h.refCount p + (pairBlocks kv).count p := by
  change ((h.construct kv.1).construct kv.2).refCount p = _
  rw [refCount_construct, refCount_construct]
  by_cases hmem : p ∈ pairBlocks kv
  · rw [hfresh p hmem, List.count_eq_one_of_mem hnodup hmem]
    unfold pairBlocks at hmem
    rw [List.mem_append] at hmem
    by_cases h₂ : p ∈ kv.2.blocks
    · rw [if_pos h₂]
    · rw [if_neg h₂, if_pos (hmem.resolve_right h₂)]
  · rw [List.count_eq_zero_of_not_mem hmem]
    unfold pairBlocks at hmem
    rw [List.mem_append, not_or] at hmem
    rw [if_neg hmem.2, if_neg hmem.1, Nat.add_zero]

theorem refCount_call_copy (kv : FixedString × FixedString) (p : Nat) :
    (h.call (.copy kv)).refCount p = h.refCount p + (pairBlocks kv).count p := by
  change ((h.copy kv.1).copy kv.2).refCount p = _
  rw [refCount_copy, refCount_copy, pairBlocks, List.count_append, Nat.add_assoc]

theorem Sound.call_destroy (hs : h.Sound) {kv : FixedString × FixedString}
    (hlive : ∀ p, (pairBlocks kv).count p ≤ h.refCount p) : (h.call (.destroy kv)).Sound ∧
      ∀ p, (h.call (.destroy kv)).refCount p = h.refCount p - (pairBlocks kv).count p := by
  change ((h.destroy kv.2).destroy kv.1).Sound ∧ ∀ p, ((h.destroy kv.2).destroy kv.1).refCount p = _
  simp only [pairBlocks, List.count_append] at hlive ⊢
  have hsecond (p : Nat) : kv.2.blocks.count p ≤ h.refCount p := (Nat.le_add_left _ _).trans (hlive p)
  have hfirst (p : Nat) : kv.1.blocks.count p ≤ (h.destroy kv.2).refCount p := by
    rw [refCount_destroy hsecond]
    exact Nat.le_sub_of_add_le (hlive p)
  refine ⟨(hs.destroy hsecond).destroy hfirst, fun p => ?_⟩
  rw [refCount_destroy hfirst, refCount_destroy hsecond, Nat.sub_sub, Nat.add_comm]

theorem Sound.call_copy (hs : h.Sound) {kv : FixedString × FixedString}
    (hlive : ∀ p ∈ pairBlocks kv, 0 < h.refCount p) : (h.call (.copy kv)).Sound := by
  have hfirst : ∀ p ∈ kv.1.blocks, 0 < h.refCount p := fun p hp =>
    hlive p (List.mem_append_left _ hp)
  refine (hs.copy hfirst).copy fun p hp => ?_
  have hpos := hlive p (List.mem_append_right _ hp)
  rw [refCount_copy]
  omega

end StringHeap

end Comanche.Hstore
