import Comanche.Lib.Bytes
import Mathlib.Data.List.GetD

/-!
# Memories

A memory, or a disk, gives the byte at each address.
-/

namespace Comanche.Lib

abbrev Memory : Type := Nat → UInt8

namespace Memory

def slice (m : Memory) (a n : Nat) : Bytes := (List.range n).map fun i => m (a + i)

/-- `n` bytes of `src` from `b` on are copied to `a`. -/
def blit (dst : Memory) (a : Nat) (src : Memory) (b n : Nat) : Memory :=
  fun i => if a ≤ i ∧ i < a + n then src (b + (i - a)) else dst i

def store (m : Memory) (a : Nat) (bs : Bytes) : Memory :=
  fun i => if a ≤ i ∧ i < a + bs.length then bs.getD (i - a) 0 else m i

variable {m dst src : Memory} {a b n x k : Nat} {bs : Bytes}

@[simp] theorem length_slice : (m.slice a n).length = n := by simp [slice]

theorem slice_eq_slice_iff {m' : Memory} : m.slice a n = m'.slice b n ↔ ∀ i < n, m (a + i) = m' (b + i) := by
  simp only [slice, List.map_inj_left, List.mem_range]

theorem slice_congr {m' : Memory} (h : ∀ i < n, m (a + i) = m' (b + i)) : m.slice a n = m'.slice b n :=
  slice_eq_slice_iff.mpr h

theorem blit_add (hx : x < n) : blit dst a src b n (a + x) = src (b + x) := by
  unfold blit
  rw [if_pos (by omega), Nat.add_sub_cancel_left]

theorem blit_of_apart (h : x < a ∨ a + n ≤ x) : blit dst a src b n x = dst x := by
  unfold blit
  rw [if_neg (by omega)]

theorem slice_blit_of_apart (h : a + n ≤ x ∨ x + k ≤ a) : (blit dst a src b n).slice x k = dst.slice x k := by
  refine slice_congr fun i hi => blit_of_apart ?_
  omega

theorem slice_blit (hx : x + k ≤ n) : (blit dst a src b n).slice (a + x) k = src.slice (b + x) k := by
  refine slice_congr fun i hi => ?_
  rw [Nat.add_assoc, Nat.add_assoc]
  exact blit_add (by omega)

theorem slice_store_self : (store m a bs).slice a bs.length = bs := by
  refine List.ext_getElem length_slice fun i hi hi' => ?_
  simp only [slice, List.getElem_map, List.getElem_range, store]
  rw [if_pos (by omega), Nat.add_sub_cancel_left, List.getD_eq_getElem _ _ hi']

theorem slice_store_of_apart (h : a + bs.length ≤ x ∨ x + k ≤ a) : (store m a bs).slice x k = m.slice x k := by
  refine slice_congr fun i hi => ?_
  unfold store
  rw [if_neg (by omega)]

theorem store_nil : store m a [] = m := by
  funext i
  unfold store
  rw [if_neg (by rw [List.length_nil]; omega)]

theorem store_append {cs : Bytes} : store m a (bs ++ cs) = store (store m a bs) (a + bs.length) cs := by
  funext i
  unfold store
  rw [List.length_append]
  by_cases hnext : a + bs.length ≤ i ∧ i < a + bs.length + cs.length
  · rw [if_pos (by omega), if_pos hnext, List.getD_append_right _ _ _ _ (by omega)]
    congr 1
    omega
  · rw [if_neg hnext]
    by_cases hfirst : a ≤ i ∧ i < a + bs.length
    · rw [if_pos (by omega), if_pos hfirst, List.getD_append _ _ _ _ (by omega)]
    · rw [if_neg (by omega), if_neg hfirst]

theorem slice_add : m.slice a (n + k) = m.slice a n ++ m.slice (a + n) k := by
  simp only [slice, List.range_add, List.map_append, List.map_map, Function.comp_def, Nat.add_assoc]

theorem take_slice (h : k ≤ n) : (m.slice a n).take k = m.slice a k := by
  obtain ⟨j, rfl⟩ := Nat.exists_eq_add_of_le h
  rw [slice_add]
  exact List.take_left' length_slice

theorem drop_slice (h : k ≤ n) : (m.slice a n).drop k = m.slice (a + k) (n - k) := by
  obtain ⟨j, rfl⟩ := Nat.exists_eq_add_of_le h
  rw [slice_add, Nat.add_sub_cancel_left]
  exact List.drop_left' length_slice

theorem slice_store_add (h : x + bs.length ≤ n) : (store m (a + x) bs).slice a n = writeAt (m.slice a n) x bs := by
  obtain ⟨j, rfl⟩ := Nat.exists_eq_add_of_le h
  unfold writeAt
  rw [take_slice (by omega), drop_slice (by omega), Nat.add_sub_cancel_left, slice_add, slice_add, slice_store_self,
    slice_store_of_apart (by omega), slice_store_of_apart (by omega)]

theorem slice_store (h : x + bs.length ≤ n) : (store m x bs).slice 0 n = writeAt (m.slice 0 n) x bs := by
  rw [← slice_store_add h, Nat.zero_add]

theorem blit_blit_append : blit (blit dst a src b n) (a + n) src (b + n) k = blit dst a src b (n + k) := by
  funext i
  unfold blit
  by_cases hnext : a + n ≤ i ∧ i < a + n + k
  · rw [if_pos hnext, if_pos (by omega)]
    congr 1
    omega
  · rw [if_neg hnext]
    by_cases hfirst : a ≤ i ∧ i < a + n
    · rw [if_pos hfirst, if_pos (by omega)]
    · rw [if_neg hfirst, if_neg (by omega)]

theorem blit_blit_within (hx : x + k ≤ n) : blit (blit dst a src b n) (a + x) src (b + x) k = blit dst a src b n := by
  funext i
  unfold blit
  by_cases hagain : a + x ≤ i ∧ i < a + x + k
  · rw [if_pos hagain, if_pos (by omega)]
    congr 1
    omega
  · rw [if_neg hagain]

theorem store_slice : store dst a (src.slice b n) = blit dst a src b n := by
  funext i
  unfold store blit
  rw [length_slice]
  split
  · rw [List.getD_eq_getElem _ _ (by rw [length_slice]; omega)]
    simp only [slice, List.getElem_map, List.getElem_range]
  · rfl

theorem blit_self : blit m a m a n = m := by
  funext i
  unfold blit
  split
  · congr 1
    omega
  · rfl

theorem blit_zero : blit dst a src b 0 = dst := by
  funext i
  unfold blit
  rw [if_neg (by omega)]

end Memory

end Comanche.Lib
