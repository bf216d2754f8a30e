import Comanche.Core.Operations

/-!
# Blocks at given addresses

`alloc_at` cuts the free node that holds the wanted bytes.
-/

namespace Comanche.Core

open Lib

namespace RangeAllocator

variable {a : RangeAllocator} {ranges : List Range} {i x n : Nat}

theorem findContainingRegion_eq_some (h : Laid a) (hi : i ∈ a.tree.toList)
    (hend : ∀ j ∈ a.tree.toList, a.addr j + a.size j < 2 ^ 64) (hlo : a.addr i ≤ x)
    (hhi : x < a.addr i + a.size i) : a.findContainingRegion x = some i := by
  cases hfind : a.findContainingRegion x with
  | none =>
    have hno := AvlNode.search_eq_none hfind i hi
    rw [add64_of_lt (hend i hi)] at hno
    simp [hlo, hhi] at hno
  | some j =>
    obtain ⟨hj, hin⟩ := AvlNode.search_eq_some hfind
    rw [add64_of_lt (hend j hj)] at hin
    simp only [Bool.and_eq_true, decide_eq_true_eq] at hin
    by_contra hne
    have hdisj := h.disjoint i hi j hj fun heq => hne (heq ▸ rfl)
    omega

structure Outside (a a' : RangeAllocator) (i : Nat) : Prop where
  addr : ∀ k < a.slab, a'.addr k = a.addr k
  prev : ∀ k < a.slab, a'.prev k = a.prev k
  size : ∀ k < a.slab, k ≠ i → a'.size k = a.size k
  next : ∀ k < a.slab, k ≠ i → a'.next k = a.next k
  isFree : ∀ k < a.slab, k ≠ i → a'.isFree k = a.isFree k

theorem Outside.spliced {a' : RangeAllocator} {new : List Nat} (h : Tiled a ranges)
    (hi : i ∈ a.tree.toList) (hout : Outside a a' i) (hnew : ∀ k ∈ new, a.slab ≤ k) (htree : Retreed a a' [] new)
    (htiles : Tiles a'.addr a'.size (a.addr i) (i :: new) (a.addr i + a.size i))
    (hlinked : Linked a'.next a'.prev (a.prev i) (i :: new) (a.next i)) :
    Spliced a (a'.setPrevOf (a.next i) (i :: new).getLast?) i [] new (a.next i) := by
  have hold : ∀ k ∈ i :: new, a.next i ≠ some k := by
    intro k hk hnext
    rcases List.mem_cons.mp hk with rfl | hk
    · exact h.next_ne hi hnext rfl
    · exact absurd (h.fresh k (h.of_next hi hnext).1) (Nat.not_lt.mpr (hnew k hk))
  refine ⟨fun k hk => ?_, fun k hk hki => ?_, fun k hk hki => ?_, fun k hk hki hkn => ?_,
    fun k hk hki => ?_, ⟨?_, ?_, ?_, ?_⟩, ⟨a.addr i + a.size i, ?_, ?_⟩, ?_, ?_, fun k hk => ?_⟩
  · simpa using hout.addr k (h.fresh k hk)
  · simpa using hout.size k (h.fresh k hk) hki
  · simpa using hout.next k (h.fresh k hk) hki
  · rw [setPrevOf_prev, if_neg hkn, hout.prev k (h.fresh k hk)]
  · simpa using hout.isFree k (h.fresh k hk) hki
  · simpa using htree.balanced
  · simpa using htree.sorted
  · simpa using htree.fresh
  · simpa using htree.mem
  · simp [h.size_pos hi]
  · simpa only [setPrevOf_fields] using htiles
  · simp
  · refine hlinked.congr (fun k hk => by simp) fun k hk => ?_
    rw [setPrevOf_prev, if_neg (hold k hk)]
  · rw [setPrevOf_prev, if_pos hk]

/-- The node `i` has become the nodes `i :: new`, of which `j` is the block of `n` bytes at `x`. The
back link of the node behind them is as it was. -/
structure Cut (a a' : RangeAllocator) (i : Nat) (new : List Nat) (j x n : Nat) : Prop where
  outside : Outside a a' i
  fresh : ∀ k ∈ new, a.slab ≤ k
  tree : Retreed a a' [] new
  tiles : Tiles a'.addr a'.size (a.addr i) (i :: new) (a.addr i + a.size i)
  linked : Linked a'.next a'.prev (a.prev i) (i :: new) (a.next i)
  mem : j ∈ i :: new
  used : a'.isFree j = false
  free : a.isFree i = true → ∀ k ∈ i :: new, k ≠ j → a'.isFree k = true
  next : ∀ k ∈ i :: new, k ≠ j → a'.next k = some j ∨ a'.next k = a.next i
  addr : a'.addr j = x
  size : a'.size j = n

theorem splitBack_cut (h : Laid a) (hi : i ∈ a.tree.toList) (hpos : 0 < n) (hlt : n < a.size i) :
    ∃ a', (a.setFree i false).splitBack i n = .ok a' ∧ Cut a a' i [a.slab] i (a.addr i) n := by
  obtain ⟨hsz, hend⟩ := h.bound i hi
  have hadd : add64 (a.addr i) n = a.addr i + n := add64_of_lt (by omega)
  have hsub : sub64 (a.size i) n = a.size i - n := sub64_of_le hlt.le hsz
  have hne : i ≠ a.slab := h.ne_slab hi
  unfold splitBack
  simp only [setFree_fields, allocNode_fields, Function.update_of_ne hne, hadd, hsub]
  rw [if_neg (by omega)]
  obtain ⟨t, heq, htree⟩ := h.insertSlab (b := ((((((a.setFree i false).allocNode (a.addr i + n)
      (a.size i - n)).setNext a.slab (a.next i)).setPrev a.slab (some i)).setNext i
      (some a.slab)).setSize i n))
    (by simp) (by simp) (fun j hj => by simp [h.ne_slab hj])
    (fun j hj => by simpa using h.addr_ne hi hj (x := a.addr i + n) (by omega) (by omega))
  refine ⟨_, heq, ⟨⟨fun k hk => ?_, fun k hk => ?_, fun k hk hki => ?_, fun k hk hki => ?_,
    fun k hk hki => ?_⟩, by simp, htree, ?_, ?_, by simp, ?_, ?_, ?_, ?_, ?_⟩⟩
  · simp [hk.ne]
  · simp [hk.ne]
  · simp [hk.ne, hki]
  · simp [hk.ne, hki]
  · simp [hk.ne, hki]
  · simp [hne, hne.symm, hpos]
    omega
  · simp [linked_cons, hne, hne.symm]
  · simp [hne]
  · simp
  · simp [hne.symm]
  · simp [hne]
  · simp

def frontNodes (a : RangeAllocator) (i x : Nat) : RangeAllocator :=
  ((((a.allocNode x (a.size i - (x - a.addr i))).setSize i (x - a.addr i)).setNext a.slab
    (a.next i)).setPrev a.slab (some i)).setNext i (some a.slab)

attribute [local simp] frontNodes

section

variable (h : Laid a) (hi : i ∈ a.tree.toList)
include h hi

theorem splitFront_eq (hlo : a.addr i < x) (hhi : x < a.addr i + a.size i) :
    ∃ t, a.splitFront i x = .ok (a.slab, { frontNodes a i x with tree := t }) ∧
      Retreed a { frontNodes a i x with tree := t } [] [a.slab] := by
  obtain ⟨hsz, hend⟩ := h.bound i hi
  have hleft : sub64 x (a.addr i) = x - a.addr i := sub64_of_le hlo.le (by omega)
  have hrest : sub64 (a.size i) (x - a.addr i) = a.size i - (x - a.addr i) :=
    sub64_of_le (by omega) hsz
  have hne : i ≠ a.slab := h.ne_slab hi
  unfold splitFront
  rw [if_neg hlo.ne]
  simp only [hleft, hrest, allocNode_fields, Function.update_of_ne hne]
  obtain ⟨t, heq, htree⟩ := h.insertSlab (b := frontNodes a i x) (by simp) (by simp)
    (fun j hj => by simp [h.ne_slab hj]) (fun j hj => by simpa using h.addr_ne hi hj hlo hhi)
  refine ⟨t, ?_, htree⟩
  unfold frontNodes at heq ⊢
  rw [heq]
  rfl

theorem splitFront_cut (hlo : a.addr i < x) (hpos : 0 < n) (hhi : x + n = a.addr i + a.size i) :
    ∃ b a', a.splitFront i x = .ok (a.slab, b) ∧
      (b.setFree a.slab false).splitBack a.slab n = .ok a' ∧ Cut a a' i [a.slab] a.slab x n := by
  have hne : i ≠ a.slab := h.ne_slab hi
  obtain ⟨t, heq, htree⟩ := splitFront_eq h hi hlo (by omega)
  have hsize : a.size i - (x - a.addr i) = n := by omega
  refine ⟨_, _, heq, by rw [splitBack, if_pos (by simp [hne.symm]; omega)],
    ⟨⟨fun k hk => ?_, fun k hk => ?_, fun k hk hki => ?_, fun k hk hki => ?_,
    fun k hk hki => ?_⟩, by simp, ?_, ?_, ?_, by simp, ?_, ?_, ?_, ?_, ?_⟩⟩
  · simp [hk.ne]
  · simp [hk.ne]
  · simp [hk.ne, hki]
  · simp [hk.ne, hki]
  · simp [hk.ne]
  · exact ⟨by simpa using htree.balanced, by simpa using htree.sorted, by simpa using htree.fresh, by simpa using htree.mem⟩
  · simp [hne, hne.symm]
    omega
  · simp [linked_cons, hne, hne.symm]
  · simp
  · simp +contextual [hne]
  · simp [hne]
  · simp
  · simp [hne.symm, hsize]

theorem splitBoth_cut (hlo : a.addr i < x) (hpos : 0 < n) (hhi : x + n < a.addr i + a.size i) :
    ∃ b a', a.splitFront i x = .ok (a.slab, b) ∧ (b.setFree a.slab false).splitBack a.slab n = .ok a' ∧
      Cut a a' i [a.slab, a.slab + 1] a.slab x n := by
  obtain ⟨hsz, hend⟩ := h.bound i hi
  have hne : i ≠ a.slab := h.ne_slab hi
  have hne' : i ≠ a.slab + 1 := h.ne_slab_succ hi
  obtain ⟨t, heq, htree⟩ := splitFront_eq h hi hlo (by omega)
  have hadd : add64 x n = x + n := add64_of_lt (by omega)
  have hsub : sub64 (a.size i - (x - a.addr i)) n = a.size i - (x - a.addr i) - n :=
    sub64_of_le (by omega) (by omega)
  have hmem : ∀ j, j ∈ t.toList ↔ j ∈ a.tree.toList ∨ j = a.slab := by simpa using htree.mem
  have hbelow : ∀ j ∈ t.toList, j < a.slab + 1 := by simpa using htree.fresh
  have htree' : Retreed a ((((((({ frontNodes a i x with tree := t } : RangeAllocator).setFree a.slab
      false).allocNode (x + n) (a.size i - (x - a.addr i) - n)).setNext (a.slab + 1)
      (a.next i)).setPrev (a.slab + 1) (some a.slab)).setNext a.slab (some (a.slab + 1))).setSize
      a.slab n) [] [a.slab] := by
    refine ⟨by simpa using htree.balanced, ?_, fun j hj => ?_, by simpa using hmem⟩
    · simp only [setSize_fields, setNext_fields, setPrev_fields, allocNode_fields, setFree_fields]
      refine htree.sorted.congr fun j hj => ?_
      simp [(hbelow j hj).ne]
    · have hj' := hbelow j (by simpa using hj)
      simp
      omega
  obtain ⟨t', heq', htree'⟩ := htree'.insertNode (n := a.slab + 1) (by simp) (fun j hj => by
      rcases (hmem j).mp (by simpa using hj) with hj | rfl
      · simpa [h.ne_slab hj, h.ne_slab_succ hj] using h.addr_ne hi hj (x := x + n) (by omega) (by omega)
      · simp [hpos.ne'])
  refine ⟨_, _, heq, ?_, ⟨⟨fun k hk => ?_, fun k hk => ?_, fun k hk hki => ?_, fun k hk hki => ?_,
    fun k hk hki => ?_⟩, by simp, htree', ?_, ?_, by simp, ?_, ?_, ?_, ?_, ?_⟩⟩
  · unfold splitBack
    have hnle : ¬ a.size i - (x - a.addr i) ≤ n := by omega
    simpa [hne, hne.symm, hadd, hsub, hnle] using heq'
  · simp [hk.ne, (hk.trans (Nat.lt_succ_self _)).ne]
  · simp [hk.ne, (hk.trans (Nat.lt_succ_self _)).ne]
  · simp [hk.ne, (hk.trans (Nat.lt_succ_self _)).ne, hki]
  · simp [hk.ne, (hk.trans (Nat.lt_succ_self _)).ne, hki]
  · simp [hk.ne, (hk.trans (Nat.lt_succ_self _)).ne]
  · simp [hne, hne', hpos]
    omega
  · simp [linked_cons, hne, hne']
  · simp
  · simp +contextual [hne, hne']
  · simp [hne, hne']
  · simp
  · simp

theorem takeAt_cut (hpos : 0 < n) (hlo : a.addr i ≤ x)
    (hhi : x + n ≤ a.addr i + a.size i) : ∃ j a' new, a.takeAt i x n = .ok (j, a') ∧ Cut a a' i new j x n ∧
      (new = [] ↔ x = a.addr i ∧ n = a.size i) := by
  unfold takeAt
  rcases Nat.eq_or_lt_of_le hlo with hx | hlt
  · subst hx
    have hfront : a.splitFront i (a.addr i) = .ok (i, a) := by rw [splitFront, if_pos rfl]
    simp only [hfront, bind, Except.bind]
    rcases Nat.eq_or_lt_of_le (show n ≤ a.size i by omega) with hn | hlt
    · have hback : (a.setFree i false).splitBack i n = .ok (a.setFree i false) := by
        rw [splitBack, if_pos (by simp [hn])]
      rw [hback]
      refine ⟨i, a.setFree i false, [], rfl, ⟨⟨by simp, by simp, by simp, by simp, ?_⟩, by simp, ?_, ?_,
        by simp, by simp, by simp, by simp, by simp, by simp, by simp [hn]⟩, by simp [hn]⟩
      · intro k _ hki
        simp [hki]
      · exact h.retreed (by simp) (by simp) (by simp)
      · simp [h.size_pos i hi]
    · obtain ⟨a', hback, hcut⟩ := splitBack_cut h hi hpos hlt
      rw [hback]
      exact ⟨i, a', [a.slab], rfl, hcut, by simp [hlt.ne]⟩
  · rcases Nat.eq_or_lt_of_le hhi with hhi | hhi
    · obtain ⟨b, a', hfront, hback, hcut⟩ := splitFront_cut h hi hlt hpos hhi
      simp only [hfront, hback, bind, Except.bind]
      exact ⟨a.slab, a', [a.slab], rfl, hcut, by simp [hlt.ne']⟩
    · obtain ⟨b, a', hfront, hback, hcut⟩ := splitBoth_cut h hi hlt hpos hhi
      simp only [hfront, hback, bind, Except.bind]
      exact ⟨a.slab, a', [a.slab, a.slab + 1], rfl, hcut, by simp [hlt.ne']⟩

theorem takeAt_long (hn : n ≤ a.size i) (hin : x < a.addr i + a.size i)
    (hhi : a.addr i + a.size i < x + n) : ∃ j a', a.takeAt i x n = .ok (j, a') ∧ a'.size j < n := by
  obtain ⟨t, heq, -⟩ := splitFront_eq h hi (x := x) (by omega) hin
  have hne := (h.ne_slab hi).symm
  have hsize : a.size i - (x - a.addr i) < n := by omega
  refine ⟨a.slab, ({ frontNodes a i x with tree := t } : RangeAllocator).setFree a.slab false, ?_, ?_⟩
  · unfold takeAt
    simp only [heq, bind, Except.bind]
    rw [splitBack, if_pos (by simp [hne, hsize.le])]
    rfl
  · simpa [hne] using hsize

theorem allocAt_cut (hfree : a.isFree i = true)
    (hend : ∀ j ∈ a.tree.toList, a.addr j + a.size j < 2 ^ 64) (hpos : 0 < n)
    (hlo : a.addr i ≤ x) (hhi : x + n ≤ a.addr i + a.size i) :
    ∃ j a' new, a.allocAt x n = .ok (j, a') ∧ Cut a a' i new j x n ∧ (new = [] ↔ x = a.addr i ∧ n = a.size i) := by
  have hfind := findContainingRegion_eq_some h hi hend hlo (by omega)
  simp only [allocAt, hfind, hfree, if_neg (show ¬ a.size i < n by omega), Bool.true_eq_false, if_false]
  exact takeAt_cut h hi hpos hlo hhi

end

/-- The same but for the back links, which only `free` reads. -/
def Alike (a b : RangeAllocator) : Prop :=
  a.addr = b.addr ∧ a.size = b.size ∧ a.isFree = b.isFree ∧ a.next = b.next ∧ a.tree = b.tree ∧ a.slab = b.slab

theorem Alike.laid {b : RangeAllocator} (hab : Alike a b) (h : Laid b) : Laid a := by
  obtain ⟨haddr, hsize, -, -, htree, hslab⟩ := hab
  obtain ⟨hbal, hsorted, hfresh, hpos, hbound, hdisjoint⟩ := h
  constructor <;> simpa only [haddr, hsize, htree, hslab]

section Cut

variable {a' : RangeAllocator} {new : List Nat} {j : Nat}

theorem Used.setPrevOf {p v : Option Nat} : (a.setPrevOf p v).Used x n ↔ a.Used x n := by
  simp [Used]

section

variable (h : Partitioned a ranges) (hi : i ∈ a.tree.toList)
include h hi

section

variable (hfree : a.isFree i = true) (hcut : Cut a a' i new j x n)
include hfree hcut

theorem Cut.partitioned : Partitioned (a'.setPrevOf (a.next i) (i :: new).getLast?) ranges := by
  have hs := hcut.outside.spliced h.toTiled hi hcut.fresh hcut.tree hcut.tiles hcut.linked
  refine h.splice hi hs (fun _ => hfree) fun k hk l hl hboth => ?_
  simp only [setPrevOf_fields] at hl hboth
  have hkj : k ≠ j := by
    rintro rfl
    rw [hcut.used] at hboth
    cases hboth.1
  rcases hcut.next k hk hkj with hnext | hnext
  · -- before the block
    cases hnext.symm.trans hl
    rw [hcut.used] at hboth
    cases hboth.2
  · -- at the end of the cut node
    rw [hnext] at hl
    have hlt := (h.of_next hi hl).1
    rw [hcut.outside.isFree l (h.fresh l hlt) (h.next_ne hi hl), h.next_used hi hfree hl] at hboth
    cases hboth.2

theorem Cut.used_iff (y m : Nat) : a'.Used y m ↔ a.Used y m ∨ (y = x ∧ m = n) := by
  have hs := hcut.outside.spliced h.toTiled hi hcut.fresh hcut.tree hcut.tiles hcut.linked
  rw [← Used.setPrevOf, hs.used_of_free hi hfree hcut.mem (by simpa using hcut.used) (by simpa using hcut.free hfree)]
  simp [hcut.addr, hcut.size]

omit h hi in
theorem Alike.cut {b : RangeAllocator} (hab : Alike a b) (h : Partitioned b ranges) (hi : i ∈ a.tree.toList) :
    ∃ b', Alike a' b' ∧ Partitioned b' ranges ∧ ∀ y m, a'.Used y m ↔ a.Used y m ∨ (y = x ∧ m = n) := by
  obtain ⟨haddr, hsize, hisFree, hnext, htree, hslab⟩ := hab
  obtain ⟨⟨haddr', -, hsize', hnext', hfree'⟩, hfresh, ⟨hbalanced, hsorted, hslots, hnodes⟩, htiles, ⟨-, hnexti, hnew⟩,
    hmem, hused, hrest, hbehind, hx, hn⟩ := hcut
  simp only [haddr, hsize, hisFree, hnext, htree, hslab]
    at haddr' hsize' hnext' hfree' hfresh hnodes htiles hnexti hnew hrest hbehind hi hfree
  -- `a'` with the back links of `b`
  let b' : RangeAllocator :=
    { a' with region := fun k => { a'.region k with prev := if k < b.slab then b.prev k else a'.prev k } }
  have hcut' : Cut b b' i new j x n := by
    refine ⟨⟨haddr', fun k hk => if_pos hk, hsize', hnext', hfree'⟩, hfresh, ⟨hbalanced, hsorted, hslots, hnodes⟩, htiles,
      ⟨if_pos (h.fresh i hi), hnexti, hnew.congr (fun k _ => rfl) fun k hk => ?_⟩, hmem, hused, hrest, hbehind, hx, hn⟩
    exact if_neg (Nat.not_lt.mpr (hfresh k hk))
  refine ⟨b'.setPrevOf (b.next i) (i :: new).getLast?, ?_, hcut'.partitioned h hi hfree, fun y m => ?_⟩
  · simp only [Alike, setPrevOf_fields]
    exact ⟨rfl, rfl, rfl, rfl, rfl, rfl⟩
  · rw [Used, Used, haddr, hsize, hisFree, htree]
    exact hcut'.used_iff h hi hfree y m

theorem Cut.partitioned_of_last (hlast : a.next i = none ∨ new = []) : Partitioned a' ranges := by
  have hpart := hcut.partitioned h hi hfree
  rcases hlast with hlast | rfl
  · rwa [hlast] at hpart
  · cases hnext : a.next i with
    | none => rwa [hnext] at hpart
    | some k =>
      have hprev : a'.prev k = some i := by
        obtain ⟨hkt, hprev, -⟩ := h.of_next hi hnext
        rw [hcut.outside.prev k (h.fresh k hkt), hprev]
      have hsame : a'.setPrevOf (some k) (some i) = a' := by
        rw [← hprev]
        exact a'.setPrev_self k
      rwa [hnext, List.getLast?_singleton, hsame] at hpart

end

theorem Cut.stale (hcut : Cut a a' i new j x n) {k : Nat} (hk : a.next i = some k) (hnew : new ≠ []) :
    k ∈ a'.tree.toList ∧ a'.prev k = some i ∧ i ∈ a'.tree.toList ∧
      ∃ l ∈ a'.tree.toList, a'.addr i < a'.addr l ∧ a'.addr l < a'.addr k := by
  obtain ⟨hkt, hprev, haddr⟩ := h.of_next hi hk
  obtain ⟨l, rest, rfl⟩ := List.exists_cons_of_ne_nil hnew
  have hmem := hcut.tree.mem
  have hpos : 0 < a'.size i := hcut.tiles.2.1
  have hladdr : a'.addr l = a.addr i + a'.size i := hcut.tiles.2.2.1
  have hlend := (hcut.tiles.mem (x := l) (by simp)).2
  refine ⟨(hmem k).mpr (by simp [hkt]), by rw [hcut.outside.prev k (h.fresh k hkt), hprev],
    (hmem i).mpr (by simp [hi]), l, (hmem l).mpr (by simp), ?_, ?_⟩
  · rw [hcut.outside.addr i (h.fresh i hi)]
    omega
  · rw [hcut.outside.addr k (h.fresh k hkt)]
    omega

end

end Cut

end RangeAllocator

end Comanche.Core
