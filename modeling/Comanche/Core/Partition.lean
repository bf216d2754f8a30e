import Comanche.Core.RangeAllocator
import Comanche.Lib.LinkedList
import Comanche.Lib.Tiling

/-!
# The partition of the managed memory

The nodes of a range allocator tile the ranges that were given to it, in the order of their links.
-/

namespace Comanche.Core

open Lib

abbrev Range : Type := Nat × Nat

def Range.Apart (r s : Range) : Prop := r.1 + r.2 ≤ s.1 ∨ s.1 + s.2 ≤ r.1

instance : Std.Symm Range.Apart := ⟨fun _ _ h => h.symm⟩

instance (r s : Range) : Decidable (Range.Apart r s) := inferInstanceAs (Decidable (_ ∨ _))

/-- A range that an allocator can be given: its bytes have addresses, and it has a size, of 64 bits. -/
def Range.Valid (r : Range) : Prop := 0 < r.2 ∧ r.2 < 2 ^ 64 ∧ r.1 + r.2 ≤ 2 ^ 64

instance (r : Range) : Decidable r.Valid := inferInstanceAs (Decidable (_ ∧ _ ∧ _))

namespace RangeAllocator

variable {a a' : RangeAllocator} {ranges : List Range} {r s : Range} {c d : List Nat} {i j : Nat}

/-- The nodes `c` tile the range `r` and are linked in this order. -/
structure Managed (a : RangeAllocator) (r : Range) (c : List Nat) : Prop where
  tiles : Tiles a.addr a.size r.1 c (r.1 + r.2)
  linked : Linked a.next a.prev none c none
  mem : ∀ i ∈ c, i ∈ a.tree.toList

structure Tiled (a : RangeAllocator) (ranges : List Range) : Prop where
  balanced : a.tree.Balanced
  sorted : AvlNode.Sorted a.addr a.tree
  fresh : ∀ i ∈ a.tree.toList, i < a.slab
  bounded : ∀ r ∈ ranges, r.Valid
  apart : ranges.Pairwise Range.Apart
  managed : ∀ r ∈ ranges, ∃ c, Managed a r c
  covered : ∀ i ∈ a.tree.toList, ∃ r ∈ ranges, ∃ c, Managed a r c ∧ i ∈ c

theorem Managed.within (h : Managed a r c) (hi : i ∈ c) :
    r.1 ≤ a.addr i ∧ 0 < a.size i ∧ a.addr i + a.size i ≤ r.1 + r.2 :=
  h.tiles.mem hi

theorem Managed.unique (hsorted : AvlNode.Sorted a.addr a.tree) (hc : Managed a r c) (hd : Managed a r d) : c = d :=
  hc.tiles.eq_of_inj hd.tiles fun i hi j hj heq => hsorted.inj (hc.mem i hi) (hd.mem j hj) heq

theorem Tiled.notMem_of_ne (h : Tiled a ranges) (hr : r ∈ ranges) (hs : s ∈ ranges) (hne : r ≠ s)
    (hc : Managed a r c) (hd : Managed a s d) (hi : i ∈ c) : i ∉ d := by
  intro hi'
  obtain ⟨hlo, hpos, hhi⟩ := hc.within hi
  obtain ⟨hlo', -, hhi'⟩ := hd.within hi'
  have hapart : Range.Apart r s := h.apart.forall hr hs hne
  unfold Range.Apart at hapart
  omega

theorem Tiled.exists_cut (h : Tiled a ranges) (hi : i ∈ a.tree.toList) :
    ∃ r ∈ ranges, ∃ pre post, Managed a r (pre ++ i :: post) := by
  obtain ⟨r, hr, c, hc, hic⟩ := h.covered i hi
  obtain ⟨pre, post, rfl⟩ := List.append_of_mem hic
  exact ⟨r, hr, pre, post, hc⟩

theorem Tiled.sum_size (h : Tiled a ranges) : (a.tree.toList.map a.size).sum = (ranges.map Prod.snd).sum := by
  choose! c hc using h.managed
  have hperm : a.tree.toList.Perm (ranges.flatMap c) := by
    refine (List.perm_ext_iff_of_nodup ?_ (List.nodup_flatMap.mpr ⟨fun r hr => (hc r hr).tiles.nodup, ?_⟩)).mpr fun i => ?_
    · exact List.Pairwise.imp (fun hlt heq => hlt.ne (congrArg a.addr heq)) h.sorted
    · refine h.apart.imp_of_mem fun hr hs hapart i hi hi' => ?_
      obtain ⟨hlo, hpos, hhi⟩ := (hc _ hr).within hi
      obtain ⟨hlo', -, hhi'⟩ := (hc _ hs).within hi'
      unfold Range.Apart at hapart
      omega
    · refine ⟨fun hi => ?_, fun hi => ?_⟩
      · obtain ⟨r, hr, d, hd, hid⟩ := h.covered i hi
        exact List.mem_flatMap.mpr ⟨r, hr, (hc r hr).unique h.sorted hd ▸ hid⟩
      · obtain ⟨r, hr, hi⟩ := List.mem_flatMap.mp hi
        exact (hc r hr).mem i hi
  rw [(hperm.map a.size).sum_eq, List.map_flatMap, List.flatMap_def, List.sum_flatten, List.map_map]
  exact congrArg List.sum (List.map_congr_left fun r hr => Nat.add_left_cancel (hc r hr).tiles.sum_size)

structure Retreed (a a' : RangeAllocator) (old new : List Nat) : Prop where
  balanced : a'.tree.Balanced
  sorted : AvlNode.Sorted a'.addr a'.tree
  fresh : ∀ j ∈ a'.tree.toList, j < a'.slab
  mem : ∀ j, j ∈ a'.tree.toList ↔ (j ∈ a.tree.toList ∧ j ∉ old) ∨ j ∈ new

/-- From the node `i` on, up to the node `behind`, the nodes `old` are replaced by `new`, which cover the
same bytes. Of the other nodes only `behind` has a field changed. -/
structure Spliced (a a' : RangeAllocator) (i : Nat) (old new : List Nat) (behind : Option Nat) :
    Prop where
  addr : ∀ j ∈ a.tree.toList, a'.addr j = a.addr j
  size : ∀ j ∈ a.tree.toList, j ≠ i → a'.size j = a.size j
  next : ∀ j ∈ a.tree.toList, j ≠ i → a'.next j = a.next j
  prev : ∀ j ∈ a.tree.toList, j ≠ i → behind ≠ some j → a'.prev j = a.prev j
  isFree : ∀ j ∈ a.tree.toList, j ≠ i → a'.isFree j = a.isFree j
  tree : Retreed a a' old new
  tiles : ∃ stop, Tiles a.addr a.size (a.addr i) (i :: old) stop ∧
    Tiles a'.addr a'.size (a.addr i) (i :: new) stop
  linkedOld : Linked a.next a.prev (a.prev i) (i :: old) behind
  linked : Linked a'.next a'.prev (a.prev i) (i :: new) behind
  back : ∀ j, behind = some j → a'.prev j = (i :: new).getLast?

section

variable (h : Tiled a ranges) (hi : i ∈ a.tree.toList)
include h hi

theorem Tiled.splice {old new : List Nat} {behind : Option Nat} (hs : Spliced a a' i old new behind) : Tiled a' ranges := by
  obtain ⟨haddr, hsize, hnext, hprev, -, htree, ⟨stop, hold, hnew⟩, hlinkedOld, hlinked, hback⟩ := hs
  obtain ⟨r, hr, pre, rest, hc⟩ := h.exists_cut hi
  obtain ⟨-, hprevi, hnexti, hrest⟩ := linked_append_cons.mp hc.linked
  obtain ⟨post, rfl, rfl⟩ := Linked.exists_append (linked_cons.mpr ⟨hprevi, hnexti, hrest⟩) hlinkedOld
  rw [Option.or_none] at hprevi
  have hnodup : (pre ++ i :: (old ++ post)).Nodup := hc.tiles.nodup
  have hpre : ∀ j ∈ pre, j ∈ a.tree.toList ∧ j ≠ i ∧ post.head? ≠ some j ∧ j ∉ old := by
    intro j hj
    have hdisj : j ∉ i :: (old ++ post) := List.disjoint_of_nodup_append hnodup hj
    simp only [List.mem_cons, List.mem_append, not_or] at hdisj
    exact ⟨hc.mem j (by simp [hj]), hdisj.1, fun hhead => hdisj.2.2 (List.mem_of_head? hhead), hdisj.2.1⟩
  have hnodup' : (i :: (old ++ post)).Nodup := (List.nodup_append.mp hnodup).2.1
  have hpost : ∀ j ∈ post, j ∈ a.tree.toList ∧ j ≠ i ∧ j ∉ old := by
    intro j hj
    refine ⟨hc.mem j (by simp [hj]), ?_, fun hold => ?_⟩
    · rintro rfl
      exact (List.nodup_cons.mp hnodup').1 (by simp [hj])
    · exact List.disjoint_of_nodup_append (List.nodup_cons.mp hnodup').2 hold hj
  have hpostNodup : post.Nodup := (List.nodup_append.mp (List.nodup_cons.mp hnodup').2).2.1
  have hiold : i ∉ old := fun hold => (List.nodup_cons.mp hnodup').1 (by simp [hold])
  have hc' : Managed a' r (pre ++ i :: (new ++ post)) := by
    refine ⟨hc.tiles.replace hold hnew fun j hj => ?_, ?_, fun j hj => ?_⟩
    · rcases List.mem_append.mp hj with hj | hj
      · exact ⟨haddr j (hpre j hj).1, hsize j (hpre j hj).1 (hpre j hj).2.1⟩
      · exact ⟨haddr j (hpost j hj).1, hsize j (hpost j hj).1 (hpost j hj).2.1⟩
    · refine hc.linked.replace (by simpa [hprevi] using hlinked) (fun j hj => hnext j (hpre j hj).1 (hpre j hj).2.1)
        (fun j hj => hprev j (hpre j hj).1 (hpre j hj).2.1 (hpre j hj).2.2.1)
        (fun j hj => hnext j (hpost j hj).1 (hpost j hj).2.1) (fun j hj => ?_) hback
      have hjp : j ∈ post := List.mem_of_mem_tail hj
      refine hprev j (hpost j hjp).1 (hpost j hjp).2.1 fun hhead => ?_
      -- the first node behind occurs only once
      cases post with
      | nil => cases hhead
      | cons k post =>
        cases hhead
        exact (List.nodup_cons.mp hpostNodup).1 hj
    · rw [htree.mem]
      simp only [List.mem_append, List.mem_cons] at hj
      rcases hj with hj | rfl | hj | hj
      · exact Or.inl ⟨(hpre j hj).1, (hpre j hj).2.2.2⟩
      · exact Or.inl ⟨hi, hiold⟩
      · exact Or.inr hj
      · exact Or.inl ⟨(hpost j hj).1, (hpost j hj).2.2⟩
  -- another range has none of the changed nodes
  have hother : ∀ s ∈ ranges, r ≠ s → ∀ d, Managed a s d → Managed a' s d := by
    intro s hs hne d hd
    have hout : ∀ j ∈ d, j ∉ pre ++ i :: (old ++ post) :=
      fun j hj hjc => h.notMem_of_ne hr hs hne hc hd hjc hj
    simp only [List.mem_append, List.mem_cons, not_or] at hout
    refine ⟨hd.tiles.congr (fun j hj => haddr j (hd.mem j hj)) (fun j hj => hsize j (hd.mem j hj) (hout j hj).2.1),
      hd.linked.congr (fun j hj => hnext j (hd.mem j hj) (hout j hj).2.1)
        (fun j hj => hprev j (hd.mem j hj) (hout j hj).2.1 fun hhead =>
          (hout j hj).2.2.2 (List.mem_of_head? hhead)), fun j hj => ?_⟩
    rw [htree.mem]
    exact Or.inl ⟨hd.mem j hj, (hout j hj).2.2.1⟩
  refine ⟨htree.balanced, htree.sorted, htree.fresh, h.bounded, h.apart, fun s hs => ?_, fun j hj => ?_⟩
  · by_cases hne : r = s
    · exact ⟨_, hne ▸ hc'⟩
    · obtain ⟨d, hd⟩ := h.managed s hs
      exact ⟨d, hother s hs hne d hd⟩
  · rw [htree.mem] at hj
    rcases hj with ⟨hj, hjold⟩ | hj
    · obtain ⟨s, hs, d, hd, hjd⟩ := h.covered j hj
      by_cases hne : r = s
      · subst hne
        have heq := hc.unique h.sorted hd
        refine ⟨r, hr, _, hc', ?_⟩
        rw [← heq] at hjd
        simp only [List.mem_append, List.mem_cons] at hjd ⊢
        tauto
      · exact ⟨s, hs, d, hother s hs hne d hd, hjd⟩
    · exact ⟨r, hr, _, hc', by simp [hj]⟩

theorem Tiled.of_next (hj : a.next i = some j) :
    j ∈ a.tree.toList ∧ a.prev j = some i ∧ a.addr j = a.addr i + a.size i := by
  obtain ⟨r, hr, pre, post, hc⟩ := h.exists_cut hi
  obtain ⟨-, -, hnext, hpost⟩ := linked_append_cons.mp hc.linked
  obtain ⟨-, -, htiles⟩ := tiles_append_cons.mp hc.tiles
  rw [hj, Option.or_none] at hnext
  cases post with
  | nil => cases hnext
  | cons k post =>
    cases hnext
    exact ⟨hc.mem j (by simp), hpost.1, htiles.1⟩

theorem Tiled.of_prev (hj : a.prev i = some j) :
    j ∈ a.tree.toList ∧ a.next j = some i ∧ a.addr i = a.addr j + a.size j := by
  obtain ⟨r, hr, pre, post, hc⟩ := h.exists_cut hi
  obtain ⟨-, hprev, -, -⟩ := linked_append_cons.mp hc.linked
  rw [hj, Option.or_none] at hprev
  rcases List.eq_nil_or_concat pre with rfl | ⟨pre, k, rfl⟩
  · cases hprev
  · simp only [List.concat_eq_append, List.getLast?_append, List.getLast?_singleton, Option.some_or,
      Option.some.injEq] at hprev
    subst hprev
    rw [List.concat_eq_append, List.append_assoc, List.singleton_append] at hc
    obtain ⟨-, -, hnext, -⟩ := linked_append_cons.mp hc.linked
    obtain ⟨-, -, htiles⟩ := tiles_append_cons.mp hc.tiles
    exact ⟨hc.mem j (by simp), hnext, htiles.1⟩

theorem Tiled.size_pos : 0 < a.size i := by
  obtain ⟨r, -, c, hc, hic⟩ := h.covered i hi
  exact (hc.within hic).2.1

theorem Tiled.bound : a.size i < 2 ^ 64 ∧ a.addr i + a.size i ≤ 2 ^ 64 := by
  obtain ⟨r, hr, c, hc, hic⟩ := h.covered i hi
  obtain ⟨-, hr2, hend⟩ := h.bounded r hr
  have hwithin := hc.within hic
  omega

theorem Tiled.next_ne (hj : a.next i = some j) : j ≠ i := by
  rintro rfl
  have haddr := (h.of_next hi hj).2.2
  have hpos := h.size_pos hi
  omega

theorem Tiled.disjoint (hj : j ∈ a.tree.toList)
    (hne : i ≠ j) : a.addr i + a.size i ≤ a.addr j ∨ a.addr j + a.size j ≤ a.addr i := by
  obtain ⟨r, hr, c, hc, hic⟩ := h.covered i hi
  obtain ⟨s, hs, d, hd, hjd⟩ := h.covered j hj
  by_cases hrs : r = s
  · subst hrs
    have heq := hc.unique h.sorted hd
    subst heq
    by_contra hno
    have hposi := h.size_pos hi
    have hposj := h.size_pos hj
    -- the larger of the two starts would lie in both
    exact hne (hc.tiles.unique (n := max (a.addr i) (a.addr j)) hic hjd (by omega) (by omega))
  · have hapart : Range.Apart r s := h.apart.forall hr hs hrs
    have hini := hc.within hic
    have hinj := hd.within hjd
    unfold Range.Apart at hapart
    omega

end

structure Laid (a : RangeAllocator) : Prop where
  balanced : a.tree.Balanced
  sorted : AvlNode.Sorted a.addr a.tree
  fresh : ∀ i ∈ a.tree.toList, i < a.slab
  size_pos : ∀ i ∈ a.tree.toList, 0 < a.size i
  bound : ∀ i ∈ a.tree.toList, a.size i < 2 ^ 64 ∧ a.addr i + a.size i ≤ 2 ^ 64
  disjoint : ∀ i ∈ a.tree.toList, ∀ j ∈ a.tree.toList, i ≠ j →
    a.addr i + a.size i ≤ a.addr j ∨ a.addr j + a.size j ≤ a.addr i

theorem Tiled.laid (h : Tiled a ranges) : Laid a :=
  ⟨h.balanced, h.sorted, h.fresh, fun _ => h.size_pos, fun _ => h.bound, fun _ hi _ hj hne => h.disjoint hi hj hne⟩

@[simp] theorem mk_fields (a : RangeAllocator) (t : AvlNode Nat) (n : Nat) :
    (RangeAllocator.mk a.region t n).addr = a.addr ∧ (RangeAllocator.mk a.region t n).size = a.size ∧
      (RangeAllocator.mk a.region t n).isFree = a.isFree ∧ (RangeAllocator.mk a.region t n).next = a.next ∧
      (RangeAllocator.mk a.region t n).prev = a.prev := ⟨rfl, rfl, rfl, rfl, rfl⟩

theorem insertNode_spec (hbal : a.tree.Balanced) (hsorted : AvlNode.Sorted a.addr a.tree)
    (hnew : ∀ j ∈ a.tree.toList, a.addr j ≠ a.addr i) :
    ∃ t, a.insertNode i = .ok { a with tree := t } ∧ t.Balanced ∧ AvlNode.Sorted a.addr t ∧
      ∀ j, j ∈ t.toList ↔ j ∈ a.tree.toList ∨ j = i := by
  obtain ⟨t, c, heq, hgrown, hsorted', hperm⟩ := AvlNode.insert_perm hbal hsorted hnew
  refine ⟨t, by simp [insertNode, heq, bind, Except.bind, pure, Except.pure], hgrown.balanced, hsorted', fun j => ?_⟩
  rw [hperm.mem_iff, List.mem_cons, or_comm]

theorem removeNode_spec (hbal : a.tree.Balanced) (hsorted : AvlNode.Sorted a.addr a.tree) (hi : i ∈ a.tree.toList) :
    ∃ t, a.removeNode i = .ok { a with tree := t } ∧ t.Balanced ∧ AvlNode.Sorted a.addr t ∧
      ∀ j, j ∈ t.toList ↔ j ∈ a.tree.toList ∧ j ≠ i := by
  obtain ⟨t, c, heq, hshrunk, hsorted', hperm⟩ := AvlNode.remove_perm hbal hsorted hi rfl
  refine ⟨t, by simp [removeNode, heq, bind, Except.bind, pure, Except.pure], hshrunk.balanced, hsorted', fun j => ?_⟩
  have hout := hsorted.notMem_of_perm hperm
  rw [hperm.mem_iff, List.mem_cons]
  refine ⟨fun hj => ⟨Or.inr hj, fun heq => hout (heq ▸ hj)⟩, fun ⟨hj, hne⟩ => hj.resolve_left hne⟩

structure Partitioned (a : RangeAllocator) (ranges : List Range) : Prop extends Tiled a ranges where
  merged : ∀ i ∈ a.tree.toList, ∀ j, a.next i = some j → ¬(a.isFree i = true ∧ a.isFree j = true)

def Used (a : RangeAllocator) (x n : Nat) : Prop :=
  ∃ i ∈ a.tree.toList, a.isFree i = false ∧ a.addr i = x ∧ a.size i = n

section Splice

variable {old new : List Nat} {behind : Option Nat}

theorem Spliced.notMem_old (hs : Spliced a a' i old new behind) : i ∉ old := by
  obtain ⟨stop, hold, -⟩ := hs.tiles
  exact (List.nodup_cons.mp hold.nodup).1

theorem Spliced.self_mem (hs : Spliced a a' i old new behind) (hi : i ∈ a.tree.toList) : i ∈ a'.tree.toList :=
  (hs.tree.mem i).mpr (Or.inl ⟨hi, hs.notMem_old⟩)

theorem Partitioned.splice (h : Partitioned a ranges) (hi : i ∈ a.tree.toList)
    (hs : Spliced a a' i old new behind) (hfree : a'.isFree i = true → a.isFree i = true)
    (hmerged : ∀ j ∈ i :: new, ∀ k, a'.next j = some k →
      ¬(a'.isFree j = true ∧ a'.isFree k = true)) : Partitioned a' ranges := by
  refine ⟨h.toTiled.splice hi hs, fun j hj k hk => ?_⟩
  by_cases hjn : j ∈ i :: new
  · exact hmerged j hjn k hk
  · rw [List.mem_cons, not_or] at hjn
    have hjt : j ∈ a.tree.toList := ((hs.tree.mem j).mp hj).resolve_right hjn.2 |>.1
    rw [hs.next j hjt hjn.1] at hk
    have hkt := (h.of_next hjt hk).1
    rintro ⟨hfj, hfk⟩
    rw [hs.isFree j hjt hjn.1] at hfj
    refine h.merged j hjt k hk ⟨hfj, ?_⟩
    by_cases hki : k = i
    · subst hki
      exact hfree hfk
    · rwa [hs.isFree k hkt hki] at hfk

theorem Spliced.used_iff (hs : Spliced a a' i old new behind) (hi : i ∈ a.tree.toList) {x n : Nat} : a'.Used x n ↔
      (∃ j ∈ i :: new, a'.isFree j = false ∧ a'.addr j = x ∧ a'.size j = n) ∨
      ∃ j ∈ a.tree.toList, j ∉ i :: old ∧ a.isFree j = false ∧ a.addr j = x ∧ a.size j = n := by
  constructor
  · rintro ⟨j, hj, hfields⟩
    by_cases hjn : j ∈ i :: new
    · exact Or.inl ⟨j, hjn, hfields⟩
    · rw [List.mem_cons, not_or] at hjn
      obtain ⟨hjt, hjold⟩ := ((hs.tree.mem j).mp hj).resolve_right hjn.2
      rw [hs.isFree j hjt hjn.1, hs.addr j hjt, hs.size j hjt hjn.1] at hfields
      exact Or.inr ⟨j, hjt, by simp [hjn.1, hjold], hfields⟩
  · rintro (⟨j, hj, hfields⟩ | ⟨j, hjt, hjn, hfields⟩)
    · refine ⟨j, (hs.tree.mem j).mpr ?_, hfields⟩
      rcases List.mem_cons.mp hj with rfl | hj
      · exact Or.inl ⟨hi, hs.notMem_old⟩
      · exact Or.inr hj
    · rw [List.mem_cons, not_or] at hjn
      refine ⟨j, (hs.tree.mem j).mpr (Or.inl ⟨hjt, hjn.2⟩), ?_⟩
      rwa [hs.isFree j hjt hjn.1, hs.addr j hjt, hs.size j hjt hjn.1]

end Splice

end RangeAllocator

end Comanche.Core
