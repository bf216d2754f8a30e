import Comanche.Core.Partition

/-!
# The operations keep the partition

Each operation of the range allocator is a splice of one range (`Spliced`).
-/

namespace Comanche.Core

open Lib

namespace RangeAllocator

variable {a b : RangeAllocator} {ranges : List Range} {i j n size alignment : Nat}

theorem Laid.retreed (h : Laid a) (htree : b.tree = a.tree) (hslab : a.slab ≤ b.slab)
    (haddr : ∀ j ∈ a.tree.toList, b.addr j = a.addr j) : Retreed a b [] [] := by
  refine ⟨htree ▸ h.balanced, htree ▸ h.sorted.congr haddr, fun j hj => ?_, by simp [htree]⟩
  rw [htree] at hj
  exact (h.fresh j hj).trans_le hslab

theorem Retreed.insertNode {old new : List Nat} (hb : Retreed a b old new) (hn : n < b.slab)
    (hnew : ∀ j ∈ b.tree.toList, b.addr j ≠ b.addr n) : ∃ t, b.insertNode n = .ok { b with tree := t } ∧
      Retreed a { b with tree := t } old (new ++ [n]) := by
  obtain ⟨t, heq, hbal, hsorted, hmem⟩ := insertNode_spec hb.balanced hb.sorted hnew
  refine ⟨t, heq, hbal, hsorted, fun j hj => ?_, fun j => ?_⟩
  · rcases (hmem j).mp hj with hj | rfl
    · exact hb.fresh j hj
    · exact hn
  · rw [hmem j, hb.mem j, List.mem_append, List.mem_singleton, or_assoc]

theorem Laid.insertSlab (h : Laid a) (htree : b.tree = a.tree) (hslab : a.slab < b.slab)
    (haddr : ∀ j ∈ a.tree.toList, b.addr j = a.addr j) (hnew : ∀ j ∈ a.tree.toList, a.addr j ≠ b.addr a.slab) :
    ∃ t, b.insertNode a.slab = .ok { b with tree := t } ∧ Retreed a { b with tree := t } [] [a.slab] :=
  (h.retreed htree hslab.le haddr).insertNode hslab fun j hj => by
    rw [htree] at hj
    exact haddr j hj ▸ hnew j hj

theorem Laid.addr_ne (h : Laid a) (hi : i ∈ a.tree.toList) (hj : j ∈ a.tree.toList)
    {x : Nat} (hlo : a.addr i < x) (hhi : x < a.addr i + a.size i) : a.addr j ≠ x := by
  intro heq
  by_cases hji : i = j
  · subst hji
    omega
  · have hdisj := h.disjoint i hi j hj hji
    have hpos := h.size_pos j hj
    omega

theorem Laid.ne_slab (h : Laid a) (hj : j ∈ a.tree.toList) : j ≠ a.slab :=
  Nat.ne_of_lt (h.fresh j hj)

theorem Laid.ne_slab_succ (h : Laid a) (hj : j ∈ a.tree.toList) : j ≠ a.slab + 1 :=
  Nat.ne_of_lt ((h.fresh j hj).trans (Nat.lt_succ_self _))

theorem allocFront_spec (h : Tiled a ranges) (hi : i ∈ a.tree.toList) (hpos : 0 < size) (hlt : size < a.size i) :
    ∃ a', a.allocFront i size = .ok (i, a') ∧ Spliced a a' i [] [a.slab] (a.next i) ∧
      a'.size i = size ∧ a'.isFree i = false ∧ a'.isFree a.slab = true := by
  obtain ⟨hsz, hend⟩ := h.bound hi
  have hadd : add64 (a.addr i) size = a.addr i + size := add64_of_lt (by omega)
  have hsub : sub64 (a.size i) size = a.size i - size := sub64_of_le hlt.le hsz
  have hne : i ≠ a.slab := h.laid.ne_slab hi
  unfold allocFront
  rw [if_neg (Nat.ne_of_gt hlt), hadd, hsub]
  simp only [setFree_fields, setSize_fields, allocNode_fields, Function.update_of_ne hne]
  obtain ⟨t, heq, htree⟩ := h.laid.insertSlab (b := (((((((a.allocNode (a.addr i + size)
      (a.size i - size)).setSize i size).setFree i false).setNext i (some a.slab)).setPrev a.slab
      (some i)).setNext a.slab (a.next i)).setFree a.slab true).setPrevOf (a.next i) (some a.slab))
    (by simp) (by simp) (fun j hj => by simp [h.laid.ne_slab hj])
    (fun j hj => by simpa using h.laid.addr_ne hi hj (x := a.addr i + size) (by omega) (by omega))
  refine ⟨_, by rw [heq]; rfl, ⟨fun j hj => ?_, fun j hj hji => ?_, fun j hj hji => ?_,
    fun j hj hji hjn => ?_, fun j hj hji => ?_, htree, ⟨a.addr i + a.size i, ?_, ?_⟩, ?_, ?_,
    fun j hj => ?_⟩, ?_, ?_, ?_⟩
  · simp [h.laid.ne_slab hj]
  · simp [h.laid.ne_slab hj, hji]
  · simp [h.laid.ne_slab hj, hji]
  · simp [setPrevOf_prev, h.laid.ne_slab hj, hjn]
  · simp [h.laid.ne_slab hj, hji]
  · simp [h.size_pos hi]
  · simp [hne, hne.symm, hpos]
    omega
  · simp
  · have hn : a.next i ≠ some a.slab := fun hn => h.laid.ne_slab (h.of_next hi hn).1 rfl
    have hn' : a.next i ≠ some i := fun hn => h.next_ne hi hn rfl
    simp [linked_cons, setPrevOf_prev, hne, hn, hn']
  · simp [setPrevOf_prev, hj]
  · simp
  · simp [hne]
  · simp

theorem allocSplit_spec (h : Tiled a ranges) (hi : i ∈ a.tree.toList) (hpos : 0 < size)
    (hpositive : 0 < alignment) (hsize : size + alignment ≤ a.size i) (hbase : a.addr i % alignment ≠ 0) :
    ∃ a', a.allocSplit i size alignment = .ok (a.slab, a') ∧ Spliced a a' i [] [a.slab, a.slab + 1] (a.next i) ∧
      a'.isFree i = a.isFree i ∧ a'.isFree a.slab = false ∧ a'.isFree (a.slab + 1) = true ∧
      a'.size a.slab = size ∧ a'.addr a.slab % alignment = 0 ∧ a.addr i ≤ a'.addr a.slab ∧
      a'.addr a.slab + size ≤ a.addr i + a.size i := by
  obtain ⟨hsz, hend⟩ := h.bound hi
  have hne : i ≠ a.slab := h.laid.ne_slab hi
  have hne' : i ≠ a.slab + 1 := h.laid.ne_slab_succ hi
  -- the first multiple of the alignment behind the start of the block
  obtain ⟨left, hleft, hleftlt, hround, haligned⟩ :=
    roundUp_spec hpositive hbase (by omega)
  have hl : sub64 (a.addr i + left) (a.addr i) = left := by
    rw [sub64_of_le (by omega) (by omega), Nat.add_sub_cancel_left]
  have hc : add64 (a.addr i) left = a.addr i + left := add64_of_lt (by omega)
  have hr : add64 (a.addr i + left) size = a.addr i + left + size := add64_of_lt (by omega)
  have hrs : sub64 (sub64 (a.size i) left) size = a.size i - left - size := by
    rw [sub64_of_le (by omega) hsz, sub64_of_le (by omega) (by omega)]
  unfold allocSplit
  simp only [hround, hl, hc, hr, hrs]
  rw [if_neg (by omega)]
  obtain ⟨t, heq, htree⟩ := h.laid.insertSlab (b := (((((((((((a.allocNode (a.addr i + left) size).allocNode
      (a.addr i + left + size) (a.size i - left - size)).setSize i left).setNext i
      (some a.slab)).setPrev a.slab (some i)).setFree a.slab false).setNext a.slab
      (some (a.slab + 1))).setPrev (a.slab + 1) (some a.slab)).setNext (a.slab + 1)
      (a.next i)).setPrevOf (a.next i) (some (a.slab + 1)))))
    (by simp) (by simp) (fun j hj => by simp [h.laid.ne_slab hj, h.laid.ne_slab_succ hj])
    (fun j hj => by simpa using h.laid.addr_ne hi hj (x := a.addr i + left) (by omega) (by omega))
  obtain ⟨t', heq', htree⟩ := htree.insertNode (n := a.slab + 1) (by simp) (fun j hj => by
    rcases (htree.mem j).mp hj with hj | hj
    · simpa [h.laid.ne_slab hj.1, h.laid.ne_slab_succ hj.1] using
        h.laid.addr_ne hi hj.1 (x := a.addr i + left + size) (by omega) (by omega)
    · have hj' : j = a.slab := by simpa using hj
      subst hj'
      simp [hpos.ne'])
  refine ⟨_, by rw [heq]; simp only [bind, Except.bind]; rw [heq']; rfl,
    ⟨fun j hj => ?_, fun j hj hji => ?_, fun j hj hji => ?_,
    fun j hj hji hjn => ?_, fun j hj hji => ?_, htree, ⟨a.addr i + a.size i, ?_, ?_⟩, ?_, ?_,
    fun j hj => ?_⟩, ?_⟩
  · simp [h.laid.ne_slab hj, h.laid.ne_slab_succ hj]
  · simp [h.laid.ne_slab hj, h.laid.ne_slab_succ hj, hji]
  · simp [h.laid.ne_slab hj, h.laid.ne_slab_succ hj, hji]
  · simp [setPrevOf_prev, h.laid.ne_slab hj, h.laid.ne_slab_succ hj, hjn]
  · simp [h.laid.ne_slab hj, h.laid.ne_slab_succ hj]
  · simp [h.size_pos hi]
  · simp [hne, hne.symm, hne', hne'.symm, hpos, hleft]
    omega
  · simp
  · have hn : a.next i ≠ some a.slab := fun hn => h.laid.ne_slab (h.of_next hi hn).1 rfl
    have hn' : a.next i ≠ some (a.slab + 1) := fun hn => h.laid.ne_slab_succ (h.of_next hi hn).1 rfl
    have hn'' : a.next i ≠ some i := fun hn => h.next_ne hi hn rfl
    simp [linked_cons, setPrevOf_prev, hne, hne', hn, hn', hn'']
  · simp [setPrevOf_prev, hj]
  · simp [hne, hne.symm, hne', haligned]
    omega

theorem Tiled.size_add_lt (h : Tiled a ranges) (hi : i ∈ a.tree.toList) (hj : a.next i = some j) :
    a.size i + a.size j < 2 ^ 64 := by
  have haddr := (h.of_next hi hj).2.2
  obtain ⟨r, hr, c, hc, hic⟩ := h.covered i hi
  have hjc : j ∈ c := (hc.linked.next_mem hic hj).resolve_right (by simp)
  have hini := hc.within hic
  have hinj := hc.within hjc
  obtain ⟨-, hr2, -⟩ := h.bounded r hr
  omega

theorem absorb_spec (h : Tiled a ranges) (hi : i ∈ a.tree.toList) (hj : a.next i = some j) :
    ∃ a', a.absorb i j = .ok a' ∧ Spliced a a' i [j] [] (a.next j) ∧ a'.isFree = a.isFree := by
  obtain ⟨hjt, hprev, haddr⟩ := h.of_next hi hj
  have hne : j ≠ i := h.next_ne hi hj
  have hposi := h.size_pos hi
  have hposj := h.size_pos hjt
  have hadd := add64_of_lt (h.size_add_lt hi hj)
  unfold absorb
  simp only [setSize_fields, setNext_fields, Function.update_of_ne hne, hadd]
  obtain ⟨t, heq, hbal, hsorted, hmem⟩ := removeNode_spec (i := j)
    (a := ((a.setSize i (a.size i + a.size j)).setNext i (a.next j)).setPrevOf (a.next j) (some i))
    (by simpa using h.balanced) (by simpa using h.sorted) (by simpa using hjt)
  have htree : ∀ k, k ∈ t.toList ↔ k ∈ a.tree.toList ∧ k ≠ j := by simpa using hmem
  refine ⟨_, heq, ⟨fun k hk => ?_, fun k hk hki => ?_, fun k hk hki => ?_, fun k hk hki hkn => ?_,
    fun k hk hki => ?_, ⟨hbal, hsorted, fun k hk => ?_, fun k => ?_⟩,
    ⟨a.addr i + a.size i + a.size j, ?_, ?_⟩, ?_, ?_, fun k hk => ?_⟩, ?_⟩
  · simp
  · simp [hki]
  · simp [hki]
  · simp [setPrevOf_prev, hkn]
  · simp
  · simpa using h.fresh k ((htree k).mp hk).1
  · simpa using htree k
  · simp [hposi, hposj, haddr]
  · simp [hposi, Nat.add_assoc]
  · simp [linked_cons, hj, hprev]
  · have hn : a.next j ≠ some i := by
      intro hn
      have haddr' := (h.of_next hjt hn).2.2
      omega
    simp [setPrevOf_prev, hn]
  · simp [setPrevOf_prev, hk]
  · simp

theorem Tiled.setFree (h : Tiled a ranges) (i : Nat) (f : Bool) : Tiled (a.setFree i f) ranges := by
  have hmanaged : ∀ r c, Managed a r c → Managed (a.setFree i f) r c := fun r c hc =>
    ⟨by simpa using hc.tiles, by simpa using hc.linked, by simpa using hc.mem⟩
  refine ⟨by simpa using h.balanced, by simpa using h.sorted, by simpa using h.fresh, h.bounded,
    h.apart, fun r hr => ?_, fun j hj => ?_⟩
  · obtain ⟨c, hc⟩ := h.managed r hr
    exact ⟨c, hmanaged r c hc⟩
  · rw [(a.setFree_fields i f).2.2.2.2.2.1] at hj
    obtain ⟨r, hr, c, hc, hjc⟩ := h.covered j hj
    exact ⟨r, hr, c, hmanaged r c hc, hjc⟩

def Merged (a : RangeAllocator) (P : Nat → Nat → Prop) : Prop :=
  ∀ i ∈ a.tree.toList, ∀ j, a.next i = some j → P i j → ¬(a.isFree i = true ∧ a.isFree j = true)

section

variable (h : Tiled a ranges) (hi : i ∈ a.tree.toList)
include h hi

theorem absorb_free (hj : a.next i = some j)
    (hfreei : a.isFree i = true) (hfreej : a.isFree j = true) {P Q : Nat → Nat → Prop}
    (hmerged : Merged a P) (hbehind : ∀ k, k ≠ i → k ≠ j → P j k) (hother : ∀ k l, k ≠ i → l ≠ j → Q k l → P k l) :
    ∃ a', a.absorb i j = .ok a' ∧ Tiled a' ranges ∧ i ∈ a'.tree.toList ∧ a'.isFree i = true ∧
      Merged a' Q ∧ ∀ x n, a'.Used x n ↔ a.Used x n := by
  obtain ⟨hjt, -, haddr⟩ := h.of_next hi hj
  obtain ⟨a', heq, hs, hfree⟩ := absorb_spec h hi hj
  refine ⟨a', heq, h.splice hi hs, hs.self_mem hi, hfree ▸ hfreei, fun k hk l hl hQ => ?_, fun x n => ?_⟩
  · rw [hfree]
    obtain ⟨hkt, hkj⟩ := ((hs.tree.mem k).mp hk).resolve_right List.not_mem_nil
    rw [List.mem_singleton] at hkj
    by_cases hki : k = i
    · -- what follows `i` now has followed `j`
      have hnext : a'.next i = a.next j := by simpa using hs.linked.2.1
      rw [hki, hnext] at hl
      rintro ⟨-, hfreel⟩
      refine hmerged j hjt l hl (hbehind l ?_ (h.next_ne hjt hl)) ⟨hfreej, hfreel⟩
      rintro rfl
      have haddr' := (h.of_next hjt hl).2.2
      have hpos := h.size_pos hjt
      omega
    · rw [hs.next k hkt hki] at hl
      refine hmerged k hkt l hl (hother k l hki ?_ hQ)
      rintro rfl
      have hprev := (h.of_next hkt hl).2.1
      rw [(h.of_next hi hj).2.1] at hprev
      exact hki (Option.some.inj hprev).symm
  · rw [hs.used_iff hi]
    constructor
    · rintro (⟨k, hk, hused, -⟩ | ⟨k, hk, -, hused⟩)
      · rw [List.mem_singleton] at hk
        rw [hk, hfree, hfreei] at hused
        cases hused
      · exact ⟨k, hk, hused⟩
    · rintro ⟨k, hk, hused⟩
      refine Or.inr ⟨k, hk, ?_, hused⟩
      intro hmem
      rcases List.mem_cons.mp hmem with rfl | hmem
      · rw [hfreei] at hused
        cases hused.1
      · rw [List.mem_singleton.mp hmem, hfreej] at hused
        cases hused.1

theorem coalesceRight_spec (hfree : a.isFree i = true) (hmerged : Merged a fun j k => j ≠ i ∧ k ≠ i) :
    ∃ a', a.coalesceRight i = .ok a' ∧ Tiled a' ranges ∧ i ∈ a'.tree.toList ∧
      a'.isFree i = true ∧ (Merged a' fun _ k => k ≠ i) ∧ ∀ x n, a'.Used x n ↔ a.Used x n := by
  unfold coalesceRight
  cases hnext : a.next i with
  | none =>
    refine ⟨a, rfl, h, hi, hfree, fun j hj k hk hne => ?_, fun x n => Iff.rfl⟩
    refine hmerged j hj k hk ⟨?_, hne⟩
    rintro rfl
    cases hnext.symm.trans hk
  | some right =>
    simp only
    split
    case isTrue hright =>
      exact absorb_free h hi hnext hfree hright hmerged (fun k hk _ => ⟨h.next_ne hi hnext, hk⟩) fun k l hk _ hl => ⟨hk, hl⟩
    case isFalse hright =>
      refine ⟨a, rfl, h, hi, hfree, fun j hj k hk hne => ?_, fun x n => Iff.rfl⟩
      by_cases hji : j = i
      · rw [hji, hnext] at hk
        cases hk
        exact fun hboth => hright hboth.2
      · exact hmerged j hj k hk ⟨hji, hne⟩

theorem coalesceLeft_spec (hfree : a.isFree i = true) (hmerged : Merged a fun _ k => k ≠ i) :
    ∃ a', a.coalesceLeft i = .ok a' ∧ Partitioned a' ranges ∧ ∀ x n, a'.Used x n ↔ a.Used x n := by
  unfold coalesceLeft
  cases hprev : a.prev i with
  | none =>
    refine ⟨a, rfl, ⟨h, fun j hj k hk => hmerged j hj k hk ?_⟩, fun x n => Iff.rfl⟩
    rintro rfl
    cases hprev.symm.trans (h.of_next hj hk).2.1
  | some left =>
    obtain ⟨hleft, hnext, -⟩ := h.of_prev hi hprev
    simp only
    split
    case isTrue hfreel =>
      obtain ⟨a', heq, htiled, -, -, hall, hused⟩ := absorb_free h hleft hnext hfreel hfree (Q := fun _ _ => True) hmerged
        (fun k _ hk => hk) fun k l _ hl _ => hl
      exact ⟨a', heq, ⟨htiled, fun j hj k hk => hall j hj k hk trivial⟩, hused⟩
    case isFalse hfreel =>
      refine ⟨a, rfl, ⟨h, fun j hj k hk => ?_⟩, fun x n => Iff.rfl⟩
      by_cases hki : k = i
      · rw [hki] at hk
        have hj' := (h.of_next hj hk).2.1
        rw [hprev] at hj'
        cases hj'
        exact fun hboth => hfreel hboth.1
      · exact hmerged j hj k hk hki

end

theorem find_eq_none (hno : ∀ i ∈ a.tree.toList, a.addr i ≠ n) : a.find n = none := by
  cases hfind : a.find n with
  | none => rfl
  | some i =>
    obtain ⟨hi, heq⟩ := AvlNode.search_eq_some hfind
    exact absurd (by simpa using heq) (hno i hi)

theorem find_eq_some (hsorted : AvlNode.Sorted a.addr a.tree) (hi : i ∈ a.tree.toList) :
    a.find (a.addr i) = some i := by
  cases hfind : a.find (a.addr i) with
  | none => simpa using AvlNode.search_eq_none hfind i hi
  | some j =>
    obtain ⟨hj, heq⟩ := AvlNode.search_eq_some hfind
    rw [hsorted.inj hj hi (by simpa using heq)]

theorem free_spec (h : Partitioned a ranges) (hi : i ∈ a.tree.toList) :
    ∃ a', a.free (a.addr i) = .ok (a.size i, a') ∧ Partitioned a' ranges ∧
      ∀ x n, a'.Used x n ↔ a.Used x n ∧ x ≠ a.addr i := by
  have hfree : (a.setFree i true).isFree i = true := by simp
  have hmerged : Merged (a.setFree i true) fun j k => j ≠ i ∧ k ≠ i := by
    intro j hj k hk hne
    simp only [setFree_fields] at hj hk
    simpa [hne.1, hne.2] using h.merged j hj k hk
  obtain ⟨b, hright, hb, hib, hfreeb, hmergedb, husedb⟩ :=
    coalesceRight_spec (h.toTiled.setFree i true) (by simpa using hi) hfree hmerged
  obtain ⟨a', hleft, ha', hused⟩ := coalesceLeft_spec hb hib hfreeb hmergedb
  refine ⟨a', ?_, ha', fun x n => ?_⟩
  · simp only [free, find_eq_some h.sorted hi, hright, hleft, bind, Except.bind]
    rfl
  · rw [hused, husedb]
    constructor
    · rintro ⟨j, hj, hfreej, hfields⟩
      simp only [setFree_fields] at hj hfreej hfields
      have hji : j ≠ i := by
        rintro rfl
        simp at hfreej
      rw [Function.update_of_ne hji] at hfreej
      refine ⟨⟨j, hj, hfreej, hfields⟩, fun heq => hji ?_⟩
      exact h.sorted.inj hj hi (hfields.1.trans heq)
    · rintro ⟨⟨j, hj, hfreej, hfields⟩, hne⟩
      have hji : j ≠ i := by
        rintro rfl
        exact hne hfields.1.symm
      exact ⟨j, by simpa using hj, by simpa [hji] using hfreej, by simpa using hfields⟩

theorem free_used (h : Partitioned a ranges) (x : Nat) : ∃ n a', a.free x = .ok (n, a') ∧ Partitioned a' ranges ∧
      ∀ y m, a'.Used y m ↔ a.Used y m ∧ y ≠ x := by
  by_cases hno : ∀ i ∈ a.tree.toList, a.addr i ≠ x
  · refine ⟨2 ^ 64 - 1, a, by rw [free, find_eq_none hno], h, fun y m => ?_⟩
    refine ⟨fun hused => ⟨hused, ?_⟩, And.left⟩
    obtain ⟨i, hi, -, rfl, -⟩ := hused
    exact hno i hi
  · push Not at hno
    obtain ⟨i, hi, rfl⟩ := hno
    obtain ⟨a', heq, hpart, hused⟩ := free_spec h hi
    exact ⟨a.size i, a', heq, hpart, hused⟩

def FreeAt (a : RangeAllocator) (x n : Nat) : Prop :=
  ∃ i ∈ a.tree.toList, a.isFree i = true ∧ a.addr i ≤ x ∧ x + n ≤ a.addr i + a.size i

instance (a : RangeAllocator) (x n : Nat) : Decidable (a.FreeAt x n) :=
  inferInstanceAs (Decidable (∃ i ∈ a.tree.toList, _))

/-- The bytes from `x` on, `size` of them, were free and are in use; no other block has changed. -/
structure Allocated (a a' : RangeAllocator) (x size : Nat) : Prop where
  free : FreeAt a x size
  used : ∀ y n, a'.Used y n ↔ a.Used y n ∨ (y = x ∧ n = size)

theorem Spliced.used_of_free {a' : RangeAllocator} {new : List Nat} {behind : Option Nat}
    (hs : Spliced a a' i [] new behind) (hi : i ∈ a.tree.toList) (hfree : a.isFree i = true)
    (hj : j ∈ i :: new) (hused : a'.isFree j = false)
    (hother : ∀ k ∈ i :: new, k ≠ j → a'.isFree k = true) (x n : Nat) :
    a'.Used x n ↔ a.Used x n ∨ (x = a'.addr j ∧ n = a'.size j) := by
  rw [hs.used_iff hi]
  constructor
  · rintro (⟨k, hk, hfreek, rfl, rfl⟩ | ⟨k, hk, -, hfields⟩)
    · by_cases hkj : k = j
      · exact Or.inr ⟨hkj ▸ rfl, hkj ▸ rfl⟩
      · rw [hother k hk hkj] at hfreek
        cases hfreek
    · exact Or.inl ⟨k, hk, hfields⟩
  · rintro (⟨k, hk, hfields⟩ | ⟨rfl, rfl⟩)
    · refine Or.inr ⟨k, hk, ?_, hfields⟩
      rw [List.mem_singleton]
      rintro rfl
      rw [hfree] at hfields
      cases hfields.1
    · exact Or.inl ⟨j, hj, hused, rfl, rfl⟩

section

variable (h : Partitioned a ranges) (hi : i ∈ a.tree.toList) (hfree : a.isFree i = true)
include h hi hfree

theorem take_spec : Partitioned (a.setFree i false) ranges ∧ Allocated a (a.setFree i false) (a.addr i) (a.size i) := by
  refine ⟨⟨h.toTiled.setFree i false, fun j hj k hk => ?_⟩, ⟨⟨i, hi, hfree, Nat.le_refl _, Nat.le_refl _⟩, fun x n => ?_⟩⟩
  · simp only [setFree_fields] at hj hk ⊢
    have hmerged := h.merged j hj k hk
    simp only [Function.update_apply]
    split <;> split <;> simp_all
  · constructor
    · rintro ⟨j, hj, hfreej, hfields⟩
      simp only [setFree_fields] at hj hfreej hfields
      by_cases hji : j = i
      · subst hji
        exact Or.inr ⟨hfields.1.symm, hfields.2.symm⟩
      · rw [Function.update_of_ne hji] at hfreej
        exact Or.inl ⟨j, hj, hfreej, hfields⟩
    · rintro (⟨j, hj, hfreej, hfields⟩ | ⟨rfl, rfl⟩)
      · have hji : j ≠ i := by
          rintro rfl
          rw [hfree] at hfreej
          cases hfreej
        exact ⟨j, by simpa using hj, by simpa [hji] using hfreej, by simpa using hfields⟩
      · exact ⟨i, by simpa using hi, by simp, by simp, by simp⟩

theorem Partitioned.next_used (hj : a.next i = some j) : a.isFree j = false := by
  have hmerged := h.merged i hi j hj
  simpa [hfree] using hmerged

theorem allocFront_allocated (hpos : 0 < size) (hle : size ≤ a.size i) :
    ∃ a', a.allocFront i size = .ok (i, a') ∧ Partitioned a' ranges ∧ i ∈ a'.tree.toList ∧
      a'.addr i = a.addr i ∧ Allocated a a' (a.addr i) size := by
  rcases Nat.eq_or_lt_of_le hle with rfl | hlt
  · obtain ⟨hpart, halloc⟩ := take_spec h hi hfree
    exact ⟨a.setFree i false, by rw [allocFront, if_pos rfl], hpart, by simpa using hi, by simp, halloc⟩
  · obtain ⟨a', heq, hs, hsize, hused, hrest⟩ := allocFront_spec h.toTiled hi hpos hlt
    have haddr := hs.addr i hi
    refine ⟨a', heq, h.splice hi hs (fun hf => by rw [hused] at hf; cases hf) ?_, hs.self_mem hi,
      haddr, ⟨⟨i, hi, hfree, Nat.le_refl _, by omega⟩, fun x n => ?_⟩⟩
    · intro j hj k hk hboth
      rcases List.mem_cons.mp hj with rfl | hj
      · rw [hused] at hboth
        cases hboth.1
      · -- behind the rest stands what stood behind the block
        rw [List.mem_singleton.mp hj] at hk
        have hnext : a'.next a.slab = a.next i := by simpa using hs.linked.2.2.2.1
        rw [hnext] at hk
        rw [hs.isFree k (h.of_next hi hk).1 (h.next_ne hi hk), h.next_used hi hfree hk] at hboth
        cases hboth.2
    · rw [hs.used_of_free hi hfree List.mem_cons_self hused ?_, haddr, hsize]
      intro k hk hki
      have hk' : k = a.slab := by simpa [hki] using hk
      rw [hk', hrest]

theorem allocSplit_allocated (hpos : 0 < size) (hpositive : 0 < alignment)
    (hsize : size + alignment ≤ a.size i) (hbase : a.addr i % alignment ≠ 0) :
    ∃ j a', a.allocSplit i size alignment = .ok (j, a') ∧ Partitioned a' ranges ∧
      j ∈ a'.tree.toList ∧ a'.addr j % alignment = 0 ∧ Allocated a a' (a'.addr j) size := by
  obtain ⟨a', heq, hs, hfreei, hused, hrest, hsz, haligned, hlo, hhi⟩ :=
    allocSplit_spec h.toTiled hi hpos hpositive hsize hbase
  have hlinked : a'.next i = some a.slab ∧ a'.next (a.slab + 1) = a.next i := by
    have hl := hs.linked
    simp only [linked_cons, List.head?_cons, List.head?_nil, Option.some_or, Option.none_or] at hl
    exact ⟨hl.2.1, hl.2.2.2.2.2.1⟩
  refine ⟨a.slab, a', heq, h.splice hi hs (fun hf => hfreei ▸ hf) ?_,
    (hs.tree.mem a.slab).mpr (by simp), haligned, ⟨⟨i, hi, hfree, hlo, hhi⟩, fun x n => ?_⟩⟩
  · intro j hj k hk hboth
    simp only [List.mem_cons, List.not_mem_nil, or_false] at hj
    rcases hj with rfl | rfl | rfl
    · rw [hlinked.1] at hk
      cases hk
      rw [hused] at hboth
      cases hboth.2
    · rw [hused] at hboth
      cases hboth.1
    · rw [hlinked.2] at hk
      rw [hs.isFree k (h.of_next hi hk).1 (h.next_ne hi hk), h.next_used hi hfree hk] at hboth
      cases hboth.2
  · rw [hs.used_of_free (j := a.slab) hi hfree (by simp) hused ?_, hsz]
    intro k hk hkj
    simp only [List.mem_cons, List.not_mem_nil, or_false, hkj, false_or] at hk
    rcases hk with rfl | rfl
    · rw [hfreei, hfree]
    · exact hrest

end

theorem findFreeRegion_eq_some (h : a.findFreeRegion size alignment = some i) :
    i ∈ a.tree.toList ∧ size ≤ a.size i ∧ a.isFree i = true ∧ (0 < alignment → a.addr i % alignment = 0) := by
  obtain ⟨hi, hprop⟩ := AvlNode.search_eq_some h
  simp only [checkAligned, Bool.and_eq_true, decide_eq_true_eq, Bool.or_eq_true, beq_iff_eq] at hprop
  exact ⟨hi, hprop.1.1, hprop.1.2, fun hpos => hprop.2.resolve_left hpos.ne'⟩

theorem findFreeRegion_eq_none (h : a.findFreeRegion size alignment = none) (hi : i ∈ a.tree.toList)
    (hsize : size ≤ a.size i) (hfree : a.isFree i = true) : a.addr i % alignment ≠ 0 := by
  have hprop := AvlNode.search_eq_none h i hi
  simp only [checkAligned, hsize, hfree, decide_true, Bool.and_self, Bool.true_and,
    Bool.or_eq_false_iff, beq_eq_false_iff_ne] at hprop
  exact hprop.2

/-- The search for a block to cut in three is not made with a sum of size and alignment that has wrapped,
or finds nothing. -/
def Unwrapped (a : RangeAllocator) (size alignment : Nat) : Prop :=
  size + alignment < 2 ^ 64 ∨ (a.findFreeRegion size alignment).isSome ∨
    a.findFreeRegion (add64 size alignment) 8 = none

theorem alloc_spec (h : Partitioned a ranges) (hpos : 0 < size) (hpositive : 0 < alignment)
    (hwrap : Unwrapped a size alignment) : a.alloc size alignment = .error .failedToAllocate ∨
      ∃ i a', a.alloc size alignment = .ok (i, a') ∧ Partitioned a' ranges ∧
        i ∈ a'.tree.toList ∧ a'.addr i % alignment = 0 ∧ Allocated a a' (a'.addr i) size := by
  unfold alloc
  cases hfirst : a.findFreeRegion size alignment with
  | some i =>
    obtain ⟨hi, hsize, hfree, haligned⟩ := findFreeRegion_eq_some hfirst
    obtain ⟨a', heq, hpart, hia, haddr, halloc⟩ := allocFront_allocated h hi hfree hpos hsize
    exact Or.inr ⟨i, a', heq, hpart, hia, haddr ▸ haligned hpositive, haddr ▸ halloc⟩
  | none =>
    simp only [hpositive.ne', if_false]
    cases hsecond : a.findFreeRegion (add64 size alignment) 8 with
    | none => exact Or.inl rfl
    | some i =>
      have hsum : size + alignment < 2 ^ 64 := by simpa [Unwrapped, hfirst, hsecond] using hwrap
      rw [add64_of_lt hsum] at hsecond
      obtain ⟨hi, hsize, hfree, -⟩ := findFreeRegion_eq_some hsecond
      -- the first search would have taken the block if it were aligned
      have hbase := findFreeRegion_eq_none hfirst hi (by omega) hfree
      exact Or.inr (allocSplit_allocated h hi hfree hpos hpositive hsize hbase)

theorem addNewRegion_spec (h : Partitioned a ranges) {r : Range} (haddr : 0 < r.1)
    (hr : r.Valid) (hapart : ∀ s ∈ ranges, Range.Apart r s) :
    ∃ a', a.addNewRegion r.1 r.2 = .ok a' ∧ Partitioned a' (r :: ranges) := by
  obtain ⟨t, heq, htree⟩ := h.laid.insertSlab (b := a.allocNode r.1 r.2) (by simp) (by simp)
    (fun j hj => by simp [h.laid.ne_slab hj]) (fun j hj => by
    simp only [allocNode_fields, Function.update_self]
    intro heq
    obtain ⟨s, hs, c, hc, hjc⟩ := h.covered j hj
    have hin := hc.within hjc
    have hout := hapart s hs
    have hpos := hr.1
    unfold Range.Apart at hout
    omega)
  have hmem : ∀ j, j ∈ t.toList ↔ j ∈ a.tree.toList ∨ j = a.slab := by simpa using htree.mem
  have hold : ∀ s c, Managed a s c → Managed { a.allocNode r.1 r.2 with tree := t } s c := by
    intro s c hc
    have hne : ∀ j ∈ c, j ≠ a.slab := fun j hj => h.laid.ne_slab (hc.mem j hj)
    exact ⟨hc.tiles.congr (fun j hj => by simp [hne j hj]) fun j hj => by simp [hne j hj],
      hc.linked.congr (fun j hj => by simp [hne j hj]) fun j hj => by simp [hne j hj],
      fun j hj => (hmem j).mpr (Or.inl (hc.mem j hj))⟩
  have hnew : Managed { a.allocNode r.1 r.2 with tree := t } r [a.slab] :=
    ⟨by simp [hr.1], by simp, by simp [hmem]⟩
  refine ⟨_, by rw [addNewRegion, if_neg (by have := hr.1; omega)]; exact heq, ⟨htree.balanced, htree.sorted,
    htree.fresh, ?_, h.apart.cons hapart, fun s hs => ?_, fun j hj => ?_⟩, fun j hj k hk => ?_⟩
  · rintro s hs
    rcases List.mem_cons.mp hs with rfl | hs
    · exact hr
    · exact h.bounded s hs
  · rcases List.mem_cons.mp hs with rfl | hs
    · exact ⟨_, hnew⟩
    · obtain ⟨c, hc⟩ := h.managed s hs
      exact ⟨c, hold s c hc⟩
  · rcases (hmem j).mp hj with hj | rfl
    · obtain ⟨s, hs, c, hc, hjc⟩ := h.covered j hj
      exact ⟨s, List.mem_cons_of_mem r hs, c, hold s c hc, hjc⟩
    · exact ⟨r, List.mem_cons_self, _, hnew, List.mem_cons_self⟩
  · rcases (hmem j).mp hj with hj | rfl
    · have hk' : a.next j = some k := by simpa [h.laid.ne_slab hj] using hk
      have hkt := (h.of_next hj hk').1
      simpa [h.laid.ne_slab hj, h.laid.ne_slab hkt] using h.merged j hj k hk'
    · simp at hk

theorem create_partitioned {r : Range} (hr : r.Valid) : Partitioned (create r.1 r.2) [r] := by
  have hmanaged : Managed (create r.1 r.2) r [0] :=
    ⟨⟨rfl, hr.1, rfl⟩, ⟨rfl, rfl, trivial⟩, by simp [create]⟩
  refine ⟨⟨⟨trivial, trivial, rfl, by decide, by decide⟩, ?_, ?_, ?_, ?_, ?_, ?_⟩, ?_⟩
  · simp [AvlNode.Sorted, create]
  · simp [create]
  · simpa only [List.forall_mem_singleton] using hr
  · simp
  · intro s hs
    rw [List.mem_singleton.mp hs]
    exact ⟨_, hmanaged⟩
  · intro j hj
    have hj' : j = 0 := by simpa [create] using hj
    exact ⟨r, by simp, _, hmanaged, by simp [hj']⟩
  · intro j hj k hk
    have hj' : j = 0 := by simpa [create] using hj
    subst hj'
    cases hk

end RangeAllocator

end Comanche.Core
