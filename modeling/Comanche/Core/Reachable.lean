import Comanche.Core.AllocAt
import Comanche.Core.PartitionRun

/-!
# Single calls in reachable states

What `alloc_at` does without its assertions, and `alloc` with them, in the states that calls of the
range allocator lead to.
-/

namespace Comanche.Core.RangeAllocator

variable {a : RangeAllocator} {ranges : List Range} {i x n size alignment : Nat}

inductive AlikeResult {α : Type} : Except Exc (α × RangeAllocator) → Except Exc (α × RangeAllocator) → Prop
  | ok {x : α} {a b : RangeAllocator} (h : Alike a b) : AlikeResult (.ok (x, a)) (.ok (x, b))
  | error (e : Exc) : AlikeResult (.error e) (.error e)

section Alike

theorem AlikeResult.of_ok {α : Type} {q : Except Exc (α × RangeAllocator)} {y : α} {a' : RangeAllocator}
    (h : AlikeResult (.ok (y, a')) q) : ∃ b', q = .ok (y, b') ∧ Alike a' b' := by
  cases h with
  | ok h => exact ⟨_, rfl, h⟩

theorem AlikeResult.of_error {α : Type} {q : Except Exc (α × RangeAllocator)} {e : Exc}
    (h : AlikeResult (.error e) q) : q = .error e := by
  cases h
  rfl

variable {b : RangeAllocator} (h : Alike a b)
include h

theorem insertNode_bind {α : Type} {f : RangeAllocator → Except Exc (α × RangeAllocator)}
    (hf : ∀ c d, Alike c d → AlikeResult (f c) (f d)) (i : Nat) :
    AlikeResult (a.insertNode i >>= f) (b.insertNode i >>= f) := by
  obtain ⟨haddr, hsize, hfree, hnext, htree, hslab⟩ := h
  unfold insertNode
  rw [haddr, htree]
  cases b.tree.insert b.addr i with
  | error e => exact .error e
  | ok r => exact hf _ _ ⟨haddr, hsize, hfree, hnext, rfl, hslab⟩

theorem allocFront_alike (i size : Nat) : AlikeResult (a.allocFront i size) (b.allocFront i size) := by
  obtain ⟨haddr, hsize, hfree, hnext, htree, hslab⟩ := h
  unfold allocFront
  rw [hsize, haddr, hslab]
  split
  · exact .ok (by simp [Alike, haddr, hsize, hfree, hnext, htree, hslab])
  · refine insertNode_bind ?_ (fun _ _ hcd => .ok hcd) _
    simp [Alike, haddr, hsize, hfree, hnext, htree, hslab]

theorem allocSplit_alike (i size alignment : Nat) :
    AlikeResult (a.allocSplit i size alignment) (b.allocSplit i size alignment) := by
  obtain ⟨haddr, hsize, hfree, hnext, htree, hslab⟩ := h
  unfold allocSplit
  rw [haddr, hsize, hslab, hnext]
  dsimp only
  split
  · exact .error _
  · refine insertNode_bind ?_ (fun _ _ hcd => insertNode_bind hcd (fun _ _ hcd => .ok hcd) _) _
    simp [Alike, haddr, hsize, hfree, hnext, htree, hslab]

theorem findFreeRegion_alike (n k : Nat) : a.findFreeRegion n k = b.findFreeRegion n k := by
  obtain ⟨haddr, hsize, hfree, -, htree, -⟩ := h
  rw [findFreeRegion, haddr, hsize, hfree, htree]
  rfl

theorem alloc_alike (size alignment : Nat) : AlikeResult (a.alloc size alignment) (b.alloc size alignment) := by
  unfold alloc
  rw [findFreeRegion_alike h, findFreeRegion_alike h]
  split
  · exact allocFront_alike h _ size
  · split
    · exact .error _
    · split
      · exact .error _
      · exact allocSplit_alike h _ size alignment

theorem addNewRegion_alike (x n : Nat) :
    AlikeResult (a.addNewRegion x n >>= fun c => pure ((), c)) (b.addNewRegion x n >>= fun c => pure ((), c)) := by
  obtain ⟨haddr, hsize, hfree, hnext, htree, hslab⟩ := h
  unfold addNewRegion
  rw [hslab]
  split
  · exact .error _
  · refine insertNode_bind ?_ (fun _ _ hcd => .ok hcd) _
    simp [Alike, haddr, hsize, hfree, hnext, htree, hslab]

section

variable {i : Nat} (hprev : a.prev i = b.prev i) {f : RangeAllocator → Except Exc (Nat × RangeAllocator)}
  (hf : ∀ c d, Alike c d → c.prev i = d.prev i → AlikeResult (f c) (f d))
include hprev hf

theorem absorb_bind (left right : Nat) : AlikeResult (a.absorb left right >>= f) (b.absorb left right >>= f) := by
  obtain ⟨haddr, hsize, hfree, hnext, htree, hslab⟩ := h
  have hremove {c d : RangeAllocator} (hcd : Alike c d) (hp : c.prev i = d.prev i) :
      AlikeResult (c.removeNode right >>= f) (d.removeNode right >>= f) := by
    obtain ⟨haddr, hsize, hfree, hnext, htree, hslab⟩ := hcd
    unfold removeNode
    rw [haddr, htree]
    cases d.tree.remove d.addr right .eq with
    | error e => exact .error e
    | ok r => exact hf _ _ ⟨haddr, hsize, hfree, hnext, rfl, hslab⟩ hp
  refine hremove ?_ ?_
  · simp [Alike, haddr, hsize, hfree, hnext, htree, hslab]
  · simp [setPrevOf_prev, hprev, hnext]

theorem coalesceRight_bind : AlikeResult (a.coalesceRight i >>= f) (b.coalesceRight i >>= f) := by
  unfold coalesceRight
  rw [h.2.2.2.1, h.2.2.1]
  split
  · exact hf _ _ h hprev
  · split
    · exact absorb_bind h hprev hf _ _
    · exact hf _ _ h hprev

theorem coalesceLeft_bind : AlikeResult (a.coalesceLeft i >>= f) (b.coalesceLeft i >>= f) := by
  unfold coalesceLeft
  rw [hprev, h.2.2.1]
  split
  · exact hf _ _ h hprev
  · split
    · exact absorb_bind h hprev hf _ _
    · exact hf _ _ h hprev

end

theorem free_alike {x : Nat} (hprev : ∀ i ∈ a.tree.toList, a.addr i = x → a.prev i = b.prev i) :
    AlikeResult (a.free x) (b.free x) := by
  have hfind : a.find x = b.find x := by
    rw [find, h.1, h.2.2.2.2.1]
    rfl
  unfold free
  rw [hfind, h.2.1]
  split
  · exact .ok h
  · rename_i i hi
    obtain ⟨hmem, heq⟩ := AvlNode.search_eq_some (hfind.trans hi)
    dsimp only
    refine coalesceRight_bind (a := a.setFree i true) (b := b.setFree i true) ?_ ?_ fun c d hcd hp => ?_
    · simpa [Alike, h.2.2.1] using h
    · simpa using hprev i hmem (by simpa using heq)
    · exact coalesceLeft_bind hcd hp fun _ _ he _ => .ok he

end Alike

/-- The node before `i` by its own link is the one that leads to it. -/
def BackRight (a : RangeAllocator) (i : Nat) : Prop := ∀ k, a.prev i = some k ↔ k ∈ a.tree.toList ∧ a.next k = some i

def Contains (a : RangeAllocator) (i x : Nat) : Prop := a.addr i ≤ x ∧ x < add64 (a.addr i) (a.size i)

instance : Decidable (a.Contains i x) := inferInstanceAs (Decidable (_ ∧ _))

theorem Contains.lt (h : a.Contains i x) : x < a.addr i + a.size i :=
  h.2.trans_le (Nat.mod_le _ _)

theorem findContainingRegion_spec (h : a.findContainingRegion x = some i) : i ∈ a.tree.toList ∧ a.Contains i x := by
  obtain ⟨hi, hin⟩ := AvlNode.search_eq_some h
  simp only [Bool.and_eq_true, decide_eq_true_eq] at hin
  exact ⟨hi, hin⟩

/-- A node that is free holds the range whole, wherever one that holds its first byte is large enough. -/
def FitsAt (a : RangeAllocator) (x n : Nat) : Prop :=
  ∀ i ∈ a.tree.toList, a.Contains i x → n ≤ a.size i → a.isFree i = true ∧ x + n ≤ a.addr i + a.size i

instance {n : Nat} : Decidable (a.FitsAt x n) := List.decidableBAll _ _

/-- The states of an allocator for `ranges` after calls of `alloc` with a sum that does not wrap, of `alloc_at` with a
range that fits, of `free` for a node with a right back link, and of `add_new_region`. Calls that throw change nothing. -/
inductive Reachable : RangeAllocator → List Range → Prop where
  | create {r : Range} (hr : r.Valid) : Reachable (create r.1 r.2) [r]
  | alloc {a a' : RangeAllocator} {ranges : List Range} {size alignment i : Nat} (h : Reachable a ranges) (hpos : 0 < size)
      (hwrap : a.Unwrapped size alignment) (heq : a.alloc size alignment = .ok (i, a')) : Reachable a' ranges
  | allocAt {a a' : RangeAllocator} {ranges : List Range} {x n i : Nat} (h : Reachable a ranges) (hpos : 0 < n)
      (hfits : a.FitsAt x n) (heq : a.allocAtUnchecked x n = .ok (i, a')) : Reachable a' ranges
  | free {a a' : RangeAllocator} {ranges : List Range} {x n : Nat} (h : Reachable a ranges)
      (hback : ∀ i ∈ a.tree.toList, a.addr i = x → a.BackRight i) (heq : a.free x = .ok (n, a')) : Reachable a' ranges
  | addNewRegion {a a' : RangeAllocator} {ranges : List Range} {r : Range} (h : Reachable a ranges) (hr : r.Valid)
      (hapart : ∀ s ∈ ranges, r.Apart s) (heq : a.addNewRegion r.1 r.2 = .ok a') : Reachable a' (r :: ranges)

theorem Partitioned.alloc {a' : RangeAllocator} (h : Partitioned a ranges) (hpos : 0 < size)
    (hwrap : a.Unwrapped size alignment) (heq : a.alloc size alignment = .ok (i, a')) : Partitioned a' ranges := by
  rcases Nat.eq_zero_or_pos alignment with rfl | hpositive
  · unfold RangeAllocator.alloc at heq
    split at heq
    case h_1 j hfirst =>
      obtain ⟨hj, hsize, hfree, -⟩ := findFreeRegion_eq_some hfirst
      obtain ⟨b, hb, hpart, -⟩ := allocFront_allocated h hj hfree hpos hsize
      cases hb.symm.trans heq
      exact hpart
    case h_2 => cases heq
  · rcases alloc_spec h hpos hpositive hwrap with herr | ⟨j, b, hb, hpart, -⟩
    · cases herr.symm.trans heq
    · cases hb.symm.trans heq
      exact hpart

theorem BackRight.prev_eq {b : RangeAllocator} (hback : a.BackRight i) (hab : Alike a b)
    (h : Tiled b ranges) (hi : i ∈ a.tree.toList) : a.prev i = b.prev i := by
  obtain ⟨-, -, -, hnext, htree, -⟩ := hab
  refine Option.ext fun k => (hback k).trans ⟨fun ⟨hk, hki⟩ => ?_, fun hk => ?_⟩
  · exact (h.of_next (htree ▸ hk) (hnext ▸ hki)).2.1
  · obtain ⟨hkt, hki, -⟩ := h.of_prev (htree ▸ hi) hk
    exact ⟨htree ▸ hkt, hnext ▸ hki⟩

/-- Up to its back links, the allocator is a partition of its ranges. -/
theorem Reachable.partitioned (h : Reachable a ranges) : ∃ b, Alike a b ∧ Partitioned b ranges := by
  induction h with
  | create hr => exact ⟨_, ⟨rfl, rfl, rfl, rfl, rfl, rfl⟩, create_partitioned hr⟩
  | alloc _ hpos hwrap heq ih =>
    obtain ⟨b, hab, hpart⟩ := ih
    obtain ⟨b', hb', hab'⟩ := (heq ▸ alloc_alike hab _ _).of_ok
    refine ⟨b', hab', hpart.alloc hpos ?_ hb'⟩
    rwa [Unwrapped, ← findFreeRegion_alike hab, ← findFreeRegion_alike hab]
  | @allocAt a a' ranges x n _ _ hpos hfits heq ih =>
    obtain ⟨b, hab, hpart⟩ := ih
    unfold allocAtUnchecked at heq
    split at heq
    case h_1 => cases heq
    case h_2 k hfind =>
      split at heq
      · cases heq
      · rename_i hlarge
        obtain ⟨hk, hin⟩ := findContainingRegion_spec hfind
        obtain ⟨hfree, hend⟩ := hfits k hk hin (Nat.not_lt.mp hlarge)
        obtain ⟨j, c, new, hc, hcut, -⟩ := takeAt_cut (hab.laid hpart.laid) hk hpos hin.1 hend
        cases hc.symm.trans heq
        obtain ⟨b', hab', hpart', -⟩ := hab.cut hfree hcut hpart hk
        exact ⟨b', hab', hpart'⟩
  | @free a a' ranges x n _ hback heq ih =>
    obtain ⟨b, hab, hpart⟩ := ih
    have hsim := free_alike hab fun i hi hx => (hback i hi hx).prev_eq hab hpart.toTiled hi
    obtain ⟨b', hb', hab'⟩ := (heq ▸ hsim).of_ok
    obtain ⟨m, c, hc, hpart', -⟩ := free_used hpart x
    cases hc.symm.trans hb'
    exact ⟨_, hab', hpart'⟩
  | @addNewRegion a a' ranges r _ hr hapart heq ih =>
    obtain ⟨b, hab, hpart⟩ := ih
    have hsim := addNewRegion_alike hab r.1 r.2
    rw [heq] at hsim
    have hzero : r.1 ≠ 0 := by
      intro hzero
      rw [RangeAllocator.addNewRegion, if_pos (Or.inl hzero)] at heq
      cases heq
    obtain ⟨b', hb', hpart'⟩ := addNewRegion_spec hpart (Nat.pos_of_ne_zero hzero) hr hapart
    obtain ⟨c, hc, hab'⟩ := hsim.of_ok
    rw [hb'] at hc
    cases hc
    exact ⟨_, hab', hpart'⟩

theorem Reachable.after (h : Reachable a ranges) (op : Op) (hvalid : op.Valid ranges) (hwrap : op.Unwrapped a)
    (hback : ∀ x, op = .free x → ∀ i ∈ a.tree.toList, a.addr i = x → a.BackRight i) :
    Reachable (a.after op) (a.managedAfter ranges op) := by
  cases op with
  | alloc size alignment =>
    simp only [RangeAllocator.after, managedAfter]
    split
    case h_1 heq => exact h.alloc hvalid.1 hwrap heq
    case h_2 => exact h
  | free x =>
    simp only [RangeAllocator.after, managedAfter]
    split
    case h_1 heq => exact h.free (hback x rfl) heq
    case h_2 => exact h
  | addNewRegion x n =>
    simp only [RangeAllocator.after, managedAfter]
    cases heq : a.addNewRegion x n with
    | ok a' => exact h.addNewRegion (r := (x, n)) hvalid.1 hvalid.2 heq
    | error e => exact h

theorem Reachable.alloc_allocated (h : Reachable a ranges) (hpos : 0 < size) (hpositive : 0 < alignment)
    (hwrap : Unwrapped a size alignment) : a.alloc size alignment = .error .failedToAllocate ∨
      ∃ i a', a.alloc size alignment = .ok (i, a') ∧ a'.addr i % alignment = 0 ∧ Allocated a a' (a'.addr i) size := by
  obtain ⟨b, hab, hpart⟩ := h.partitioned
  rw [Unwrapped, findFreeRegion_alike hab, findFreeRegion_alike hab] at hwrap
  obtain ⟨haddr, hsize, hfree, hnext, htree, hslab⟩ := hab
  have hba : Alike b a := ⟨haddr.symm, hsize.symm, hfree.symm, hnext.symm, htree.symm, hslab.symm⟩
  have hsim := alloc_alike hba size alignment
  rcases alloc_spec hpart hpos hpositive hwrap with herr | ⟨i, b', hb', -, -, haligned, halloc⟩
  · exact Or.inl (herr ▸ hsim).of_error
  · obtain ⟨a', ha', hab'⟩ := (hb' ▸ hsim).of_ok
    obtain ⟨haddr', hsize', hfree', -, htree', -⟩ := hab'
    rw [haddr'] at haligned halloc
    refine Or.inr ⟨i, a', ha', haligned, ?_, fun x n => ?_⟩
    · simpa only [FreeAt, haddr, hsize, hfree, htree] using halloc.free
    · simpa only [Used, haddr, hsize, hfree, htree, haddr', hsize', hfree', htree'] using halloc.used x n

theorem Reachable.laid (h : Reachable a ranges) : Laid a := by
  obtain ⟨b, hab, hpart⟩ := h.partitioned
  exact hab.laid hpart.laid

/-- `get_free`, and `free_space` of an arena. -/
def getFree (a : RangeAllocator) : Nat := (((AvlNode.topdown [a.tree]).filter a.isFree).map a.size).sum % 2 ^ 64

def usedSize (a : RangeAllocator) : Nat := ((a.tree.toList.filter (!a.isFree ·)).map a.size).sum

/-- What is free and what is in use are together what is managed. -/
theorem getFree_add_used (h : Reachable a ranges) :
    (a.getFree + a.usedSize) % 2 ^ 64 = (ranges.map Prod.snd).sum % 2 ^ 64 := by
  obtain ⟨b, hab, hpart⟩ := h.partitioned
  obtain ⟨-, hsize, -, -, htree, -⟩ := hab
  have hperm : (AvlNode.topdown [a.tree]).Perm a.tree.toList := by
    simpa [AvlNode.pending] using AvlNode.topdown_perm [a.tree]
  rw [getFree, Nat.mod_add_mod, ((hperm.filter _).map a.size).sum_eq, usedSize, ← List.sum_append, ← List.map_append,
    ((List.filter_append_perm _ _).map a.size).sum_eq, hsize, htree, hpart.sum_size]

theorem page_reachable : Reachable (create 0x1000 0x1000) [(0x1000, 0x1000)] :=
  .create (r := (0x1000, 0x1000)) (by decide)

theorem page_alloc_reachable : Reachable ((create 0x1000 0x1000).after (.alloc 16 8)) [(0x1000, 0x1000)] :=
  page_reachable.after (.alloc 16 8) (by decide) (Or.inl (by decide)) nofun

theorem getFree_add_used_alloc :
    (((create 0x1000 0x1000).after (.alloc 16 8)).getFree + ((create 0x1000 0x1000).after (.alloc 16 8)).usedSize) % 2 ^ 64 =
      0x1000 :=
  getFree_add_used page_alloc_reachable

/-- The node that is returned is the block that was asked for and was free, or nothing is changed. -/
def ExactAt (a : RangeAllocator) (x n : Nat) : Prop :=
  match a.allocAtUnchecked x n with
  | .ok (i, a') => a'.addr i = x ∧ a'.size i = n ∧ a.FreeAt x n
  | .error e => e = .noContainingRegion ∨ e = .insufficientRegion

theorem Laid.contains_unique (h : Laid a) {j : Nat} (hi : i ∈ a.tree.toList) (hj : j ∈ a.tree.toList)
    (hlo : a.addr i ≤ x) (hhi : x < a.addr i + a.size i) (hlo' : a.addr j ≤ x)
    (hhi' : x < a.addr j + a.size j) : i = j := by
  by_contra hne
  have hdisj := h.disjoint i hi j hj hne
  omega

theorem exactAt_found (h : Laid a) (hpos : 0 < n) (hi : i ∈ a.tree.toList) (hin : a.Contains i x)
    (hsize : n ≤ a.size i) (hfind : a.findContainingRegion x = some i) :
    ExactAt a x n ↔ a.isFree i = true ∧ x + n ≤ a.addr i + a.size i := by
  have hcall : a.allocAtUnchecked x n = a.takeAt i x n := by
    rw [allocAtUnchecked, hfind]
    exact if_neg (Nat.not_lt.mpr hsize)
  unfold ExactAt
  rw [hcall]
  by_cases hhi : x + n ≤ a.addr i + a.size i
  · obtain ⟨j, a', new, heq, hcut, -⟩ := takeAt_cut h hi hpos hin.1 hhi
    rw [heq]
    refine ⟨fun ⟨_, _, k, hk, hfree, hlo, hend⟩ => ⟨?_, hhi⟩, fun hfits =>
      ⟨hcut.addr, hcut.size, i, hi, hfits.1, hin.1, hhi⟩⟩
    rw [h.contains_unique hi hk hin.1 hin.lt hlo (by omega)]
    exact hfree
  · obtain ⟨j, a', heq, hlt⟩ := takeAt_long h hi hsize hin.lt (by omega)
    rw [heq]
    exact ⟨fun hex => absurd hex.2.1 hlt.ne, fun hfits => absurd hfits.2 hhi⟩

/-- `alloc_at` is exact just where it does not meet a node in use, nor a free one that ends too early. -/
theorem allocAt_exact_iff (h : Reachable a ranges) (x : Nat) (hpos : 0 < n) : ExactAt a x n ↔ FitsAt a x n := by
  have hlaid := h.laid
  cases hfind : a.findContainingRegion x with
  | none =>
    have hno := AvlNode.search_eq_none hfind
    refine iff_of_true (by simp [ExactAt, allocAtUnchecked, hfind]) fun i hi hin _ => ?_
    simpa [hin.1, hin.2] using hno i hi
  | some i =>
    obtain ⟨hi, hin⟩ := findContainingRegion_spec hfind
    have honly : ∀ k ∈ a.tree.toList, a.Contains k x → k = i := fun k hk hkx =>
      hlaid.contains_unique hk hi hkx.1 hkx.lt hin.1 hin.lt
    by_cases hsize : a.size i < n
    · refine iff_of_true (by simp [ExactAt, allocAtUnchecked, hfind, hsize]) fun k hk hkx hle => ?_
      rw [honly k hk hkx] at hle
      omega
    · have hsize := Nat.not_lt.mp hsize
      rw [exactAt_found hlaid hpos hi hin hsize hfind]
      refine ⟨fun hfits k hk hkx _ => ?_, fun hfits => hfits i hi hin hsize⟩
      rwa [honly k hk hkx]

def afterAllocAt (a : RangeAllocator) (x n : Nat) : RangeAllocator :=
  match a.allocAtUnchecked x n with
  | .ok (_, a') => a'
  | .error _ => a

theorem Reachable.afterAllocAt (h : Reachable a ranges) (hpos : 0 < n) (hfits : a.FitsAt x n) :
    Reachable (a.afterAllocAt x n) ranges := by
  unfold RangeAllocator.afterAllocAt
  split
  · rename_i heq
    exact h.allocAt hpos hfits heq
  · exact h

/-- The second block is cut out before the first one, whose back link is wrong from then on. -/
theorem allocAt_exact_page :
    ¬ BackRight (((create 0x1000 0x1000).afterAllocAt 0x1800 0x100).afterAllocAt 0x1400 0x100) 1 ∧
      ExactAt (((create 0x1000 0x1000).afterAllocAt 0x1800 0x100).afterAllocAt 0x1400 0x100) 0x1000 0x20 := by
  have hfirst := page_reachable.afterAllocAt (x := 0x1800) (n := 0x100) (by decide) (by decide +kernel)
  have hsecond := hfirst.afterAllocAt (x := 0x1400) (n := 0x100) (by decide) (by decide +kernel)
  refine ⟨fun hback => ?_, (allocAt_exact_iff hsecond 0x1000 (by decide)).mpr (by decide +kernel)⟩
  exact absurd ((hback 0).mp (by decide +kernel)).2 (by decide +kernel)

/-- A range that goes past the end of the page, and one that is in use. -/
theorem not_exactAt_page : ¬ ExactAt (create 0x1000 0x1000) 0x1800 0x1000 ∧
      Reachable ((create 0x1000 0x1000).after (.alloc 16 8)) [(0x1000, 0x1000)] ∧
      ¬ ExactAt ((create 0x1000 0x1000).after (.alloc 16 8)) 0x1000 16 := by
  refine ⟨?_, page_alloc_reachable, ?_⟩
  · rw [exactAt_found page_reachable.laid (i := 0) (by decide) (by decide) (by decide) (by decide)
      (by decide)]
    decide
  · rw [exactAt_found page_alloc_reachable.laid (i := 0) (by decide) (by decide +kernel) (by decide +kernel)
      (by decide +kernel) (by decide +kernel)]
    decide +kernel

/-- `alloc` with its assertions: `none` when one of them fails, or divides by zero. -/
def allocAsserted (a : RangeAllocator) (size alignment : Nat) : Option (Except Exc (Nat × RangeAllocator)) :=
  match a.findFreeRegion size alignment with
  | some region =>
      -- `check_aligned(region->_addr, alignment)` is a remainder
      if a.size region < size ∨ alignment = 0 ∨ checkAligned (a.addr region) alignment = false then none
      else some (a.allocFront region size)
  | none =>
      if alignment = 0 then none
      else
        match a.findFreeRegion (add64 size alignment) 8 with
        | none => some (.error .failedToAllocate)
        | some region =>
            if a.isFree region = false then none
            else
              match a.allocSplit region size alignment with
              | .ok (center, a') =>
                  if checkAligned (a'.addr center) alignment then some (.ok (center, a')) else none
              | .error .assertion => none
              | .error e => some (.error e)

/-- A region is returned, or the exception is thrown that comes before the first write. -/
def Total (a : RangeAllocator) (size alignment : Nat) : Prop :=
  match a.allocAsserted size alignment with
  | some (.ok _) => True
  | some (.error e) => e = .failedToAllocate
  | none => False

theorem total_of_pos (h : Reachable a ranges) (hpos : 0 < size) (hpositive : 0 < alignment)
    (hwrap : Unwrapped a size alignment) : Total a size alignment := by
  have hspec := h.alloc_allocated hpos hpositive hwrap
  unfold RangeAllocator.alloc at hspec
  unfold Total allocAsserted
  cases hfirst : a.findFreeRegion size alignment with
  | some i =>
    obtain ⟨-, hsize, -, haligned⟩ := findFreeRegion_eq_some hfirst
    simp only [hfirst] at hspec
    have hno : ¬(a.size i < size ∨ alignment = 0 ∨ checkAligned (a.addr i) alignment = false) := by
      simp [checkAligned, hsize, haligned hpositive, hpositive.ne']
    simp only [if_neg hno]
    rcases hspec with heq | ⟨j, a', heq, -⟩
    · rw [heq]
    · rw [heq]
      trivial
  | none =>
    simp only [hfirst, hpositive.ne', if_false] at hspec ⊢
    cases hsecond : a.findFreeRegion (add64 size alignment) 8 with
    | none => rfl
    | some i =>
      simp only [hsecond, (findFreeRegion_eq_some hsecond).2.2.1, Bool.true_eq_false, if_false] at hspec ⊢
      rcases hspec with heq | ⟨j, a', heq, haligned, -⟩
      · rw [heq]
      · simp [heq, checkAligned, haligned]

/-- With an alignment, and a sum that does not wrap where it is searched for, `alloc` is total; without one it never is. -/
theorem alloc_total (h : Reachable a ranges) (hpos : 0 < size) :
    (0 < alignment ∧ Unwrapped a size alignment → Total a size alignment) ∧ (Total a size alignment → 0 < alignment) := by
  refine ⟨fun ⟨hpositive, hwrap⟩ => total_of_pos h hpos hpositive hwrap, fun htotal => Nat.pos_of_ne_zero ?_⟩
  rintro rfl
  have hnone : a.allocAsserted size 0 = none := by
    unfold allocAsserted
    cases a.findFreeRegion size 0 <;> simp
  simp [Total, hnone] at htotal

theorem alloc_total_page : Total ((create 0x1000 0x1000).afterAllocAt 0x1800 0x100) 32 24 :=
  (alloc_total (page_reachable.afterAllocAt (by decide) (by decide +kernel)) (by decide)).1 ⟨by decide, Or.inl (by decide)⟩

/-- The default alignment, with a region that is found and with none. -/
theorem not_total_page : ¬ Total (create 0x1000 0x1000) 8 0 ∧ ¬ Total (create 0x1000 0x1000) 0x2000 0 :=
  ⟨fun h => h, fun h => h⟩

end Comanche.Core.RangeAllocator
