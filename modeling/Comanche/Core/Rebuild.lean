import Comanche.Core.AllocAt

/-!
# Rebuilding an allocator

A fresh allocator is told, by one `alloc_at` each, which ranges of its memory are in use.
-/

namespace Comanche.Core

open Lib

namespace RangeAllocator

variable {a a' : RangeAllocator} {r s : Range} {done l : List Range}
  {i j k x n : Nat}

abbrev Block : Type := Nat × Nat × Bool

structure Block.Tiling (base : Nat) (bs : List Block) (stop : Nat) : Prop where
  tiles : Tiles (fun b : Block => b.1) (fun b => b.2.1) base bs stop
  merged : bs.IsChain fun b c => ¬(b.2.2 = true ∧ c.2.2 = true)

section Unique

variable {b c : Block} {bs cs : List Block} {base stop : Nat}

section

variable (h : Block.Tiling base (b :: bs) stop)
include h

theorem Block.Tiling.tail : Tiling (base + b.2.1) bs stop :=
  ⟨h.tiles.2.2, h.merged.tail⟩

theorem Block.Tiling.eq_head (hc : c ∈ b :: bs) (hbase : c.1 = base) : c = b := by
  rcases List.mem_cons.mp hc with rfl | hc
  · rfl
  · have hle := (h.tiles.2.2.mem hc).1
    have hpos := h.tiles.2.1
    simp only at hle hpos
    omega

theorem Block.Tiling.head_le (h' : Tiling base (c :: cs) stop)
    (hfree : b.2.2 = true) (hused : ∀ x n, (x, n, false) ∈ b :: bs → (x, n, false) ∈ c :: cs) : c.2.1 ≤ b.2.1 := by
  by_contra hlt
  have hend := h'.tiles.2.2.le
  cases bs with
  | nil =>
    have hstop := h.tiles.2.2
    simp only [tiles_nil] at hstop hend
    omega
  | cons d bs =>
    -- the block behind the first one is in use and lies within the longer one
    have hd : d.2.2 = false := by
      have hchain := (List.isChain_cons_cons.mp h.merged).1
      simpa [hfree] using hchain
    have hdaddr : d.1 = base + b.2.1 := h.tiles.2.2.1
    have hmem : (d.1, d.2.1, false) ∈ c :: cs :=
      hused d.1 d.2.1 (by rw [← hd]; exact List.mem_cons_of_mem b List.mem_cons_self)
    have hpos : 0 < b.2.1 := h.tiles.2.1
    rcases List.mem_cons.mp hmem with heq | hmem
    · have hc : c.1 = base := h'.tiles.1
      rw [← heq] at hc
      simp only at hc
      omega
    · have hle := (h'.tiles.2.2.mem hmem).1
      simp only at hle
      omega

end

theorem Block.Tiling.unique (h : Tiling base bs stop) (h' : Tiling base cs stop)
    (hused : ∀ x n, (x, n, false) ∈ bs ↔ (x, n, false) ∈ cs) : bs = cs := by
  induction bs generalizing base cs with
  | nil =>
    cases cs with
    | nil => rfl
    | cons c cs =>
      have hle := h'.tail.tiles.le
      have hpos : 0 < c.2.1 := h'.tiles.2.1
      have hstop : base = stop := h.tiles
      omega
  | cons b bs ih =>
    cases cs with
    | nil =>
      have hle := h.tail.tiles.le
      have hpos : 0 < b.2.1 := h.tiles.2.1
      have hstop : base = stop := h'.tiles
      omega
    | cons c cs =>
      have hb : b.1 = base := h.tiles.1
      have hc : c.1 = base := h'.tiles.1
      have hbc : b = c := by
        cases hfb : b.2.2 with
        | false =>
          have hmem := (hused b.1 b.2.1).mp (by rw [← hfb]; exact List.mem_cons_self)
          rw [← hfb] at hmem
          exact h'.eq_head hmem hb
        | true =>
          cases hfc : c.2.2 with
          | false =>
            have hmem := (hused c.1 c.2.1).mpr (by rw [← hfc]; exact List.mem_cons_self)
            rw [← hfc] at hmem
            exact (h.eq_head hmem hc).symm
          | true =>
            have hle := h.head_le h' hfb fun x n => (hused x n).mp
            have hge := h'.head_le h hfc fun x n => (hused x n).mpr
            exact Prod.ext (hb.trans hc.symm) (Prod.ext (Nat.le_antisymm hge hle) (hfb.trans hfc.symm))
      subst hbc
      -- the first block is none of the others
      have htail : ∀ {ds : List Block}, Tiling base (b :: ds) stop → ∀ x n,
          (x, n, false) ∈ ds ↔ (x, n, false) ∈ b :: ds ∧ x ≠ base := by
        intro ds hds x n
        constructor
        · intro hmem
          refine ⟨List.mem_cons_of_mem b hmem, ?_⟩
          have hle := (hds.tiles.2.2.mem hmem).1
          have hpos : 0 < b.2.1 := hds.tiles.2.1
          simp only at hle
          omega
        · rintro ⟨hmem, hne⟩
          refine (List.mem_cons.mp hmem).resolve_left fun heq => hne ?_
          rw [← hb, ← heq]
      rw [ih h.tail h'.tail fun x n => by rw [htail h, htail h', hused x n]]

end Unique

def blocks (a : RangeAllocator) : List Block :=
  a.tree.toList.map fun i => (a.addr i, a.size i, a.isFree i)

structure Rebuilt (a : RangeAllocator) (r : Range) (l : List Range) : Prop where
  partitioned : Partitioned a [r]
  used : ∀ x n, a.Used x n ↔ (x, n) ∈ l

theorem Tiled.managed_singleton (h : Tiled a [r]) : ∃ c, Managed a r c ∧ ∀ i, i ∈ c ↔ i ∈ a.tree.toList := by
  obtain ⟨c, hc⟩ := h.managed r List.mem_cons_self
  refine ⟨c, hc, fun i => ⟨hc.mem i, fun hi => ?_⟩⟩
  obtain ⟨s, hs, d, hd, hid⟩ := h.covered i hi
  rw [List.mem_singleton.mp hs] at hd
  rwa [hc.unique h.sorted hd]

theorem Tiled.toList_eq (h : Tiled a [r]) {c : List Nat} (hc : Managed a r c) : a.tree.toList = c := by
  obtain ⟨d, hd, hmem⟩ := h.managed_singleton
  have hcd := hc.unique h.sorted hd
  subst hcd
  have hsorted : c.Pairwise fun i j => a.addr i < a.addr j := by
    refine List.Pairwise.imp_of_mem (fun {i j} hi _ hij => ?_) hc.tiles.pairwise
    have hpos := (hc.within hi).2.1
    omega
  have hperm : a.tree.toList.Perm c :=
    (List.perm_ext_iff_of_nodup (h.sorted.imp fun hlt heq => by simp [heq] at hlt)
      hc.tiles.nodup).mpr fun i => (hmem i).symm
  exact hperm.eq_of_pairwise (fun i j _ _ hij hji => absurd hij hji.asymm) h.sorted hsorted

theorem mem_blocks : (x, n, false) ∈ a.blocks ↔ a.Used x n := by
  simp only [blocks, List.mem_map, Prod.mk.injEq, Used]
  exact exists_congr fun i => and_congr_right fun _ => by tauto

theorem Partitioned.tiling (h : Partitioned a [r]) : Block.Tiling r.1 a.blocks (r.1 + r.2) := by
  obtain ⟨c, hc⟩ := h.managed r List.mem_cons_self
  have hlist := h.toList_eq hc
  unfold blocks
  rw [hlist]
  refine ⟨Tiles.map (f := fun i => (a.addr i, a.size i, a.isFree i)) hc.tiles, ?_⟩
  rw [List.isChain_map]
  have hnext : c.IsChain fun i j => a.next i = some j := hc.linked.isChain
  exact hnext.imp_of_mem_imp fun i j hi hj hij => h.merged i (hc.mem i hi) j hij

theorem Rebuilt.unique (h : Rebuilt a r l) (h' : Rebuilt a' r l) : a.blocks = a'.blocks :=
  h.partitioned.tiling.unique h'.partitioned.tiling fun x n => by
    rw [mem_blocks, mem_blocks, h.used, h'.used]

section

variable (h : Tiled a [r]) (hi : i ∈ a.tree.toList)
include h hi

theorem Tiled.within : r.1 ≤ a.addr i ∧ a.addr i + a.size i ≤ r.1 + r.2 := by
  obtain ⟨c, hc, hmem⟩ := h.managed_singleton
  have hin := hc.within ((hmem i).mpr hi)
  exact ⟨hin.1, hin.2.2⟩

theorem Tiled.end_of_next (hnext : a.next i = none) : a.addr i + a.size i = r.1 + r.2 := by
  obtain ⟨s, hs, pre, post, hc⟩ := h.exists_cut hi
  rw [List.mem_singleton.mp hs] at hc
  obtain ⟨-, -, hnext', -⟩ := linked_append_cons.mp hc.linked
  rw [hnext, Option.or_none] at hnext'
  have hpost := List.head?_eq_none_iff.mp hnext'.symm
  subst hpost
  exact (tiles_append_cons.mp hc.tiles).2.2

theorem Tiled.start_of_prev (hprev : a.prev i = none) : a.addr i = r.1 := by
  obtain ⟨s, hs, pre, post, hc⟩ := h.exists_cut hi
  rw [List.mem_singleton.mp hs] at hc
  obtain ⟨-, hprev', -, -⟩ := linked_append_cons.mp hc.linked
  rw [hprev, Option.or_none] at hprev'
  have hpre := List.getLast?_eq_none_iff.mp hprev'.symm
  subst hpre
  exact (tiles_append_cons.mp hc.tiles).1.symm

end

structure Fits (r : Range) (done : List Range) (s : Range) : Prop where
  pos : 0 < s.2
  lo : r.1 ≤ s.1
  hi : s.1 + s.2 ≤ r.1 + r.2
  apart : ∀ d ∈ done, Range.Apart s d

theorem Rebuilt.isFree_of_meets (h : Rebuilt a r done) (hs : Fits r done s) (hi : i ∈ a.tree.toList)
    (hlo : a.addr i < s.1 + s.2) (hhi : s.1 < a.addr i + a.size i) : a.isFree i = true := by
  by_contra hused
  have hmem := (h.used (a.addr i) (a.size i)).mp ⟨i, hi, by simpa using hused, rfl, rfl⟩
  have hapart := hs.apart _ hmem
  unfold Range.Apart at hapart
  simp only at hapart
  omega

theorem Rebuilt.exists_gap (h : Rebuilt a r done) (hs : Fits r done s) :
    ∃ i ∈ a.tree.toList, a.isFree i = true ∧ a.addr i ≤ s.1 ∧ s.1 + s.2 ≤ a.addr i + a.size i := by
  have hpos := hs.pos
  have hend := hs.hi
  obtain ⟨c, hc⟩ := h.partitioned.managed r List.mem_cons_self
  obtain ⟨i, hic, hlo, hhi⟩ := hc.tiles.exists_mem (n := s.1) hs.lo (by omega)
  have hi := hc.mem i hic
  have hfree := h.isFree_of_meets hs hi (by omega) hhi
  refine ⟨i, hi, hfree, hlo, ?_⟩
  by_contra hlt
  cases hnext : a.next i with
  | none =>
    have hlast := h.partitioned.end_of_next hi hnext
    omega
  | some k =>
    -- the range would reach into the next node, which is in use
    obtain ⟨hk, -, haddr⟩ := h.partitioned.of_next hi hnext
    have hposk := h.partitioned.size_pos hk
    have hfreek := h.isFree_of_meets hs hk (by omega) (by omega)
    exact h.partitioned.merged i hi k hnext ⟨hfree, hfreek⟩

/-- The range lies between two earlier ones, or the start of the memory and one of them, without a gap on
either side. -/
def Fills (r : Range) (done : List Range) (s : Range) : Prop :=
  (s.1 = r.1 ∨ ∃ d ∈ done, d.1 + d.2 = s.1) ∧ ∃ d ∈ done, d.1 = s.1 + s.2

instance (r : Range) (done : List Range) (s : Range) : Decidable (Fills r done s) :=
  inferInstanceAs (Decidable (_ ∧ _))

def Next (r : Range) (done : List Range) (s : Range) : Prop :=
  (∀ d ∈ done, d.1 < s.1) ∨ Fills r done s

instance (r : Range) (done : List Range) (s : Range) : Decidable (Next r done s) :=
  inferInstanceAs (Decidable (_ ∨ _))

theorem Rebuilt.apart_of_mem (h : Rebuilt a r done) (hi : i ∈ a.tree.toList)
    (hfree : a.isFree i = true) {d : Range} (hd : d ∈ done) : 0 < d.2 ∧ d.1 + d.2 ≤ r.1 + r.2 ∧
      (a.addr i + a.size i ≤ d.1 ∨ d.1 + d.2 ≤ a.addr i) := by
  obtain ⟨j, hj, hused, hx, hn⟩ := (h.used d.1 d.2).mpr hd
  have hne : i ≠ j := by
    rintro rfl
    rw [hfree] at hused
    cases hused
  have hdisj := h.partitioned.disjoint hi hj hne
  have hpos := h.partitioned.size_pos hj
  have hin := h.partitioned.within hj
  rw [hx, hn] at hdisj hin
  exact ⟨hn ▸ hpos, hin.2, hdisj⟩

theorem Rebuilt.next_iff (h : Rebuilt a r done) (hs : Fits r done s) (hi : i ∈ a.tree.toList)
    (hfree : a.isFree i = true) (hlo : a.addr i ≤ s.1) (hhi : s.1 + s.2 ≤ a.addr i + a.size i) :
    Next r done s ↔ a.next i = none ∨ s.1 = a.addr i ∧ s.2 = a.size i := by
  have hpos := hs.pos
  have hin := h.partitioned.within hi
  -- the neighbours of the gap are in use
  have habove : ∀ k, a.next i = some k → ∃ d ∈ done, d.1 = a.addr i + a.size i := by
    intro k hk
    obtain ⟨hkt, -, haddr⟩ := h.partitioned.of_next hi hk
    have hused := h.partitioned.next_used hi hfree hk
    exact ⟨_, (h.used _ _).mp ⟨k, hkt, hused, rfl, rfl⟩, haddr⟩
  have hlast : a.next i = none → ∀ d ∈ done, d.1 < s.1 := by
    intro hnext d hd
    obtain ⟨hdpos, hdend, hapart⟩ := h.apart_of_mem hi hfree hd
    have hend := h.partitioned.end_of_next hi hnext
    omega
  constructor
  · rintro (hall | ⟨hstart, d, hd, hdend⟩)
    · cases hnext : a.next i with
      | none => exact Or.inl rfl
      | some k =>
        obtain ⟨d, hd, hdaddr⟩ := habove k hnext
        have hlt := hall d hd
        omega
    · have hapart := h.apart_of_mem hi hfree hd
      have hsize : s.1 + s.2 = a.addr i + a.size i := by omega
      have haddr : s.1 = a.addr i := by
        rcases hstart with hstart | ⟨d', hd', hend'⟩
        · omega
        · have hapart' := h.apart_of_mem hi hfree hd'
          omega
      exact Or.inr ⟨haddr, by omega⟩
  · rintro (hnext | ⟨haddr, hsize⟩)
    · exact Or.inl (hlast hnext)
    · cases hnext : a.next i with
      | none => exact Or.inl (hlast hnext)
      | some k =>
        obtain ⟨d, hd, hdaddr⟩ := habove k hnext
        refine Or.inr ⟨?_, d, hd, by omega⟩
        cases hprev : a.prev i with
        | none => exact Or.inl (haddr.trans (h.partitioned.start_of_prev hi hprev))
        | some m =>
          obtain ⟨hmt, hmnext, hmaddr⟩ := h.partitioned.of_prev hi hprev
          have hmerged := h.partitioned.merged m hmt i hmnext
          have hused : a.isFree m = false := by simpa [hfree] using hmerged
          exact Or.inr ⟨_, (h.used _ _).mp ⟨m, hmt, hused, rfl, rfl⟩, by simp only; omega⟩

def Forward (a : RangeAllocator) (r : Range) (l : List Range) : Prop := ∃ b, Alike a b ∧ Rebuilt b r l

def Stale (a : RangeAllocator) : Prop :=
  ∃ k ∈ a.tree.toList, ∃ i ∈ a.tree.toList, a.prev k = some i ∧
    ∃ l ∈ a.tree.toList, a.addr i < a.addr l ∧ a.addr l < a.addr k

theorem Stale.not_tiled {ranges : List Range} (h : Stale a) : ¬ Tiled a ranges := by
  rintro ht
  obtain ⟨k, hk, i, hi, hprev, l, hl, hlo, hhi⟩ := h
  have haddr := (ht.of_prev hk hprev).2.2
  refine ht.laid.addr_ne hi hl hlo (by omega) rfl

theorem Rebuilt.forward (h : Rebuilt a r done) : Forward a r done :=
  ⟨a, ⟨rfl, rfl, rfl, rfl, rfl, rfl⟩, h⟩

theorem Forward.allocAt (h : Forward a r done) (hr : r.1 + r.2 < 2 ^ 64) (hs : Fits r done s) :
    ∃ i ∈ a.tree.toList, a.isFree i = true ∧ a.addr i ≤ s.1 ∧ s.1 + s.2 ≤ a.addr i + a.size i ∧
      ∃ j a' new, a.allocAt s.1 s.2 = .ok (j, a') ∧ Cut a a' i new j s.1 s.2 ∧
        (new = [] ↔ s.1 = a.addr i ∧ s.2 = a.size i) ∧ Forward a' r (s :: done) := by
  obtain ⟨b, hab, hb⟩ := h
  obtain ⟨i, hi, hfree, hlo, hhi⟩ := hb.exists_gap hs
  have hlaid := hab.laid hb.partitioned.laid
  obtain ⟨haddr, hsize, hisFree, -, htree, -⟩ := id hab
  rw [← haddr, ← hsize] at hhi
  rw [← haddr] at hlo
  rw [← htree] at hi
  rw [← hisFree] at hfree
  have hend : ∀ j ∈ a.tree.toList, a.addr j + a.size j < 2 ^ 64 := by
    rw [haddr, hsize, htree]
    exact fun j hj => (hb.partitioned.within hj).2.trans_lt hr
  obtain ⟨j, a', new, heq, hcut, hnew⟩ := allocAt_cut hlaid hi hfree hend hs.pos hlo hhi
  obtain ⟨b', hab', hpart', hused⟩ := hab.cut hfree hcut hb.partitioned hi
  refine ⟨i, hi, hfree, hlo, hhi, j, a', new, heq, hcut, hnew, b', hab', hpart', fun x n => ?_⟩
  have hdone := hb.used x n
  obtain ⟨haddr', hsize', hfree', -, htree', -⟩ := hab'
  rw [Used, ← haddr, ← hsize, ← hisFree, ← htree] at hdone
  have hboth := hused x n
  rw [Used, haddr', hsize', hfree', htree'] at hboth
  refine hboth.trans ?_
  rw [Used, hdone, List.mem_cons, or_comm, Prod.ext_iff]

theorem Stale.cut {new : List Nat} (h : Stale a) (hfresh : ∀ k ∈ a.tree.toList, k < a.slab)
    (hcut : Cut a a' i new j x n) : Stale a' := by
  obtain ⟨k, hk, m, hm, hprev, l, hl, hlo, hhi⟩ := h
  have hmem : ∀ k ∈ a.tree.toList, k ∈ a'.tree.toList := fun k hk =>
    (hcut.tree.mem k).mpr (Or.inl ⟨hk, List.not_mem_nil⟩)
  refine ⟨k, hmem k hk, m, hmem m hm, ?_, l, hmem l hl, ?_⟩
  · rw [hcut.outside.prev k (hfresh k hk), hprev]
  · rw [hcut.outside.addr m (hfresh m hm), hcut.outside.addr l (hfresh l hl), hcut.outside.addr k (hfresh k hk)]
    exact ⟨hlo, hhi⟩

def allocAll (a : RangeAllocator) : List Range → Except Exc RangeAllocator
  | [] => .ok a
  | s :: l => do
    let (_, a) ← a.allocAt s.1 s.2
    allocAll a l

theorem allocAll_cons {b : RangeAllocator} (heq : a.allocAt s.1 s.2 = .ok (j, b)) : a.allocAll (s :: l) = b.allocAll l := by
  rw [allocAll, heq]
  rfl

def freeAll (a : RangeAllocator) : List Range → Except Exc RangeAllocator
  | [] => .ok a
  | s :: l => do
    let (_, a) ← a.free s.1
    freeAll a l

def InOrder (r : Range) : List Range → List Range → Prop
  | _, [] => True
  | done, s :: l => Next r done s ∧ InOrder r (s :: done) l

instance InOrder.decidable (r : Range) : (done l : List Range) → Decidable (InOrder r done l)
  | _, [] => isTrue trivial
  | done, s :: l =>
    have := InOrder.decidable r (s :: done) l
    inferInstanceAs (Decidable (_ ∧ _))

structure AllFit (r : Range) (done l : List Range) : Prop where
  fits : ∀ s ∈ l, Fits r done s
  apart : l.Pairwise Range.Apart

theorem AllFit.tail (h : AllFit r done (s :: l)) : AllFit r (s :: done) l := by
  obtain ⟨hapart, hpair⟩ := List.pairwise_cons.mp h.apart
  refine ⟨fun t ht => ?_, hpair⟩
  obtain ⟨hpos, hlo, hhi, hdone⟩ := h.fits t (List.mem_cons_of_mem s ht)
  refine ⟨hpos, hlo, hhi, fun d hd => ?_⟩
  rcases List.mem_cons.mp hd with rfl | hd
  · exact (hapart t ht).symm
  · exact hdone d hd

theorem Forward.allocAll (h : Forward a r done) (hr : r.1 + r.2 < 2 ^ 64) (hl : AllFit r done l) :
    ∃ a', a.allocAll l = .ok a' ∧ (Stale a → Stale a') := by
  induction l generalizing a done with
  | nil => exact ⟨a, rfl, id⟩
  | cons s l ih =>
    obtain ⟨i, hi, -, -, -, j, b, new, heq, hcut, -, hb⟩ := h.allocAt hr (hl.fits s List.mem_cons_self)
    obtain ⟨a', heq', hstale⟩ := ih hb hl.tail
    refine ⟨a', (allocAll_cons heq).trans heq', fun hs => hstale ?_⟩
    obtain ⟨c, hac, hc⟩ := h
    exact hs.cut (hac.laid hc.partitioned.laid).fresh hcut

theorem Rebuilt.cut {new : List Nat} (h : Rebuilt a r done) (hs : Fits r done s)
    (hi : i ∈ a.tree.toList) (hfree : a.isFree i = true) (hlo : a.addr i ≤ s.1)
    (hhi : s.1 + s.2 ≤ a.addr i + a.size i) (hcut : Cut a a' i new j s.1 s.2)
    (hnew : new = [] ↔ s.1 = a.addr i ∧ s.2 = a.size i) (hnext : Next r done s) : Rebuilt a' r (s :: done) := by
  rw [h.next_iff hs hi hfree hlo hhi, ← hnew] at hnext
  refine ⟨hcut.partitioned_of_last h.partitioned hi hfree hnext, fun x n => ?_⟩
  rw [hcut.used_iff h.partitioned hi hfree, h.used, List.mem_cons, or_comm, Prod.ext_iff]

theorem Rebuilt.allocAll (h : Rebuilt a r done) (hr : r.1 + r.2 < 2 ^ 64) (hl : AllFit r done l)
    (horder : InOrder r done l) : ∃ a', a.allocAll l = .ok a' ∧ Rebuilt a' r (l.reverse ++ done) := by
  induction l generalizing a done with
  | nil => exact ⟨a, rfl, h⟩
  | cons s l ih =>
    have hs := hl.fits s List.mem_cons_self
    obtain ⟨i, hi, hfree, hlo, hhi, j, b, new, heq, hcut, hnew, -⟩ := h.forward.allocAt hr hs
    have hb := h.cut hs hi hfree hlo hhi hcut hnew horder.1
    obtain ⟨a', heq', ha'⟩ := ih hb hl.tail horder.2
    refine ⟨a', (allocAll_cons heq).trans heq', ?_⟩
    rwa [List.reverse_cons, List.append_assoc, List.singleton_append]

theorem Rebuilt.stale (h : Rebuilt a r done) (hr : r.1 + r.2 < 2 ^ 64) (hl : AllFit r done l)
    (horder : ¬ InOrder r done l) : ∃ a', a.allocAll l = .ok a' ∧ Stale a' := by
  induction l generalizing a done with
  | nil => exact absurd trivial horder
  | cons s l ih =>
    have hs := hl.fits s List.mem_cons_self
    obtain ⟨i, hi, hfree, hlo, hhi, j, b, new, heq, hcut, hnew, hb⟩ := h.forward.allocAt hr hs
    rw [allocAll_cons heq]
    by_cases hnext : Next r done s
    · have hb := h.cut hs hi hfree hlo hhi hcut hnew hnext
      exact ih hb hl.tail fun ho => horder ⟨hnext, ho⟩
    · -- this call leaves the wrong link
      rw [h.next_iff hs hi hfree hlo hhi, ← hnew, not_or] at hnext
      obtain ⟨k, hk⟩ := Option.ne_none_iff_exists'.mp hnext.1
      obtain ⟨hkt, hprev, hit, hbetween⟩ := hcut.stale h.partitioned hi hk hnext.2
      obtain ⟨a', heq', hstale⟩ := hb.allocAll hr hl.tail
      exact ⟨a', heq', hstale ⟨k, hkt, i, hit, hprev, hbetween⟩⟩

theorem freeAll_spec {ranges : List Range} (h : Partitioned a ranges) (fs : List Range) :
    ∃ b, a.freeAll fs = .ok b ∧ Partitioned b ranges ∧ ∀ y m, b.Used y m ↔ a.Used y m ∧ y ∉ fs.map Prod.fst := by
  induction fs generalizing a with
  | nil => exact ⟨a, rfl, h, by simp⟩
  | cons f fs ih =>
    obtain ⟨n, a', heq, hpart, hused⟩ := free_used h f.1
    obtain ⟨b, heq', hb, husedb⟩ := ih hpart
    refine ⟨b, by simp [freeAll, heq, heq', bind, Except.bind], hb, fun y m => ?_⟩
    rw [husedb, hused, List.map_cons, List.mem_cons, not_or, and_assoc]

theorem Partitioned.single (h : Partitioned a [r]) (hno : ∀ x n, ¬ a.Used x n) :
    ∃ i, a.tree.toList = [i] ∧ a.addr i = r.1 ∧ a.size i = r.2 ∧ a.isFree i = true := by
  have hfree : ∀ i ∈ a.tree.toList, a.isFree i = true := by
    intro i hi
    by_contra hused
    exact hno _ _ ⟨i, hi, by simpa using hused, rfl, rfl⟩
  obtain ⟨c, hc⟩ := h.managed r List.mem_cons_self
  rw [h.toList_eq hc] at hfree ⊢
  obtain ⟨htiles, hlinked, hmem⟩ := hc
  match c with
  | [] =>
    have hpos := (h.bounded r List.mem_cons_self).1
    rw [tiles_nil] at htiles
    omega
  | [i] =>
    obtain ⟨haddr, -, hsize⟩ := htiles
    rw [tiles_nil] at hsize
    exact ⟨i, rfl, haddr, by omega, hfree i List.mem_cons_self⟩
  | i :: j :: c =>
    exact absurd ⟨hfree i (by simp), hfree j (by simp)⟩ (h.merged i (hmem i (by simp)) j hlinked.2.1)

theorem AllFit.eq_of_fst (h : AllFit r done l) {t : Range} (hs : s ∈ l) (ht : t ∈ l) (heq : s.1 = t.1) : s = t := by
  by_contra hne
  have hapart : Range.Apart s t := h.apart.forall hs ht hne
  have hspos := (h.fits s hs).pos
  have htpos := (h.fits t ht).pos
  unfold Range.Apart at hapart
  omega

/-- Taking the ranges `l` of the memory `r` one by one amounts to having allocated them: the nodes are the tiling with
them in use, no node grows over one in use, and when all are given back one free node is left. -/
def RebuildsAs (r : Range) (l : List Range) : Prop :=
  ∃ a, (create r.1 r.2).allocAll l = .ok a ∧ Rebuilt a r l ∧
    (∀ b : RangeAllocator, Rebuilt b r l → b.blocks = a.blocks) ∧
    ∀ fs, (∀ f ∈ fs, f ∈ l) → ∃ b, a.freeAll fs = .ok b ∧
      (∀ s ∈ l, s ∉ fs → b.Used s.1 s.2 ∧ ∀ i ∈ b.tree.toList,
        (b.addr i, b.size i) = s ∨ Range.Apart (b.addr i, b.size i) s) ∧
      ((∀ s ∈ l, s ∈ fs) →
        ∃ i, b.tree.toList = [i] ∧ b.addr i = r.1 ∧ b.size i = r.2 ∧ b.isFree i = true)

theorem create_rebuilt (hr : r.Valid) : Rebuilt (create r.1 r.2) r [] := by
  refine ⟨create_partitioned hr, fun x n => ?_⟩
  simp [Used, create, isFree, MemoryRegion.new]

theorem Rebuilt.congr {m : List Range} (h : Rebuilt a r l) (hmem : ∀ s, s ∈ m ↔ s ∈ l) : Rebuilt a r m :=
  ⟨h.partitioned, fun x n => by rw [h.used, hmem]⟩

theorem Rebuilt.freeAll (h : Rebuilt a r l) (hl : AllFit r done l) {fs : List Range} (hfs : ∀ f ∈ fs, f ∈ l) :
    ∃ b, a.freeAll fs = .ok b ∧ (∀ s ∈ l, s ∉ fs → b.Used s.1 s.2 ∧ ∀ i ∈ b.tree.toList,
        (b.addr i, b.size i) = s ∨ Range.Apart (b.addr i, b.size i) s) ∧ ((∀ s ∈ l, s ∈ fs) →
        ∃ i, b.tree.toList = [i] ∧ b.addr i = r.1 ∧ b.size i = r.2 ∧ b.isFree i = true) := by
  obtain ⟨b, heq, hpart, hused⟩ := freeAll_spec h.partitioned fs
  refine ⟨b, heq, fun s hs hnot => ?_, fun hall => hpart.single fun x n hx => ?_⟩
  · have hsb : b.Used s.1 s.2 := by
      rw [hused, h.used]
      refine ⟨hs, fun hmem => ?_⟩
      obtain ⟨f, hf, hfst⟩ := List.mem_map.mp hmem
      exact hnot (hl.eq_of_fst (hfs f hf) hs hfst ▸ hf)
    refine ⟨hsb, fun i hi => ?_⟩
    obtain ⟨j, hj, -, hx, hn⟩ := hsb
    by_cases hij : i = j
    · subst hij
      exact Or.inl (Prod.ext hx hn)
    · have hdisj := hpart.disjoint hi hj hij
      rw [hx, hn] at hdisj
      exact Or.inr hdisj
  · rw [hused, h.used] at hx
    exact hx.2 (List.mem_map.mpr ⟨_, hall _ hx.1, rfl⟩)

theorem allocAll_eq_error (hr : r.1 + r.2 = 2 ^ 64) (s : Range) (l : List Range) :
    (create r.1 r.2).allocAll (s :: l) = .error .noContainingRegion := by
  have hnone : (create r.1 r.2).findContainingRegion s.1 = none := by
    cases hfind : (create r.1 r.2).findContainingRegion s.1 with
    | none => rfl
    | some i =>
      obtain ⟨hi, hin⟩ := AvlNode.search_eq_some hfind
      have hi' : i = 0 := by simpa [create] using hi
      subst hi'
      have hwrap : add64 ((create r.1 r.2).addr 0) ((create r.1 r.2).size 0) = 0 := by
        simp [create, addr, size, MemoryRegion.new, add64, hr]
      simp [hwrap] at hin
  simp [allocAll, allocAt, hnone, bind, Except.bind]

/-- The rebuilt allocator is the one that allocated the ranges exactly when each lies above the earlier ones or fills a
gap, and the memory ends below the last address. -/
theorem rebuildsAs_iff (r : Range) (hr : r.Valid) (l : List Range)
    (hin : ∀ s ∈ l, 0 < s.2 ∧ r.1 ≤ s.1 ∧ s.1 + s.2 ≤ r.1 + r.2) (hapart : l.Pairwise Range.Apart) :
    RebuildsAs r l ↔ InOrder r [] l ∧ (l = [] ∨ r.1 + r.2 < 2 ^ 64) := by
  have hl : AllFit r [] l :=
    ⟨fun s hs => ⟨(hin s hs).1, (hin s hs).2.1, (hin s hs).2.2, by simp⟩, hapart⟩
  have hnew := create_rebuilt hr
  constructor
  · rintro ⟨a, heq, ha, -⟩
    cases l with
    | nil => exact ⟨trivial, Or.inl rfl⟩
    | cons s l =>
      have hend : r.1 + r.2 < 2 ^ 64 := by
        refine lt_of_le_of_ne hr.2.2 fun hlast => ?_
        rw [allocAll_eq_error hlast] at heq
        cases heq
      refine ⟨?_, Or.inr hend⟩
      by_contra horder
      obtain ⟨a', heq', hstale⟩ := hnew.stale hend hl horder
      cases heq.symm.trans heq'
      exact hstale.not_tiled ha.partitioned.toTiled
  · rintro ⟨horder, hend⟩
    obtain ⟨a, heq, ha⟩ : ∃ a, (create r.1 r.2).allocAll l = .ok a ∧ Rebuilt a r l := by
      rcases hend with rfl | hend
      · exact ⟨_, rfl, hnew⟩
      · obtain ⟨a, heq, ha⟩ := hnew.allocAll hend hl horder
        exact ⟨a, heq, ha.congr (by simp)⟩
    exact ⟨a, heq, ha, fun b hb => hb.unique ha, fun fs hfs => ha.freeAll hl hfs⟩

theorem rebuildsAs_filledGap : RebuildsAs (0x1000, 0x100) [(0x1000, 16), (0x1020, 16), (0x1010, 16)] :=
  (rebuildsAs_iff (0x1000, 0x100) (by decide) _ (by decide) (by decide)).mpr ⟨by decide, Or.inr (by decide)⟩

/-- Two ranges in the reverse order: when the upper one is given back, the node at the start of the memory
grows over the lower one, which is still in use. -/
theorem not_rebuildsAs_reversed : ¬ RebuildsAs (0x1000, 100) [(0x1050, 10), (0x1014, 10)] := by
  rintro ⟨a, heq, -, -, hfree⟩
  obtain ⟨b, heqb, hstill, -⟩ := hfree [(0x1050, 10)] (by decide)
  have hnode := (hstill (0x1014, 10) (by decide) (by decide)).2
  have hrun : (((create 0x1000 100).allocAll [(0x1050, 10), (0x1014, 10)]).bind fun a =>
      (a.freeAll [(0x1050, 10)]).map fun b => decide (∀ i ∈ b.tree.toList,
        (b.addr i, b.size i) = (0x1014, 10) ∨ Range.Apart (b.addr i, b.size i) (0x1014, 10))).toOption = some false := by
    decide +kernel
  rw [heq] at hrun
  simp only [Except.bind, heqb, Except.map, Except.toOption] at hrun
  exact of_decide_eq_false (Option.some.inj hrun) hnode

end RangeAllocator

end Comanche.Core
