import Comanche.Lib.Run
import Mathlib.Algebra.Group.Nat.Defs
import Mathlib.Data.List.Pairwise
import Mathlib.Data.List.Perm.Basic
import Mathlib.Data.Nat.Log

/-!
# The block allocator

`Block_allocator` divides the blocks of a device into segments of 2 GB.
-/

namespace Comanche.Block.BlockAllocator

open Lib

structure Range where
  free : Bool
  lba : Nat
  lbCount : Nat

structure Segment where
  ranges : List Range

def lbaRangePerSegment : Nat := 524288

/-- The number of slots that fit into a page of 4 KB behind the header of 40 bytes. -/
def numSlots : Nat := (4096 - 40) / 12

def maskBase (lba : Nat) : Nat := if lba.testBit 31 then lba - 2 ^ 31 else lba

def Segment.new (lbaBegin : Nat) : Segment := ⟨[⟨true, maskBase lbaBegin, lbaRangePerSegment⟩]⟩

/-- `scan_largest_free`, from slot `i` on. The size of the largest range is kept in 16 bits. -/
def scanFrom : List Range → Nat → Nat → Option Nat → Option Nat
  | [], _, _, largest => largest
  | r :: rs, i, size, largest =>
    if r.free = true ∧ size < r.lbCount then scanFrom rs (i + 1) (r.lbCount % 2 ^ 16) (some i)
    else scanFrom rs (i + 1) size largest

def Segment.scanLargestFree (seg : Segment) : Option Nat := scanFrom seg.ranges 0 0 none

def Segment.largest (seg : Segment) : Option (Nat × Range) :=
  seg.scanLargestFree.bind fun i => (seg.ranges[i]?).map (i, ·)

def Segment.maxAllocation (seg : Segment) : Nat :=
  match seg.largest with
  | none => 0
  | some (_, r) => r.lbCount

inductive Alloc where
  | done (seg : Segment) (lba : Nat)
  | empty
  | thrown
  /-- Without a free range `alloc` calls `dump_info`, which waits for the lock that `alloc` holds. -/
  | stops

def Segment.put (ranges : List Range) (entry : Range) : List Range :=
  match ranges.findIdx? fun r => r.lbCount = 0 with
  | some j => ranges.set j entry
  | none => ranges ++ [entry]

def Segment.allocateFrom (seg : Segment) (i : Nat) (r : Range) (count : Nat) : Alloc :=
  if count = r.lbCount then .done ⟨seg.ranges.set i { r with free := false }⟩ r.lba
  else if numSlots = seg.ranges.length then .thrown
  else .done
    ⟨(Segment.put seg.ranges ⟨false, r.lba, count⟩).set i ⟨true, r.lba + count, r.lbCount - count⟩⟩ r.lba

def Segment.alloc (seg : Segment) (count : Nat) : Alloc :=
  match seg.largest with
  | none => .stops
  | some (i, r) => if r.lbCount < count then .empty else seg.allocateFrom i r count

def Segment.release (seg : Segment) (lba : Nat) : Option Segment :=
  (seg.ranges.findIdx? fun r => r.lba = lba).bind fun i =>
    (seg.ranges[i]?).map fun r => ⟨seg.ranges.set i { r with free := true }⟩

def sizeToBin (size : Nat) : Option Nat := if size = 0 then none else some (Nat.log 2 size + 1)

def binToSize (bin : Nat) : Nat := ((1#32 <<< (bin % 32)).signExtend 64).toNat

structure Live where
  lba : Nat
  count : Nat
  handle : Nat
  deriving DecidableEq

/-- `vofsl` are the queues. `fault` is set when the bin of a segment is not defined, or not an index of
`_vofsl`. -/
structure State where
  maxLba : Nat
  segments : List Segment
  vofsl : List (List Nat)
  live : List Live
  fault : Bool

def lastBinIndex (maxLba : Nat) : Nat := Nat.log 2 maxLba + 1

def numSegments (maxLba : Nat) : Nat := maxLba / lbaRangePerSegment + 1

/-- The constructor, over memory that was not used before. All segments start in the last bin but one. -/
def State.new (maxLba : Nat) : State :=
  { maxLba := maxLba
    segments := (List.range (numSegments maxLba)).map fun k => Segment.new (k * lbaRangePerSegment)
    vofsl := (List.replicate (lastBinIndex maxLba + 2) []).set (lastBinIndex maxLba) (List.range (numSegments maxLba))
    live := []
    fault := false }

inductive Found where
  | done (k : Nat) (seg : Segment) (lba : Nat) (queue : List Nat)
  | none (queue : List Nat)
  | thrown (queue : List Nat)
  | stops

/-- A queue is turned until a segment serves the request. When the first one comes again it has been taken from
the queue, and it is not put back. -/
def tryQueue (segments : List Segment) (count : Nat) : List Nat → List Nat → Found
  | [], tried => .none tried.tail
  | k :: rest, tried =>
    match (segments[k]?).map (Segment.alloc · count) with
    | some (.done seg lba) => .done k seg lba (rest ++ tried)
    | some .empty => tryQueue segments count rest (tried ++ [k])
    | some .thrown | Option.none => .thrown (rest ++ tried)
    | some .stops => .stops

def State.setQueue (s : State) (b : Nat) (queue : List Nat) : State := { s with vofsl := s.vofsl.set b queue }

def State.putBack (s : State) (k : Nat) : Option Nat → State
  | none => { s with fault := true }
  | some bin =>
    match s.vofsl[bin]? with
    | none => { s with fault := true }
    | some queue => s.setQueue bin (queue ++ [k])

def State.take (s : State) (k : Nat) (seg : Segment) (lba count : Nat) : State :=
  { s with segments := s.segments.set k seg, live := s.live ++ [⟨lba, count, k⟩] }

def allocFrom (count : Nat) : Nat → State → Option State
  | 0, s => some s
  | b + 1, s =>
    if binToSize (b + 1) < count then some s
    else match tryQueue s.segments count (s.vofsl.getD (b + 1) []) [] with
      | .done k seg lba queue =>
        some (((s.setQueue (b + 1) queue).take k seg lba count).putBack k (sizeToBin seg.maxAllocation))
      | .none queue => allocFrom count b (s.setQueue (b + 1) queue)
      | .thrown queue => some (s.setQueue (b + 1) queue)
      | .stops => Option.none

def alloc (count : Nat) (s : State) : Option State := allocFrom count (lastBinIndex s.maxLba) s

def releaseFrom (lba : Nat) : List Segment → Option (List Segment)
  | [] => none
  | seg :: segs =>
    match seg.release lba with
    | some seg' => some (seg' :: segs)
    | none => (releaseFrom lba segs).map (seg :: ·)

/-- The segments after `free`, with the handle or without. It throws when the range is not found. -/
def releaseIn (segments : List Segment) (a : Live) (withHandle : Bool) : Option (List Segment) :=
  if withHandle then (segments[a.handle]?).bind fun seg => (seg.release a.lba).map (segments.set a.handle)
  else releaseFrom a.lba segments

def free (j : Nat) (withHandle : Bool) (s : State) : Option State :=
  (s.live[j]?).bind fun a =>
    some { s with
      segments := (releaseIn s.segments a withHandle).getD s.segments
      live := s.live.eraseIdx j }

inductive Event where
  | alloc (count : Nat)
  | free (j : Nat) (withHandle : Bool)

/-- There is no step after a fault, none for an empty allocation, and none for what is not live. -/
def step (s : State) : Event → Option State
  | .alloc count => if s.fault ∨ count = 0 then none else alloc count s
  | .free j withHandle => if s.fault then none else free j withHandle s

def Apart (a b : Live) : Prop := a.lba + a.count ≤ b.lba ∨ b.lba + b.count ≤ a.lba

structure State.Fine (s : State) : Prop where
  inside : ∀ a ∈ s.live, a.lba + a.count ≤ s.maxLba + 1
  apart : s.live.Pairwise Apart
  bin : s.fault = false

def Holds (s : State) (e : Event) : Prop := ∀ s' ∈ step s e, s'.Fine

/-- There are enough bins, no segment gives away its last free blocks, and a range that is large enough begins early
enough. -/
def Spare (maxLba count : Nat) (segments : List Segment) : Prop :=
  2 ^ 17 ≤ maxLba ∧ ∀ seg ∈ segments, (seg.ranges.filter Range.free).map Range.lbCount ≠ [count] ∧
    ∀ r ∈ seg.ranges, r.free = true → count ≤ r.lbCount → r.lba + count ≤ maxLba + 1

def Safe (s : State) : Event → Prop
  | .alloc count => Spare s.maxLba count s.segments
  | .free _ _ => True

instance (s : State) (e : Event) : Decidable (Safe s e) := by
  unfold Safe Spare
  split <;> infer_instance

def Range.Apart (r r' : Range) : Prop := r.lba + r.lbCount ≤ r'.lba ∨ r'.lba + r'.lbCount ≤ r.lba

variable {r r' : Range} {rs : List Range} {j n size : Nat} {a : Live} {segments : List Segment}

theorem Range.Apart.symm (h : r.Apart r') : r'.Apart r := Or.symm h

instance : Std.Symm Range.Apart := ⟨fun _ _ => Range.Apart.symm⟩

structure Range.Within (r' r : Range) : Prop where
  positive : 0 < r'.lbCount
  lower : r.lba ≤ r'.lba
  upper : r'.lba + r'.lbCount ≤ r.lba + r.lbCount

theorem Range.Apart.within {u : Range} (h : u.Apart r) (hwithin : r'.Within r) : u.Apart r' := by
  obtain ⟨-, hlower, hupper⟩ := hwithin
  unfold Range.Apart at h ⊢
  omega

structure Segment.Inv (seg : Segment) (base : Nat) : Prop where
  inside : ∀ r ∈ seg.ranges, base ≤ r.lba ∧ r.lba + r.lbCount ≤ base + lbaRangePerSegment
  positive : ∀ r ∈ seg.ranges, 0 < r.lbCount
  apart : seg.ranges.Pairwise Range.Apart

variable {seg seg' : Segment} {base lba count i : Nat} {r : Range}

theorem Segment.Inv.apart_of_ne (h : seg.Inv base) (hr : r ∈ seg.ranges) (hr' : r' ∈ seg.ranges) (hne : r ≠ r') :
    r.Apart r' :=
  h.apart.forall hr hr' hne

theorem Segment.Inv.refine {rest : List Range} (h : seg.Inv base) (parts : List Range) (hold : seg.ranges.Perm (r :: rest))
    (hnew : seg'.ranges.Perm (parts ++ rest)) (hwithin : ∀ r' ∈ parts, r'.Within r) (hapart : parts.Pairwise Range.Apart) :
    seg'.Inv base := by
  obtain ⟨hr, hrest⟩ := List.pairwise_cons.mp ((hold.pairwise_iff fun h => h.symm).mp h.apart)
  have hmem {r' : Range} (hr' : r' ∈ seg'.ranges) : r' ∈ parts ∨ r' ∈ seg.ranges := by
    obtain hr' | hr' := List.mem_append.mp (hnew.mem_iff.mp hr')
    · exact Or.inl hr'
    · exact Or.inr (hold.mem_iff.mpr (List.mem_cons_of_mem r hr'))
  obtain ⟨hlower, hupper⟩ := h.inside r (hold.mem_iff.mpr List.mem_cons_self)
  refine ⟨fun r' hr' => ?_, fun r' hr' => ?_, ?_⟩
  · obtain hr' | hr' := hmem hr'
    · have hwithin := hwithin r' hr'
      exact ⟨Nat.le_trans hlower hwithin.lower, Nat.le_trans hwithin.upper hupper⟩
    · exact h.inside r' hr'
  · obtain hr' | hr' := hmem hr'
    · exact (hwithin r' hr').positive
    · exact h.positive r' hr'
  · refine (hnew.pairwise_iff fun h => h.symm).mpr (List.pairwise_append.mpr ⟨hapart, hrest, fun r' hr' u hu => ?_⟩)
    exact ((hr u hu).symm.within (hwithin r' hr')).symm

theorem perm_of_getElem? {l : List Range} (hr : l[i]? = some r) : l.Perm (r :: l.eraseIdx i) := by
  obtain ⟨hi, rfl⟩ := List.getElem?_eq_some_iff.mp hr
  exact (List.getElem_cons_eraseIdx_perm hi).symm

theorem set_perm {l : List Range} (hr : l[i]? = some r) (r' : Range) : (l.set i r').Perm (r' :: l.eraseIdx i) :=
  List.set_perm_cons_eraseIdx (List.getElem?_eq_some_iff.mp hr).1 r'

theorem scanFrom_eq_some {largest : Option Nat} (h : scanFrom rs n size largest = some j) :
    largest = some j ∨ ∃ m r, j = n + m ∧ rs[m]? = some r ∧ r.free = true := by
  induction rs generalizing n size largest with
  | nil => exact Or.inl h
  | cons r rs ih =>
    have hshift {m : Nat} {r' : Range} (hj : j = n + 1 + m) (hr' : rs[m]? = some r') (hfree : r'.free = true) :
        ∃ m r', j = n + m ∧ (r :: rs)[m]? = some r' ∧ r'.free = true := ⟨m + 1, r', by omega, hr', hfree⟩
    unfold scanFrom at h
    split at h
    · rename_i hfree
      obtain heq | ⟨m, r', hj, hr', hfree'⟩ := ih h
      · exact Or.inr ⟨0, r, (Option.some.inj heq).symm, rfl, hfree.1⟩
      · exact Or.inr (hshift hj hr' hfree')
    · obtain heq | ⟨m, r', hj, hr', hfree'⟩ := ih h
      · exact Or.inl heq
      · exact Or.inr (hshift hj hr' hfree')

theorem scanFrom_ne_none : scanFrom rs n size (some j) ≠ none := by
  induction rs generalizing n size j with
  | nil => exact Option.some_ne_none j
  | cons r rs ih =>
    unfold scanFrom
    split
    · exact ih
    · exact ih

theorem scanFrom_eq_none {largest : Option Nat} (h : scanFrom rs n size largest = none) :
    ∀ r ∈ rs, r.free = true → r.lbCount ≤ size := by
  induction rs generalizing n size largest with
  | nil => exact fun _ hr => nomatch hr
  | cons r rs ih =>
    unfold scanFrom at h
    split at h
    · exact absurd h scanFrom_ne_none
    · rename_i hnot
      refine List.forall_mem_cons.mpr ⟨fun hfree => ?_, ih h⟩
      exact Nat.le_of_not_lt fun hlt => hnot ⟨hfree, hlt⟩

theorem Segment.largest_eq_some (h : seg.largest = some (i, r)) : seg.ranges[i]? = some r ∧ r.free = true := by
  obtain ⟨j, hscan, hj⟩ := Option.bind_eq_some_iff.mp h
  obtain ⟨r', hr', heq⟩ := Option.map_eq_some_iff.mp hj
  obtain ⟨rfl, rfl⟩ := Prod.mk.inj heq
  obtain hnone | ⟨m, r'', hm, hr'', hfree⟩ := scanFrom_eq_some hscan
  · cases hnone
  · obtain rfl : m = j := by omega
    obtain rfl := Option.some.inj (hr'.symm.trans hr'')
    exact ⟨hr', hfree⟩

theorem Segment.maxAllocation_pos (h : seg.Inv base) (hr : r ∈ seg.ranges) (hfree : r.free = true) : 0 < seg.maxAllocation := by
  unfold Segment.maxAllocation
  cases hlargest : seg.largest with
  | some p =>
    obtain ⟨j, r'⟩ := p
    exact h.positive r' (List.mem_of_getElem? (Segment.largest_eq_some hlargest).1)
  | none =>
    have hpos := h.positive r hr
    cases hscan : seg.scanLargestFree with
    | none => exact absurd (scanFrom_eq_none hscan r hr hfree) (Nat.not_le.mpr hpos)
    | some j =>
      obtain hnone | ⟨m, r', hm, hr', -⟩ := scanFrom_eq_some hscan
      · cases hnone
      · obtain rfl : m = j := by omega
        unfold Segment.largest at hlargest
        rw [hscan, Option.bind_some, hr'] at hlargest
        cases hlargest

structure Cut (seg seg' : Segment) (base lba count : Nat) : Prop where
  inv : seg'.Inv base
  entry : ⟨false, lba, count⟩ ∈ seg'.ranges
  keeps : ∀ u ∈ seg.ranges, u.free = false → u ∈ seg'.ranges
  origin : ∃ r ∈ seg.ranges, r.free = true ∧ count ≤ r.lbCount ∧ r.lba = lba
  spare : (seg.ranges.filter Range.free).map Range.lbCount ≠ [count] → ∃ r ∈ seg'.ranges, r.free = true

theorem Segment.Inv.cut_exact (h : seg.Inv base) (hr : seg.ranges[i]? = some r) (hfree : r.free = true) :
    Cut seg ⟨seg.ranges.set i { r with free := false }⟩ base r.lba r.lbCount := by
  have hmem := List.mem_of_getElem? hr
  have hold := perm_of_getElem? hr
  have hnew := set_perm hr { r with free := false }
  refine ⟨h.refine [{ r with free := false }] hold hnew ?_ (List.pairwise_singleton ..), ?_, fun u hu hused => ?_,
    ⟨r, hmem, hfree, Nat.le_refl _, rfl⟩, fun hspare => ?_⟩
  · exact List.forall_mem_singleton.mpr ⟨h.positive r hmem, Nat.le_refl _, Nat.le_refl _⟩
  · exact hnew.mem_iff.mpr List.mem_cons_self
  · obtain rfl | hu := List.mem_cons.mp (hold.mem_iff.mp hu)
    · exact absurd (hfree.symm.trans hused) Bool.noConfusion
    · exact hnew.mem_iff.mpr (List.mem_cons_of_mem _ hu)
  · -- the other free ranges
    by_contra hnone
    refine hspare ?_
    have hrest : (seg.ranges.eraseIdx i).filter Range.free = [] := by
      refine List.filter_eq_nil_iff.mpr fun u hu hufree => hnone ⟨u, ?_, hufree⟩
      exact hnew.mem_iff.mpr (List.mem_cons_of_mem _ hu)
    have hperm := hold.filter Range.free
    rw [List.filter_cons_of_pos hfree, hrest] at hperm
    rw [List.perm_singleton.mp hperm]
    rfl

theorem Segment.Inv.cut_front (h : seg.Inv base) (hr : seg.ranges[i]? = some r) (hfree : r.free = true) (hcount : 0 < count)
    (hlt : count < r.lbCount) :
    Cut seg ⟨(Segment.put seg.ranges ⟨false, r.lba, count⟩).set i ⟨true, r.lba + count, r.lbCount - count⟩⟩ base r.lba count := by
  have hmem := List.mem_of_getElem? hr
  have hold := perm_of_getElem? hr
  have hput : Segment.put seg.ranges ⟨false, r.lba, count⟩ = seg.ranges ++ [⟨false, r.lba, count⟩] := by
    -- no slot below the tail has a count of zero
    have hnone : (seg.ranges.findIdx? fun r => r.lbCount = 0) = none := by
      refine List.findIdx?_eq_none_iff.mpr fun u hu => decide_eq_false (Nat.ne_of_gt (h.positive u hu))
    unfold Segment.put
    rw [hnone]
  have hnew : (((Segment.put seg.ranges ⟨false, r.lba, count⟩).set i ⟨true, r.lba + count, r.lbCount - count⟩).Perm
      ([⟨false, r.lba, count⟩, ⟨true, r.lba + count, r.lbCount - count⟩] ++ seg.ranges.eraseIdx i)) := by
    rw [hput, List.set_append_left i _ (List.getElem?_eq_some_iff.mp hr).1]
    exact List.perm_append_comm.trans ((set_perm hr _).cons _)
  refine ⟨h.refine _ hold hnew ?_ ?_, ?_, fun u hu hused => ?_, ⟨r, hmem, hfree, Nat.le_of_lt hlt, rfl⟩, fun _ => ?_⟩
  · refine List.forall_mem_cons.mpr ⟨⟨hcount, Nat.le_refl _, ?_⟩, List.forall_mem_singleton.mpr ⟨?_, ?_, ?_⟩⟩
    · change r.lba + count ≤ r.lba + r.lbCount
      omega
    · change 0 < r.lbCount - count
      omega
    · exact Nat.le_add_right _ _
    · change r.lba + count + (r.lbCount - count) ≤ r.lba + r.lbCount
      omega
  · exact List.pairwise_pair.mpr (Or.inl (Nat.le_refl _))
  · exact hnew.mem_iff.mpr List.mem_cons_self
  · obtain rfl | hu := List.mem_cons.mp (hold.mem_iff.mp hu)
    · exact absurd (hfree.symm.trans hused) Bool.noConfusion
    · exact hnew.mem_iff.mpr (List.mem_append_right _ hu)
  · exact ⟨_, hnew.mem_iff.mpr (List.mem_cons_of_mem _ List.mem_cons_self), rfl⟩

theorem Segment.Inv.alloc (h : seg.Inv base) (hcount : 0 < count) (halloc : seg.alloc count = .done seg' lba) :
    Cut seg seg' base lba count := by
  unfold Segment.alloc at halloc
  cases hlargest : seg.largest with
  | none =>
    rw [hlargest] at halloc
    cases halloc
  | some p =>
    obtain ⟨i, r⟩ := p
    obtain ⟨hr, hfree⟩ := Segment.largest_eq_some hlargest
    rw [hlargest] at halloc
    change ite _ _ _ = _ at halloc
    split at halloc
    · cases halloc
    · rename_i hle
      unfold Segment.allocateFrom at halloc
      split at halloc
      · rename_i heq
        obtain ⟨rfl, rfl⟩ := Alloc.done.inj halloc
        exact heq ▸ h.cut_exact hr hfree
      · split at halloc
        · cases halloc
        · obtain ⟨rfl, rfl⟩ := Alloc.done.inj halloc
          exact h.cut_front hr hfree hcount (by omega)

theorem Cut.apart (hcut : Cut seg seg' base lba count) (h : seg.Inv base) (hcount : 0 < count) {u : Range} (hu : u ∈ seg.ranges)
    (hused : u.free = false) : u.Apart ⟨false, lba, count⟩ := by
  obtain ⟨r, hr, hfree, hle, rfl⟩ := hcut.origin
  have hne : u ≠ r := by
    rintro rfl
    exact absurd (hfree.symm.trans hused) Bool.noConfusion
  exact (h.apart_of_ne hu hr hne).within ⟨hcount, Nat.le_refl _, Nat.add_le_add_left hle _⟩

theorem Cut.maxAllocation_lt (hcut : Cut seg seg' base lba count) (hcount : 0 < count) :
    seg'.maxAllocation < lbaRangePerSegment := by
  unfold Segment.maxAllocation
  cases hlargest : seg'.largest with
  | none => exact Nat.succ_pos _
  | some p =>
    obtain ⟨i, r⟩ := p
    obtain ⟨hr, hfree⟩ := Segment.largest_eq_some hlargest
    have hmem := List.mem_of_getElem? hr
    have hne : r ≠ ⟨false, lba, count⟩ := by
      rintro rfl
      exact Bool.noConfusion hfree
    have hapart := hcut.inv.apart_of_ne hmem hcut.entry hne
    have hinside := hcut.inv.inside r hmem
    have hentry := hcut.inv.inside _ hcut.entry
    unfold Range.Apart at hapart
    change r.lbCount < _
    change base ≤ lba ∧ lba + count ≤ _ at hentry
    change r.lba + r.lbCount ≤ lba ∨ lba + count ≤ r.lba at hapart
    omega

structure State.Inv (s : State) : Prop where
  tables : ∀ (k : Nat) (seg : Segment), s.segments[k]? = some seg → seg.Inv (k * lbaRangePerSegment)
  bins : s.vofsl.length = lastBinIndex s.maxLba + 2
  held : ∀ a ∈ s.live, ∃ seg, s.segments[a.handle]? = some seg ∧ ⟨false, a.lba, a.count⟩ ∈ seg.ranges
  fine : s.Fine

variable {s s' : State} {k : Nat}

theorem Apart.symm {b : Live} (h : Apart a b) : Apart b a := Or.symm h

theorem State.Inv.setQueue (h : s.Inv) (b : Nat) (queue : List Nat) : (s.setQueue b queue).Inv :=
  ⟨h.tables, List.length_set.trans h.bins, h.held, ⟨h.fine.inside, h.fine.apart, h.fine.bin⟩⟩

theorem State.Inv.apart_of_cut (h : s.Inv) (hcount : 0 < count) (hseg : s.segments[k]? = some seg)
    (hcut : Cut seg seg' (k * lbaRangePerSegment) lba count) (ha : a ∈ s.live) : Apart a ⟨lba, count, k⟩ := by
  obtain ⟨seg₁, hseg₁, hmem⟩ := h.held a ha
  have hinv := h.tables k seg hseg
  by_cases hk : a.handle = k
  · obtain rfl := Option.some.inj (hseg.symm.trans (hk ▸ hseg₁))
    exact hcut.apart hinv hcount hmem rfl
  · -- ranges of different segments
    obtain ⟨hlower, hupper⟩ := (h.tables _ seg₁ hseg₁).inside _ hmem
    obtain ⟨hlower', hupper'⟩ := hcut.inv.inside _ hcut.entry
    unfold lbaRangePerSegment at hlower hupper hlower' hupper'
    change a.handle * 524288 ≤ a.lba at hlower
    change a.lba + a.count ≤ a.handle * 524288 + 524288 at hupper
    change k * 524288 ≤ lba at hlower'
    change lba + count ≤ k * 524288 + 524288 at hupper'
    change a.lba + a.count ≤ lba ∨ lba + count ≤ a.lba
    omega

theorem State.Inv.tables_set (h : s.Inv) (hseg : s.segments[k]? = some seg) (hinv : seg'.Inv (k * lbaRangePerSegment)) (k' : Nat)
    (seg₁ : Segment) (hseg₁ : (s.segments.set k seg')[k']? = some seg₁) : seg₁.Inv (k' * lbaRangePerSegment) := by
  by_cases hk : k = k'
  · subst hk
    rw [List.getElem?_set_self (List.getElem?_eq_some_iff.mp hseg).1] at hseg₁
    exact Option.some.inj hseg₁ ▸ hinv
  · rw [List.getElem?_set_ne hk] at hseg₁
    exact h.tables k' seg₁ hseg₁

theorem State.Inv.held_set (h : s.Inv) (hseg : s.segments[k]? = some seg) (ha : a ∈ s.live)
    (hkeeps : ⟨false, a.lba, a.count⟩ ∈ seg.ranges → ⟨false, a.lba, a.count⟩ ∈ seg'.ranges) :
    ∃ seg₁, (s.segments.set k seg')[a.handle]? = some seg₁ ∧ ⟨false, a.lba, a.count⟩ ∈ seg₁.ranges := by
  obtain ⟨seg₁, hseg₁, hmem⟩ := h.held a ha
  by_cases hk : k = a.handle
  · obtain rfl := Option.some.inj (hseg.symm.trans (hk ▸ hseg₁))
    rw [← hk, List.getElem?_set_self (List.getElem?_eq_some_iff.mp hseg).1]
    exact ⟨seg', rfl, hkeeps hmem⟩
  · rw [List.getElem?_set_ne hk]
    exact ⟨seg₁, hseg₁, hmem⟩

theorem State.Inv.take (h : s.Inv) (hcount : 0 < count) (hseg : s.segments[k]? = some seg)
    (hcut : Cut seg seg' (k * lbaRangePerSegment) lba count) (hinside : lba + count ≤ s.maxLba + 1) :
    (s.take k seg' lba count).Inv := by
  refine ⟨h.tables_set hseg hcut.inv, h.bins, fun a ha => ?_, ⟨fun a ha => ?_, ?_, h.fine.bin⟩⟩
  · obtain ha | ha := List.mem_append.mp ha
    · exact h.held_set hseg ha fun hmem => hcut.keeps _ hmem rfl
    · obtain rfl := List.mem_singleton.mp ha
      exact ⟨seg', List.getElem?_set_self (List.getElem?_eq_some_iff.mp hseg).1, hcut.entry⟩
  · obtain ha | ha := List.mem_append.mp ha
    · exact h.fine.inside a ha
    · obtain rfl := List.mem_singleton.mp ha
      exact hinside
  · refine List.pairwise_append.mpr ⟨h.fine.apart, List.pairwise_singleton .., fun a ha b hb => ?_⟩
    obtain rfl := List.mem_singleton.mp hb
    exact h.apart_of_cut hcount hseg hcut ha

theorem State.Inv.putBack (h : s.Inv) (hbins : 2 ^ 17 ≤ s.maxLba) (hpos : 0 < size) (hlt : size < lbaRangePerSegment)
    (k : Nat) : (s.putBack k (sizeToBin size)).Inv := by
  have hlog : Nat.log 2 size ≤ 18 := Nat.lt_succ_iff.mp (Nat.log_lt_of_lt_pow (Nat.ne_of_gt hpos) hlt)
  have hmax : 17 ≤ Nat.log 2 s.maxLba := Nat.le_log_of_pow_le Nat.one_lt_two hbins
  have hbin : Nat.log 2 size + 1 < s.vofsl.length := by
    rw [h.bins]
    unfold lastBinIndex
    omega
  unfold sizeToBin
  rw [if_neg (Nat.ne_of_gt hpos)]
  rw [State.putBack, List.getElem?_eq_getElem hbin]
  exact h.setQueue _ _

theorem tryQueue_done {queue tried queue' : List Nat}
    (h : tryQueue segments count queue tried = .done k seg' lba queue') :
    ∃ seg, segments[k]? = some seg ∧ seg.alloc count = .done seg' lba := by
  induction queue generalizing tried with
  | nil => cases h
  | cons k₁ queue ih =>
    unfold tryQueue at h
    split at h
    · rename_i hseg
      obtain ⟨rfl, rfl, rfl, -⟩ := Found.done.inj h
      exact Option.map_eq_some_iff.mp hseg
    · exact ih h
    · cases h
    · cases h
    · cases h

theorem State.Inv.allocFrom (h : s.Inv) (hcount : 0 < count) (hspare : Spare s.maxLba count s.segments) {b : Nat}
    (hs' : s' ∈ allocFrom count b s) : s'.Inv := by
  induction b generalizing s with
  | zero => exact Option.some.inj hs' ▸ h
  | succ b ih =>
    unfold BlockAllocator.allocFrom at hs'
    split at hs'
    · exact Option.some.inj hs' ▸ h
    · split at hs'
      · rename_i k seg' lba queue hfound
        obtain ⟨seg, hseg, halloc⟩ := tryQueue_done hfound
        have hcut := (h.tables k seg hseg).alloc hcount halloc
        obtain ⟨hother, hearly⟩ := hspare.2 seg (List.mem_of_getElem? hseg)
        obtain ⟨r, hr, hfree, hle, rfl⟩ := hcut.origin
        obtain ⟨u, hu, hufree⟩ := hcut.spare hother
        have htake := (h.setQueue (b + 1) queue).take hcount hseg hcut (hearly r hr hfree hle)
        refine Option.some.inj hs' ▸ htake.putBack hspare.1 ?_ (hcut.maxAllocation_lt hcount) k
        exact Segment.maxAllocation_pos hcut.inv hu hufree
      · exact ih (h.setQueue _ _) hspare hs'
      · exact Option.some.inj hs' ▸ h.setQueue _ _
      · cases hs'

theorem release_eq_some (h : seg.release lba = some seg') : ∃ i r, seg.ranges[i]? = some r ∧ r.lba = lba ∧
    seg' = ⟨seg.ranges.set i { r with free := true }⟩ := by
  obtain ⟨i, hi, hmap⟩ := Option.bind_eq_some_iff.mp h
  obtain ⟨r, hr, rfl⟩ := Option.map_eq_some_iff.mp hmap
  obtain ⟨hlt, hlba, -⟩ := List.findIdx?_eq_some_iff_getElem.mp hi
  obtain ⟨_, hget⟩ := List.getElem?_eq_some_iff.mp hr
  exact ⟨i, r, hr, hget ▸ of_decide_eq_true hlba, rfl⟩

theorem releaseFrom_eq_some {segments' : List Segment} (h : releaseFrom lba segments = some segments') :
    ∃ k seg seg', segments[k]? = some seg ∧ seg.release lba = some seg' ∧ segments' = segments.set k seg' := by
  induction segments generalizing segments' with
  | nil => cases h
  | cons seg segments ih =>
    unfold releaseFrom at h
    cases hrelease : seg.release lba with
    | some seg' =>
      rw [hrelease] at h
      exact ⟨0, seg, seg', rfl, hrelease, (Option.some.inj h).symm⟩
    | none =>
      rw [hrelease] at h
      obtain ⟨segments₁, hsegments₁, rfl⟩ := Option.map_eq_some_iff.mp h
      obtain ⟨k, seg₁, seg', hseg₁, hseg', rfl⟩ := ih hsegments₁
      exact ⟨k + 1, seg₁, seg', hseg₁, hseg', rfl⟩

theorem releaseIn_eq_some {segments' : List Segment} {withHandle : Bool}
    (h : releaseIn segments a withHandle = some segments') :
    ∃ k seg seg', segments[k]? = some seg ∧ seg.release a.lba = some seg' ∧ segments' = segments.set k seg' := by
  unfold releaseIn at h
  split at h
  · obtain ⟨seg, hseg, h⟩ := Option.bind_eq_some_iff.mp h
    obtain ⟨seg', hseg', rfl⟩ := Option.map_eq_some_iff.mp h
    exact ⟨a.handle, seg, seg', hseg, hseg', rfl⟩
  · exact releaseFrom_eq_some h

theorem Segment.Inv.release (h : seg.Inv base) (hrelease : seg.release lba = some seg') :
    seg'.Inv base ∧ ∀ u ∈ seg.ranges, u.lba ≠ lba → u ∈ seg'.ranges := by
  obtain ⟨i, r, hr, hlba, rfl⟩ := release_eq_some hrelease
  have hmem := List.mem_of_getElem? hr
  have hold := perm_of_getElem? hr
  have hnew := set_perm hr { r with free := true }
  refine ⟨h.refine [{ r with free := true }] hold hnew ?_ (List.pairwise_singleton ..), fun u hu hne => ?_⟩
  · exact List.forall_mem_singleton.mpr ⟨h.positive r hmem, Nat.le_refl _, Nat.le_refl _⟩
  · obtain rfl | hu := List.mem_cons.mp (hold.mem_iff.mp hu)
    · exact absurd hlba hne
    · exact hnew.mem_iff.mpr (List.mem_cons_of_mem _ hu)

theorem State.Inv.count_pos (h : s.Inv) (ha : a ∈ s.live) : 0 < a.count := by
  obtain ⟨seg, hseg, hmem⟩ := h.held a ha
  exact (h.tables _ seg hseg).positive _ hmem

theorem State.Inv.free (h : s.Inv) {withHandle : Bool} (hs' : s' ∈ free j withHandle s) : s'.Inv := by
  obtain ⟨a, ha, hs'⟩ := Option.bind_eq_some_iff.mp hs'
  cases hs'
  obtain ⟨hlt, rfl⟩ := List.getElem?_eq_some_iff.mp ha
  have hperm := (List.getElem_cons_eraseIdx_perm hlt).symm
  have hsub := List.eraseIdx_sublist s.live j
  -- the ranges that stay live begin elsewhere
  have hapart := (List.pairwise_cons.mp ((hperm.pairwise_iff fun h => Apart.symm h).mp h.fine.apart)).1
  have hne (b : Live) (hb : b ∈ s.live.eraseIdx j) : b.lba ≠ s.live[j].lba := by
    have hpos := h.count_pos (List.getElem_mem hlt)
    have hposb := h.count_pos (hsub.mem hb)
    have hapart := hapart b hb
    unfold Apart at hapart
    omega
  have hfine : ∀ b ∈ s.live.eraseIdx j, b.lba + b.count ≤ s.maxLba + 1 := fun b hb => h.fine.inside b (hsub.mem hb)
  cases hrelease : releaseIn s.segments s.live[j] withHandle with
  | none => exact ⟨h.tables, h.bins, fun b hb => h.held b (hsub.mem hb), ⟨hfine, h.fine.apart.sublist hsub, h.fine.bin⟩⟩
  | some segments' =>
    obtain ⟨k, seg, seg', hseg, hseg', rfl⟩ := releaseIn_eq_some hrelease
    obtain ⟨hinv, hkeeps⟩ := (h.tables k seg hseg).release hseg'
    exact ⟨h.tables_set hseg hinv, h.bins, fun b hb => h.held_set hseg (hsub.mem hb) fun hmem => hkeeps _ hmem (hne b hb),
      ⟨hfine, h.fine.apart.sublist hsub, h.fine.bin⟩⟩

theorem new_inv {maxLba : Nat} (hmax : maxLba < 2 ^ 31) : (State.new maxLba).Inv := by
  refine ⟨fun k seg hseg => ?_, ?_, fun a ha => (nomatch ha), ⟨fun a ha => (nomatch ha), List.Pairwise.nil, rfl⟩⟩
  · change ((List.range (numSegments maxLba)).map fun k => Segment.new (k * lbaRangePerSegment))[k]? = some seg at hseg
    rw [List.getElem?_map] at hseg
    obtain ⟨k', hk', rfl⟩ := Option.map_eq_some_iff.mp hseg
    obtain ⟨hlt, hget⟩ := List.getElem?_eq_some_iff.mp hk'
    rw [List.getElem_range] at hget
    subst hget
    -- the base is below the bit that is masked
    have hbase : k * lbaRangePerSegment < 2 ^ 31 := by
      rw [List.length_range] at hlt
      have hle : k * lbaRangePerSegment ≤ maxLba := Nat.mul_le_of_le_div _ _ _ (Nat.lt_succ_iff.mp hlt)
      omega
    have hmask : maskBase (k * lbaRangePerSegment) = k * lbaRangePerSegment := by
      unfold maskBase
      rw [Nat.testBit_lt_two_pow hbase]
      rfl
    unfold Segment.new
    rw [hmask]
    refine ⟨List.forall_mem_singleton.mpr ⟨Nat.le_refl _, Nat.le_refl _⟩, List.forall_mem_singleton.mpr ?_, List.pairwise_singleton ..⟩
    exact Nat.succ_pos _
  · change ((List.replicate (lastBinIndex maxLba + 2) []).set (lastBinIndex maxLba) _).length = _
    rw [List.length_set, List.length_replicate]
    rfl

theorem State.Inv.step (h : s.Inv) {e : Event} (hsafe : Safe s e) (hs' : s' ∈ step s e) : s'.Inv := by
  cases e with
  | alloc count =>
    obtain ⟨hguard, hs'⟩ := Option.ite_none_left_eq_some.mp hs'
    exact h.allocFrom (Nat.pos_of_ne_zero fun hzero => hguard (Or.inr hzero)) hsafe hs'
  | free j withHandle =>
    obtain ⟨-, hs'⟩ := Option.ite_none_left_eq_some.mp hs'
    exact h.free hs'

/-- In every safe run the live allocations are disjoint and end on the device, and each segment has a bin. -/
theorem allocations_apart_of_safe (maxLba : Nat) (hmax : maxLba < 2 ^ 31) (es : List Event)
    (h : Throughout step Safe (State.new maxLba) es) : Throughout step Holds (State.new maxLba) es :=
  Throughout.imp (I := State.Inv) (fun _ _ hinv hsafe _ hs' => (hinv.step hsafe hs').fine)
    (fun _ _ _ hinv hsafe hs' => hinv.step hsafe hs') (new_inv hmax) h

theorem allocations_apart_reused :
    (runs step (State.new 524287) [.alloc 3, .alloc 5, .free 0 true, .alloc 3]).map State.live =
        some [⟨3, 5, 0⟩, ⟨8, 3, 0⟩] ∧
      Throughout step Holds (State.new 524287) [.alloc 3, .alloc 5, .free 0 true, .alloc 3] :=
  ⟨by decide +kernel, allocations_apart_of_safe 524287 (by decide) _ (by decide +kernel)⟩

/-- A device of two blocks has three bins, and its segment goes to bin 19. -/
theorem not_allocations_apart : ¬ Throughout step Holds (State.new 1) [.alloc 1] := by
  intro h
  have hfine := h.1 _ (Option.get_mem (by decide +kernel))
  exact absurd hfine.bin (by decide +kernel)

end Comanche.Block.BlockAllocator
