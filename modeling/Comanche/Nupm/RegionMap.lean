import Comanche.Core.Reachable
import Comanche.Core.Rebuild

/-!
# The region-based heap

`Region_map` serves small objects from regions of 1 MiB, each for objects of one power of two, and gives
every large object a region of its own.
-/

namespace Comanche.Nupm.RegionMap

open Comanche.Core
open Function (forall_update_iff update update_eq_self update_of_ne update_self)

def getLog2Bin (a : Nat) : Nat :=
  let fsmsb := Nat.log 2 a + 1
  if 2 ^ (fsmsb - 1) = a then fsmsb - 1 else fsmsb

def l0MaxSmallObjectSize : Nat := 4096

def l0RegionSize : Nat := 1048576

def bucket (objectSize : Nat) : Nat :=
  if objectSize ≤ l0MaxSmallObjectSize then getLog2Bin objectSize
  else getLog2Bin l0MaxSmallObjectSize + 1

def base (addr objectSize : Nat) : Nat :=
  if objectSize ≤ l0MaxSmallObjectSize then addr / l0RegionSize * l0RegionSize else addr

def regionSize (objectSize : Nat) : Nat :=
  if objectSize ≤ l0MaxSmallObjectSize then l0RegionSize else objectSize

def roundedUpObjectSize (objectSize : Nat) : Nat :=
  if objectSize ≤ l0MaxSmallObjectSize then 2 ^ getLog2Bin objectSize else objectSize

def couldExistInRegion (objectSize : Nat) : Bool := objectSize ≤ l0MaxSmallObjectSize

inductive Exc where
  | alignment
  | numaNode
  | objectsDoNotFit
  | objectTooSmall
  | outOfSpace
  | badAlloc
  | noArena
  | insideArena

/-- `freeSet` is in the order of the addresses. -/
structure Region where
  objectSize : Nat
  base : Nat
  size : Nat
  freeList : List Nat
  freeSet : List Nat
  useCount : Nat

namespace Region

def new (base size objectSize : Nat) : Except Exc Region :=
  if size % objectSize ≠ 0 then .error .objectsDoNotFit
  else if objectSize < 8 then .error .objectTooSmall
  else .ok ⟨objectSize, base, size, [], (List.range (size / objectSize)).map (base + · * objectSize), 0⟩

def inRange (r : Region) (p : Nat) : Bool := r.base ≤ p && p < r.base + r.size

/-- What is in the set goes to the front of the list, one after the other. -/
def allocate (r : Region) : Option (Nat × Region) :=
  match r.freeSet.reverse ++ r.freeList with
  | [] => none
  | p :: rest => some (p, { r with freeList := rest, freeSet := [], useCount := (r.useCount + 1) % 2 ^ 64 })

def free (r : Region) (p : Nat) : Region :=
  { r with freeList := p :: r.freeList, useCount := (r.useCount + (2 ^ 64 - 1)) % 2 ^ 64 }

/-- Throws if the object is not in the set. The front of an empty list is not defined. -/
def allocateAt (r : Region) (p : Nat) : Option Region :=
  if r.freeSet ≠ [] then
    if p ∈ r.freeSet then some { r with freeSet := r.freeSet.erase p } else none
  else if r.freeList = [] then none
  else if p ∈ r.freeList then
    some { r with freeList := r.freeList.erase p, useCount := (r.useCount + 1) % 2 ^ 64 }
  else some r

def Slot (r : Region) (p : Nat) : Prop :=
  ∃ k, p = r.base + k * r.objectSize ∧ (k + 1) * r.objectSize ≤ r.size

end Region

/-- `ranges` are the arenas that were added to each zone. -/
structure State where
  maxNumaNode : Nat
  arena : Nat → Option RangeAllocator
  ranges : Nat → List Range
  buckets : Nat → Nat → List Region

namespace State

def new (maxNumaNode : Nat) : State := ⟨maxNumaNode, fun _ => none, fun _ => [], fun _ _ => []⟩

def setArena (s : State) (z : Nat) (a : RangeAllocator) : State :=
  { s with arena := update s.arena z (some a) }

def setBucket (s : State) (z b : Nat) (rs : List Region) : State :=
  { s with buckets := update s.buckets z (update (s.buckets z) b rs) }

end State

def allocateFromExistingRegion : List Region → Option (Nat × List Region)
  | [] => none
  | r :: rs =>
    match r.allocate with
    | some (p, r') => some (p, r' :: rs)
    | none => (allocateFromExistingRegion rs).map fun q => (q.1, r :: q.2)

/-- When the constructor of the region throws, the memory is not given back. -/
def allocateFromNewRegion (s : State) (size z : Nat) : Except Exc Nat × State :=
  if s.maxNumaNode < z then (.error .numaNode, s)
  else
    match s.arena z with
    | none => (.error .noArena, s)
    | some a =>
      match a.alloc (regionSize size) (regionSize size) with
      | .error .failedToAllocate => (.error .outOfSpace, s)
      | .error _ => (.error .insideArena, s)
      | .ok (i, a') =>
        match Region.new (a'.addr i) (regionSize size) (roundedUpObjectSize size) with
        | .error e => (.error e, s.setArena z a')
        | .ok r =>
          match r.allocate with
          | none => (.error .badAlloc, (s.setArena z a').setBucket z (bucket size) (r :: s.buckets z (bucket size)))
          | some (p, r') =>
            (.ok p, (s.setArena z a').setBucket z (bucket size) (r' :: s.buckets z (bucket size)))

def rejected (size : Nat) (numaNode : Int) (alignment : Nat) : Option Exc :=
  if 0 < alignment ∧ (size < alignment ∨ size % alignment ≠ 0) then some .alignment
  else if numaNode < 0 ∨ 2 ≤ numaNode then some .numaNode
  else none

def allocate (s : State) (size : Nat) (numaNode : Int) (alignment : Nat) : Except Exc Nat × State :=
  match rejected size numaNode alignment with
  | some e => (.error e, s)
  | none =>
    let z := numaNode.toNat
    match if couldExistInRegion size then allocateFromExistingRegion (s.buckets z (bucket size)) else none with
    | some (p, rs) => (.ok p, s.setBucket z (bucket size) rs)
    | none => allocateFromNewRegion s size z

/-- The object is freed in the region it is found in: that region, and those that stay in the bucket. -/
def freeIn (p : Nat) : List Region → Option (Region × List Region)
  | [] => none
  | r :: rs =>
    if r.inRange p then some (r.free p, if (r.free p).useCount = 0 then rs else r.free p :: rs)
    else (freeIn p rs).map fun q => (q.1, r :: q.2)

def freeBucket (s : State) (p z objectSize : Nat) : Option Nat :=
  (if 0 < objectSize then [bucket objectSize] else List.range 64).find? fun b =>
    (s.buckets z b).any (·.inRange p)

def free (s : State) (p z objectSize : Nat) : State :=
  match freeBucket s p z objectSize with
  | none => s
  | some b =>
    match freeIn p (s.buckets z b) with
    | none => s
    | some (r, rs) =>
      let s' := s.setBucket z b rs
      match if r.useCount = 0 then s.arena z else none with
      | none => s'
      | some a => s'.setArena z (a.after (.free r.base))

/-- The region of the pointer is found and marks it as allocated, or throws. -/
def injectIn (p : Nat) : List Region → Option (Option (List Region))
  | [] => none
  | r :: rs => if r.inRange p then some ((r.allocateAt p).map (· :: rs)) else (injectIn p rs).map (Option.map (r :: ·))

def injectNew (s : State) (p size z : Nat) : State :=
  match s.arena z with
  | none => s
  | some a =>
    match a.allocAt (base p size) (regionSize size) with
    | .error _ => s
    | .ok (_, a') =>
      let regionObjectSize := if regionSize size = size then regionSize size else roundedUpObjectSize size
      match Region.new (base p size) (regionSize size) regionObjectSize with
      | .error _ => s.setArena z a'
      | .ok r =>
        match r.allocateAt p with
        | none => s.setArena z a'
        | some r' => (s.setArena z a').setBucket z (bucket size) (r' :: s.buckets z (bucket size))

def injectAllocation (s : State) (p size z : Nat) : State :=
  match injectIn p (s.buckets z (bucket size)) with
  | some (some rs) => s.setBucket z (bucket size) rs
  | some none => s
  | none => injectNew s p size z

def addArena (s : State) (start length z : Nat) : State :=
  match s.arena z with
  | none => { s.setArena z (.create start length) with ranges := update s.ranges z [(start, length)] }
  | some a => { s.setArena z (a.after (.addNewRegion start length)) with
      ranges := update s.ranges z (a.managedAfter (s.ranges z) (.addNewRegion start length)) }

inductive Event where
  | addArena (start length z : Nat)
  | allocate (size : Nat) (numaNode : Int) (alignment : Nat)
  | free (p z objectSize : Nat)
  | injectAllocation (p size z : Nat)

def after (s : State) : Event → State
  | .addArena start length z => addArena s start length z
  | .allocate size numaNode alignment => (allocate s size numaNode alignment).2
  | .free p z objectSize => free s p z objectSize
  | .injectAllocation p size z => injectAllocation s p size z

/-- New arenas have nothing in common with the others, sizes are below `2 ^ 63`, injections fit into the arena, and what
is freed is an object, of a region that has a right back link in the arena. -/
def Tame (s : State) : Event → Prop
  | .addArena start length z => Range.Valid (start, length) ∧ ∀ r ∈ s.ranges z, Range.Apart (start, length) r
  | .allocate size _ _ => 0 < size ∧ size < 2 ^ 63
  | .free p z _ => p < 2 ^ 64 ∧ ∀ b, ∀ r ∈ s.buckets z b, r.inRange p = true → r.Slot p ∧
      ∀ a ∈ s.arena z, ∀ i ∈ a.tree.toList, a.addr i = r.base → a.BackRight i
  | .injectAllocation p size z => 0 < size ∧ ∀ a ∈ s.arena z, a.FitsAt (base p size) (regionSize size)

inductive Reachable : State → Prop where
  | new (maxNumaNode : Nat) : Reachable (.new maxNumaNode)
  | after {s : State} {e : Event} (h : Reachable s) (htame : Tame s e) : Reachable (after s e)

def Region.Slots (r : Region) : Prop := ∀ p ∈ r.freeList ++ r.freeSet, r.Slot p

structure Region.Good (b : Nat) (r : Region) : Prop where
  slots : r.Slots
  objectSize : r.objectSize = 2 ^ b
  large : 8 ≤ r.objectSize
  base : 2 ^ b ∣ r.base

structure State.Fine (s : State) : Prop where
  arena : ∀ z a, s.arena z = some a → a.Reachable (s.ranges z)
  region : ∀ z b, b < 13 → ∀ r ∈ s.buckets z b, Region.Good b r

section Sizes

variable {a n size : Nat}

theorem le_two_pow_getLog2Bin (a : Nat) : a ≤ 2 ^ getLog2Bin a := by
  unfold getLog2Bin
  dsimp only
  split
  case isTrue heq => exact heq.ge
  case isFalse => exact (Nat.lt_pow_succ_log_self (by decide) a).le

theorem getLog2Bin_le (ha : 0 < a) (h : a ≤ 2 ^ n) : getLog2Bin a ≤ n := by
  have hlog := Nat.pow_log_le_self 2 ha.ne'
  unfold getLog2Bin
  dsimp only
  rw [Nat.add_sub_cancel]
  split
  case isTrue => exact (Nat.pow_le_pow_iff_right (by decide)).mp (hlog.trans h)
  case isFalse hne => exact (Nat.pow_lt_pow_iff_right (by decide)).mp ((lt_of_le_of_ne hlog hne).trans_le h)

theorem bucket_lt_iff (hpos : 0 < size) : bucket size < 13 ↔ size ≤ l0MaxSmallObjectSize := by
  unfold bucket
  split
  case isTrue h => exact iff_of_true (Nat.lt_succ_of_le (getLog2Bin_le hpos h)) h
  case isFalse h => exact iff_of_false (by decide) h

theorem le_roundedUpObjectSize (size : Nat) : size ≤ roundedUpObjectSize size := by
  unfold roundedUpObjectSize
  split
  · exact le_two_pow_getLog2Bin size
  · exact le_rfl

theorem roundedUpObjectSize_dvd (hpos : 0 < size) : roundedUpObjectSize size ∣ regionSize size := by
  unfold roundedUpObjectSize regionSize
  split
  case isTrue h => exact Nat.pow_dvd_pow 2 ((getLog2Bin_le hpos h).trans (by decide : 12 ≤ 20))
  case isFalse => exact dvd_rfl

theorem regionSize_pos (hpos : 0 < size) : 0 < regionSize size := by
  unfold regionSize
  split
  · decide
  · exact hpos

theorem regionSize_lt (h : size < 2 ^ 63) : regionSize size < 2 ^ 63 := by
  unfold regionSize
  split
  · decide
  · exact h

end Sizes

section Calls

variable {s : State} {r r' : Region} {rs rs' : List Region} {p b z size : Nat} {a a' : RangeAllocator}

theorem Region.Good.of_subset {l m : List Nat} {n : Nat} (h : r.Good b)
    (hsub : ∀ q ∈ l ++ m, q ∈ r.freeList ++ r.freeSet) :
    Region.Good b { r with freeList := l, freeSet := m, useCount := n } :=
  ⟨fun q hq => h.slots q (hsub q hq), h.objectSize, h.large, h.base⟩

theorem Region.Slot.dvd (h : r.Slot p) (hbase : r.objectSize ∣ r.base) : r.objectSize ∣ p := by
  obtain ⟨k, rfl, -⟩ := h
  exact Nat.dvd_add hbase (Nat.dvd_mul_left _ _)

theorem Region.allocate_eq (h : r.allocate = some (p, r')) : ∃ rest, r.freeSet.reverse ++ r.freeList = p :: rest ∧
      r' = { r with freeList := rest, freeSet := [], useCount := (r.useCount + 1) % 2 ^ 64 } := by
  unfold allocate at h
  split at h
  case h_1 => cases h
  case h_2 q rest heq =>
    cases h
    exact ⟨rest, heq, rfl⟩

theorem Region.Slots.allocate (h : r.Slots) (heq : r.allocate = some (p, r')) : r'.Slot p := by
  obtain ⟨rest, hfree, rfl⟩ := allocate_eq heq
  have hp : p ∈ r.freeSet.reverse ++ r.freeList := hfree ▸ List.mem_cons_self
  refine h p ?_
  simpa [or_comm] using hp

theorem Region.Good.allocate (h : r.Good b) (heq : r.allocate = some (p, r')) : r'.Good b := by
  obtain ⟨rest, hfree, rfl⟩ := allocate_eq heq
  refine h.of_subset fun q hq => ?_
  have hq : q ∈ r.freeSet.reverse ++ r.freeList := hfree ▸ List.mem_cons_of_mem p (by simpa using hq)
  simpa [or_comm] using hq

theorem Region.Good.allocateAt (h : r.Good b) (heq : r.allocateAt p = some r') : r'.Good b := by
  unfold Region.allocateAt at heq
  split_ifs at heq <;> cases heq
  · exact h.of_subset fun q hq => by
      simpa using (List.mem_append.mp hq).imp_right List.mem_of_mem_erase
  · exact h.of_subset fun q hq => by
      simpa using (List.mem_append.mp hq).imp_left List.mem_of_mem_erase
  · exact h

theorem Region.new_slots {base n objectSize : Nat} (h : Region.new base n objectSize = .ok r) :
    r.Slots ∧ r.base = base ∧ r.objectSize = objectSize ∧ 8 ≤ objectSize := by
  unfold Region.new at h
  split_ifs at h with hfit hsmall
  cases h
  refine ⟨fun q hq => ?_, rfl, rfl, Nat.not_lt.mp hsmall⟩
  obtain ⟨k, hk, rfl⟩ := List.mem_map.mp hq
  exact ⟨k, rfl, (Nat.le_div_iff_mul_le (by omega : 0 < objectSize)).mp (List.mem_range.mp hk)⟩

theorem Region.new_allocate (base : Nat) {n objectSize : Nat} (hfit : objectSize ∣ n) (hbig : 8 ≤ objectSize)
    (hn : 0 < n) : ∃ r p r', Region.new base n objectSize = .ok r ∧ r.allocate = some (p, r') := by
  have hcount : 0 < n / objectSize := Nat.div_pos (Nat.le_of_dvd hn hfit) (by omega)
  unfold Region.new
  rw [if_neg (not_not.mpr (Nat.mod_eq_zero_of_dvd hfit)), if_neg (Nat.not_lt.mpr hbig)]
  obtain ⟨k, hk⟩ := Nat.exists_eq_succ_of_ne_zero hcount.ne'
  simp [Region.allocate, hk, List.range_succ]

theorem new_good {base n : Nat} (hpos : 0 < size) (hb : bucket size < 13) (hbase : regionSize size ∣ base)
    (h : Region.new base n (roundedUpObjectSize size) = .ok r) : r.Good (bucket size) := by
  obtain ⟨hslots, rfl, hsize, hlarge⟩ := Region.new_slots h
  have hsmall := (bucket_lt_iff hpos).mp hb
  have hround : roundedUpObjectSize size = 2 ^ bucket size := by
    rw [roundedUpObjectSize, if_pos hsmall, bucket, if_pos hsmall]
  exact ⟨hslots, hsize.trans hround, hsize ▸ hlarge, hround ▸ (roundedUpObjectSize_dvd hpos).trans hbase⟩

theorem allocateFromExistingRegion_good (h : ∀ r ∈ rs, r.Good b)
    (heq : allocateFromExistingRegion rs = some (p, rs')) : (∀ r ∈ rs', r.Good b) ∧ ∃ r ∈ rs', r.Slot p := by
  induction rs generalizing rs' with
  | nil => cases heq
  | cons r rs ih =>
    rw [allocateFromExistingRegion] at heq
    rw [List.forall_mem_cons] at h
    split at heq
    case h_1 q r' hr =>
      cases heq
      refine ⟨List.forall_mem_cons.mpr ⟨h.1.allocate hr, h.2⟩, r', List.mem_cons_self, h.1.slots.allocate hr⟩
    case h_2 =>
      obtain ⟨⟨q, rs₁⟩, hrs, hcons⟩ := Option.map_eq_some_iff.mp heq
      cases hcons
      obtain ⟨hgood, r', hr', hslot⟩ := ih h.2 hrs
      exact ⟨List.forall_mem_cons.mpr ⟨h.1, hgood⟩, r', List.mem_cons_of_mem r hr', hslot⟩

theorem freeIn_good (h : b < 13 → ∀ r ∈ rs, r.Good b) (hslot : ∀ r ∈ rs, r.inRange p = true → r.Slot p)
    (heq : freeIn p rs = some (r, rs')) : (∃ r₀ ∈ rs, r₀.inRange p = true ∧ r.base = r₀.base) ∧
      (b < 13 → ∀ r ∈ rs', r.Good b) := by
  induction rs generalizing rs' with
  | nil => cases heq
  | cons r₀ rs ih =>
    rw [freeIn] at heq
    simp only [List.forall_mem_cons, forall_and] at h hslot
    split at heq
    case isTrue hin =>
      cases heq
      refine ⟨⟨r₀, List.mem_cons_self, hin, rfl⟩, fun hb => ?_⟩
      have hfree : (r₀.free p).Good b :=
        ⟨List.forall_mem_cons.mpr ⟨hslot.1 hin, (h.1 hb).slots⟩, (h.1 hb).objectSize, (h.1 hb).large, (h.1 hb).base⟩
      split
      · exact h.2 hb
      · exact List.forall_mem_cons.mpr ⟨hfree, h.2 hb⟩
    case isFalse =>
      obtain ⟨⟨q, rs₁⟩, hrs, hcons⟩ := Option.map_eq_some_iff.mp heq
      cases hcons
      obtain ⟨⟨r₁, hr₁, hbase⟩, hgood⟩ := ih h.2 hslot.2 hrs
      exact ⟨⟨r₁, List.mem_cons_of_mem r₀ hr₁, hbase⟩, fun hb => List.forall_mem_cons.mpr ⟨h.1 hb, hgood hb⟩⟩

theorem injectIn_good (h : ∀ r ∈ rs, r.Good b) (heq : injectIn p rs = some (some rs')) : ∀ r ∈ rs', r.Good b := by
  induction rs generalizing rs' with
  | nil => cases heq
  | cons r rs ih =>
    rw [injectIn] at heq
    rw [List.forall_mem_cons] at h
    split at heq
    · obtain ⟨r', hr', rfl⟩ := Option.map_eq_some_iff.mp (Option.some.inj heq)
      exact List.forall_mem_cons.mpr ⟨h.1.allocateAt hr', h.2⟩
    · obtain ⟨o, hrs, hcons⟩ := Option.map_eq_some_iff.mp heq
      obtain ⟨rs₁, rfl, rfl⟩ := Option.map_eq_some_iff.mp hcons
      exact List.forall_mem_cons.mpr ⟨h.1, ih h.2 hrs⟩

theorem State.Fine.setBucket (h : s.Fine) (hrs : b < 13 → ∀ r ∈ rs, r.Good b) : (s.setBucket z b rs).Fine :=
  ⟨h.arena, (forall_update_iff s.buckets fun _ f => ∀ b, b < 13 → ∀ r ∈ f b, Region.Good b r).mpr
    ⟨(forall_update_iff (s.buckets z) fun b l => b < 13 → ∀ r ∈ l, Region.Good b r).mpr
      ⟨hrs, fun c _ => h.region z c⟩, fun y _ => h.region y⟩⟩

theorem State.Fine.setZone {l : List Range} (h : s.Fine) (ha : a.Reachable l) :
    State.Fine { s.setArena z a with ranges := update s.ranges z l } := by
  refine ⟨fun y a' hy => ?_, h.region⟩
  change update s.arena z (some a) y = some a' at hy
  change a'.Reachable (update s.ranges z l y)
  by_cases hyz : y = z
  · subst hyz
    rw [update_self] at hy ⊢
    cases hy
    exact ha
  · rw [update_of_ne hyz] at hy ⊢
    exact h.arena y a' hy

theorem State.Fine.setArena (h : s.Fine) (ha : a.Reachable (s.ranges z)) : (s.setArena z a).Fine := by
  have hzone := h.setZone (z := z) ha
  rwa [update_eq_self] at hzone

theorem State.Fine.addRegion (h : s.Fine) (ha : a.Reachable (s.ranges z)) (hr : b < 13 → r.Good b) :
    ((s.setArena z a).setBucket z b (r :: s.buckets z b)).Fine :=
  (h.setArena ha).setBucket fun hb => List.forall_mem_cons.mpr ⟨hr hb, h.region z b hb⟩

theorem arena_alloc (h : s.Fine) (ha : s.arena z = some a) (hpos : 0 < size) (hlt : size < 2 ^ 63) :
    a.alloc (regionSize size) (regionSize size) = .error .failedToAllocate ∨
      ∃ i a', a.alloc (regionSize size) (regionSize size) = .ok (i, a') ∧ a'.Reachable (s.ranges z) ∧
        regionSize size ∣ a'.addr i ∧ a.blocks ≠ a'.blocks := by
  have hreach := h.arena z a ha
  have hsize := regionSize_pos hpos
  have hbound := regionSize_lt hlt
  have hwrap : a.Unwrapped (regionSize size) (regionSize size) := Or.inl (by omega)
  refine (hreach.alloc_allocated hsize hsize hwrap).imp_right ?_
  rintro ⟨i, a', heq, halign, halloc⟩
  refine ⟨i, a', heq, hreach.alloc hsize hwrap heq, Nat.dvd_of_mod_eq_zero halign, fun hsame => ?_⟩
  -- the block was part of a free one
  obtain ⟨j, hj, hused, hjx, hjn⟩ : a.Used (a'.addr i) (regionSize size) := by
    rw [← RangeAllocator.mem_blocks, hsame, RangeAllocator.mem_blocks]
    exact (halloc.used _ _).mpr (Or.inr ⟨rfl, rfl⟩)
  obtain ⟨k, hk, hfree, hlo, hhi⟩ := halloc.free
  rw [hreach.laid.contains_unique hj hk hjx.le (by omega) hlo (by omega), hfree] at hused
  cases hused

theorem arena_allocAt {ranges : List Range} {x n j : Nat} (h : a.Reachable ranges) (hpos : 0 < n)
    (hfits : a.FitsAt x n) (heq : a.allocAt x n = .ok (j, a')) : a'.Reachable ranges := by
  refine h.allocAt hpos hfits (?_ : a.allocAtUnchecked x n = .ok (j, a'))
  unfold RangeAllocator.allocAt at heq
  unfold RangeAllocator.allocAtUnchecked
  split at heq
  case h_1 => cases heq
  case h_2 i hfind =>
    split_ifs at heq with hsize hfree
    exact (if_neg hsize).trans heq

inductive NewRegion (s : State) (size z : Nat) : Except Exc Nat × State → Prop where
  | refused {e : Exc} (he : e ≠ .insideArena)
      (hno : ∀ a ∈ s.arena z, z ≤ s.maxNumaNode → (a.alloc (regionSize size) (regionSize size)).toOption = none) :
      NewRegion s size z (.error e, s)
  | leaked {a a' : RangeAllocator} {i : Nat} (hnode : z ≤ s.maxNumaNode) (ha : s.arena z = some a)
      (heq : a.alloc (regionSize size) (regionSize size) = .ok (i, a')) (hreach : a'.Reachable (s.ranges z))
      (hblocks : a.blocks ≠ a'.blocks) (hsmall : roundedUpObjectSize size < 8) :
      NewRegion s size z (.error .objectTooSmall, s.setArena z a')
  | served {a' : RangeAllocator} {r r' : Region} {i p : Nat} (hreach : a'.Reachable (s.ranges z))
      (hdvd : regionSize size ∣ a'.addr i) (hbig : 8 ≤ roundedUpObjectSize size)
      (hr : Region.new (a'.addr i) (regionSize size) (roundedUpObjectSize size) = .ok r)
      (hr' : r.allocate = some (p, r')) :
      NewRegion s size z (.ok p, (s.setArena z a').setBucket z (bucket size) (r' :: s.buckets z (bucket size)))

section

variable (h : s.Fine)
include h

theorem allocateFromNewRegion_cases (z : Nat) (hpos : 0 < size) (hlt : size < 2 ^ 63) :
    NewRegion s size z (allocateFromNewRegion s size z) := by
  unfold allocateFromNewRegion
  split_ifs with hnode
  · exact .refused nofun fun _ _ hle => absurd hnode (Nat.not_lt.mpr hle)
  split
  case h_1 ha => exact .refused nofun (by simp [ha])
  case h_2 a ha =>
    rcases arena_alloc h ha hpos hlt with herr | ⟨i, a', heq, hreach, hdvd, hblocks⟩
    · rw [herr]
      exact .refused nofun (by simp [ha, herr, Except.toOption])
    rw [heq]
    by_cases hsmall : roundedUpObjectSize size < 8
    · simp only [Region.new, Nat.mod_eq_zero_of_dvd (roundedUpObjectSize_dvd hpos), ne_eq, not_true, if_false,
        if_pos hsmall]
      exact .leaked (Nat.not_lt.mp hnode) ha heq hreach hblocks hsmall
    · obtain ⟨r, p, r', hr, hr'⟩ := Region.new_allocate (a'.addr i) (roundedUpObjectSize_dvd hpos)
        (Nat.not_lt.mp hsmall) (regionSize_pos hpos)
      simp only [hr, hr']
      exact .served hreach hdvd (Nat.not_lt.mp hsmall) hr hr'

theorem allocateFromNewRegion_fine (hpos : 0 < size) (hlt : size < 2 ^ 63) :
    (allocateFromNewRegion s size z).2.Fine := by
  have hcase := allocateFromNewRegion_cases h z hpos hlt
  generalize allocateFromNewRegion s size z = res at hcase ⊢
  cases hcase with
  | refused => exact h
  | leaked _ _ _ hreach => exact h.setArena hreach
  | served hreach hdvd _ hr hr' => exact h.addRegion hreach fun hb => (new_good hpos hb hdvd hr).allocate hr'

theorem allocate_fine (numaNode : Int) (alignment : Nat) (hpos : 0 < size)
    (hlt : size < 2 ^ 63) : (allocate s size numaNode alignment).2.Fine := by
  unfold allocate
  split
  case h_1 => exact h
  case h_2 =>
    dsimp only
    split
    case h_1 p rs heq =>
      exact h.setBucket fun hb => (allocateFromExistingRegion_good (h.region _ _ hb)
        (Option.ite_none_right_eq_some.mp heq).2).1
    case h_2 => exact allocateFromNewRegion_fine h hpos hlt

theorem free_fine (objectSize : Nat) (hp : p < 2 ^ 64)
    (hobject : ∀ b, ∀ r ∈ s.buckets z b, r.inRange p = true → r.Slot p ∧
      ∀ a ∈ s.arena z, ∀ i ∈ a.tree.toList, a.addr i = r.base → a.BackRight i) : (free s p z objectSize).Fine := by
  unfold free
  split
  case h_1 => exact h
  case h_2 b hb =>
    split
    case h_1 => exact h
    case h_2 r rs heq =>
      obtain ⟨⟨r₀, hr₀, hin, hbase⟩, hgood⟩ :=
        freeIn_good (h.region z b) (fun r hr hin => (hobject b r hr hin).1) heq
      have hset : (s.setBucket z b rs).Fine := h.setBucket hgood
      dsimp only
      split
      case h_1 => exact hset
      case h_2 a ha =>
        have ha := (Option.ite_none_right_eq_some.mp ha).2
        have hle : r₀.base ≤ p := by
          unfold Region.inRange at hin
          simp only [Bool.and_eq_true, decide_eq_true_eq] at hin
          exact hin.1
        refine hset.setArena ((h.arena z a ha).after (.free r.base) (hbase ▸ hle.trans_lt hp) trivial ?_)
        rintro _ ⟨⟩ i hi hx
        exact (hobject b r₀ hr₀ hin).2 a ha i hi (hx.trans hbase)

theorem injectNew_fine (hpos : 0 < size)
    (hfits : ∀ a ∈ s.arena z, a.FitsAt (base p size) (regionSize size)) : (injectNew s p size z).Fine := by
  unfold injectNew
  cases ha : s.arena z with
  | none => exact h
  | some a =>
    dsimp only
    split
    case h_1 => exact h
    case h_2 j a' heq =>
      have hreach := arena_allocAt (h.arena z a ha) (regionSize_pos hpos) (hfits a ha) heq
      split
      case h_1 => exact h.setArena hreach
      case h_2 r hr =>
        have hgood : bucket size < 13 → r.Good (bucket size) := by
          intro hb
          have hsmall := (bucket_lt_iff hpos).mp hb
          have hne : regionSize size ≠ size := by
            unfold regionSize
            rw [if_pos hsmall]
            exact (hsmall.trans_lt (by decide)).ne'
          rw [if_neg hne] at hr
          refine new_good hpos hb ?_ hr
          rw [regionSize, if_pos hsmall, base, if_pos hsmall]
          exact Nat.dvd_mul_left _ _
        split
        case h_1 => exact h.setArena hreach
        case h_2 r' hr' => exact h.addRegion hreach fun hb => (hgood hb).allocateAt hr'

theorem addArena_fine {start length : Nat} (htame : Tame s (.addArena start length z)) :
    (addArena s start length z).Fine := by
  unfold addArena
  split
  case h_1 => exact h.setZone (.create htame.1)
  case h_2 a ha =>
    exact h.setZone ((h.arena z a ha).after (.addNewRegion start length) htame trivial nofun)

end

theorem Reachable.fine (h : Reachable s) : s.Fine := by
  induction h with
  | new => exact ⟨nofun, fun _ _ _ _ hr => absurd hr List.not_mem_nil⟩
  | @after s e _ htame ih =>
    cases e with
    | addArena start length z => exact addArena_fine ih htame
    | allocate size numaNode alignment => exact allocate_fine ih numaNode alignment htame.1 htame.2
    | free p z objectSize => exact free_fine ih objectSize htame.1 htame.2
    | injectAllocation p size z =>
      change (injectAllocation s p size z).Fine
      unfold injectAllocation
      split
      case h_1 rs heq => exact ih.setBucket fun hb => injectIn_good (ih.region z _ hb) heq
      case h_2 => exact ih
      case h_3 => exact injectNew_fine ih htame.1 htame.2

end Calls

structure State.Same (s s' : State) : Prop where
  buckets : s'.buckets = s.buckets
  blocks : ∀ z, (s'.arena z).map RangeAllocator.blocks = (s.arena z).map RangeAllocator.blocks

theorem State.Same.rfl {s : State} : s.Same s := ⟨Eq.refl _, fun _ => Eq.refl _⟩

theorem rejected_ne {size : Nat} {numaNode : Int} {alignment : Nat} {e : Exc}
    (h : rejected size numaNode alignment = some e) : e ≠ .insideArena := by
  unfold rejected at h
  split_ifs at h <;> cases h <;> nofun

def FailsSafely (s : State) (size : Nat) (numaNode : Int) (alignment : Nat) : Prop :=
  ∀ e s', allocate s size numaNode alignment = (.error e, s') → e ≠ .insideArena ∧ s.Same s'

/-- Objects are too small for a region, and the call comes to make one. -/
structure Leaks (s : State) (size : Nat) (numaNode : Int) (alignment : Nat) : Prop where
  small : roundedUpObjectSize size < 8
  accepted : rejected size numaNode alignment = none
  full : allocateFromExistingRegion (s.buckets numaNode.toNat (bucket size)) = none
  node : numaNode.toNat ≤ s.maxNumaNode
  room : ∃ a ∈ s.arena numaNode.toNat, (a.alloc (regionSize size) (regionSize size)).toOption ≠ none

variable {s : State} {size : Nat}

/-- A heap with an arena of two regions on one node. -/
def twoMiB (z : Nat) : State := after (.new 1) (.addArena 0x100000 0x200000 z)

theorem twoMiB_reachable (z : Nat) : Reachable (twoMiB z) :=
  (Reachable.new 1).after (e := .addArena 0x100000 0x200000 z) ⟨by decide, fun _ h => absurd h List.not_mem_nil⟩

/-- An object of at least `size` bytes starts at the address, which is a multiple of the alignment. -/
def Honours (s : State) (size : Nat) (numaNode : Int) (alignment : Nat) : Prop :=
  ∀ p s', allocate s size numaNode alignment = (.ok p, s') →
    alignment ∣ p ∧ ∃ r ∈ s'.buckets numaNode.toNat (bucket size), r.Slot p ∧ size ≤ r.objectSize

theorem Reachable.honours (h : Reachable s) {numaNode : Int} {alignment : Nat} (hpos : 0 < size) (hlt : size < 2 ^ 63)
    (hdvd : rejected size numaNode alignment = none → 8 ≤ roundedUpObjectSize size → alignment ∣ roundedUpObjectSize size) :
    Honours s size numaNode alignment := by
  have hcase := allocateFromNewRegion_cases h.fine numaNode.toNat hpos hlt
  intro p s' heq
  unfold allocate at heq
  split at heq
  case h_1 => cases heq
  case h_2 hrej =>
    dsimp only at heq
    split at heq
    case h_1 q rs hrs =>
      cases heq
      obtain ⟨hsmall, hrs⟩ := Option.ite_none_right_eq_some.mp hrs
      have hsmall := of_decide_eq_true hsmall
      have hb := (bucket_lt_iff hpos).mpr hsmall
      obtain ⟨hgood, r, hr, hslot⟩ := allocateFromExistingRegion_good (h.fine.region _ _ hb) hrs
      have hround : r.objectSize = roundedUpObjectSize size := by
        rw [(hgood r hr).objectSize, roundedUpObjectSize, if_pos hsmall, bucket, if_pos hsmall]
      have hbase : r.objectSize ∣ r.base := by
        rw [(hgood r hr).objectSize]
        exact (hgood r hr).base
      have hdvd := hround ▸ hdvd hrej (hround ▸ (hgood r hr).large)
      refine ⟨hdvd.trans (hslot.dvd hbase), r, ?_, hslot, hround ▸ le_roundedUpObjectSize size⟩
      simpa [State.setBucket] using hr
    case h_2 =>
      generalize allocateFromNewRegion s size numaNode.toNat = res at hcase heq
      cases hcase with
      | @served a' r r' i q _ hbase hlarge hr hr' =>
        cases heq
        obtain ⟨hslots, hbase', hsize, -⟩ := Region.new_slots hr
        have hslot := hslots.allocate hr'
        obtain ⟨rest, -, rfl⟩ := Region.allocate_eq hr'
        have hbase : r.objectSize ∣ r.base := by
          rw [hsize, hbase']
          exact (roundedUpObjectSize_dvd hpos).trans hbase
        have hdvd := hsize ▸ hdvd hrej hlarge
        refine ⟨hdvd.trans (hslot.dvd hbase), _, ?_, hslot, hsize ▸ le_roundedUpObjectSize size⟩
        simp [State.setBucket]
      | _ => cases heq

theorem Region.new_allocate_two (base : Nat) {n objectSize : Nat} (hfit : objectSize ∣ n) (hbig : 8 ≤ objectSize)
    (hn : 2 * objectSize ≤ n) : ∃ r p r₁ r₂, Region.new base n objectSize = .ok r ∧
      r.allocate = some (p + objectSize, r₁) ∧ r₁.allocate = some (p, r₂) := by
  obtain ⟨k, hk⟩ : ∃ k, n / objectSize = k + 2 :=
    Nat.exists_eq_add_of_le' ((Nat.le_div_iff_mul_le (by omega)).mpr hn)
  unfold Region.new
  rw [if_neg (not_not.mpr (Nat.mod_eq_zero_of_dvd hfit)), if_neg (Nat.not_lt.mpr hbig), hk]
  have hfree : ((List.range (k + 2)).map (base + · * objectSize)).reverse = (base + k * objectSize + objectSize) ::
      (base + k * objectSize) :: ((List.range k).map (base + · * objectSize)).reverse := by
    simp [List.range_succ, Nat.add_mul, Nat.add_assoc]
  refine ⟨_, base + k * objectSize, { objectSize, base, size := n, freeList := (base + k * objectSize) ::
    ((List.range k).map (base + · * objectSize)).reverse, freeSet := [], useCount := 1 }, _, rfl, ?_, rfl⟩
  simp [Region.allocate, hfree]

/-- Two small objects in a row from a new region are next to each other. -/
theorem twoMiB_allocate {numaNode : Int} {alignment : Nat} (hpos : 0 < size) (hsmall : size ≤ l0MaxSmallObjectSize)
    (hlarge : 8 ≤ roundedUpObjectSize size) (haccepted : rejected size numaNode alignment = none) : ∃ p s₁,
      allocate (twoMiB numaNode.toNat) size numaNode alignment = (.ok (p + roundedUpObjectSize size), s₁) ∧
      (allocate s₁ size numaNode alignment).1 = .ok p := by
  have hregion : regionSize size = l0RegionSize := if_pos hsmall
  have hcould : couldExistInRegion size = true := decide_eq_true hsmall
  have hnode : ¬ 1 < numaNode.toNat := by
    unfold rejected at haccepted
    split_ifs at haccepted
    omega
  have hround : roundedUpObjectSize size ≤ l0MaxSmallObjectSize := by
    rw [roundedUpObjectSize, if_pos hsmall]
    exact Nat.pow_le_pow_right (by decide) (getLog2Bin_le (n := 12) hpos hsmall)
  obtain ⟨a, ha, haddr⟩ : ∃ a, (RangeAllocator.create 0x100000 0x200000).alloc l0RegionSize l0RegionSize = .ok (0, a) ∧
      a.addr 0 = 0x100000 := ⟨_, rfl, rfl⟩
  obtain ⟨r, p, r₁, r₂, hr, hr₁, hr₂⟩ := Region.new_allocate_two 0x100000 (hregion ▸ roundedUpObjectSize_dvd hpos) hlarge
    ((Nat.mul_le_mul_left 2 hround).trans (by decide))
  have harena : (twoMiB numaNode.toNat).arena numaNode.toNat = some (.create 0x100000 0x200000) :=
    update_self ..
  refine ⟨p, ((twoMiB numaNode.toNat).setArena numaNode.toNat a).setBucket numaNode.toNat (bucket size) [r₁], ?_, ?_⟩
  · have hempty : allocateFromExistingRegion ((twoMiB numaNode.toNat).buckets numaNode.toNat (bucket size)) = none := rfl
    simp only [allocate, haccepted, hcould, hempty, if_true, allocateFromNewRegion, harena, hregion, ha, haddr, hr, hr₁]
    exact if_neg hnode
  · have hbucket : (((twoMiB numaNode.toNat).setArena numaNode.toNat a).setBucket numaNode.toNat (bucket size)
        [r₁]).buckets numaNode.toNat (bucket size) = [r₁] := by simp [State.setBucket]
    simp only [allocate, haccepted, hcould, hbucket, if_true, allocateFromExistingRegion, hr₂]

end Comanche.Nupm.RegionMap
