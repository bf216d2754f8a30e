import Comanche.Lib.Run
import Comanche.Lib.Bytes
import Mathlib.Algebra.Group.Nat.Defs
import Mathlib.Data.List.Pairwise
import Mathlib.Data.List.Perm.Basic

/-!
# The region table

A `Region_manager` divides a block device into regions.
-/

namespace Comanche.Block.RegionTable

open Lib

structure Desc where
  saddr : Nat
  vaddr : Nat
  size : Nat
  occupied : Bool
  owner : Bytes
  id : Bytes
  deriving DecidableEq

def metadataFootprint : Nat := 4096

def vaddrBase : Nat := 0x900000000

def maxEntries : Nat := (metadataFootprint - 16) / 128

/-- What `strncpy` leaves of a string where there is room for `n` characters. -/
def cstr (n : Nat) (str : Bytes) : Bytes := (str.take n).takeWhile (· ≠ 0)

structure Handed where
  owner : Bytes
  id : Bytes
  saddr : Nat
  size : Nat
  vaddr : Nat
  deriving DecidableEq

/-- `ranges` are those that the range allocator has given away, and `handed` are the regions that have been handed out
and not been deleted since. -/
structure State where
  blockSize : Nat
  blockCount : Nat
  entries : List Desc
  ranges : List (Nat × Nat)
  handed : List Handed

/-- A table without entries, after formatting or in place of one that was not found. -/
def State.new (blockSize blockCount : Nat) : State := ⟨blockSize, blockCount, [], [], []⟩

namespace State

def mdSizeInBlocks (s : State) : Nat :=
  metadataFootprint / s.blockSize + if metadataFootprint % s.blockSize = 0 then 0 else 1

/-- `find`, with the index of the descriptor. It does not look at `occupied`. -/
def find (s : State) (owner id : Bytes) : Option (Nat × Desc) :=
  (s.entries.findIdx? fun d => owner = d.owner ∧ id = d.id).bind fun i => (s.entries[i]?).map (i, ·)

def vaddrTop (s : State) (owner : Bytes) : Nat :=
  s.entries.foldl (fun top d =>
    let thisTop := (d.vaddr + d.size * s.blockSize) % 2 ^ 64
    if owner = d.owner ∧ top < thisTop then thisTop else top) vaddrBase

/-- The entries after `add_entry`, which throws when the table is full. -/
def addEntry (s : State) (d : Desc) : Option (List Desc) :=
  match s.entries.findIdx? fun d => d.occupied = false with
  | some i => some (s.entries.set i d)
  | none => if s.entries.length = maxEntries then none else some (s.entries ++ [d])

def hand (s : State) (d : Desc) : State := { s with handed := s.handed ++ [⟨d.owner, d.id, d.saddr, d.size, d.vaddr⟩] }

end State

/-- A range that the range allocator can give away: it was built for as many blocks as the device has, from block
`METADATA_FOOTPRINT / KB(4)` on. -/
def Fits (blockCount : Nat) (ranges : List (Nat × Nat)) (addr size : Nat) : Prop :=
  metadataFootprint / 4096 ≤ addr ∧ addr + size ≤ metadataFootprint / 4096 + blockCount ∧
    ∀ r ∈ ranges, addr + size ≤ r.1 ∨ r.1 + r.2 ≤ addr

instance (blockCount : Nat) (ranges : List (Nat × Nat)) (addr size : Nat) : Decidable (Fits blockCount ranges addr size) :=
  inferInstanceAs (Decidable (_ ∧ _ ∧ _))

def State.allocate (s : State) (size : Nat) (owner id : Bytes) (addr : Nat) : State :=
  let d : Desc := ⟨addr, s.vaddrTop owner, size, true, cstr 19 owner, cstr 82 id⟩
  match s.addEntry d with
  | none => { s with ranges := (addr, size) :: s.ranges }
  | some entries => State.hand { s with entries := entries, ranges := (addr, size) :: s.ranges } ⟨addr, s.vaddrTop owner, size, true, owner, id⟩

def State.removeEntry (s : State) (owner id : Bytes) : State :=
  match s.find owner id with
  | none => s
  | some (i, d) =>
    { s with
      entries := s.entries.set i { d with occupied := false }
      ranges := s.ranges.filter fun r => r.1 ≠ d.saddr
      handed := s.handed.filter fun h => ¬ (h.owner = owner ∧ h.id = id) }

/-- The range allocator after `alloc_at` of the regions in the table, which throws if a range is not free. -/
def rebuild (blockCount : Nat) : List Desc → List (Nat × Nat) → Option (List (Nat × Nat))
  | [], ranges => some ranges
  | d :: ds, ranges =>
    if d.occupied then
      if Fits blockCount ranges d.saddr d.size then rebuild blockCount ds ((d.saddr, d.size) :: ranges) else none
    else rebuild blockCount ds ranges

inductive Event where
  /-- The range allocator, if it is asked, returns `answer`, or throws. -/
  | reuseOrAllocate (size : Nat) (owner id : Bytes) (answer : Option Nat)
  | openRegion (owner id : Bytes)
  | delete (owner id : Bytes)
  | reopen

/-- Owners have up to 19 characters and identifiers up to 82. A region of no blocks fails an assertion. -/
def step (s : State) : Event → Option State
  | .reuseOrAllocate size owner id answer =>
    if owner.length ≤ 19 ∧ id.length ≤ 82 then
      match s.find owner id with
      | some (_, d) => some (s.hand d)
      | none =>
        if size = 0 then none
        else match answer with
          | none => some s
          | some addr => if Fits s.blockCount s.ranges addr size then some (s.allocate size owner id addr) else none
    else none
  | .openRegion owner id =>
    match s.find owner id with
    | some (_, d) => some (s.hand d)
    | none => some s
  | .delete owner id => some (s.removeEntry owner id)
  | .reopen => (rebuild s.blockCount s.entries []).map fun ranges => { s with ranges := ranges }

def Handed.Apart (h h' : Handed) : Prop := h.saddr + h.size ≤ h'.saddr ∨ h'.saddr + h'.size ≤ h.saddr

/-- Regions with different names are disjoint, a name stands for one region, and regions are inside of the device and not
in the table. -/
structure State.Fine (s : State) : Prop where
  apart : ∀ h ∈ s.handed, ∀ h' ∈ s.handed, ¬ (h.owner = h'.owner ∧ h.id = h'.id) → h.Apart h'
  same : ∀ h ∈ s.handed, ∀ h' ∈ s.handed, h.owner = h'.owner → h.id = h'.id → h = h'
  inside : ∀ h ∈ s.handed, s.mdSizeInBlocks ≤ h.saddr ∧ h.saddr + h.size ≤ s.blockCount

def Holds (s : State) (e : Event) : Prop := ∀ s' ∈ step s e, s'.Fine

/-- Names have no zeros in them, regions that were deleted are not asked for again, and the range allocator does not give
away the block behind the device or a block of the table. -/
def Safe (s : State) : Event → Prop
  | .reuseOrAllocate size owner id answer =>
    match s.find owner id with
    | some (_, d) => d.occupied = true
    | none => 0 ∉ owner ∧ 0 ∉ id ∧ ∀ addr ∈ answer, s.mdSizeInBlocks ≤ addr ∧ addr + size ≤ s.blockCount
  | .openRegion owner id | .delete owner id => ∀ p ∈ s.find owner id, p.2.occupied = true
  | .reopen => True

/-- Two descriptors have different names, and different blocks if they are in use. -/
structure Desc.Apart (d d' : Desc) : Prop where
  names : ¬ (d.owner = d'.owner ∧ d.id = d'.id)
  blocks : d.occupied = true → d'.occupied = true → d.saddr + d.size ≤ d'.saddr ∨ d'.saddr + d'.size ≤ d.saddr

theorem Desc.Apart.symm {d d' : Desc} (h : d.Apart d') : d'.Apart d :=
  ⟨fun ⟨howner, hid⟩ => h.names ⟨howner.symm, hid.symm⟩, fun hd' hd => (h.blocks hd hd').symm⟩

instance : Std.Symm Desc.Apart := ⟨fun _ _ => Desc.Apart.symm⟩

structure Desc.Good (s : State) (d : Desc) : Prop where
  positive : 0 < d.size
  inside : s.mdSizeInBlocks ≤ d.saddr ∧ d.saddr + d.size ≤ s.blockCount
  known : (d.saddr, d.size) ∈ s.ranges

def Desc.handed (d : Desc) : Handed := ⟨d.owner, d.id, d.saddr, d.size, d.vaddr⟩

structure State.Inv (s : State) : Prop where
  apart : s.entries.Pairwise Desc.Apart
  good : ∀ d ∈ s.entries, d.occupied = true → d.Good s
  handed : ∀ h ∈ s.handed, ∃ d ∈ s.entries, d.occupied = true ∧ d.handed = h

variable {s s' : State} {d : Desc} {owner id : Bytes} {i : Nat}

theorem State.Inv.fine (h : s.Inv) : s.Fine := by
  refine ⟨fun g hg g' hg' hnames => ?_, fun g hg g' hg' howner hid => ?_, fun g hg => ?_⟩
  · obtain ⟨d, hd, hocc, rfl⟩ := h.handed g hg
    obtain ⟨d', hd', hocc', rfl⟩ := h.handed g' hg'
    have hne : d ≠ d' := by
      rintro rfl
      exact hnames ⟨rfl, rfl⟩
    exact (h.apart.forall hd hd' hne).blocks hocc hocc'
  · obtain ⟨d, hd, -, rfl⟩ := h.handed g hg
    obtain ⟨d', hd', -, rfl⟩ := h.handed g' hg'
    by_cases heq : d = d'
    · rw [heq]
    · exact absurd ⟨howner, hid⟩ (h.apart.forall hd hd' heq).names
  · obtain ⟨d, hd, hocc, rfl⟩ := h.handed g hg
    exact (h.good d hd hocc).inside

theorem find_eq_some (h : s.find owner id = some (i, d)) : s.entries[i]? = some d ∧ owner = d.owner ∧ id = d.id := by
  obtain ⟨j, hj, hmap⟩ := Option.bind_eq_some_iff.mp h
  obtain ⟨d', hd', heq⟩ := Option.map_eq_some_iff.mp hmap
  obtain ⟨rfl, rfl⟩ := Prod.mk.inj heq
  obtain ⟨hlt, hnames, -⟩ := List.findIdx?_eq_some_iff_getElem.mp hj
  obtain ⟨_, hget⟩ := List.getElem?_eq_some_iff.mp hd'
  exact ⟨hd', hget ▸ of_decide_eq_true hnames⟩

theorem find_eq_none (h : s.find owner id = none) : ∀ d ∈ s.entries, ¬ (d.owner = owner ∧ d.id = id) := by
  intro d hd hnames
  have hidx : (s.entries.findIdx? fun d => owner = d.owner ∧ id = d.id) = none := by
    unfold State.find at h
    cases hi : s.entries.findIdx? fun d => owner = d.owner ∧ id = d.id with
    | none => rfl
    | some i =>
      obtain ⟨hlt, -⟩ := List.findIdx?_eq_some_iff_getElem.mp hi
      rw [hi, Option.bind_some, List.getElem?_eq_getElem hlt] at h
      cases h
  exact of_decide_eq_false (List.findIdx?_eq_none_iff.mp hidx d hd) ⟨hnames.1.symm, hnames.2.symm⟩

theorem State.Inv.hand (h : s.Inv) (hd : d ∈ s.entries) (hocc : d.occupied = true) : (s.hand d).Inv := by
  refine ⟨h.apart, fun d' hd' hocc' => ?_, fun g hg => ?_⟩
  · have hgood := h.good d' hd' hocc'
    exact ⟨hgood.positive, hgood.inside, hgood.known⟩
  · obtain hg | hg := List.mem_append.mp hg
    · exact h.handed g hg
    · exact ⟨d, hd, hocc, (List.mem_singleton.mp hg).symm⟩

theorem addEntry_eq_some {entries : List Desc} (h : s.addEntry d = some entries) :
    ∃ rest, entries.Perm (d :: rest) ∧ rest.Sublist s.entries ∧ ∀ d' ∈ s.entries, d'.occupied = true → d' ∈ rest := by
  unfold State.addEntry at h
  split at h
  · rename_i i hi
    cases h
    obtain ⟨hlt, hfree, -⟩ := List.findIdx?_eq_some_iff_getElem.mp hi
    refine ⟨s.entries.eraseIdx i, List.set_perm_cons_eraseIdx hlt d, List.eraseIdx_sublist .., fun d' hd' hocc => ?_⟩
    obtain rfl | hd' := List.mem_cons.mp ((List.getElem_cons_eraseIdx_perm hlt).mem_iff.mpr hd')
    · exact absurd (hocc.symm.trans (of_decide_eq_true hfree)) Bool.noConfusion
    · exact hd'
  · split at h
    · cases h
    · cases h
      exact ⟨s.entries, List.perm_append_comm, List.Sublist.refl _, fun d' hd' _ => hd'⟩

theorem cstr_eq_self {n : Nat} {str : Bytes} (hlen : str.length ≤ n) (hzero : 0 ∉ str) : cstr n str = str := by
  unfold cstr
  rw [List.take_of_length_le hlen, List.takeWhile_eq_self_iff]
  intro c hc
  exact decide_eq_true fun heq => hzero (heq ▸ hc)

theorem State.Inv.setRanges (h : s.Inv) (ranges : List (Nat × Nat))
    (hknown : ∀ d ∈ s.entries, d.occupied = true → (d.saddr, d.size) ∈ ranges) : State.Inv { s with ranges := ranges } :=
  ⟨h.apart, fun d hd hocc => ⟨(h.good d hd hocc).positive, (h.good d hd hocc).inside, hknown d hd hocc⟩, h.handed⟩

theorem State.Inv.allocate (h : s.Inv) {size addr : Nat} (hfind : s.find owner id = none) (howner : owner.length ≤ 19)
    (hid : id.length ≤ 82) (hzero : 0 ∉ owner ∧ 0 ∉ id) (hsize : 0 < size) (hfits : Fits s.blockCount s.ranges addr size)
    (hinside : s.mdSizeInBlocks ≤ addr ∧ addr + size ≤ s.blockCount) : (s.allocate size owner id addr).Inv := by
  have hranges := h.setRanges ((addr, size) :: s.ranges) fun d hd hocc => List.mem_cons_of_mem _ (h.good d hd hocc).known
  unfold State.allocate
  rw [cstr_eq_self howner hzero.1, cstr_eq_self hid hzero.2]
  change State.Inv (match s.addEntry _ with | none => _ | some entries => _)
  cases hadd : s.addEntry ⟨addr, s.vaddrTop owner, size, true, owner, id⟩ with
  | none => exact hranges
  | some entries =>
    obtain ⟨rest, hperm, hsub, hkept⟩ := addEntry_eq_some hadd
    have hmem {d' : Desc} (hd' : d' ∈ entries) : d' = ⟨addr, s.vaddrTop owner, size, true, owner, id⟩ ∨ d' ∈ rest :=
      List.mem_cons.mp (hperm.mem_iff.mp hd')
    refine State.Inv.hand ⟨?_, fun d' hd' hocc => ?_, fun g hg => ?_⟩ (hperm.mem_iff.mpr List.mem_cons_self) rfl
    · refine (hperm.pairwise_iff fun h => h.symm).mpr (List.pairwise_cons.mpr ⟨fun d' hd' => ?_, h.apart.sublist hsub⟩)
      refine Desc.Apart.symm ⟨find_eq_none hfind d' (hsub.mem hd'), fun hocc _ => ?_⟩
      exact (hfits.2.2 _ (h.good d' (hsub.mem hd') hocc).known).symm
    · obtain rfl | hd' := hmem hd'
      · exact ⟨hsize, hinside, List.mem_cons_self⟩
      · have hgood := hranges.good d' (hsub.mem hd') hocc
        exact ⟨hgood.positive, hgood.inside, hgood.known⟩
    · obtain ⟨d', hd', hocc, rfl⟩ := h.handed g hg
      exact ⟨d', hperm.mem_iff.mpr (List.mem_cons_of_mem _ (hkept d' hd' hocc)), hocc, rfl⟩

theorem State.Inv.removeEntry (h : s.Inv) (hsafe : ∀ p ∈ s.find owner id, p.2.occupied = true) : (s.removeEntry owner id).Inv := by
  unfold State.removeEntry
  cases hfind : s.find owner id with
  | none => exact h
  | some p =>
    obtain ⟨i, d⟩ := p
    have hocc : d.occupied = true := hsafe (i, d) hfind
    obtain ⟨hd, rfl, rfl⟩ := find_eq_some hfind
    obtain ⟨hlt, hget⟩ := List.getElem?_eq_some_iff.mp hd
    have hold : s.entries.Perm (d :: s.entries.eraseIdx i) := hget ▸ (List.getElem_cons_eraseIdx_perm hlt).symm
    have hnew := List.set_perm_cons_eraseIdx hlt { d with occupied := false }
    obtain ⟨hother, hrest⟩ := List.pairwise_cons.mp ((hold.pairwise_iff fun h => h.symm).mp h.apart)
    have hmem {d' : Desc} (hd' : d' ∈ s.entries.eraseIdx i) : d' ∈ s.entries := hold.mem_iff.mpr (List.mem_cons_of_mem _ hd')
    refine ⟨?_, fun d' hd' hocc' => ?_, fun g hg => ?_⟩
    · refine (hnew.pairwise_iff fun h => h.symm).mpr (List.pairwise_cons.mpr ⟨fun d' hd' => ?_, hrest⟩)
      exact ⟨(hother d' hd').names, fun hfalse => nomatch hfalse⟩
    · obtain rfl | hd' := List.mem_cons.mp (hnew.mem_iff.mp hd')
      · cases hocc'
      · -- the other regions in use begin elsewhere
        have hgood := h.good d' (hmem hd') hocc'
        refine ⟨hgood.positive, hgood.inside, List.mem_filter.mpr ⟨hgood.known, decide_eq_true fun heq => ?_⟩⟩
        change d'.saddr = d.saddr at heq
        have hblocks := (hother d' hd').blocks hocc hocc'
        have hpos := (h.good d (List.mem_of_getElem? hd) hocc).positive
        have hpos' := hgood.positive
        omega
    · obtain ⟨hg, hname⟩ := List.mem_filter.mp hg
      obtain ⟨d', hd', hocc', rfl⟩ := h.handed g hg
      obtain rfl | hd' := List.mem_cons.mp (hold.mem_iff.mp hd')
      · exact absurd ⟨rfl, rfl⟩ (of_decide_eq_true hname)
      · exact ⟨d', hnew.mem_iff.mpr (List.mem_cons_of_mem _ hd'), hocc', rfl⟩

theorem rebuild_eq_some {blockCount : Nat} {ds : List Desc} {ranges ranges' : List (Nat × Nat)}
    (h : rebuild blockCount ds ranges = some ranges') :
    (∀ r ∈ ranges, r ∈ ranges') ∧ ∀ d ∈ ds, d.occupied = true → (d.saddr, d.size) ∈ ranges' := by
  induction ds generalizing ranges with
  | nil => exact ⟨fun r hr => Option.some.inj h ▸ hr, fun d hd => nomatch hd⟩
  | cons d ds ih =>
    unfold rebuild at h
    split at h
    · obtain ⟨-, h⟩ := Option.ite_none_right_eq_some.mp h
      obtain ⟨hkept, hds⟩ := ih h
      exact ⟨fun r hr => hkept r (List.mem_cons_of_mem _ hr), List.forall_mem_cons.mpr ⟨fun _ => hkept _ List.mem_cons_self, hds⟩⟩
    · rename_i hfree
      obtain ⟨hkept, hds⟩ := ih h
      exact ⟨hkept, List.forall_mem_cons.mpr ⟨fun hocc => absurd hocc hfree, hds⟩⟩

theorem State.Inv.step (h : s.Inv) {e : Event} (hsafe : Safe s e) (hs' : s' ∈ step s e) : s'.Inv := by
  cases e with
  | reuseOrAllocate size owner id answer =>
    obtain ⟨⟨howner, hid⟩, hs'⟩ := Option.ite_none_right_eq_some.mp hs'
    rw [Safe] at hsafe
    cases hfind : s.find owner id with
    | some p =>
      rw [hfind] at hs' hsafe
      cases hs'
      exact h.hand (List.mem_of_getElem? (find_eq_some hfind).1) hsafe
    | none =>
      rw [hfind] at hs' hsafe
      obtain ⟨hsize, hs'⟩ := Option.ite_none_left_eq_some.mp hs'
      cases answer with
      | none => exact Option.some.inj hs' ▸ h
      | some addr =>
        obtain ⟨hfits, hs'⟩ := Option.ite_none_right_eq_some.mp hs'
        obtain ⟨hzero, hzero', hinside⟩ := hsafe
        exact Option.some.inj hs' ▸
          h.allocate hfind howner hid ⟨hzero, hzero'⟩ (Nat.pos_of_ne_zero hsize) hfits (hinside addr rfl)
  | openRegion owner id =>
    change s' ∈ (match s.find owner id with | some (_, d) => some (s.hand d) | none => some s) at hs'
    cases hfind : s.find owner id with
    | some p =>
      rw [hfind] at hs'
      cases hs'
      exact h.hand (List.mem_of_getElem? (find_eq_some hfind).1) (hsafe p hfind)
    | none =>
      rw [hfind] at hs'
      exact Option.some.inj hs' ▸ h
  | delete owner id => exact Option.some.inj hs' ▸ h.removeEntry hsafe
  | reopen =>
    obtain ⟨ranges, hranges, rfl⟩ := Option.map_eq_some_iff.mp hs'
    exact h.setRanges ranges (rebuild_eq_some hranges).2

/-- In every safe run, also across re-openings, the regions that were handed out are disjoint, one for each name, and
behind the table. -/
theorem regions_apart_of_safe (blockSize blockCount : Nat) (es : List Event)
    (h : Throughout step Safe (State.new blockSize blockCount) es) : Throughout step Holds (State.new blockSize blockCount) es :=
  Throughout.imp (I := State.Inv) (fun _ _ hinv hsafe _ hs' => (hinv.step hsafe hs').fine)
    (fun _ _ _ hinv hsafe hs' => hinv.step hsafe hs') ⟨List.Pairwise.nil, nofun, nofun⟩ h

instance (s : State) (e : Event) : Decidable (Safe s e) := by
  unfold Safe
  repeat' split
  all_goals infer_instance

/-- A region is deleted, its descriptor and its blocks are used for another one, and the device is opened again. -/
def reusedEvents : List Event :=
  [.reuseOrAllocate 4 [111] [97] (some 1), .reuseOrAllocate 5 [111] [98] (some 5), .delete [111] [97],
    .reuseOrAllocate 3 [111] [99] (some 1), .reopen, .openRegion [111] [98], .reuseOrAllocate 1 [111] [99] none]

theorem regions_apart_reused : (runs step (State.new 4096 16) reusedEvents).map State.handed =
        some [⟨[111], [98], 5, 5, 0x900004000⟩, ⟨[111], [99], 1, 3, 0x900009000⟩, ⟨[111], [98], 5, 5, 0x900004000⟩,
          ⟨[111], [99], 1, 3, 0x900009000⟩] ∧ Throughout step Holds (State.new 4096 16) reusedEvents :=
  ⟨by decide +kernel, regions_apart_of_safe 4096 16 reusedEvents (by decide +kernel)⟩

/-- A region is asked for again after it was deleted, and then its blocks are given to another one. -/
def deletedEvents : List Event :=
  [.reuseOrAllocate 4 [111] [97] (some 1), .delete [111] [97], .reuseOrAllocate 4 [111] [97] none,
    .reuseOrAllocate 4 [111] [98] (some 1)]

theorem not_regions_apart : ¬ Throughout step Holds (State.new 4096 16) deletedEvents := by
  intro h
  have hend : (runs step (State.new 4096 16) deletedEvents).map State.handed =
      some [⟨[111], [97], 1, 4, 0x900000000⟩, ⟨[111], [98], 1, 4, 0x900004000⟩] := by decide +kernel
  obtain ⟨s, hs, hhanded⟩ := Option.map_eq_some_iff.mp hend
  have hnew : (State.new 4096 16).Fine := ⟨fun g hg => (nomatch hg), fun g hg => (nomatch hg), fun g hg => (nomatch hg)⟩
  have hfine := h.reached hnew hs
  have hapart := hfine.apart ⟨[111], [97], 1, 4, 0x900000000⟩ (hhanded ▸ List.mem_cons_self) ⟨[111], [98], 1, 4, 0x900004000⟩
    (hhanded ▸ List.mem_cons_of_mem _ List.mem_cons_self) (by decide)
  exact absurd hapart (by unfold Handed.Apart; decide)

end Comanche.Block.RegionTable
