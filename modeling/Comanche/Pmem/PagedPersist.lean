import Comanche.Pmem.Pager

/-!
# Persisting paged memory

`persist`, `persist_scoped` and `close` of `Pmem_paged_component`, and what they ask of the pager.
-/

namespace Comanche.Pmem.Pager

open Lib

variable {c : Setup} {s s' : State}

def Selects (vaddr page : Nat) : Prop := 0 < page ∧ page ≤ vaddr ∧ vaddr < page + pageSize

instance (vaddr page : Nat) : Decidable (Selects vaddr page) := inferInstanceAs (Decidable (_ ∧ _))

def State.flushSlot (c : Setup) (vaddr : Nat) (s : State) (slot : Nat) : Option State :=
  if Selects vaddr (s.vaddr slot) then (c.lookup (s.vaddr slot)).map (s.write c slot) else some s

def State.flush (s : State) (c : Setup) (vaddr size : Nat) : Option State :=
  if vaddr = 0 ∨ size = 0 then none else (List.range c.nrPages).foldlM (State.flushSlot c vaddr) s

def State.clear (s : State) (slot : Nat) : State :=
  { s with pages := Function.update s.pages slot ⟨none, 0⟩ }

def State.clearSlot (c : Setup) (vaddr size : Nat) (s : State) (slot : Nat) : State :=
  if vaddr ≤ s.vaddr slot ∧ s.vaddr slot < vaddr + size then
    if 0 < s.vaddr slot ∧ (s.pages slot).gwid.isSome then (s.takeEffect c slot).clear slot else s.clear slot
  else s

def State.clearMappings (s : State) (c : Setup) (vaddr size : Nat) : State :=
  (List.range c.nrPages).foldl (State.clearSlot c vaddr size) s

def State.munmap (s : State) (vaddr size : Nat) : State :=
  { s with mapped := fun page => if vaddr ≤ page ∧ page < vaddr + size then none else s.mapped page }

inductive Call where
  | persist (handle : Range)
  | persistScoped (handle : Range) (ptr size : Nat)
  | close (handle : Range)

def Call.run (c : Setup) (s : State) : Call → Option State
  | .persist handle => s.flush c handle.start handle.size
  | .persistScoped _ ptr size => s.flush c ptr size
  | .close handle => some ((s.munmap handle.start handle.size).clearMappings c handle.start handle.size)

/-- The region is open, and is not empty, as are the bytes that are named. -/
def Call.Valid (c : Setup) : Call → Prop
  | .persist handle | .close handle => handle ∈ c.table ∧ 0 < handle.size
  | .persistScoped handle ptr size =>
    handle ∈ c.table ∧ 0 < size ∧ handle.start ≤ ptr ∧ ptr + size ≤ handle.start + handle.size

instance (c : Setup) : ∀ call, Decidable (Call.Valid c call)
  | .persist _ | .close _ | .persistScoped .. => inferInstanceAs (Decidable (_ ∧ _))

def Call.Covers : Call → Nat → Prop
  | .persist handle, page | .close handle, page => handle.Holds page
  | .persistScoped _ ptr size, page => page < ptr + size ∧ ptr < page + pageSize

instance (page : Nat) : ∀ call : Call, Decidable (call.Covers page)
  | .persist _ | .close _ | .persistScoped .. => inferInstanceAs (Decidable (_ ∧ _))

def Call.Writes : Call → Nat → Prop
  | .persist handle, page => Selects handle.start page
  | .persistScoped _ ptr _, page => Selects ptr page
  | .close _, _ => False

instance (page : Nat) : ∀ call : Call, Decidable (call.Writes page)
  | .persist _ | .persistScoped .. => inferInstanceAs (Decidable (Selects ..))
  | .close _ => isFalse id

def State.Yields (s : State) (c : Setup) (page : Nat) (contents : Nat → UInt8) : Prop :=
  ∀ (u : State) (slot : Nat), u.device = s.device →
    ∃ u' ∈ u.swapIn c slot page, ∀ i < pageSize, u'.iob (pageSize * slot + i) = contents i

def State.contents (s : State) (slot i : Nat) : UInt8 := s.iob (pageSize * slot + i)

def Call.Durable (c : Setup) (s : State) (call : Call) : Prop :=
  ∃ s' ∈ call.run c s, ∀ slot < c.nrPages, 0 < s.vaddr slot → call.Covers (s.vaddr slot) →
    s'.Yields c (s.vaddr slot) (s.contents slot)

def State.OnDevice (s : State) (c : Setup) (slot : Nat) : Prop :=
  ∃ block, c.lookup (s.vaddr slot) = some block ∧
    ∀ i < pageSize, s.device (block * c.blkSz + i) = s.contents slot i

/-- Blocks are pages, and the resident pages that the call does not write are on the device already. The
calls that write look for the page that holds the first byte. -/
def Call.Kept (c : Setup) (s : State) (call : Call) : Prop :=
  ∀ slot < c.nrPages, 0 < s.vaddr slot → call.Covers (s.vaddr slot) →
    c.blkSz = pageSize ∧ (call.Writes (s.vaddr slot) ∨ s.OnDevice c slot)

theorem State.yields_iff {page block : Nat} {contents : Nat → UInt8} (hblock : c.lookup page = some block) :
    s.Yields c page contents ↔ c.blkSz = pageSize ∧ ∀ i < pageSize, s.device (block * c.blkSz + i) = contents i := by
  constructor
  · intro h
    have hle : c.blkSz ≤ pageSize := Nat.le_of_dvd (by decide) c.blkSz_dvd
    have hblk : c.blkSz = pageSize := by
      by_contra hne
      -- the byte behind the block stays what it was in the buffer
      obtain ⟨u', hu', hbytes⟩ := h { s with iob := fun _ => contents c.blkSz + 1 } 0 rfl
      obtain ⟨b, -, rfl⟩ := Option.map_eq_some_iff.mp hu'
      have hbyte := hbytes c.blkSz (by omega)
      change Memory.blit _ _ _ _ _ _ = _ at hbyte
      rw [Memory.blit_of_apart (.inr (Nat.le_refl _))] at hbyte
      simp at hbyte
    refine ⟨hblk, fun i hi => ?_⟩
    obtain ⟨u', hu', hbytes⟩ := h s 0 rfl
    obtain ⟨b, hb, rfl⟩ := Option.map_eq_some_iff.mp hu'
    obtain rfl : b = block := Option.some.inj (hb.symm.trans hblock)
    rw [← hbytes i hi]
    exact (Memory.blit_add (hblk ▸ hi)).symm
  · rintro ⟨hblk, hbytes⟩ u slot hu
    refine ⟨_, Option.map_eq_some_iff.mpr ⟨block, hblock, rfl⟩, fun i hi => ?_⟩
    rw [← hbytes i hi, ← hu]
    exact Memory.blit_add (hblk ▸ hi)

theorem State.flushSlots (vaddr : Nat) (slots : List Nat) (hs : s.Placed c) :
    ∃ s', slots.foldlM (State.flushSlot c vaddr) s = some s' ∧ (c.blkSz = pageSize →
      ∀ slot block, 0 < s.vaddr slot → c.lookup (s.vaddr slot) = some block → ∀ i < pageSize,
        s'.device (block * c.blkSz + i) = if slot ∈ slots ∧ Selects vaddr (s.vaddr slot) then s.contents slot i
          else s.device (block * c.blkSz + i)) := by
  induction slots generalizing s with
  | nil => exact ⟨s, rfl, fun _ _ _ _ _ _ _ => by simp⟩
  | cons k slots ih =>
    rw [List.foldlM_cons]
    unfold State.flushSlot
    split
    · next hsel =>
      obtain ⟨hdvd, b, hb⟩ := hs.page k hsel.1
      rw [hb]
      have hplaced : (s.write c k b).Placed c := hs.of_samePages ⟨rfl, rfl, rfl, rfl⟩
      obtain ⟨s', hrun, hdevice⟩ := ih hplaced
      refine ⟨s', hrun, fun hblk slot block hpos hblock i hi => ?_⟩
      rw [hdevice hblk slot block hpos hblock i hi]
      change ite (slot ∈ slots ∧ Selects vaddr (s.vaddr slot)) (s.contents slot i) _ = _
      by_cases hslot : slot = k
      · -- the block of the page itself
        subst hslot
        obtain rfl : b = block := Option.some.inj (hb.symm.trans hblock)
        rw [if_pos (⟨List.mem_cons_self, hsel⟩ : slot ∈ slot :: slots ∧ _)]
        split
        · rfl
        · exact Memory.blit_add (hblk ▸ hi)
      · have hne : block ≠ b := fun heq => hslot (by
          have hsame := Tracker.lookup_injective hblock (heq ▸ hb) (hs.page slot hpos).1 hdvd
          have h1 := (hs.mapped_iff _ slot).mpr ⟨hpos, rfl⟩
          have h2 := (hs.mapped_iff _ k).mpr ⟨hpos, hsame.symm⟩
          exact Option.some.inj (h1.symm.trans h2))
        have hkept : (s.write c k b).device (block * c.blkSz + i) = s.device (block * c.blkSz + i) :=
          Memory.blit_of_apart (apart_of_ne hne (hblk ▸ hi))
        rw [hkept]
        simp only [List.mem_cons, hslot, false_or]
    · next hsel =>
      obtain ⟨s', hrun, hdevice⟩ := ih hs
      refine ⟨s', hrun, fun hblk slot block hpos hblock i hi => ?_⟩
      rw [hdevice hblk slot block hpos hblock i hi]
      by_cases hslot : slot = k
      · subst hslot
        rw [if_neg (fun h => hsel h.2), if_neg (fun h => hsel h.2)]
      · simp only [List.mem_cons, hslot, false_or]

theorem State.flush_eq {vaddr size : Nat} (hvaddr : 0 < vaddr) (hsize : 0 < size) :
    s.flush c vaddr size = (List.range c.nrPages).foldlM (State.flushSlot c vaddr) s :=
  if_neg (by omega)

theorem State.clearSlots_device {vaddr size : Nat} (slots : List Nat) (hs : ∀ slot ∈ slots, s.SettledAt slot) :
    (slots.foldl (State.clearSlot c vaddr size) s).device = s.device := by
  induction slots generalizing s with
  | nil => rfl
  | cons k slots ih =>
    rw [List.foldl_cons]
    have hrest : ∀ slot ∈ slots, s.SettledAt slot := fun slot hslot => hs slot (List.mem_cons_of_mem k hslot)
    have hclear : ∀ slot ∈ slots, (s.clear k).SettledAt slot := fun slot hslot block => by
      by_cases hk : slot = k
      · simp [State.clear, hk]
      · simpa [State.clear, hk] using hrest slot hslot block
    unfold State.clearSlot
    rw [takeEffect_of_settled (hs k List.mem_cons_self)]
    split
    · split
      · exact ih hclear
      · exact ih hclear
    · exact ih hrest

theorem Call.run_spec (call : Call) (hs : s.Placed c) (hsettled : ∀ slot < c.nrPages, s.SettledAt slot)
    (hvalid : call.Valid c) :
    ∃ s', call.run c s = some s' ∧ (c.blkSz = pageSize → ∀ slot < c.nrPages, ∀ block, 0 < s.vaddr slot →
      c.lookup (s.vaddr slot) = some block → ∀ i < pageSize,
        (call.Writes (s.vaddr slot) → s'.device (block * c.blkSz + i) = s.contents slot i) ∧
        (¬ call.Writes (s.vaddr slot) → s'.device (block * c.blkSz + i) = s.device (block * c.blkSz + i))) := by
  have hflush : ∀ vaddr size, 0 < vaddr → 0 < size → ∃ s', s.flush c vaddr size = some s' ∧
      (c.blkSz = pageSize → ∀ slot < c.nrPages, ∀ block, 0 < s.vaddr slot →
        c.lookup (s.vaddr slot) = some block → ∀ i < pageSize,
          (Selects vaddr (s.vaddr slot) → s'.device (block * c.blkSz + i) = s.contents slot i) ∧
          (¬ Selects vaddr (s.vaddr slot) → s'.device (block * c.blkSz + i) = s.device (block * c.blkSz + i))) := by
    intro vaddr size hvaddr hsize
    obtain ⟨s', hrun, hdevice⟩ := State.flushSlots vaddr (List.range c.nrPages) hs
    refine ⟨s', (State.flush_eq hvaddr hsize).trans hrun, fun hblk slot hslot block hpos hblock i hi => ?_⟩
    rw [hdevice hblk slot block hpos hblock i hi]
    exact ⟨fun h => if_pos ⟨List.mem_range.mpr hslot, h⟩, fun h => if_neg fun h' => h h'.2⟩
  cases call with
  | persist handle => exact hflush _ _ (c.aligned handle hvalid.1).1 hvalid.2
  | persistScoped handle ptr size =>
    obtain ⟨hmem, hsize, hptr, -⟩ := hvalid
    exact hflush ptr size (Nat.lt_of_lt_of_le (c.aligned handle hmem).1 hptr) hsize
  | close handle =>
    have hdevice : ((s.munmap handle.start handle.size).clearMappings c handle.start handle.size).device =
        s.device := State.clearSlots_device (s := s.munmap handle.start handle.size) _ fun slot hslot =>
      hsettled slot (List.mem_range.mp hslot)
    refine ⟨_, rfl, fun _ slot _ block _ _ i _ => ⟨False.elim, fun _ => ?_⟩⟩
    rw [hdevice]

theorem placed_of_run {es : List Event} {s₀ : State} (h : s₀.Placed c) (hrun : es.foldlM (step c) s₀ = some s) :
    s.Placed c := by
  induction es generalizing s₀ with
  | nil =>
    obtain rfl := Option.some.inj hrun
    exact h
  | cons e es ih =>
    rw [List.foldlM_cons] at hrun
    obtain ⟨s₁, hstep, hrest⟩ := Option.bind_eq_some_iff.mp hrun
    exact ih (step_placed h hstep) hrest

/-- A call makes the resident pages durable just when those that it does not write are on the device. -/
theorem durable_iff_kept (c : Setup) (iob device : Memory) (es : List Event) (s : State)
    (hrun : es.foldlM (step c) (State.start c iob device) = some s)
    (hsettled : ∀ slot < c.nrPages, s.SettledAt slot) (call : Call) (hvalid : call.Valid c) : call.Durable c s ↔ call.Kept c s := by
  have hs := placed_of_run (State.start_placed iob device) hrun
  obtain ⟨s', hcall, hdevice⟩ := call.run_spec hs hsettled hvalid
  have hdurable : call.Durable c s ↔ ∀ slot < c.nrPages, 0 < s.vaddr slot → call.Covers (s.vaddr slot) →
      s'.Yields c (s.vaddr slot) (s.contents slot) := by
    unfold Call.Durable
    rw [hcall]
    simp
  rw [hdurable]
  refine forall₄_congr fun slot hslot hpos _ => ?_
  obtain ⟨-, block, hblock⟩ := hs.page slot hpos
  rw [State.yields_iff hblock]
  refine and_congr_right fun hblk => ?_
  have hslotDevice := hdevice hblk slot hslot block hpos hblock
  by_cases hw : call.Writes (s.vaddr slot)
  · exact iff_of_true (fun i hi => (hslotDevice i hi).1 hw) (.inl hw)
  · constructor
    · intro h
      exact .inr ⟨block, hblock, fun i hi => ((hslotDevice i hi).2 hw).symm.trans (h i hi)⟩
    · intro h i hi
      obtain ⟨b, hb, hbytes⟩ := h.resolve_left hw
      obtain rfl : b = block := Option.some.inj (hb.symm.trans hblock)
      exact ((hslotDevice i hi).2 hw).trans (hbytes i hi)

theorem Call.not_durable {call : Call} {k b : Nat} (hrun : s' ∈ call.run c s) (hk : k < c.nrPages)
    (hpos : 0 < s.vaddr k) (hcovers : call.Covers (s.vaddr k)) (hb : c.lookup (s.vaddr k) = some b)
    (hbyte : s'.device (b * c.blkSz + 0) ≠ s.contents k 0) : ¬ call.Durable c s := by
  rintro ⟨s'', hrun', h⟩
  obtain rfl : s'' = s' := Option.mem_unique hrun' hrun
  exact hbyte (((State.yields_iff hb).mp (h k hk hpos hcovers)).2 0 (by decide))

def twoPagesRegion : Range := ⟨0x900000000, 2 * pageSize, 1⟩

def storedTo (page : Nat) : Option State :=
  [.fault page [], .store page 7].foldlM (step twoPages) (State.start twoPages (fun _ => 0) (fun _ => 0))

theorem durable_firstPage :
    ∃ s, storedTo 0x900000000 = some s ∧ (Call.persist twoPagesRegion).Durable twoPages s := by
  have hrun := (Option.some_get (x := storedTo 0x900000000) (by decide +kernel)).symm
  refine ⟨_, hrun, ?_⟩
  refine (durable_iff_kept twoPages _ _ _ _ hrun (fun slot hslot block h => ?_) _ (by decide)).mpr ?_
  · obtain rfl : slot = 0 := Nat.lt_one_iff.mp hslot
    exact absurd (h.symm.trans (by decide +kernel)) (Option.some_ne_none _)
  · intro slot hslot _ _
    obtain rfl : slot = 0 := Nat.lt_one_iff.mp hslot
    exact ⟨rfl, .inl (by decide +kernel)⟩

/-- The second page is resident: `persist` looks for the first one, and `close` writes nothing. -/
theorem not_durable_secondPage :
    ∃ s, storedTo 0x900001000 = some s ∧ ¬ (Call.persist twoPagesRegion).Durable twoPages s ∧
      ¬ (Call.close twoPagesRegion).Durable twoPages s := by
  refine ⟨_, (Option.some_get (by decide +kernel)).symm, ?_, ?_⟩
  · exact Call.not_durable (Option.get_mem (by decide +kernel)) (k := 0) (b := 2) (by decide) (by decide +kernel)
      (by decide +kernel) (by decide +kernel) (by decide +kernel)
  · exact Call.not_durable (Option.get_mem (by decide +kernel)) (k := 0) (b := 2) (by decide) (by decide +kernel)
      (by decide +kernel) (by decide +kernel) (by decide +kernel)

end Comanche.Pmem.Pager
