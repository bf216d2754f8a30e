import Comanche.Nupm.RegionCalls
import Comanche.Lib.Tiling

/-!
# The region table is a partition

The entries of the table that have a length tile the device.
-/

namespace Comanche.Nupm

open Lib
open Function (forall_update_iff update update_of_ne update_self)

variable {h h' : RegionHeader} {total regionId sizeGB r n : Nat}

/-- The entries that have a length tile the gigabytes below `total`, and no two regions share an
identifier. -/
structure Partition (h : RegionHeader) (total : Nat) : Prop where
  tiles : ∃ c, (∀ r, r ∈ c ↔ r < regionCount ∧ (h.regions r).lengthGB ≠ 0) ∧
    Tiles (fun r => (h.regions r).offsetGB) (fun r => (h.regions r).lengthGB) 0 c total
  distinct : ∀ r < regionCount, ∀ s < regionCount, (h.regions r).regionId = (h.regions s).regionId →
    (h.regions r).regionId ≠ 0 → r = s
  sized : ∀ r < regionCount, (h.regions r).regionId ≠ 0 → (h.regions r).lengthGB ≠ 0

inductive Op where
  | allocate (regionId sizeGB : Nat)
  | erase (regionId : Nat)

def RegionHeader.after (h : RegionHeader) : Op → RegionHeader
  | .allocate regionId sizeGB =>
    match allocateRegion regionId sizeGB h with
    | .ok _ h' | .error _ h' => h'
  | .erase regionId =>
    match eraseRegion regionId h with
    | .ok _ h' | .error _ h' => h'

def Op.Valid : Op → Prop
  | .allocate regionId sizeGB => 0 < regionId ∧ regionId < 2 ^ 64 ∧ 0 < sizeGB ∧ sizeGB < 2 ^ 32
  | .erase regionId => regionId < 2 ^ 64

/-- A free range of the length asked for, at the offset that is answered, has become the region; no other
region has changed. -/
structure Taken (h h' : RegionHeader) (regionId sizeGB offset : Nat) : Prop where
  free : ∃ r < regionCount, (h.regions r).regionId = 0 ∧ (h.regions r).offsetGB = offset ∧
    sizeGB ≤ (h.regions r).lengthGB
  region : ∃ s < regionCount, h'.regions s = ⟨offset, sizeGB, regionId⟩ ∧
    ∀ r < regionCount, r ≠ s → (h'.regions r).regionId = (h.regions r).regionId ∧
      ((h.regions r).regionId ≠ 0 → h'.regions r = h.regions r)

def RegionHeader.Answers (h : RegionHeader) : Op → Prop
  | .allocate regionId sizeGB =>
    match allocateRegion regionId sizeGB h with
    | .ok offset h' => Taken h h' regionId sizeGB offset
    | .error _ h' => h' = h
  | .erase regionId =>
    match eraseRegion regionId h with
    | .ok _ _ => True
    | .error _ h' => h' = h

/-- The rest of an entry that the call cuts has an offset and a length of 16 bits. -/
def RegionHeader.Narrow (h : RegionHeader) : Op → Prop
  | .allocate regionId sizeGB =>
    regionId = 0 ∨ (h.find regionId).isSome ∨ ∀ r ∈ h.choose sizeGB,
      sizeGB < (h.regions r).lengthGB →
        (h.regions r).offsetGB + sizeGB < 2 ^ 16 ∧ (h.regions r).lengthGB - sizeGB < 2 ^ 16
  | .erase _ => True

instance : (op : Op) → Decidable op.Valid
  | .allocate _ _ => inferInstanceAs (Decidable (_ ∧ _ ∧ _ ∧ _))
  | .erase _ => inferInstanceAs (Decidable (_ < _))

instance (h : RegionHeader) : (op : Op) → Decidable (h.Narrow op)
  | .allocate _ _ => inferInstanceAs (Decidable (_ ∨ _ ∨ _))
  | .erase _ => isTrue trivial

section

variable (hp : Partition h total)
include hp

theorem Partition.distinct_setId {id : Nat}
    (hid : ∀ s, (h'.regions s).regionId = if s = r then id else (h.regions s).regionId)
    (hnew : id ≠ 0 → ∀ s < regionCount, (h.regions s).regionId ≠ id) :
    ∀ s < regionCount, ∀ t < regionCount, (h'.regions s).regionId = (h'.regions t).regionId →
      (h'.regions s).regionId ≠ 0 → s = t := by
  intro s hs t ht heq hne
  rw [hid s, hid t] at heq
  rw [hid s] at hne
  by_cases hsr : s = r
  · rw [if_pos hsr] at heq hne
    by_cases htr : t = r
    · rw [hsr, htr]
    · rw [if_neg htr] at heq
      exact absurd heq.symm (hnew hne t ht)
  · rw [if_neg hsr] at heq hne
    by_cases htr : t = r
    · rw [if_pos htr] at heq
      exact absurd heq (hnew (heq ▸ hne) s hs)
    · rw [if_neg htr] at heq
      exact hp.distinct s hs t ht heq hne

theorem Partition.setId {id : Nat} (hregions : h'.regions = update h.regions r { h.regions r with regionId := id })
    (hlength : (h.regions r).lengthGB ≠ 0)
    (hnew : id ≠ 0 → ∀ s < regionCount, (h.regions s).regionId ≠ id) : Partition h' total := by
  have hsame : ∀ s, (h'.regions s).offsetGB = (h.regions s).offsetGB ∧ (h'.regions s).lengthGB = (h.regions s).lengthGB ∧
      (h'.regions s).regionId = if s = r then id else (h.regions s).regionId := by
    intro s
    rw [hregions]
    by_cases hs : s = r
    · subst hs
      simp
    · simp [hs]
  obtain ⟨c, hc, htiles⟩ := hp.tiles
  refine ⟨⟨c, fun s => ?_, htiles.congr (fun s _ => (hsame s).1) fun s _ => (hsame s).2.1⟩,
    hp.distinct_setId (fun s => (hsame s).2.2) hnew, fun s hs hne => ?_⟩
  · rw [(hsame s).2.1, hc]
  · rw [(hsame s).2.1]
    rw [(hsame s).2.2] at hne
    split at hne
    case isTrue hsr => rwa [hsr]
    case isFalse => exact hp.sized s hs hne

theorem Partition.cut (hr : r < regionCount) (hfree : (h.regions r).regionId = 0) (hpos : 0 < sizeGB)
    (hsize : sizeGB < (h.regions r).lengthGB) (hn : n < regionCount)
    (hspare : (h.regions n).regionId = 0 ∧ (h.regions n).lengthGB = 0)
    (hnew : ∀ s < regionCount, (h.regions s).regionId ≠ regionId) (hregions : h'.regions = update (update h.regions n
      ⟨(h.regions r).offsetGB + sizeGB, (h.regions r).lengthGB - sizeGB, (h.regions n).regionId⟩) r
        ⟨(h.regions r).offsetGB, sizeGB, regionId⟩) : Partition h' total := by
  have hne : n ≠ r := by
    rintro rfl
    omega
  have hr' : h'.regions r = ⟨(h.regions r).offsetGB, sizeGB, regionId⟩ := by
    rw [hregions, update_self]
  have hn' : h'.regions n = ⟨(h.regions r).offsetGB + sizeGB, (h.regions r).lengthGB - sizeGB, 0⟩ := by
    rw [hregions, update_of_ne hne, update_self, hspare.1]
  have hother : ∀ s, s ≠ r → s ≠ n → h'.regions s = h.regions s := by
    intro s hsr hsn
    rw [hregions, update_of_ne hsr, update_of_ne hsn]
  obtain ⟨c, hc, htiles⟩ := hp.tiles
  obtain ⟨pre, post, rfl⟩ := List.append_of_mem ((hc r).mpr ⟨hr, by omega⟩)
  have hnodup := htiles.nodup
  have hnotmem : n ∉ pre ++ r :: post := fun hmem => ((hc n).mp hmem).2 hspare.2
  have hframe : ∀ s ∈ pre ++ post, h'.regions s = h.regions s := by
    intro s hs
    refine hother s ?_ ?_
    · rintro rfl
      exact (List.nodup_cons.mp (List.nodup_middle.mp hnodup)).1 hs
    · rintro rfl
      refine hnotmem ?_
      simp only [List.mem_append, List.mem_cons] at hs ⊢
      tauto
  have hids : ∀ u, (h'.regions u).regionId = if u = r then regionId else (h.regions u).regionId := by
    intro u
    by_cases hur : u = r
    · subst hur
      simp [hr']
    · by_cases hun : u = n
      · subst hun
        simp [hn', hur, hspare.1]
      · rw [hother u hur hun, if_neg hur]
  refine ⟨⟨pre ++ r :: ([n] ++ post), fun s => ?_, ?_⟩, hp.distinct_setId hids fun _ => hnew, fun s hs hid => ?_⟩
  · by_cases hsr : s = r
    · subst hsr
      simp [hr', hr, hpos.ne']
    · by_cases hsn : s = n
      · subst hsn
        simp [hn', hn]
        omega
      · rw [hother s hsr hsn, ← hc s]
        simp [hsr, hsn]
  · have hold : Tiles (fun s => (h.regions s).offsetGB) (fun s => (h.regions s).lengthGB)
        (h.regions r).offsetGB [r] ((h.regions r).offsetGB + (h.regions r).lengthGB) := by
      simp only [tiles_cons, tiles_nil, and_true, true_and]
      omega
    have hnew : Tiles (fun s => (h'.regions s).offsetGB) (fun s => (h'.regions s).lengthGB)
        (h.regions r).offsetGB [r, n] ((h.regions r).offsetGB + (h.regions r).lengthGB) := by
      simp only [tiles_cons, tiles_nil, hr', hn', true_and]
      omega
    have htiles' : Tiles (fun s => (h.regions s).offsetGB) (fun s => (h.regions s).lengthGB) 0
        (pre ++ r :: ([] ++ post)) total := htiles
    exact htiles'.replace hold hnew fun s hs => by rw [hframe s hs]; exact ⟨rfl, rfl⟩
  · by_cases hsr : s = r
    · subst hsr
      rw [hr']
      exact hpos.ne'
    · by_cases hsn : s = n
      · subst hsn
        rw [hn']
        simp only
        omega
      · rw [hother s hsr hsn] at hid ⊢
        exact hp.sized s hs hid

theorem Partition.not_cut (hr : r < regionCount)
    (hsize : sizeGB < (h.regions r).lengthGB) (hspare : (h.regions n).lengthGB = 0) {reg : DmRegion}
    (hshort : reg.offsetGB + reg.lengthGB < (h.regions r).offsetGB + (h.regions r).lengthGB)
    (hregions : h'.regions = update (update h.regions n reg) r
      ⟨(h.regions r).offsetGB, sizeGB, regionId⟩) : ¬ Partition h' total := by
  intro hp'
  have hne : n ≠ r := by
    rintro rfl
    omega
  obtain ⟨c, hc, htiles⟩ := hp.tiles
  obtain ⟨c', hc', htiles'⟩ := hp'.tiles
  have hrc : r ∈ c := (hc r).mpr ⟨hr, by omega⟩
  have hend : (h.regions r).offsetGB + (h.regions r).lengthGB ≤ total := (htiles.mem hrc).2.2
  obtain ⟨s, hs, hlo, hhi⟩ := htiles'.exists_mem
    (n := (h.regions r).offsetGB + (h.regions r).lengthGB - 1) (Nat.zero_le _) (by omega)
  by_cases hsr : s = r
  · subst hsr
    simp only [hregions, update_self] at hlo hhi
    omega
  · by_cases hsn : s = n
    · subst hsn
      simp only [hregions, update_of_ne hne, update_self] at hlo hhi
      omega
    · have hsame : h'.regions s = h.regions s := by
        rw [hregions, update_of_ne hsr, update_of_ne hsn]
      rw [hsame] at hlo hhi
      -- an entry that is as it was shares no gigabyte with the one that is cut
      refine hsr (htiles.unique ((hc s).mpr ?_) hrc ⟨hlo, hhi⟩ ⟨by omega, by omega⟩)
      have hlen := ((hc' s).mp hs)
      rwa [hsame] at hlen

end

/-- A call keeps what holds of an entry under any id, of the first part of an entry that is cut, and of any
entry with short fields. -/
theorem RegionHeader.Clear.after_forall (hclear : h.Clear) {I : Nat → DmRegion → Prop}
    (hid : ∀ s id, I s { h.regions s with regionId := id })
    (hcut : ∀ s size id, size < (h.regions s).lengthGB → I s ⟨(h.regions s).offsetGB, size, id⟩)
    (hshort : ∀ s reg, reg.offsetGB < 2 ^ 16 → reg.lengthGB < 2 ^ 16 → I s reg) (op : Op) :
    (h.after op).Clear ∧ ∀ s, I s ((h.after op).regions s) := by
  have hupdate {regs : Nat → DmRegion} {r : Nat} {reg : DmRegion} (hregs : ∀ s, I s (regs s))
      (hreg : I r reg) : ∀ s, I s (update regs r reg s) :=
    (forall_update_iff _ I).mpr ⟨hreg, fun s _ => hregs s⟩
  have hsame (s : Nat) : I s (h.regions s) := hid s (h.regions s).regionId
  cases op with
  | allocate regionId sizeGB =>
    have hout := allocateRegion_outcome hclear regionId sizeGB
    simp only [after]
    generalize allocateRegion regionId sizeGB h = out at hout
    cases hout with
    | fails e => exact ⟨hclear, hsame⟩
    | exact r h' _ _ _ _ hclear' hregions =>
      simp only [hregions]
      exact ⟨hclear', hupdate hsame (hid r regionId)⟩
    | cut r n h' _ _ _ hsize hn hclear' hregions =>
      simp only [hregions]
      refine ⟨hclear', hupdate (hupdate hsame ?_) (hcut r sizeGB regionId hsize)⟩
      exact hshort n _ (Nat.mod_lt _ (by decide)) (Nat.mod_lt _ (by decide))
  | erase regionId =>
    simp only [after]
    rcases eraseRegion_eq h regionId with ⟨e, heq⟩ | ⟨r, -, -, heq⟩
    · simp only [heq]
      exact ⟨hclear, hsame⟩
    · simp only [heq]
      exact ⟨hclear, hupdate hsame (hid r 0)⟩

section

variable (hp : Partition h total) (hclear : h.Clear)
include hp hclear

theorem Partition.allocate (hvalid : (Op.allocate regionId sizeGB).Valid) :
    h.Answers (.allocate regionId sizeGB) ∧ (h.after (.allocate regionId sizeGB)).Clear ∧
      (Partition (h.after (.allocate regionId sizeGB)) total ↔ h.Narrow (.allocate regionId sizeGB)) := by
  obtain ⟨hpos, -, hsizepos, -⟩ := hvalid
  have hout := allocateRegion_outcome hclear regionId sizeGB
  simp only [RegionHeader.Answers, RegionHeader.after, RegionHeader.Narrow]
  generalize allocateRegion regionId sizeGB h = out at hout
  cases hout with
  | fails e hwhy =>
    refine ⟨rfl, hclear, iff_of_true hp ?_⟩
    rcases hwhy with hzero | hfound | hnone
    · exact Or.inl hzero
    · exact Or.inr (Or.inl hfound)
    · exact Or.inr (Or.inr fun s hs => by simp [hnone] at hs)
  | exact r h' hid hnew hr hsize hclear' hregions =>
    obtain ⟨hrlt, hfree, -⟩ := RegionHeader.choose_eq_some hr
    refine ⟨⟨⟨r, hrlt, hfree, rfl, hsize.ge⟩, r, hrlt, ?_, fun s hs hsr => ?_⟩, hclear', iff_of_true ?_ ?_⟩
    · rw [hregions, update_self, ← hsize]
    · rw [hregions, update_of_ne hsr]
      exact ⟨rfl, fun _ => rfl⟩
    · exact hp.setId hregions (by omega) fun _ s hs => RegionHeader.find_eq_none hnew hs
    · refine Or.inr (Or.inr fun s hs hlt => ?_)
      rw [hr] at hs
      cases hs
      omega
  | cut r n h' hid hnew hr hsize hn hclear' hregions =>
    obtain ⟨hrlt, hfree, -⟩ := RegionHeader.choose_eq_some hr
    obtain ⟨hnlt, hnfree, hnlen⟩ := RegionHeader.spare_eq_some hn
    refine ⟨⟨⟨r, hrlt, hfree, rfl, hsize.le⟩, r, hrlt, ?_, fun s hs hsr => ?_⟩, hclear', ?_⟩
    · rw [hregions, update_self]
    · rw [hregions, update_of_ne hsr]
      by_cases hsn : s = n
      · subst hsn
        rw [update_self]
        exact ⟨rfl, fun hid => absurd hnfree hid⟩
      · rw [update_of_ne hsn]
        exact ⟨rfl, fun _ => rfl⟩
    · have hnarrow : (regionId = 0 ∨ (h.find regionId).isSome = true ∨ ∀ s ∈ h.choose sizeGB,
          sizeGB < (h.regions s).lengthGB →
            (h.regions s).offsetGB + sizeGB < 2 ^ 16 ∧ (h.regions s).lengthGB - sizeGB < 2 ^ 16) ↔
          (h.regions r).offsetGB + sizeGB < 2 ^ 16 ∧ (h.regions r).lengthGB - sizeGB < 2 ^ 16 := by
        simp [hid, hnew, hr, hsize]
      rw [hnarrow]
      constructor
      · intro hp'
        by_contra hwide
        refine hp.not_cut hrlt hsize hnlen ?_ hregions hp'
        simp only
        omega
      · rintro ⟨hoffset, hlength⟩
        rw [Nat.mod_eq_of_lt hoffset, Nat.mod_eq_of_lt hlength] at hregions
        exact hp.cut hrlt hfree hsizepos hsize hnlt ⟨hnfree, hnlen⟩ (fun s hs => RegionHeader.find_eq_none hnew hs) hregions

theorem Partition.erase (regionId : Nat) : h.Answers (.erase regionId) ∧ (h.after (.erase regionId)).Clear ∧
      Partition (h.after (.erase regionId)) total := by
  simp only [RegionHeader.Answers, RegionHeader.after]
  rcases eraseRegion_eq h regionId with ⟨e, heq⟩ | ⟨r, hid, hfind, heq⟩
  · simp only [heq]
    exact ⟨trivial, hclear, hp⟩
  · obtain ⟨hr, hrid⟩ := RegionHeader.find_eq_some hfind
    simp only [heq]
    exact ⟨trivial, hclear, hp.setId rfl (hp.sized r hr (hrid ▸ hid)) fun hzero => absurd rfl hzero⟩

theorem Partition.after {op : Op} (hvalid : op.Valid) :
    h.Answers op ∧ (h.after op).Clear ∧ (Partition (h.after op) total ↔ h.Narrow op) := by
  cases op with
  | allocate regionId sizeGB => exact hp.allocate hclear hvalid
  | erase regionId =>
    obtain ⟨hanswers, hclear', hp'⟩ := hp.erase hclear regionId
    exact ⟨hanswers, hclear', iff_of_true hp' trivial⟩

end

def AllOps (P : RegionHeader → Op → Prop) : RegionHeader → List Op → Prop
  | _, [] => True
  | h, op :: ops => P h op ∧ AllOps P (h.after op) ops

instance AllOps.decidable {P : RegionHeader → Op → Prop} [hP : ∀ h op, Decidable (P h op)] :
    (h : RegionHeader) → (ops : List Op) → Decidable (AllOps P h ops)
  | _, [] => isTrue trivial
  | h, op :: ops =>
    have := AllOps.decidable (P := P) (h.after op) ops
    inferInstanceAs (Decidable (_ ∧ _))

/-- In every state of the run the table is a partition, and every call is answered rightly. -/
def Partitions (total : Nat) : RegionHeader → List Op → Prop
  | h, [] => Partition h total
  | h, op :: ops => Partition h total ∧ h.Answers op ∧ Partitions total (h.after op) ops

theorem Partitions.start {ops : List Op} (hrun : Partitions total h ops) : Partition h total := by
  cases ops with
  | nil => exact hrun
  | cons op ops => exact hrun.1

theorem Partition.run_iff (hp : Partition h total) (hclear : h.Clear) {ops : List Op}
    (hvalid : ∀ op ∈ ops, op.Valid) : Partitions total h ops ↔ AllOps RegionHeader.Narrow h ops := by
  induction ops generalizing h with
  | nil => exact iff_of_true hp trivial
  | cons op ops ih =>
    obtain ⟨hanswers, hclear', hnarrow⟩ := hp.after hclear (hvalid op List.mem_cons_self)
    have htail : ∀ op ∈ ops, op.Valid := fun o ho => hvalid o (List.mem_cons_of_mem op ho)
    constructor
    · rintro ⟨-, -, hrun⟩
      exact ⟨hnarrow.mp hrun.start, (ih hrun.start hclear' htail).mp hrun⟩
    · rintro ⟨hn, hrest⟩
      have hp' := hnarrow.mpr hn
      exact ⟨hp, hanswers, (ih hp' hclear' htail).mpr hrest⟩

theorem rebuild_partition (old : RegionHeader) (deviceSize : Nat) (hlo : 2 * 2 ^ 30 ≤ deviceSize)
    (hhi : deviceSize / 2 ^ 30 < 2 ^ 32) :
    Partition (rebuild old deviceSize) (deviceSize / 2 ^ 30 - 1) ∧ (rebuild old deviceSize).Clear := by
  have hlength : (deviceSize - 2 ^ 30) / 2 ^ 30 % 2 ^ 32 = deviceSize / 2 ^ 30 - 1 := by omega
  have hpos : 0 < deviceSize / 2 ^ 30 - 1 := by omega
  have hzero : ∀ r, r ≠ 0 → r < regionCount → ((rebuild old deviceSize).regions r).lengthGB = 0 ∧
      ((rebuild old deviceSize).regions r).regionId = 0 := by
    intro r hr hlt
    simp [rebuild, hr, hlt]
  have hfirst : (rebuild old deviceSize).regions 0 = ⟨0, deviceSize / 2 ^ 30 - 1, 0⟩ := by
    rw [← hlength]
    rfl
  have hid : ∀ r < regionCount, ((rebuild old deviceSize).regions r).regionId = 0 := by
    intro r hr
    by_cases hr0 : r = 0
    · rw [hr0, hfirst]
    · exact (hzero r hr0 hr).2
  refine ⟨⟨⟨[0], fun r => ?_, ?_⟩, fun r hr s hs _ hne => absurd (hid r hr) hne,
    fun r hr hne => absurd (hid r hr) hne⟩, old.clearLog_clear⟩
  · rw [List.mem_singleton]
    constructor
    · rintro rfl
      rw [hfirst]
      exact ⟨by decide, hpos.ne'⟩
    · rintro ⟨hr, hne⟩
      by_contra hr0
      exact hne (hzero r hr0 hr).1
  · simp only [tiles_cons, tiles_nil, hfirst]
    exact ⟨trivial, hpos, Nat.zero_add _⟩

/-- From the rebuilding constructor on, the table is a partition exactly when no call cuts an entry whose rest needs more
than 16 bits. -/
theorem rebuilt_partitions_iff (old : RegionHeader) (deviceSize : Nat) (hlo : 2 * 2 ^ 30 ≤ deviceSize)
    (hhi : deviceSize / 2 ^ 30 < 2 ^ 32) (ops : List Op) (hvalid : ∀ op ∈ ops, op.Valid) :
    Partitions (deviceSize / 2 ^ 30 - 1) (rebuild old deviceSize) ops ↔
      AllOps RegionHeader.Narrow (rebuild old deviceSize) ops := by
  obtain ⟨hp, hclear⟩ := rebuild_partition old deviceSize hlo hhi
  exact hp.run_iff hclear hvalid

theorem rebuilt_partitions_fourGB : Partitions 3 (rebuild default (4 * 2 ^ 30))
      [.allocate 7 1, .allocate 9 2, .erase 7, .allocate 9 1, .allocate 8 1] :=
  (rebuilt_partitions_iff default (4 * 2 ^ 30) (by decide) (by decide) _ (by decide)).mpr
    (by decide +kernel)

/-- One gigabyte is taken of 65538: of the 65537 that are left the table keeps one. -/
theorem not_partitions_wide : ¬ Partitions 65538 (rebuild default (65539 * 2 ^ 30)) [.allocate 1 1] := by
  obtain ⟨hp, hclear⟩ := rebuild_partition default (65539 * 2 ^ 30) (by decide) (by decide)
  rw [show 65539 * 2 ^ 30 / 2 ^ 30 - 1 = 65538 by decide] at hp
  rw [hp.run_iff hclear (by decide)]
  decide +kernel

end Comanche.Nupm
