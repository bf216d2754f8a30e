import Comanche.Nupm.RegionPartition

/-!
# The largest region that is available

`get_max_available` looks at every entry of the table, in use or not.
-/

namespace Comanche.Nupm

variable {h : RegionHeader} {regionId sizeGB r : Nat}

def RegionHeader.maxLength (h : RegionHeader) (rs : List Nat) (maxSize : Nat) : Nat :=
  rs.foldl (fun maxSize r => if maxSize < (h.regions r).lengthGB then (h.regions r).lengthGB else maxSize) maxSize

def RegionHeader.getMaxAvailable (h : RegionHeader) : Nat :=
  h.maxLength (List.range regionCount) 0 % 2 ^ 32 * 2 ^ 30

/-- A region of the size that is said to be available can be allocated, and no larger one. -/
def RegionHeader.Achieves (h : RegionHeader) (regionId : Nat) : Prop :=
  (∃ offset h', allocateRegion regionId (h.getMaxAvailable / 2 ^ 30) h = .ok offset h') ∧
    ∀ regionId' sizeGB offset h', h.getMaxAvailable / 2 ^ 30 < sizeGB →
      allocateRegion regionId' sizeGB h ≠ .ok offset h'

def RegionHeader.LongestFree (h : RegionHeader) : Prop :=
  ∃ r < regionCount, (h.regions r).regionId = 0 ∧
    ∀ s < regionCount, (h.regions s).lengthGB ≤ (h.regions r).lengthGB

theorem RegionHeader.maxLength_spec (h : RegionHeader) (rs : List Nat) (n : Nat) :
    n ≤ h.maxLength rs n ∧ (∀ r ∈ rs, (h.regions r).lengthGB ≤ h.maxLength rs n) ∧
      (h.maxLength rs n = n ∨ ∃ r ∈ rs, (h.regions r).lengthGB = h.maxLength rs n) := by
  induction rs generalizing n with
  | nil => simp [maxLength]
  | cons r rs ih =>
    have hcons : h.maxLength (r :: rs) n = h.maxLength rs (max n (h.regions r).lengthGB) := by
      unfold maxLength
      rw [List.foldl_cons]
      congr 1
      split <;> omega
    rw [hcons]
    obtain ⟨hle, hall, hattained⟩ := ih (max n (h.regions r).lengthGB)
    refine ⟨by omega, List.forall_mem_cons.mpr ⟨by omega, hall⟩, ?_⟩
    rcases hattained with heq | ⟨s, hs, heq⟩
    · rcases max_choice n (h.regions r).lengthGB with hmax | hmax
      · exact Or.inl (heq.trans hmax)
      · exact Or.inr ⟨r, List.mem_cons_self, (heq.trans hmax).symm⟩
    · exact Or.inr ⟨s, List.mem_cons_of_mem r hs, heq⟩

structure RegionHeader.Usable (h : RegionHeader) : Prop where
  clear : h.Clear
  bounded : ∀ r < regionCount, (h.regions r).lengthGB < 2 ^ 32

theorem RegionHeader.Usable.after (h₀ : h.Usable) (op : Op) : (h.after op).Usable := by
  obtain ⟨hclear, hbounded⟩ := h₀.clear.after_forall (I := fun s reg => s < regionCount → reg.lengthGB < 2 ^ 32)
    (fun s _ => h₀.bounded s) (fun s _ _ hsize hs => hsize.trans (h₀.bounded s hs))
    (fun _ _ _ hlength _ => hlength.trans (by decide)) op
  exact ⟨hclear, hbounded⟩

theorem rebuild_usable (old : RegionHeader) (deviceSize : Nat) (ops : List Op) :
    (ops.foldl RegionHeader.after (rebuild old deviceSize)).Usable := by
  refine List.foldlRecOn ops _ ⟨old.clearLog_clear, fun r hr => ?_⟩ fun _ h op _ => h.after op
  simp only [rebuild, hr, if_true]
  split
  · exact Nat.mod_lt _ (by decide)
  · exact Nat.two_pow_pos 32

theorem RegionHeader.Usable.allocated (h₀ : h.Usable) {offset : Nat} {h' : RegionHeader}
    (hres : allocateRegion regionId sizeGB h = .ok offset h') :
    ∃ r < regionCount, (h.regions r).regionId = 0 ∧ sizeGB ≤ (h.regions r).lengthGB := by
  have hout := allocateRegion_outcome h₀.clear regionId sizeGB
  rw [hres] at hout
  cases hout with
  | exact r _ _ _ hr => exact ⟨r, choose_eq_some hr⟩
  | cut r _ _ _ _ hr => exact ⟨r, choose_eq_some hr⟩

theorem RegionHeader.Usable.allocates (h₀ : h.Usable) (hid : regionId ≠ 0) (hnew : h.find regionId = none)
    (hr : r < regionCount) (hfree : (h.regions r).regionId = 0) (hsize : (h.regions r).lengthGB = sizeGB) :
    ∃ offset h', allocateRegion regionId sizeGB h = .ok offset h' := by
  have hout := allocateRegion_outcome h₀.clear regionId sizeGB
  generalize allocateRegion regionId sizeGB h = out at hout
  cases hout with
  | fails e hwhy =>
    simp only [hid, hnew, Option.isSome_none, Bool.false_eq_true, false_or] at hwhy
    have hfits := List.find?_eq_none.mp hwhy r (List.mem_range.mpr hr)
    simp [fits, hfree, hsize] at hfits
  | _ => exact ⟨_, _, rfl⟩

/-- In every table that calls lead to, a size that `get_max_available` returns is achievable under a new
identifier just when a longest entry is free. -/
theorem getMaxAvailable_achieves_iff (old : RegionHeader) (deviceSize : Nat) (ops : List Op)
    (hid : regionId ≠ 0) (hheader : h = ops.foldl RegionHeader.after (rebuild old deviceSize))
    (hnew : h.find regionId = none) (hpos : 0 < h.getMaxAvailable) : h.Achieves regionId ↔ h.LongestFree := by
  have h₀ : h.Usable := hheader ▸ rebuild_usable old deviceSize ops
  obtain ⟨-, hall, hattained⟩ := h.maxLength_spec (List.range regionCount) 0
  simp only [List.mem_range] at hall hattained
  have hbound : h.maxLength (List.range regionCount) 0 < 2 ^ 32 := by
    rcases hattained with heq | ⟨r, hr, heq⟩
    · rw [heq]
      decide
    · exact heq ▸ h₀.bounded r hr
  unfold RegionHeader.Achieves
  unfold RegionHeader.getMaxAvailable at hpos ⊢
  rw [Nat.mod_eq_of_lt hbound] at hpos ⊢
  rw [Nat.mul_div_cancel _ (by decide)]
  obtain ⟨t, ht, hlongest⟩ := hattained.resolve_left (by omega)
  refine ⟨fun ⟨⟨offset, h', hres⟩, _⟩ => ?_, fun ⟨r, hr, hfree, hmax⟩ => ⟨?_, fun _ _ _ _ hlt hres => ?_⟩⟩
  · obtain ⟨r, hr, hfree, hle⟩ := h₀.allocated hres
    exact ⟨r, hr, hfree, fun s hs => (hall s hs).trans hle⟩
  · exact h₀.allocates hid hnew hr hfree (le_antisymm (hall r hr) (hlongest ▸ hmax t ht))
  · obtain ⟨s, hs, -, hle⟩ := h₀.allocated hres
    have hall := hall s hs
    omega

theorem getMaxAvailable_achieves_tenGB :
    ([Op.allocate 7 2].foldl RegionHeader.after (rebuild default (10 * 2 ^ 30))).Achieves 9 :=
  (getMaxAvailable_achieves_iff default (10 * 2 ^ 30) [.allocate 7 2] (by decide) rfl (by decide +kernel)
    (by decide +kernel)).mpr ⟨1, by decide +kernel⟩

def fourGBTaken : RegionHeader := [Op.allocate 7 2].foldl RegionHeader.after (rebuild default (4 * 2 ^ 30))

/-- The two that are taken are said to be available. -/
theorem not_achieves_fourGB : fourGBTaken.getMaxAvailable = 2 * 2 ^ 30 ∧ ¬ fourGBTaken.Achieves 9 := by
  have havailable : fourGBTaken.getMaxAvailable = 2 * 2 ^ 30 := by decide +kernel
  refine ⟨havailable, ?_⟩
  rintro ⟨⟨offset, h', hres⟩, -⟩
  rw [havailable, show (2 * 2 ^ 30) / 2 ^ 30 = 2 by decide] at hres
  have herror : (allocateRegion 9 2).run' fourGBTaken = none := by decide +kernel
  rw [EStateM.run', EStateM.run, hres] at herror
  cases herror

end Comanche.Nupm
