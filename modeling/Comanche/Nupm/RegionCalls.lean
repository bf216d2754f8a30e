import Comanche.Nupm.RegionTable

/-!
# What the calls of the region table do

With an undo log that is not in use, a call of `allocate_region` fails and writes nothing, takes a
free entry as a whole, or cuts one (`Outcome`).
-/

namespace Comanche.Nupm

variable {h h' : RegionHeader} {regionId sizeGB r n i length : Nat}

def RegionHeader.Clear (h : RegionHeader) : Prop := ∀ i < maxLogCount, h.undoLog i = 0

theorem RegionHeader.clearLog_clear (h : RegionHeader) : h.clearLog.Clear := by
  intro i hi
  simp [clearLog, hi]

theorem bind_of_ok {α β : Type} {m : Call α} {a : α} (f : α → Call β) (hm : m h = .ok a h') :
    (m >>= f) h = f a h' := by
  change EStateM.bind m f h = _
  rw [EStateM.bind, hm]

theorem read_bind {α β : Type} (f : RegionHeader → α) (g : α → Call β) : (read f >>= g) h = g (f h) h := rfl

theorem log_eq (hfree : h.freeLog = some i) : log length h = .ok () (h.setLog i length) := by
  unfold log
  rw [read_bind, hfree]
  rfl

theorem RegionHeader.Clear.freeLog (hclear : h.Clear) : h.freeLog = some 0 := by
  unfold RegionHeader.freeLog
  rw [show List.range maxLogCount = [0, 1, 2, 3] from rfl, List.find?_cons_of_pos (by simp [hclear 0 (by decide)])]

theorem RegionHeader.Clear.freeLog_setLog (hclear : h.Clear) (hlength : 0 < length) :
    (h.setLog 0 length).freeLog = some 1 := by
  unfold RegionHeader.freeLog RegionHeader.setLog
  rw [show List.range maxLogCount = [0, 1, 2, 3] from rfl, List.find?_cons_of_neg (by simp [Nat.ne_of_gt hlength]),
    List.find?_cons_of_pos (by simp [hclear 1 (by decide)])]

theorem txAtomicWriteId_eq (hclear : h.Clear) (dst regionId : Nat) :
    ∃ h', txAtomicWriteId dst regionId h = .ok () h' ∧ h'.Clear ∧
      h'.regions = Function.update h.regions dst { h.regions dst with regionId } := by
  unfold txAtomicWriteId
  rw [bind_of_ok _ (log_eq hclear.freeLog)]
  exact ⟨_, rfl, RegionHeader.clearLog_clear _, rfl⟩

theorem txAtomicWrite_eq (hclear : h.Clear) (dst0 offset0 size0 dst1 : Nat)
    (reg : DmRegion) : ∃ h', txAtomicWrite dst0 offset0 size0 dst1 reg.offsetGB reg.lengthGB reg.regionId h = .ok () h' ∧
      h'.Clear ∧ h'.regions = Function.update (Function.update h.regions dst0
        ⟨offset0, size0, (h.regions dst0).regionId⟩) dst1 reg := by
  unfold txAtomicWrite
  rw [bind_of_ok _ (log_eq hclear.freeLog), bind_of_ok _ (log_eq (hclear.freeLog_setLog (by decide)))]
  exact ⟨_, rfl, RegionHeader.clearLog_clear _, rfl⟩

def RegionHeader.fits (h : RegionHeader) (sizeGB r : Nat) : Bool :=
  (h.regions r).regionId == 0 && decide (sizeGB ≤ (h.regions r).lengthGB) &&
    ((h.regions r).lengthGB == sizeGB || h.spare.isSome)

def RegionHeader.choose (h : RegionHeader) (sizeGB : Nat) : Option Nat :=
  (List.range regionCount).find? (h.fits sizeGB)

/-- What `allocate_region` does, where its search of the table ends with `target`. -/
inductive Outcome (h : RegionHeader) (regionId sizeGB : Nat) (target : Option Nat) :
    EStateM.Result Exc RegionHeader Nat → Prop
  | fails (e : Exc) (hwhy : regionId = 0 ∨ (h.find regionId).isSome = true ∨ target = none) :
      Outcome h regionId sizeGB target (.error e h)
  | exact (r : Nat) (h' : RegionHeader) (hid : regionId ≠ 0) (hnew : h.find regionId = none)
      (hr : target = some r) (hsize : (h.regions r).lengthGB = sizeGB) (hclear : h'.Clear)
      (hregions : h'.regions = Function.update h.regions r { h.regions r with regionId }) :
      Outcome h regionId sizeGB target (.ok (h.regions r).offsetGB h')
  | cut (r n : Nat) (h' : RegionHeader) (hid : regionId ≠ 0) (hnew : h.find regionId = none)
      (hr : target = some r) (hsize : sizeGB < (h.regions r).lengthGB) (hn : h.spare = some n)
      (hclear : h'.Clear) (hregions : h'.regions = Function.update (Function.update h.regions n
        ⟨((h.regions r).offsetGB + sizeGB) % 2 ^ 16, ((h.regions r).lengthGB - sizeGB) % 2 ^ 16,
          (h.regions n).regionId⟩) r ⟨(h.regions r).offsetGB, sizeGB, regionId⟩) :
      Outcome h regionId sizeGB target (.ok (h.regions r).offsetGB h')

theorem find_range_eq_some {q : Nat → Bool} {m : Nat} (hr : (List.range m).find? q = some r) : r < m ∧ q r = true :=
  ⟨List.mem_range.mp (List.mem_of_find?_eq_some hr), List.find?_some hr⟩

theorem RegionHeader.find_eq_some (hr : h.find regionId = some r) :
    r < regionCount ∧ (h.regions r).regionId = regionId := by
  obtain ⟨hlt, hid⟩ := find_range_eq_some hr
  exact ⟨hlt, by simpa using hid⟩

theorem RegionHeader.find_eq_none (hnone : h.find regionId = none) (hr : r < regionCount) :
    (h.regions r).regionId ≠ regionId := by
  have hno := List.find?_eq_none.mp hnone r (List.mem_range.mpr hr)
  simpa using hno

theorem RegionHeader.spare_eq_some (hn : h.spare = some n) :
    n < regionCount ∧ (h.regions n).regionId = 0 ∧ (h.regions n).lengthGB = 0 := by
  obtain ⟨hlt, hfree⟩ := find_range_eq_some hn
  exact ⟨hlt, by simpa using hfree⟩

theorem RegionHeader.choose_eq_some (hr : h.choose sizeGB = some r) :
    r < regionCount ∧ (h.regions r).regionId = 0 ∧ sizeGB ≤ (h.regions r).lengthGB := by
  obtain ⟨hlt, hfits⟩ := find_range_eq_some hr
  simp only [RegionHeader.fits, Bool.and_eq_true, beq_iff_eq, decide_eq_true_eq] at hfits
  exact ⟨hlt, hfits.1⟩

theorem allocateFrom_outcome (hclear : h.Clear) (hid : regionId ≠ 0) (hnew : h.find regionId = none)
    (rs : List Nat) : Outcome h regionId sizeGB (rs.find? (h.fits sizeGB)) (allocateFrom regionId sizeGB rs h) := by
  induction rs with
  | nil =>
    unfold allocateFrom
    exact .fails .noMoreRegions (Or.inr (Or.inr List.find?_nil))
  | cons r rs ih =>
    unfold allocateFrom
    rw [read_bind]
    by_cases hfree : (h.regions r).regionId = 0 ∧ sizeGB ≤ (h.regions r).lengthGB
    · rw [if_pos hfree]
      by_cases hsize : (h.regions r).lengthGB = sizeGB
      · have hfits : h.fits sizeGB r = true := by simp [RegionHeader.fits, hfree.1, hsize]
        obtain ⟨h', hwrite, hclear', hregions⟩ := txAtomicWriteId_eq hclear r regionId
        rw [if_pos hsize, List.find?_cons_of_pos hfits, bind_of_ok _ hwrite]
        exact .exact r h' hid hnew rfl hsize hclear' hregions
      · rw [if_neg hsize, read_bind]
        cases hspare : h.spare with
        | none =>
          have hfits : ¬ h.fits sizeGB r = true := by simp [RegionHeader.fits, hsize, hspare]
          rw [List.find?_cons_of_neg hfits]
          exact ih
        | some n =>
          have hfits : h.fits sizeGB r = true := by simp [RegionHeader.fits, hfree, hspare]
          have hlt : sizeGB < (h.regions r).lengthGB := Nat.lt_of_le_of_ne hfree.2 (Ne.symm hsize)
          obtain ⟨h', hwrite, hclear', hregions⟩ := txAtomicWrite_eq hclear n
            (((h.regions r).offsetGB + sizeGB) % 2 ^ 16) (((h.regions r).lengthGB - sizeGB) % 2 ^ 16) r
            ⟨(h.regions r).offsetGB, sizeGB, regionId⟩
          rw [List.find?_cons_of_pos hfits]
          simp only
          rw [bind_of_ok _ hwrite]
          exact .cut r n h' hid hnew rfl hlt hspare hclear' hregions
    · have hfits : ¬ h.fits sizeGB r = true := by
        intro hf
        simp only [RegionHeader.fits, Bool.and_eq_true, beq_iff_eq, decide_eq_true_eq] at hf
        exact hfree hf.1
      rw [if_neg hfree, List.find?_cons_of_neg hfits]
      exact ih

theorem allocateRegion_outcome (hclear : h.Clear) (regionId sizeGB : Nat) :
    Outcome h regionId sizeGB (h.choose sizeGB) (allocateRegion regionId sizeGB h) := by
  unfold allocateRegion
  by_cases hid : regionId = 0
  · rw [if_pos hid]
    exact .fails _ (Or.inl hid)
  · rw [if_neg hid, read_bind]
    cases hnew : h.find regionId with
    | some r => exact .fails _ (Or.inr (Or.inl (by rw [hnew]; rfl)))
    | none => exact allocateFrom_outcome hclear hid hnew _

theorem eraseRegion_eq (h : RegionHeader) (regionId : Nat) : (∃ e, eraseRegion regionId h = .error e h) ∨
      ∃ r, regionId ≠ 0 ∧ h.find regionId = some r ∧
        eraseRegion regionId h = .ok () (h.setRegion r { h.regions r with regionId := 0 }) := by
  unfold eraseRegion
  by_cases hid : regionId = 0
  · rw [if_pos hid]
    exact Or.inl ⟨_, rfl⟩
  · rw [if_neg hid, read_bind]
    cases hfind : h.find regionId with
    | none => exact Or.inl ⟨_, rfl⟩
    | some r => exact Or.inr ⟨r, hid, rfl, rfl⟩

end Comanche.Nupm
