import Mathlib.Data.List.Range

/-!
# Cells

What stands in the first cells of an array, empty ones left out, and how it changes with one cell.
-/

namespace Comanche.Lib.Cells

variable {α : Type} {cell : Nat → α} {n i : Nat}

def contents (full : α → Bool) (cell : Nat → α) (n : Nat) : List α := ((List.range n).map cell).filter full

theorem contents_update (full : α → Bool) (cell : Nat → α) (hi : i < n) : ∃ rest, (contents full cell n).Perm ([cell i].filter full ++ rest) ∧
    ∀ x, (contents full (Function.update cell i x) n).Perm ([x].filter full ++ rest) := by
  have hperm : (List.range n).Perm (i :: (List.range n).erase i) := List.perm_cons_erase (List.mem_range.mpr hi)
  have hsplit : ∀ f : Nat → α, (contents full f n).Perm ([f i].filter full ++ (((List.range n).erase i).map f).filter full) := by
    intro f
    rw [← List.filter_append]
    exact (hperm.map f).filter full
  refine ⟨_, hsplit cell, fun x => ?_⟩
  have hrest : ((List.range n).erase i).map (Function.update cell i x) = ((List.range n).erase i).map cell := by
    refine List.map_congr_left fun j hj => Function.update_of_ne ?_ _ _
    exact (List.nodup_range.mem_erase_iff.mp hj).1
  have h := hsplit (Function.update cell i x)
  rwa [hrest, Function.update_self] at h

theorem contents_fill {full : α → Bool} (hi : i < n) (hempty : full (cell i) = false) {x : α} (hx : full x = true) :
    (contents full (Function.update cell i x) n).Perm (x :: contents full cell n) := by
  obtain ⟨rest, hbefore, hafter⟩ := contents_update full cell hi
  have hafter := hafter x
  rw [List.filter_singleton, hempty] at hbefore
  rw [List.filter_singleton, hx] at hafter
  exact hafter.trans (hbefore.symm.cons x)

theorem contents_drain {full : α → Bool} (hi : i < n) (hfull : full (cell i) = true) {x : α} (hx : full x = false) :
    (contents full cell n).Perm (cell i :: contents full (Function.update cell i x) n) := by
  obtain ⟨rest, hbefore, hafter⟩ := contents_update full cell hi
  have hafter := hafter x
  rw [List.filter_singleton, hfull] at hbefore
  rw [List.filter_singleton, hx] at hafter
  exact hbefore.trans (hafter.symm.cons (cell i))

end Comanche.Lib.Cells
