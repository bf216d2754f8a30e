import Mathlib

/-!
# Positions on a circle

A table of `n` buckets is walked as a circle.
-/

namespace Comanche.Lib.Circle

def step (n i f : Nat) : Nat := (i + f) % n

def back (n i f : Nat) : Nat := step n i (n - f)

def dist (n i j : Nat) : Nat := if j < i then j + n - i else j - i

variable {n i j f g : Nat}

theorem step_lt (hi : i < n) : step n i f < n := Nat.mod_lt _ (by omega)

theorem step_eq_ite (hi : i < n) (hf : f ≤ n) : step n i f = if i + f < n then i + f else i + f - n := by
  unfold step
  split
  · rename_i h
    exact Nat.mod_eq_of_lt h
  · rename_i h
    rw [Nat.mod_eq_sub_mod (by omega), Nat.mod_eq_of_lt (by omega)]

@[simp] theorem step_zero (hi : i < n) : step n i 0 = i := Nat.mod_eq_of_lt hi

theorem step_step : step n (step n i f) g = step n i (f + g) := by
  unfold step
  rw [Nat.mod_add_mod, Nat.add_assoc]

section

variable (hi : i < n)
include hi

theorem step_self : step n i n = i := by
  unfold step
  rw [Nat.add_mod_right, Nat.mod_eq_of_lt hi]

theorem dist_lt (hj : j < n) : dist n i j < n := by
  unfold dist
  split <;> omega

theorem dist_le_mod : dist n i (step n i f) = f % n := by
  have hmod := Nat.mod_lt f (by omega : 0 < n)
  have hstep : step n i f = step n i (f % n) := by
    unfold step
    rw [Nat.add_mod_mod]
  rw [hstep, step_eq_ite hi hmod.le]
  unfold dist
  split <;> split <;> omega

theorem dist_step (hf : f < n) : dist n i (step n i f) = f := by
  rw [dist_le_mod hi, Nat.mod_eq_of_lt hf]

theorem step_dist (hj : j < n) : step n i (dist n i j) = j := by
  rw [step_eq_ite hi (dist_lt hi hj).le]
  unfold dist
  split <;> split <;> omega

theorem step_inj (hf : f < n) (hg : g < n) (h : step n i f = step n i g) : f = g := by
  rw [← dist_step hi hf, h, dist_step hi hg]

theorem back_lt : back n i f < n := step_lt hi

theorem back_zero : back n i 0 = i := step_self hi

theorem step_back (hf : f ≤ n) : step n (back n i f) f = i := by
  unfold back
  rw [step_step, Nat.sub_add_cancel hf, step_self hi]

end

theorem step_back_of_le (hf : f ≤ n) (hg : g ≤ f) : step n (back n i f) g = back n i (f - g) := by
  unfold back
  rw [step_step]
  congr 1
  omega

theorem back_eq_self_iff (hi : i < n) (hf : f < n) : back n i f = i ↔ f = 0 := by
  unfold back
  rw [step_eq_ite hi (by omega)]
  split <;> omega

theorem back_step (hf : f ≤ n) (hg : g ≤ f) : back n (step n i f) g = step n i (f - g) := by
  unfold back
  have hsum : f + (n - g) = f - g + n := by omega
  rw [step_step, hsum]
  unfold step
  rw [← Nat.add_assoc, Nat.add_mod_right]

theorem back_step_one (hf : f < n) : back n (step n i 1) (f + 1) = back n i f := by
  unfold back
  rw [step_step]
  congr 1
  omega

theorem back_step_self (hi : i < n) (hf : f ≤ n) : back n (step n i f) f = i := by
  rw [back_step hf le_rfl, Nat.sub_self, step_zero hi]

end Comanche.Lib.Circle
