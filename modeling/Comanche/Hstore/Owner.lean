import Mathlib

/-!
# The owner word of a bucket

Bit `p` of the owner word of bucket `i` says that the content `p` places past `i` belongs to a key whose
home is bucket `i`.
-/

namespace Comanche.Hstore.Owner

def size : Nat := 64

def maskFromPos (pos : Nat) : BitVec 64 := 1#64 <<< (pos % 64)

/-- What `owner::mask_all_ones()` computes when the shift by 64 is done at run time. The shift is undefined, and folded
it gives all ones, so the model takes the value as a parameter. -/
def maskAllOnes : BitVec 64 := maskFromPos size - 1#64

def rightmostOnePos (c : BitVec 64) : Nat := ((List.range 64).find? fun p => c.getLsbD p).getD 64

def insert (v : BitVec 64) (p : Nat) : BitVec 64 := v ||| maskFromPos p

def erase (v : BitVec 64) (p : Nat) : BitVec 64 := v &&& ~~~maskFromPos p

def move (v : BitVec 64) (dst src : Nat) : BitVec 64 :=
  (v ||| maskFromPos dst) &&& ~~~maskFromPos src

theorem maskAllOnes_eq_zero : maskAllOnes = 0#64 := by decide

@[simp] theorem getLsbD_maskFromPos (p q : Nat) : (maskFromPos p).getLsbD q = decide (q = p % 64) := by
  unfold maskFromPos
  have hp := Nat.mod_lt p (by decide : 0 < 64)
  rw [BitVec.getLsbD_shiftLeft, BitVec.getLsbD_one]
  by_cases h : q = p % 64
  · subst h
    simp [hp]
  · by_cases hlt : q < p % 64
    · simp [h, hlt]
    · have hne : ¬ q - p % 64 = 0 := by omega
      simp [h, hne]

theorem getLsbD_insert (v : BitVec 64) (p q : Nat) : (insert v p).getLsbD q = (v.getLsbD q || decide (q = p % 64)) := by
  unfold insert
  rw [BitVec.getLsbD_or, getLsbD_maskFromPos]

theorem getLsbD_erase (v : BitVec 64) (p q : Nat) : (erase v p).getLsbD q = (v.getLsbD q && !decide (q = p % 64)) := by
  unfold erase
  rw [BitVec.getLsbD_and, BitVec.getLsbD_not, getLsbD_maskFromPos]
  by_cases hq : q < 64
  · simp [hq]
  · rw [BitVec.getLsbD_of_ge v q (by omega)]
    simp

theorem getLsbD_move (v : BitVec 64) (dst src q : Nat) : (move v dst src).getLsbD q =
      ((v.getLsbD q || decide (q = dst % 64)) && !decide (q = src % 64)) := by
  have h := getLsbD_erase (insert v dst) src q
  rwa [getLsbD_insert] at h

theorem exists_bit_of_ne_zero {c : BitVec 64} (h : c ≠ 0#64) : ∃ p, p < 64 ∧ c.getLsbD p = true := by
  by_contra hnone
  apply h
  apply BitVec.eq_of_getLsbD_eq
  intro p hp
  have hbit : c.getLsbD p = false := by
    by_contra hb
    exact hnone ⟨p, hp, by simpa using hb⟩
  rw [hbit, BitVec.getLsbD_zero]

theorem rightmostOnePos_spec {c : BitVec 64} (h : c ≠ 0#64) :
    rightmostOnePos c < 64 ∧ c.getLsbD (rightmostOnePos c) = true := by
  obtain ⟨p, hp, hbit⟩ := exists_bit_of_ne_zero h
  unfold rightmostOnePos
  cases hfind : (List.range 64).find? fun p => c.getLsbD p with
  | none =>
    rw [List.find?_eq_none] at hfind
    exact absurd hbit (hfind p (List.mem_range.mpr hp))
  | some q =>
    exact ⟨List.mem_range.mp (List.mem_of_find?_eq_some hfind), List.find?_some hfind⟩

end Comanche.Hstore.Owner
