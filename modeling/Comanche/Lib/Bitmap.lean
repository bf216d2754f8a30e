import Mathlib

/-!
# Bitmaps in words

Aligned regions of a bitmap in words of 64 bits are tested, set and cleared.
-/

namespace Comanche.Lib.Bitmap

abbrev Words : Type := Nat → BitVec 64

def bit (w : Words) (b : Nat) : Bool := (w (b / 64)).getLsbD (b % 64)

def updateRange (w : Words) (index n : Nat) (f : BitVec 64 → BitVec 64) : Words :=
  fun i => if index ≤ i ∧ i < index + n then f (w i) else w i

def clearRange (w : Words) (index n : Nat) (mask : BitVec 64) : Bool :=
  (List.range n).all fun i => w (index + i) &&& mask = 0#64

def ones (n : Nat) : BitVec 64 :=
  let top := 1#64 <<< (n - 1)
  top + (top - 1)

theorem getLsbD_ones {n : Nat} (hpos : 0 < n) (hle : n ≤ 64) (j : Nat) : (ones n).getLsbD j = decide (j < n) := by
  have htop : (1#64 <<< (n - 1)).toNat = 2 ^ (n - 1) := by
    rw [BitVec.toNat_shiftLeft, BitVec.toNat_ofNat, Nat.shiftLeft_eq, Nat.one_mul]
    exact Nat.mod_eq_of_lt (Nat.pow_lt_pow_right (by omega) (by omega))
  have hdouble : 2 ^ n = 2 ^ (n - 1) + 2 ^ (n - 1) := by
    rw [← Nat.two_mul, ← Nat.pow_succ']
    congr 1
    omega
  have hbound : 2 ^ n ≤ 2 ^ 64 := Nat.pow_le_pow_right (by omega) hle
  have hone : 1 ≤ 2 ^ (n - 1) := Nat.one_le_two_pow
  have hnat : (ones n).toNat = 2 ^ n - 1 := by
    have hlit : (1 : BitVec 64).toNat = 1 := rfl
    unfold ones
    dsimp only
    rw [BitVec.toNat_add, BitVec.toNat_sub, htop, hlit]
    omega
  rw [BitVec.getLsbD, hnat, Nat.testBit_two_pow_sub_one]

theorem getLsbD_ones_shiftLeft {n : Nat} (hpos : 0 < n) (hle : n ≤ 64) (off : Nat) {j : Nat}
    (hj : j < 64) : (ones n <<< off).getLsbD j = decide (off ≤ j ∧ j < off + n) := by
  rw [BitVec.getLsbD_shiftLeft, getLsbD_ones hpos hle, ← Bool.decide_coe (!decide (j < off)),
    decide_eq_true hj, Bool.true_and, ← Bool.decide_and]
  refine decide_eq_decide.mpr ?_
  simp only [Bool.not_eq_true', decide_eq_false_iff_not]
  omega

theorem bit_update_clear (w : Words) (q : Nat) {off : Nat} (hoff : off < 64) (b : Nat) :
    bit (Function.update w q (w q &&& ~~~(1#64 <<< off))) b = (bit w b && decide (b ≠ q * 64 + off)) := by
  unfold bit
  by_cases hq : b / 64 = q
  · subst hq
    rw [Function.update_self, BitVec.getLsbD_and, BitVec.getLsbD_not, ← BitVec.twoPow_eq, BitVec.getLsbD_twoPow]
    have hsame : b % 64 = off ↔ b = b / 64 * 64 + off := by omega
    have hlt : b % 64 < 64 := Nat.mod_lt _ (by decide)
    simp only [hlt, hoff, decide_true, Bool.true_and, ← hsame, ne_eq, decide_not, eq_comm]
  · have hne : b ≠ q * 64 + off := by omega
    rw [Function.update_of_ne hq, decide_eq_true hne, Bool.and_true]

theorem bit_update_set (w : Words) (q : Nat) {off : Nat} (hoff : off < 64) (b : Nat) :
    bit (Function.update w q (w q ||| (1#64 <<< off))) b = (bit w b || decide (b = q * 64 + off)) := by
  unfold bit
  by_cases hq : b / 64 = q
  · subst hq
    rw [Function.update_self, BitVec.getLsbD_or, ← BitVec.twoPow_eq, BitVec.getLsbD_twoPow]
    have hsame : b % 64 = off ↔ b = b / 64 * 64 + off := by omega
    simp only [hoff, decide_true, Bool.true_and, ← hsame, eq_comm]
  · have hne : b ≠ q * 64 + off := by omega
    rw [Function.update_of_ne hq, decide_eq_false hne, Bool.or_false]

def longs (size : Nat) : Nat := (size + 63) / 64

def bitsInLong (size : Nat) : Nat := if size < 64 then size else 64

def regionMask (pos size : Nat) : BitVec 64 := ones (bitsInLong size) <<< (pos % 64)

structure Region where
  order : Nat
  pos : Nat
  aligned : 2 ^ order ∣ pos

namespace Region

variable (r : Region)

def size : Nat := 2 ^ r.order

def Covers (b : Nat) : Prop := r.pos ≤ b ∧ b < r.pos + r.size

instance (b : Nat) : Decidable (r.Covers b) := inferInstanceAs (Decidable (_ ∧ _))

theorem size_pos : 0 < r.size := Nat.two_pow_pos _

theorem bitsInLong_pos : 0 < bitsInLong r.size := by
  have := r.size_pos
  unfold bitsInLong
  split
  · exact this
  · omega

theorem bitsInLong_le : bitsInLong r.size ≤ 64 := by
  unfold bitsInLong
  split
  · omega
  · omega

theorem small_or_whole :
    (r.size < 64 ∧ r.pos % 64 + r.size ≤ 64) ∨ ∃ m q, r.size = 64 * m ∧ 0 < m ∧ r.pos = 64 * q := by
  obtain ⟨t, ht⟩ := r.aligned
  by_cases horder : r.order < 6
  · left
    have hdvd : r.size ∣ 64 := by
      have h64 : (64 : Nat) = 2 ^ 6 := rfl
      rw [h64]
      exact Nat.pow_dvd_pow 2 horder.le
    have hsmall : r.size < 64 := by
      have h64 : (64 : Nat) = 2 ^ 6 := rfl
      rw [h64]
      exact Nat.pow_lt_pow_right (by omega) horder
    refine ⟨hsmall, ?_⟩
    -- Both the offset in the word and 64 are multiples of the size.
    obtain ⟨c, hc⟩ := hdvd
    obtain ⟨d, hd⟩ : r.size ∣ r.pos % 64 :=
      (Nat.dvd_mod_iff ⟨c, hc⟩).mpr ⟨t, ht⟩
    have hlt : r.pos % 64 < 64 := Nat.mod_lt _ (by omega)
    have hdc : d < c := Nat.lt_of_mul_lt_mul_left (hd ▸ hc ▸ hlt : r.size * d < r.size * c)
    have hle : r.size * d + r.size ≤ r.size * c := by
      rw [← Nat.mul_succ]
      exact Nat.mul_le_mul_left _ hdc
    omega
  · right
    have hsize : r.size = 64 * 2 ^ (r.order - 6) := by
      have h64 : (64 : Nat) = 2 ^ 6 := rfl
      unfold size
      rw [h64, ← Nat.pow_add]
      congr 1
      omega
    refine ⟨2 ^ (r.order - 6), 2 ^ (r.order - 6) * t, hsize, Nat.two_pow_pos _, ?_⟩
    rw [ht, ← Nat.mul_assoc, ← hsize]
    rfl

theorem covers_iff (b : Nat) : r.Covers b ↔ (r.pos / 64 ≤ b / 64 ∧ b / 64 < r.pos / 64 + longs r.size) ∧
      r.pos % 64 ≤ b % 64 ∧ b % 64 < r.pos % 64 + bitsInLong r.size := by
  have hpos := r.size_pos
  unfold Covers longs bitsInLong
  obtain ⟨hsmall, hoff⟩ | ⟨m, q, hsize, hm, hq⟩ := r.small_or_whole
  · rw [if_pos hsmall]
    omega
  · rw [hsize, hq, if_neg (by omega)]
    omega

theorem getLsbD_mask {j : Nat} (hj : j < 64) : (regionMask r.pos r.size).getLsbD j =
      decide (r.pos % 64 ≤ j ∧ j < r.pos % 64 + bitsInLong r.size) :=
  getLsbD_ones_shiftLeft r.bitsInLong_pos r.bitsInLong_le _ hj

theorem covers_iff_mask {b : Nat} (hword : r.pos / 64 ≤ b / 64 ∧ b / 64 < r.pos / 64 + longs r.size) :
    (regionMask r.pos r.size).getLsbD (b % 64) = decide (r.Covers b) := by
  rw [r.getLsbD_mask (Nat.mod_lt _ (by omega))]
  refine decide_eq_decide.mpr ?_
  rw [r.covers_iff b]
  exact (and_iff_right hword).symm

theorem not_covers_of_word {b : Nat}
    (hword : ¬ (r.pos / 64 ≤ b / 64 ∧ b / 64 < r.pos / 64 + longs r.size)) : ¬ r.Covers b :=
  fun hcovers => hword ((r.covers_iff b).mp hcovers).1

theorem bit_set (w : Words) (b : Nat) :
    bit (updateRange w (r.pos / 64) (longs r.size) (· ||| regionMask r.pos r.size)) b =
      (bit w b || decide (r.Covers b)) := by
  unfold bit updateRange
  split
  · next hword => rw [BitVec.getLsbD_or, r.covers_iff_mask hword]
  · next hword => rw [decide_eq_false (r.not_covers_of_word hword), Bool.or_false]

theorem bit_clear (w : Words) (b : Nat) :
    bit (updateRange w (r.pos / 64) (longs r.size) (· &&& ~~~ regionMask r.pos r.size)) b =
      (bit w b && !decide (r.Covers b)) := by
  unfold bit updateRange
  split
  · next hword =>
    have hlt : b % 64 < 64 := Nat.mod_lt _ (by omega)
    rw [BitVec.getLsbD_and, BitVec.getLsbD_not, r.covers_iff_mask hword, decide_eq_true hlt, Bool.true_and]
  · next hword => rw [decide_eq_false (r.not_covers_of_word hword), Bool.not_false, Bool.and_true]

theorem clearRange_iff (w : Words) : clearRange w (r.pos / 64) (longs r.size) (regionMask r.pos r.size) = true ↔
      ∀ b, r.Covers b → bit w b = false := by
  unfold clearRange
  rw [List.all_eq_true]
  constructor
  · intro hall b hcovers
    obtain ⟨hword, -⟩ := (r.covers_iff b).mp hcovers
    have hzero := of_decide_eq_true (hall (b / 64 - r.pos / 64) (List.mem_range.mpr (by omega)))
    have hindex : r.pos / 64 + (b / 64 - r.pos / 64) = b / 64 := by omega
    have hbit := congrArg (fun v => BitVec.getLsbD v (b % 64)) hzero
    rw [hindex, BitVec.getLsbD_and, r.covers_iff_mask hword, decide_eq_true hcovers, Bool.and_true] at hbit
    rw [bit, hbit]
    exact BitVec.getLsbD_zero
  · intro hclear i hi
    refine decide_eq_true (BitVec.eq_of_getLsbD_eq fun j hj => ?_)
    have hi := List.mem_range.mp hi
    have hword : (64 * (r.pos / 64 + i) + j) / 64 = r.pos / 64 + i := by omega
    have hoff : (64 * (r.pos / 64 + i) + j) % 64 = j := by omega
    rw [BitVec.getLsbD_and, BitVec.getLsbD_zero]
    have hmask := r.covers_iff_mask (b := 64 * (r.pos / 64 + i) + j) (by omega)
    rw [hoff] at hmask
    rw [hmask]
    by_cases hcovers : r.Covers (64 * (r.pos / 64 + i) + j)
    · have hbit := hclear _ hcovers
      rw [bit, hword, hoff] at hbit
      rw [hbit, Bool.false_and]
    · rw [decide_eq_false hcovers, Bool.and_false]

end Region

end Comanche.Lib.Bitmap
