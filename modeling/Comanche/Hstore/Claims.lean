import Comanche.Hstore.Table

/-!
# What the owner words say

Bit `p` of the owner word of bucket `i` claims the content `p` places past `i`.
-/

namespace Comanche.Hstore

open Lib

namespace Table

variable {K V : Type} (t : Table K V)

theorem bucketCount_eq_two_pow : t.bucketCount = 2 ^ (7 + (t.segmentCountNotStable - 1)) := by
  unfold bucketCount baseSegmentSize
  rw [Nat.shiftLeft_eq, Nat.shiftLeft_eq, Nat.one_mul, ← Nat.pow_add]

theorem le_bucketCount : 128 ≤ t.bucketCount := by
  rw [bucketCount_eq_two_pow, Nat.pow_add]
  have hpos : 0 < 2 ^ (t.segmentCountNotStable - 1) := Nat.two_pow_pos _
  omega

theorem bucketCount_pos : 0 < t.bucketCount := by
  have h := t.le_bucketCount
  omega

theorem bucketIx_eq_mod (h : BitVec 64) : t.bucketIx h = h.toNat % t.bucketCount := by
  unfold bucketIx mask
  rw [bucketCount_eq_two_pow, Nat.and_two_pow_sub_one_eq_mod]

theorem bucketExpandedIx_eq_mod (h : BitVec 64) : t.bucketExpandedIx h = h.toNat % (2 * t.bucketCount) := by
  unfold bucketExpandedIx mask
  have hpos : 0 < 2 ^ (7 + (t.segmentCountNotStable - 1)) := Nat.two_pow_pos _
  have hmask : (t.bucketCount - 1) <<< 1 + 1 = 2 ^ (7 + (t.segmentCountNotStable - 1) + 1) - 1 := by
    rw [bucketCount_eq_two_pow, Nat.shiftLeft_eq, Nat.pow_succ]
    omega
  rw [hmask, Nat.and_two_pow_sub_one_eq_mod, bucketCount_eq_two_pow, Nat.pow_succ, Nat.mul_comm]

theorem bucketIx_lt (h : BitVec 64) : t.bucketIx h < t.bucketCount := by
  rw [bucketIx_eq_mod]
  exact Nat.mod_lt _ t.bucketCount_pos

theorem bucketExpandedIx_eq (h : BitVec 64) :
    t.bucketExpandedIx h = t.bucketIx h ∨ t.bucketExpandedIx h = t.bucketIx h + t.bucketCount := by
  rw [bucketExpandedIx_eq_mod, bucketIx_eq_mod, Nat.mul_comm, Nat.mod_mul]
  have hbit : h.toNat / t.bucketCount % 2 < 2 := Nat.mod_lt _ (by decide)
  interval_cases hb : h.toNat / t.bucketCount % 2
  · left
    omega
  · right
    omega

variable {i : Nat}

theorem addSmall_lt {f : Nat} (hi : i < t.bucketCount) : t.addSmall i f < t.bucketCount :=
  Circle.step_lt hi

theorem isFree_eq_true_iff : t.isFree i = true ↔ t.state i = .free := by
  unfold isFree
  cases t.state i <;> simp

theorem isFree_eq_false_iff : t.isFree i = false ↔ t.state i = .inUse := by
  unfold isFree
  cases t.state i <;> simp

theorem distanceWrapped_eq (first last : Nat) :
    t.distanceWrapped first last = Circle.dist t.bucketCount first last % 2 ^ 32 := by
  unfold distanceWrapped Circle.dist
  split <;> rfl

theorem distanceWrapped_addSmall {d : Nat} (hi : i < t.bucketCount) (hd : d < t.bucketCount) :
    t.distanceWrapped i (t.addSmall i d) = d % 2 ^ 32 := by
  rw [distanceWrapped_eq, addSmall, Circle.dist_step hi hd]

end Table

section Claims

variable {K V : Type}

/-- The owner word of bucket `i` claims the content `p` places past `i`. -/
def Claims (t : Table K V) (i p : Nat) : Prop :=
  i < t.bucketCount ∧ (t.owner i).getLsbD p = true

def Claimed (t : Table K V) (b : Nat) : Prop := ∃ i p, Claims t i p ∧ t.addSmall i p = b

def entry (t : Table K V) (i p : Nat) : K × V := t.value (t.addSmall i p)

instance (t : Table K V) (i p : Nat) : Decidable (Claims t i p) := by
  unfold Claims
  infer_instance

variable {t : Table K V} {i p : Nat}

theorem Claims.lt_size (h : Claims t i p) : p < 64 := by
  by_contra hp
  have hbit := h.2
  rw [BitVec.getLsbD_of_ge _ _ (by omega)] at hbit
  cases hbit

theorem Claims.lt_bucketCount (h : Claims t i p) : p < t.bucketCount := by
  have hp := h.lt_size
  have hN := t.le_bucketCount
  omega

theorem Claims.claimed (h : Claims t i p) : Claimed t (t.addSmall i p) := ⟨i, p, h, rfl⟩

theorem Claimed.lt {b : Nat} (h : Claimed t b) : b < t.bucketCount := by
  obtain ⟨i, p, hc, rfl⟩ := h
  exact t.addSmall_lt hc.1

section

variable {t' : Table K V} (hN : t'.bucketCount = t.bucketCount)
  (howner : ∀ i, i < t.bucketCount → t'.owner i = t.owner i)
include hN howner

theorem claims_congr (i p : Nat) : Claims t' i p ↔ Claims t i p := by
  unfold Claims
  rw [hN]
  constructor
  · rintro ⟨hi, hbit⟩
    exact ⟨hi, howner i hi ▸ hbit⟩
  · rintro ⟨hi, hbit⟩
    exact ⟨hi, (howner i hi).symm ▸ hbit⟩

theorem claimed_congr (b : Nat) : Claimed t' b ↔ Claimed t b := by
  unfold Claimed Table.addSmall
  simp only [claims_congr hN howner, hN]

end

theorem getLsbD_claim (t : Table K V) (i p o q : Nat) :
    ((t.apply (.owner i (Owner.insert (t.owner i) p))).owner o).getLsbD q =
      ((t.owner o).getLsbD q || decide (o = i ∧ q = p % 64)) := by
  change (Function.update t.owner i _ o).getLsbD q = _
  rw [Function.update_apply]
  split
  case isTrue ho => simp [ho, Owner.getLsbD_insert]
  case isFalse ho => simp [ho]

theorem getLsbD_release (t : Table K V) (i p o q : Nat) :
    ((t.apply (.owner i (Owner.erase (t.owner i) p))).owner o).getLsbD q =
      ((t.owner o).getLsbD q && !decide (o = i ∧ q = p % 64)) := by
  change (Function.update t.owner i _ o).getLsbD q = _
  rw [Function.update_apply]
  split
  case isTrue ho => simp [ho, Owner.getLsbD_erase]
  case isFalse ho => simp [ho]

theorem claims_insert (hi : i < t.bucketCount) (hp : p < 64) (i' p' : Nat) :
    Claims (t.apply (.owner i (Owner.insert (t.owner i) p))) i' p' ↔ Claims t i' p' ∨ (i' = i ∧ p' = p) := by
  unfold Claims
  rw [getLsbD_claim, Nat.mod_eq_of_lt hp, Bool.or_eq_true, decide_eq_true_iff, and_or_left]
  exact or_congr_right (and_iff_right_of_imp fun h => h.1 ▸ hi)

theorem claims_erase (hp : p < 64) (i' p' : Nat) : Claims (t.apply (.owner i (Owner.erase (t.owner i) p))) i' p' ↔
      Claims t i' p' ∧ ¬ (i' = i ∧ p' = p) := by
  unfold Claims
  rw [getLsbD_release, Nat.mod_eq_of_lt hp, Bool.and_eq_true, Bool.not_eq_true', decide_eq_false_iff_not, ← and_assoc]
  rfl

theorem claimed_insert (hi : i < t.bucketCount) (hp : p < 64) (b : Nat) :
    Claimed (t.apply (.owner i (Owner.insert (t.owner i) p))) b ↔ Claimed t b ∨ b = t.addSmall i p := by
  unfold Claimed
  constructor
  · rintro ⟨i', p', hc, hb⟩
    rcases (claims_insert hi hp i' p').mp hc with hold | ⟨rfl, rfl⟩
    · exact Or.inl ⟨i', p', hold, hb⟩
    · exact Or.inr hb.symm
  · rintro (⟨i', p', hc, hb⟩ | hb)
    · exact ⟨i', p', (claims_insert hi hp i' p').mpr (Or.inl hc), hb⟩
    · exact ⟨i, p, (claims_insert hi hp i p).mpr (Or.inr ⟨rfl, rfl⟩), hb.symm⟩

def ownerBits (t : Table K V) : Finset (Nat × Nat) :=
  (Finset.range t.bucketCount ×ˢ Finset.range Owner.size).filter fun x => Claims t x.1 x.2

def usedBuckets (t : Table K V) : Finset Nat :=
  (ownerBits t).image fun x => t.addSmall x.1 x.2

theorem mem_ownerBits {x : Nat × Nat} : x ∈ ownerBits t ↔ Claims t x.1 x.2 := by
  unfold ownerBits
  rw [Finset.mem_filter, Finset.mem_product, Finset.mem_range, Finset.mem_range]
  exact ⟨fun h => h.2, fun h => ⟨⟨h.1, h.lt_size⟩, h⟩⟩

theorem mem_usedBuckets {b : Nat} : b ∈ usedBuckets t ↔ Claimed t b := by
  unfold usedBuckets
  rw [Finset.mem_image]
  constructor
  · rintro ⟨x, hx, hb⟩
    exact ⟨x.1, x.2, mem_ownerBits.mp hx, hb⟩
  · rintro ⟨i, p, hc, hb⟩
    exact ⟨(i, p), mem_ownerBits.mpr hc, hb⟩

end Claims

end Comanche.Hstore
