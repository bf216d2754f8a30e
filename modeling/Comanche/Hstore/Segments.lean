import Comanche.Hstore.Table

/-!
# Segments

`segment_and_bucket` names a bucket by its segment and its place there, the table by its `index()`. Both walk the
buckets in the same order.
-/

namespace Comanche.Hstore

open Lib

def segmentStart (si : Nat) : Nat := if si = 0 then 0 else baseSegmentSize <<< (si - 1)

/-- The first two segments have the same size. -/
def segmentSize (si : Nat) : Nat := baseSegmentSize <<< (si - 1)

structure SegmentAndBucket where
  si : Nat
  bi : Nat

namespace SegmentAndBucket

def index (a : SegmentAndBucket) : Nat := segmentStart a.si + a.bi

/-- `make_segment_and_bucket`. -/
def make (ix : Nat) : SegmentAndBucket :=
  let high := ix >>> 7
  let si := if high = 0 then 0 else log2 high
  ⟨si, (if high = 0 then 0 else high % (1 <<< (si - 1))) * baseSegmentSize + ix % baseSegmentSize⟩

def makeAtBegin : SegmentAndBucket := ⟨0, 0⟩

def makeAtEnd (bucketCount : Nat) : SegmentAndBucket :=
  let high := bucketCount >>> 7
  let si := if high = 0 then 0 else log2 high
  ⟨si - 1, segmentSize (si - 1)⟩

/-- `_next` in the ring of `n` segments. -/
def next (n si : Nat) : Nat := if si + 1 = n then 0 else si + 1

def prev (n si : Nat) : Nat := if si = 0 then n - 1 else si - 1

def incrWithWrap (n : Nat) (a : SegmentAndBucket) : SegmentAndBucket :=
  let bi := (a.bi + 1) % segmentSize a.si
  ⟨if bi = 0 then next n a.si else a.si, bi⟩

def incrWithoutWrap (n : Nat) (a : SegmentAndBucket) : SegmentAndBucket :=
  if a.bi + 1 = segmentSize a.si ∧ next n a.si ≠ 0 then ⟨next n a.si, 0⟩ else ⟨a.si, a.bi + 1⟩

def addSmall (n : Nat) (a : SegmentAndBucket) (fwd : Nat) : SegmentAndBucket :=
  let bi := (a.bi + fwd) % segmentSize a.si
  ⟨if bi < a.bi then next n a.si else a.si, bi⟩

def subtractSmall (n : Nat) (a : SegmentAndBucket) (bkwd : Nat) : SegmentAndBucket :=
  if a.bi < bkwd then ⟨prev n a.si, (a.bi + 2 ^ 64 - bkwd) % segmentSize (prev n a.si)⟩
  else ⟨a.si, a.bi - bkwd⟩

/-- A bucket of the first `n` segments. -/
def Within (n : Nat) (a : SegmentAndBucket) : Prop := a.si < n ∧ a.bi < segmentSize a.si

end SegmentAndBucket

theorem segmentSize_eq (si : Nat) : segmentSize si = 128 * 2 ^ (si - 1) := Nat.shiftLeft_eq ..

theorem segmentStart_succ (si : Nat) : segmentStart (si + 1) = 128 * 2 ^ si := Nat.shiftLeft_eq ..

theorem segmentStart_add_size (si : Nat) : segmentStart si + segmentSize si = segmentStart (si + 1) := by
  cases si with
  | zero => rfl
  | succ si =>
    rw [segmentStart_succ, segmentSize_eq, segmentStart_succ, pow_succ, Nat.add_sub_cancel]
    omega

theorem segmentStart_mono : Monotone segmentStart :=
  monotone_nat_of_le_succ fun si => segmentStart_add_size si ▸ Nat.le_add_right _ _

theorem le_segmentSize (si : Nat) : 128 ≤ segmentSize si := by
  rw [segmentSize_eq]
  exact Nat.le_mul_of_pos_right 128 (Nat.two_pow_pos _)

theorem segmentSize_dvd {si : Nat} (h : si ≤ segmentCapacity) : segmentSize si ∣ 2 ^ 64 := by
  rw [segmentSize_eq, show 128 = 2 ^ 7 from rfl, ← pow_add]
  unfold segmentCapacity at h
  exact pow_dvd_pow 2 (by omega)

namespace SegmentAndBucket

variable {n : Nat} {a : SegmentAndBucket}

theorem make_index {ix : Nat} (hn : 0 < n) (h : ix < segmentStart n) : (make ix).index = ix ∧ (make ix).Within n := by
  obtain ⟨m, rfl⟩ : ∃ m, n = m + 1 := ⟨n - 1, by omega⟩
  rw [segmentStart_succ] at h
  unfold make index Within log2
  rw [Nat.shiftRight_eq_div_pow, show 2 ^ 7 = 128 from rfl, show baseSegmentSize = 128 from rfl]
  by_cases hhigh : ix / 128 = 0
  · simp only [if_pos hhigh, segmentStart, segmentSize_eq, if_true]
    omega
  · have hlow := Nat.log2_self_le hhigh
    have hlog : ix / 128 < 2 * 2 ^ (ix / 128).log2 := by
      rw [← pow_succ']
      exact Nat.lt_log2_self
    have hmod : ix / 128 % 2 ^ (ix / 128).log2 = ix / 128 - 2 ^ (ix / 128).log2 := by
      rw [Nat.mod_eq_sub_mod hlow, Nat.mod_eq_of_lt (by omega)]
    have hm := (Nat.pow_lt_pow_iff_right (by decide : 1 < 2)).mp (by omega : 2 ^ (ix / 128).log2 < 2 ^ m)
    simp only [if_neg hhigh, Nat.add_sub_cancel, Nat.one_shiftLeft, hmod, segmentStart_succ, segmentSize_eq]
    omega

theorem Within.index_lt (h : a.Within n) : a.index < segmentStart n := by
  have hend := segmentStart_add_size a.si
  have hle := segmentStart_mono (show a.si + 1 ≤ n from h.1)
  have hbi := h.2
  unfold index
  omega

/-- Going to the next segment, or to the one before, is going on along the circle of all buckets. -/
theorem start_next (n si : Nat) : segmentStart (next n si) ≡ segmentStart (si + 1) [MOD segmentStart n] := by
  unfold next
  split
  case isTrue h => simp [h, segmentStart, Nat.ModEq]
  case isFalse => rfl

theorem start_prev (n si : Nat) (hn : 0 < n) : segmentStart (prev n si + 1) ≡ segmentStart si [MOD segmentStart n] := by
  unfold prev
  split
  case isTrue h => simp [h, Nat.sub_add_cancel hn, segmentStart, Nat.ModEq]
  case isFalse h => rw [Nat.sub_add_cancel (Nat.pos_of_ne_zero h)]

section

variable (h : a.Within n)
include h

theorem Within.addSmall_index {fwd : Nat} (hf : fwd < 128) :
    (addSmall n a fwd).Within n ∧ (addSmall n a fwd).index = Circle.step (segmentStart n) a.index fwd := by
  obtain ⟨hsi, hbi⟩ := h
  have hsize := le_segmentSize a.si
  suffices hmod : (addSmall n a fwd).Within n ∧ (addSmall n a fwd).index ≡ a.index + fwd [MOD segmentStart n] from
    ⟨hmod.1, (Nat.mod_eq_of_lt hmod.1.index_lt).symm.trans hmod.2⟩
  unfold addSmall
  by_cases hcarry : a.bi + fwd < segmentSize a.si
  · simp only [Nat.mod_eq_of_lt hcarry, if_neg (show ¬ a.bi + fwd < a.bi by omega)]
    exact ⟨⟨hsi, hcarry⟩, by rw [index, index, Nat.add_assoc]⟩
  · have hbi' : (a.bi + fwd) % segmentSize a.si = a.bi + fwd - segmentSize a.si := by
      rw [Nat.mod_eq_sub_mod (by omega), Nat.mod_eq_of_lt (by omega)]
    simp only [hbi', if_pos (show a.bi + fwd - segmentSize a.si < a.bi by omega)]
    have hnext := le_segmentSize (next n a.si)
    have hlt : next n a.si < n := by
      unfold next
      split <;> omega
    refine ⟨⟨hlt, by simp only; omega⟩, ((start_next n a.si).add_right _).trans ?_⟩
    rw [← segmentStart_add_size, index, show segmentStart a.si + segmentSize a.si + (a.bi + fwd - segmentSize a.si) =
      segmentStart a.si + a.bi + fwd by omega]

theorem Within.incrWithWrap_eq : incrWithWrap n a = addSmall n a 1 := by
  unfold incrWithWrap addSmall
  obtain hlt | hlast := Nat.lt_or_eq_of_le (Nat.succ_le_of_lt h.2)
  · simp [Nat.mod_eq_of_lt hlt]
  · have hsize := le_segmentSize a.si
    simp [← hlast, show 0 < a.bi by omega]

theorem Within.subtractSmall_index (hn : n ≤ segmentCapacity) {bkwd : Nat} (hb : bkwd < 128) :
    (subtractSmall n a bkwd).Within n ∧ (subtractSmall n a bkwd).index = Circle.back (segmentStart n) a.index bkwd := by
  obtain ⟨hsi, hbi⟩ := h
  suffices hmod : (subtractSmall n a bkwd).Within n ∧
      (subtractSmall n a bkwd).index + bkwd ≡ a.index [MOD segmentStart n] by
    have hstep : a.index = Circle.step (segmentStart n) _ bkwd :=
      (Nat.mod_eq_of_lt (Within.index_lt ⟨hsi, hbi⟩)).symm.trans hmod.2.symm
    have hone := segmentStart_mono (show 1 ≤ n by omega)
    rw [hstep, Circle.back_step (hb.le.trans hone) le_rfl, Nat.sub_self, Circle.step_zero hmod.1.index_lt]
    exact ⟨hmod.1, rfl⟩
  unfold subtractSmall
  split
  case isTrue hborrow =>
    have hprev : prev n a.si < n := by
      unfold prev
      split <;> omega
    have hsize := le_segmentSize (prev n a.si)
    -- the size of a segment is a power of two, so that the borrow from 64 bits leaves no trace
    obtain ⟨_ | k, hk⟩ := segmentSize_dvd (hprev.le.trans hn)
    · cases hk
    have hbi' : (a.bi + 2 ^ 64 - bkwd) % segmentSize (prev n a.si) = segmentSize (prev n a.si) - (bkwd - a.bi) := by
      rw [hk, Nat.mul_succ, show a.bi + (segmentSize (prev n a.si) * k + segmentSize (prev n a.si)) - bkwd =
        segmentSize (prev n a.si) * k + (segmentSize (prev n a.si) - (bkwd - a.bi)) by omega,
        Nat.mul_add_mod, Nat.mod_eq_of_lt (by omega)]
    rw [hbi']
    refine ⟨⟨hprev, by simp only; omega⟩, .trans ?_ ((start_prev n a.si (by omega)).add_right a.bi)⟩
    rw [← segmentStart_add_size, index, show segmentStart (prev n a.si) + segmentSize (prev n a.si) + a.bi =
      segmentStart (prev n a.si) + (segmentSize (prev n a.si) - (bkwd - a.bi)) + bkwd by omega]
  case isFalse hborrow =>
    exact ⟨⟨hsi, (Nat.sub_le _ _).trans_lt hbi⟩, by rw [index, index, Nat.add_assoc, Nat.sub_add_cancel (by omega)]⟩

theorem Within.incrWithoutWrap_index : (incrWithoutWrap n a).index = a.index + 1 ∧
    ((incrWithoutWrap n a).Within n ∨ incrWithoutWrap n a = ⟨n - 1, segmentSize (n - 1)⟩) := by
  obtain ⟨hsi, hbi⟩ := h
  have hstart := segmentStart_add_size a.si
  have hpos := le_segmentSize (a.si + 1)
  unfold incrWithoutWrap next index Within
  by_cases hlast : a.bi + 1 = segmentSize a.si
  · by_cases hn : a.si + 1 = n
    · subst hn
      simp [hlast, Nat.add_assoc]
    · simp only [hlast, hn, if_false, Nat.succ_ne_zero, ne_eq, not_false_eq_true, and_self, if_true]
      omega
  · simp only [hlast, false_and, if_false]
    omega

end

theorem iterate_incrWithoutWrap (hn : 0 < n) {ix : Nat} (hix : ix ≤ segmentStart n) :
    ((incrWithoutWrap n)^[ix] makeAtBegin).index = ix ∧ (((incrWithoutWrap n)^[ix] makeAtBegin).Within n ∨
      (incrWithoutWrap n)^[ix] makeAtBegin = ⟨n - 1, segmentSize (n - 1)⟩) := by
  induction ix with
  | zero => exact ⟨rfl, Or.inl ⟨hn, (by decide : 0 < segmentSize 0)⟩⟩
  | succ ix ih =>
    obtain ⟨hindex, hin | hend⟩ := ih (Nat.le_of_succ_le hix)
    · rw [Function.iterate_succ_apply']
      have hstep := hin.incrWithoutWrap_index
      rwa [hindex] at hstep
    · rw [hend, index, segmentStart_add_size, Nat.sub_add_cancel hn] at hindex
      omega

theorem makeAtEnd_eq (m : Nat) : makeAtEnd (segmentStart (m + 1)) = ⟨m, segmentSize m⟩ := by
  have hhigh : segmentStart (m + 1) >>> 7 = 2 ^ m := by
    rw [segmentStart_succ, Nat.shiftRight_eq_div_pow]
    exact Nat.mul_div_cancel_left _ (by decide)
  simp [makeAtEnd, hhigh, log2]

/-- The `n` buckets of `m` segments are a circle, and from the first one on they are visited in order up to the end. -/
def Circular (m n : Nat) : Prop :=
  (∀ ix < n, (make ix).index = ix ∧ (incrWithWrap m (make ix)).index = (ix + 1) % n ∧
    (∀ f < 64, (addSmall m (make ix) f).index = (ix + f) % n) ∧
    ∀ b ≤ 64, (subtractSmall m (make ix) b).index = (ix + n - b) % n) ∧
    (∀ ix ≤ n, ((incrWithoutWrap m)^[ix] makeAtBegin).index = ix) ∧
    (incrWithoutWrap m)^[n] makeAtBegin = makeAtEnd n

theorem segments_circle (c : Fin 32) : Circular (c + 1) (128 * 2 ^ c.val) := by
  rw [← segmentStart_succ]
  refine ⟨fun ix hix => ?_, fun ix hix => (iterate_incrWithoutWrap c.val.succ_pos hix).1, ?_⟩
  · obtain ⟨hindex, hin⟩ := make_index c.val.succ_pos hix
    refine ⟨hindex, ?_, fun f hf => ?_, fun b hb => ?_⟩
    · rw [hin.incrWithWrap_eq, (hin.addSmall_index (by decide)).2, hindex]
      rfl
    · rw [(hin.addSmall_index (by omega)).2, hindex]
      rfl
    · have hone : 128 ≤ segmentStart (c + 1) := segmentStart_mono c.val.succ_pos
      rw [(hin.subtractSmall_index c.isLt (by omega)).2, hindex, Nat.add_sub_assoc (by omega)]
      rfl
  · obtain ⟨hindex, hin | hend⟩ := iterate_incrWithoutWrap c.val.succ_pos le_rfl
    · exact absurd hin.index_lt hindex.not_lt
    · rw [makeAtEnd_eq]
      exact hend

end SegmentAndBucket

/-- The table walks the indices of its buckets as `segment_and_bucket` walks the ring of its segments. -/
theorem Table.walks {K V : Type} (t : Table K V) {n k : Nat} {a : SegmentAndBucket} (ht : t.segmentCountNotStable = n)
    (hn : n ≤ segmentCapacity) (h : a.Within n) (hk : k < 128) :
    t.incrWithWrap a.index = (a.incrWithWrap n).index ∧ t.addSmall a.index k = (a.addSmall n k).index ∧
      t.subtractSmall a.index k = (a.subtractSmall n k).index := by
  have hcount : t.bucketCount = segmentStart n := by
    simp [bucketCount, segmentStart, ht, Nat.ne_of_gt (Nat.zero_lt_of_lt h.1)]
  unfold incrWithWrap addSmall subtractSmall
  rw [hcount, h.incrWithWrap_eq, (h.addSmall_index hk).2, (h.addSmall_index (by decide)).2, (h.subtractSmall_index hn hk).2]
  exact ⟨rfl, rfl, rfl⟩

end Comanche.Hstore
