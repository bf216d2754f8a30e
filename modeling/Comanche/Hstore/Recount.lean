import Comanche.Hstore.WellFormed

/-!
# Finding the content states and the size again

When the size is unstable the constructor scans the buckets and derives each content state from the
owner words.
-/

namespace Comanche.Hstore

open Lib

variable {K V : Type} {t : Table K V}

/-- Bit `q` of `c` says whether one of the `e` owners up to `a` claims the bucket `q` places past
`a`. -/
def OwnedMask (t : Table K V) (a e : Nat) (c : BitVec 64) : Prop :=
  ∀ q, c.getLsbD q = true ↔
    ∃ d, d < e ∧ (t.owner (t.subtractSmall a d)).getLsbD (d + q) = true

theorem ownedMask_zero (t : Table K V) (a : Nat) : OwnedMask t a 0 0#64 := by
  intro q
  rw [BitVec.getLsbD_zero]
  simp

variable {a e i : Nat} {c : BitVec 64}

theorem OwnedMask.next (h : OwnedMask t a e c) (ha : a < t.bucketCount) (he : e < t.bucketCount) :
    OwnedMask t (t.incrWithWrap a) (e + 1) ((c >>> 1) ||| t.owner (t.incrWithWrap a)) := by
  intro q
  have hback : ∀ d, d < e → t.subtractSmall (t.incrWithWrap a) (d + 1) = t.subtractSmall a d :=
    fun d hd => Circle.back_step_one (by omega)
  have hself : t.subtractSmall (t.incrWithWrap a) 0 = t.incrWithWrap a :=
    Circle.back_zero (t.addSmall_lt ha)
  rw [BitVec.getLsbD_or, Bool.or_eq_true, BitVec.getLsbD_ushiftRight, h (1 + q)]
  constructor
  · rintro (⟨d, hd, hbit⟩ | hbit)
    · refine ⟨d + 1, by omega, ?_⟩
      rw [hback d hd, Nat.add_assoc]
      exact hbit
    · refine ⟨0, by omega, ?_⟩
      rwa [hself, Nat.zero_add]
  · rintro ⟨d, hd, hbit⟩
    cases d with
    | zero =>
      rw [hself, Nat.zero_add] at hbit
      exact Or.inr hbit
    | succ d =>
      rw [hback d (by omega), Nat.add_assoc] at hbit
      exact Or.inl ⟨d, by omega, hbit⟩

theorem OwnedMask.of_le {e' : Nat} (h : OwnedMask t a e c) (he : 64 ≤ e) (he' : 64 ≤ e') : OwnedMask t a e' c := by
  intro q
  rw [h q]
  have hlt : ∀ d, (t.owner (t.subtractSmall a d)).getLsbD (d + q) = true → d < 64 := by
    intro d hbit
    by_contra hge
    rw [BitVec.getLsbD_of_ge _ _ (by omega)] at hbit
    cases hbit
  constructor
  · rintro ⟨d, -, hbit⟩
    exact ⟨d, by have := hlt d hbit; omega, hbit⟩
  · rintro ⟨d, -, hbit⟩
    exact ⟨d, by have := hlt d hbit; omega, hbit⟩

theorem OwnedMask.claimed_iff (h : OwnedMask t a 64 c) (ha : a < t.bucketCount) : c.getLsbD 0 = true ↔ Claimed t a := by
  have hN := t.le_bucketCount
  rw [h 0]
  constructor
  · rintro ⟨d, hd, hbit⟩
    rw [Nat.add_zero] at hbit
    exact ⟨_, d, ⟨Circle.back_lt ha, hbit⟩, Circle.step_back ha (by omega)⟩
  · rintro ⟨i, p, hc, rfl⟩
    have hp := hc.lt_size
    refine ⟨p, hp, ?_⟩
    rw [Nat.add_zero, Table.subtractSmall, Table.addSmall, Circle.back_step_self hc.1 (by omega)]
    exact hc.2

theorem ownedFrom_ownedMask {n : Nat} (h : OwnedMask t a e c) (ha : a < t.bucketCount) (he : e + n ≤ t.bucketCount) :
    OwnedMask t (t.addSmall a n) (e + n) (ownedFrom t n a c) := by
  induction n generalizing a e c with
  | zero =>
    unfold ownedFrom Table.addSmall
    rwa [Circle.step_zero ha]
  | succ n ih =>
    have hnext := ih (h.next ha (by omega)) (t.addSmall_lt ha) (by omega)
    unfold ownedFrom
    have hsum : t.addSmall (t.incrWithWrap a) n = t.addSmall a (n + 1) := by
      unfold Table.addSmall Table.incrWithWrap
      rw [Circle.step_step, Nat.add_comm]
    rwa [hsum, Nat.add_assoc, Nat.add_comm 1] at hnext

theorem ownedByOwnerMask_ownedMask (ha : a < t.bucketCount) : OwnedMask t a 64 (ownedByOwnerMask t a) := by
  have hN := t.le_bucketCount
  have h := ownedFrom_ownedMask (n := 64) (ownedMask_zero t (t.subtractSmall a 64)) (Circle.back_lt ha) (by omega)
  have hround : t.addSmall (t.subtractSmall a 64) 64 = a := Circle.step_back ha (by omega)
  rwa [hround, Nat.zero_add] at h

theorem recount_start : OwnedMask t 0 64 (((ownedByOwnerMask t 0 <<< 1) >>> 1) ||| t.owner 0) := by
  have h := ownedByOwnerMask_ownedMask (t := t) t.bucketCount_pos
  have hself : t.subtractSmall 0 0 = 0 := Circle.back_zero t.bucketCount_pos
  intro q
  rw [← h q, BitVec.getLsbD_or, BitVec.getLsbD_ushiftRight, BitVec.getLsbD_shiftLeft, Bool.or_eq_true]
  have hown : (t.owner 0).getLsbD q = true → (ownedByOwnerMask t 0).getLsbD q = true := by
    intro hbit
    refine (h q).mpr ⟨0, by omega, ?_⟩
    rwa [hself, Nat.zero_add]
  by_cases hq : 1 + q < 64
  · simp only [hq, decide_true, Nat.add_sub_cancel_left, Bool.true_and]
    simp only [show ¬ (1 + q < 1) by omega, decide_false, Bool.not_false, Bool.true_and]
    exact ⟨fun hor => hor.elim id hown, Or.inl⟩
  · -- the highest bit is lost by the shift, but it can only come from owner 0
    simp only [hq, decide_false, Bool.false_and, Bool.false_eq_true, false_or]
    refine ⟨hown, fun hbit => ?_⟩
    obtain ⟨d, -, hd⟩ := (h q).mp hbit
    cases d with
    | zero => rwa [hself, Nat.zero_add] at hd
    | succ d =>
      rw [BitVec.getLsbD_of_ge _ _ (by omega)] at hd
      cases hd

structure Rescanned (t : Table K V) (i : Nat) (u : Table K V) : Prop where
  owner : u.owner = t.owner
  value : u.value = t.value
  size : u.sizeControl = t.sizeControl
  count : u.segmentCountActual = t.segmentCountActual
  segment : u.segment = t.segment
  state : ∀ b, b < i → (u.state b = .inUse ↔ Claimed t b)

theorem Rescanned.zero {u : Table K V} (h : Rescanned t i u) : Rescanned t 0 u :=
  ⟨h.owner, h.value, h.size, h.count, h.segment, fun b hb => by omega⟩

theorem Rescanned.next {u : Table K V} (h : Rescanned t i u) {s : ContentState}
    (hs : s = .inUse ↔ Claimed t i) : Rescanned t (i + 1) (u.apply (.state i s)) := by
  refine ⟨h.owner, h.value, h.size, h.count, h.segment, fun b hb => ?_⟩
  change Function.update u.state i s b = .inUse ↔ _
  by_cases heq : b = i
  · rwa [heq, Function.update_self]
  · rw [Function.update_of_ne heq]
    exact h.state b (by omega)

variable {C : HopHash K V → Prop}

theorem recountBucket_sat (hC : ∀ u l, Rescanned t 0 u → C ⟨u, l⟩)
    (hi : i < t.bucketCount) {acc : BitVec 64 × Nat} {w : HopHash K V}
    (h : Rescanned t i w.table) (hmask : OwnedMask t i 64 ((acc.1 >>> 1) ||| t.owner i)) :
    Sat (recountBucket i acc) w C (fun acc' w' => Rescanned t (i + 1) w'.table ∧
        acc' = ((acc.1 >>> 1) ||| t.owner i, acc.2 + (decide (i ∈ usedBuckets t)).toNat)) (fun _ _ => False) := by
  obtain ⟨u, l⟩ := w
  change Rescanned t i u at h
  have hused : ((acc.1 >>> 1) ||| t.owner i).getLsbD 0 = decide (i ∈ usedBuckets t) := by
    rw [Bool.eq_iff_iff, decide_eq_true_iff, mem_usedBuckets]
    exact hmask.claimed_iff hi
  refine sat_getTable_bind ?_
  dsimp only
  rw [h.owner, hused]
  have hstate : (if decide (i ∈ usedBuckets t) = true then ContentState.inUse else .free) =
      .inUse ↔ Claimed t i := by
    rw [← mem_usedBuckets]
    by_cases hmem : i ∈ usedBuckets t <;> simp [hmem]
  generalize (if decide (i ∈ usedBuckets t) = true then ContentState.inUse else .free) = s
    at hstate ⊢
  refine Sat.bind (Sat.when (fun _ => ?_) fun hsame => ⟨hC u l h.zero, ?_⟩)
  · have hnext := h.next hstate
    exact sat_write (hC u l h.zero) (hC _ _ hnext.zero) (Sat.pure (hC _ _ hnext.zero) ⟨hnext, rfl⟩)
  · refine Sat.pure (hC u l h.zero) ⟨⟨h.owner, h.value, h.size, h.count, h.segment, fun b hb => ?_⟩, rfl⟩
    by_cases heq : b = i
    · rw [heq, not_not.mp hsame]
      exact hstate
    · exact h.state b (by omega)

theorem count_usedBuckets : Nat.count (· ∈ usedBuckets t) t.bucketCount = (usedBuckets t).card := by
  rw [Nat.count_eq_card_filter_range]
  congr 1
  ext b
  rw [Finset.mem_filter, Finset.mem_range]
  exact ⟨fun h => h.2, fun h => ⟨(mem_usedBuckets.mp h).lt, h⟩⟩

structure Scanning (t : Table K V) (i : Nat) (acc : BitVec 64 × Nat) (w : HopHash K V) : Prop where
  table : Rescanned t i w.table
  mask : i < t.bucketCount → OwnedMask t i 64 ((acc.1 >>> 1) ||| t.owner i)
  count : acc.2 = Nat.count (· ∈ usedBuckets t) i

theorem Scanning.next {acc : BitVec 64 × Nat} {w w' : HopHash K V}
    (h : Scanning t i acc w) (hi : i < t.bucketCount) (hscan : Rescanned t (i + 1) w'.table) :
    Scanning t (i + 1) ((acc.1 >>> 1) ||| t.owner i, acc.2 + (decide (i ∈ usedBuckets t)).toNat) w' := by
  refine ⟨hscan, fun hi' => ?_, ?_⟩
  · have hnext := (h.mask hi).next hi (by have := t.le_bucketCount; omega)
    have hincr : t.incrWithWrap i = i + 1 := by
      unfold Table.incrWithWrap Circle.step
      exact Nat.mod_eq_of_lt hi'
    rw [hincr] at hnext
    exact hnext.of_le (by omega) (by omega)
  · rw [Nat.count_succ, h.count]
    by_cases hmem : i ∈ usedBuckets t <;> simp [hmem]

theorem recountLoop_sat (hC : ∀ u l, Rescanned t 0 u → C ⟨u, l⟩) (mask : BitVec 64)
    (hmask : OwnedMask t 0 64 ((mask >>> 1) ||| t.owner 0)) (l : List (Step K V)) :
    Sat (Action.foldRange t.bucketCount (mask, 0) recountBucket) ⟨t, l⟩ C
      (fun acc w' => Scanning t t.bucketCount acc w') (fun _ _ => False) := by
  refine Sat.foldRange (Scanning t)
    ⟨⟨rfl, rfl, rfl, rfl, rfl, fun b hb => by omega⟩, fun _ => hmask, (Nat.count_zero _).symm⟩
    (fun acc w hw => hC w.table w.log hw.table.zero) fun i acc w hi hw => ?_
  refine (recountBucket_sat hC hi hw.table (hw.mask hi)).post ?_
  rintro acc' w' ⟨hscan, rfl⟩
  exact hw.next hi hscan

theorem recount_sat (hC : ∀ u l, Rescanned t 0 u → C ⟨u, l⟩) (hC' : ∀ u l, Rescanned t t.bucketCount u → C ⟨u.apply
      (.size (ValueUnstable.valueSetStable 8 (usedBuckets t).card)), l⟩) (l : List (Step K V)) : Sat recount ⟨t, l⟩ C
      (fun _ w' => ∃ u, Rescanned t t.bucketCount u ∧
        w'.table = u.apply (.size (ValueUnstable.valueSetStable 8 (usedBuckets t).card))) (fun _ _ => False) := by
  refine sat_getTable_bind (Sat.bind ((recountLoop_sat hC _ recount_start l).post ?_))
  rintro ⟨mask, n⟩ ⟨u, l'⟩ ⟨hscan, -, hcount⟩
  have hn : n = (usedBuckets t).card := hcount.trans count_usedBuckets
  subst hn
  exact sat_write (hC u l' hscan.zero) (hC' u _ hscan) ⟨u, hscan, rfl⟩

/-- The owner `(i - j) mod N` places before bucket `i`, for some `j`, has that bit set. -/
def OwnedWithin (t : Table K V) (i : Nat) : Prop :=
  ∃ j < t.bucketCount, (i + t.bucketCount - j) % t.bucketCount < 64 ∧
    (t.owner j).getLsbD ((i + t.bucketCount - j) % t.bucketCount) = true

theorem ownedWithin_iff (hi : i < t.bucketCount) : OwnedWithin t i ↔ Claimed t i := by
  have hN := t.le_bucketCount
  constructor
  · rintro ⟨j, hj, -, hbit⟩
    refine ⟨j, _, ⟨hj, hbit⟩, ?_⟩
    unfold Table.addSmall Circle.step
    rw [Nat.add_mod_mod, Nat.add_sub_cancel' (by omega), Nat.add_mod_right, Nat.mod_eq_of_lt hi]
  · rintro ⟨j, p, hc, rfl⟩
    have hp := hc.lt_size
    have hback : (t.addSmall j p + t.bucketCount - j) % t.bucketCount = p := by
      unfold Table.addSmall
      rw [Circle.step_eq_ite hc.1 (by omega)]
      split
      · rw [show j + p + t.bucketCount - j = p + t.bucketCount by omega, Nat.add_mod_right, Nat.mod_eq_of_lt (by omega)]
      · rw [show j + p - t.bucketCount + t.bucketCount - j = p by omega, Nat.mod_eq_of_lt (by omega)]
    refine ⟨j, hc.1, ?_⟩
    rw [hback]
    exact ⟨hp, hc.2⟩

open Classical in
/-- Whatever the content states were, the scan leaves a bucket in use exactly if an owner has it, and the
size is the number of these buckets. -/
theorem recount_exact (t : Table K V) (l : List (Step K V)) : recount.result ⟨t, l⟩ = .ok () ∧
      (∀ i < t.bucketCount, (recount.final ⟨t, l⟩).table.state i = .inUse ↔ OwnedWithin t i) ∧
      (recount.final ⟨t, l⟩).table.size = ((Finset.range t.bucketCount).filter (OwnedWithin t)).card := by
  have hsat := recount_sat (t := t) (C := fun _ => True) (fun _ _ _ => trivial) (fun _ _ _ => trivial) l
  cases hr : recount.result ⟨t, l⟩ with
  | error e => exact (hsat.of_error hr).elim
  | ok a =>
    obtain ⟨u, hu, hfinal⟩ := hsat.of_ok hr
    rw [hfinal]
    refine ⟨rfl, fun i hi => (hu.state i hi).trans (ownedWithin_iff hi).symm, ?_⟩
    have hset : (Finset.range t.bucketCount).filter (OwnedWithin t) = usedBuckets t := by
      ext i
      rw [Finset.mem_filter, Finset.mem_range, mem_usedBuckets]
      refine ⟨fun h => (ownedWithin_iff h.1).mp h.2, fun h => ⟨h.lt, (ownedWithin_iff h.lt).mpr h⟩⟩
    rw [hset]
    exact ValueUnstable.valueNotStable_valueSetStable 8 (usedBuckets t).card

end Comanche.Hstore
