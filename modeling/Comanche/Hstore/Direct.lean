import Comanche.Hstore.Emplace

/-!
# Insertion without displacement

When the nearest free bucket is, as far as `distance_wrapped` tells, in reach of the home bucket, an
insertion makes a table that can be written down.
-/

namespace Comanche.Hstore

open Lib

variable {K κ V : Type} {cfg : Config K κ V} {t : Table K V}

def entered (t : Table K V) (bi d : Nat) (kv : K × V) : Table K V where
  owner := Function.update t.owner bi (Owner.insert (t.owner bi) (d % 2 ^ 32))
  state := Function.update t.state (t.addSmall bi d) .inUse
  value := Function.update t.value (t.addSmall bi d) kv
  sizeControl := t.sizeControl + 2 ^ 8
  segmentCountActual := t.segmentCountActual
  segment := t.segment

variable {bi d : Nat}

theorem emplaceAt_direct (hbi : bi < t.bucketCount) (hd : d < t.bucketCount)
    (kv : K × V) (l : List (Step K V)) (hl : freedHead l = none) :
    Sat (emplaceAt cfg bi (t.addSmall bi d) kv) ⟨t, l⟩ (fun _ => True)
      (fun _ w' => w'.table = entered t bi d kv) (fun _ _ => False) := by
  refine Sat.bind ((contentCopy_sat (t.addSmall bi d) kv l hl (fun _ _ => trivial) (fun _ _ _ => trivial)).post ?_)
  rintro - ⟨t₁, l₁⟩ ⟨rfl, -⟩
  refine sat_sizeUpdate_bind trivial (sat_write_bind trivial (sat_getTable_bind
    (sat_write_bind trivial (sat_sizeUpdate_bind trivial (sat_sizeUpdate trivial trivial ?_)))))
  unfold entered
  rw [← t.distanceWrapped_addSmall hbi hd]
  rfl

theorem emplaceNew_direct (hbi : bi < t.bucketCount) (hnear : NearestFree t bi d)
    (hclose : d % 2 ^ 32 < 64) (kv : K × V) (l : List (Step K V)) (hl : freedHead l = none) :
    Sat (emplaceNew cfg bi kv) ⟨t, l⟩ (fun _ => True)
      (fun b w' => b = t.addSmall bi d ∧ w'.table = entered t bi d kv) (fun _ _ => False) := by
  have hd := hnear.lt
  refine sat_getTable_bind (Sat.bind ((nearestFreeBucket_sat (fun _ _ => trivial) hbi l hl).imp ?_ ?_))
  · rintro free ⟨t', l'⟩ ⟨rfl, hl', f, rfl, hfree⟩
    have hf : f = d := hfree.unique hnear
    subst hf
    refine Sat.bind (?_ : Sat (makeSpaceForInsert cfg bi t'.bucketCount _) _ _ _ _)
    obtain ⟨n, hn⟩ := Nat.exists_eq_succ_of_ne_zero t'.bucketCount_pos.ne'
    rw [hn]
    unfold makeSpaceForInsert
    refine sat_getTable_bind ?_
    rw [t'.distanceWrapped_addSmall hbi hd, if_pos (show _ < Owner.size from hclose)]
    refine Sat.pure trivial (Sat.bind ((emplaceAt_direct hbi hd kv l' hl').post ?_))
    rintro - w' hw'
    exact sat_call_bind trivial (Sat.pure trivial ⟨rfl, hw'⟩)
  · rintro e w' ⟨-, -, -, hfull⟩
    have := hfull (t.addSmall bi d) (t.addSmall_lt hbi)
    rw [hnear.free] at this
    cases this

theorem emplace_direct [DecidableEq κ] [Inhabited K] [Inhabited V] {args : Nat → K × V}
    (hhome : bucket cfg t (cfg.key (args 0).1) = bi)
    (hnone : locateKey cfg t (cfg.key (args 0).1) bi = none) (hnear : NearestFree t bi d)
    (hclose : d % 2 ^ 32 < 64) (l : List (Step K V)) : Sat (emplace cfg args) ⟨t, l⟩ (fun _ => True)
      (fun r w' => r = (t.addSmall bi d, true) ∧ w'.table = entered t bi d (args 0)) (fun _ _ => False) := by
  have hbi : bi < t.bucketCount := hhome ▸ bucket_lt cfg t _
  unfold emplace
  rw [show segmentCapacity = 31 + 1 from rfl]
  unfold emplaceFrom
  dsimp only
  refine sat_call_bind trivial (sat_getTable_bind (sat_call_bind trivial ?_))
  dsimp only
  rw [Represents.alreadyPresent_eq_locateFrom, hhome]
  unfold locateKey at hnone
  rw [hnone]
  refine Sat.handle (Sat.bind ((emplaceNew_direct hbi hnear hclose (args 0) _ rfl).imp ?_ (fun _ _ h => h.elim)))
  rintro b w' ⟨rfl, hw'⟩
  exact sat_call_bind trivial (sat_call_bind trivial (Sat.pure trivial ⟨rfl, hw'⟩))

section Filled

variable {V : Type} [Inhabited V]

def idConfig (V : Type) (ones : BitVec 64) : Config Nat Nat V where
  key := id
  hf := BitVec.ofNat 64
  images _ _ := []
  ones := ones
  autoResize := true

/-- An empty table for `c` segments in which the keys below `n` were entered at home. -/
def filled (c : Nat) (f : Nat → V) (n : Nat) : Table Nat V where
  owner i := if i < n then 1#64 else 0#64
  state i := if i < n then .inUse else .free
  value i := if i < n then (i, f i) else default
  sizeControl := n * 2 ^ 8
  segmentCountActual := ValueUnstable.valueSetStable 1 c
  segment i := decide (i < c)

theorem filled_bucketCount (c : Nat) (f : Nat → V) (n : Nat) : (filled c f n).bucketCount = 2 ^ (7 + (c - 1)) := by
  rw [Table.bucketCount_eq_two_pow, Table.segmentCountNotStable, filled, ValueUnstable.valueNotStable_valueSetStable]

variable {c n i : Nat} {f : Nat → V}

theorem filled_bucket {ones : BitVec 64} {k : Nat} (hk : k < 2 ^ 64) :
    bucket (idConfig V ones) (filled c f n) k = k % 2 ^ (7 + (c - 1)) := by
  unfold bucket
  rw [Table.bucketIx_eq_mod, filled_bucketCount]
  change (BitVec.ofNat 64 k).toNat % _ = _
  rw [BitVec.toNat_ofNat, Nat.mod_eq_of_lt hk]

theorem filled_entered (hn : n < 2 ^ (7 + (c - 1))) : entered (filled c f n) n 0 (n, f n) = filled c f (n + 1) := by
  have hzero : (filled c f n).addSmall n 0 = n :=
    Circle.step_zero (by rwa [filled_bucketCount])
  unfold entered
  rw [hzero]
  unfold filled
  simp only [Table.mk.injEq, and_true]
  refine ⟨?_, ?_, ?_, by omega⟩
  · funext i
    by_cases heq : i = n
    · rw [heq, Function.update_self]
      simp [Owner.insert, Owner.maskFromPos]
    · rw [Function.update_of_ne heq]
      simp [show i < n + 1 ↔ i < n by omega]
  · funext i
    by_cases heq : i = n
    · rw [heq, Function.update_self]
      simp
    · rw [Function.update_of_ne heq]
      simp [show i < n + 1 ↔ i < n by omega]
  · funext i
    by_cases heq : i = n
    · rw [heq, Function.update_self]
      simp
    · rw [Function.update_of_ne heq]
      simp [show i < n + 1 ↔ i < n by omega]

theorem filled_addSmall {d : Nat} (h : i + d < 2 ^ (7 + (c - 1))) : (filled c f n).addSmall i d = i + d := by
  unfold Table.addSmall Circle.step
  rw [filled_bucketCount, Nat.mod_eq_of_lt h]

theorem filled_getLsbD {q : Nat} : ((filled c f n).owner i).getLsbD q = true ↔ i < n ∧ q = 0 := by
  unfold filled
  simp only
  split
  · rename_i h
    rw [BitVec.getLsbD_one]
    simp [h]
  · rename_i h
    simp [h]

theorem filled_nearestFree (hi : i ≤ n) (hn : n < 2 ^ (7 + (c - 1))) : NearestFree (filled c f n) i (n - i) := by
  refine ⟨by rw [filled_bucketCount]; omega, ?_, fun d' hd' => ?_⟩
  · rw [filled_addSmall (by omega), show i + (n - i) = n by omega]
    exact if_neg (Nat.lt_irrefl n)
  · rw [filled_addSmall (by omega)]
    exact if_pos (by omega)

theorem filled_locateKey {ones : BitVec 64} {k : Nat} (hk : n ≤ k) (hi : i < 2 ^ (7 + (c - 1))) :
    locateKey (idConfig V ones) (filled c f n) k i = none := by
  have hi' : i < (filled c f n).bucketCount := by rwa [filled_bucketCount]
  cases hlocate : locateKey (idConfig V ones) (filled c f n) k i with
  | none => rfl
  | some j =>
    obtain ⟨q, hbit, rfl, hkey⟩ := Represents.locateFrom_eq_some hi' hlocate
    obtain ⟨hin, rfl⟩ := filled_getLsbD.mp hbit
    rw [filled_addSmall (by omega)] at hkey
    change (if i + 0 < n then (i + 0, f (i + 0)) else default).1 = k at hkey
    rw [if_pos (by omega)] at hkey
    simp only at hkey
    omega

theorem filled_lt_two_pow (hc : c ≤ segmentCapacity) (hn : n < 2 ^ (7 + (c - 1))) : n < 2 ^ 64 := by
  refine Nat.lt_of_lt_of_le hn (Nat.pow_le_pow_right (by decide) ?_)
  have : segmentCapacity = 32 := rfl
  omega

theorem filled_emplace (ones : BitVec 64) (f : Nat → V) (hc : c ≤ segmentCapacity)
    (hn : n < 2 ^ (7 + (c - 1))) (l : List (Step Nat V)) :
    Sat (emplace (idConfig V ones) fun _ => (n, f n)) ⟨filled c f n, l⟩ (fun _ => True)
      (fun r w' => r.2 = true ∧ w'.table = filled c f (n + 1)) (fun _ _ => False) := by
  have h64 := filled_lt_two_pow hc hn
  have hnear := filled_nearestFree (f := f) (Nat.le_refl n) hn
  rw [Nat.sub_self] at hnear
  refine (emplace_direct ?_ (filled_locateKey (Nat.le_refl n) hn) hnear (by decide) l).post ?_
  · exact (filled_bucket h64).trans (Nat.mod_eq_of_lt hn)
  · rintro r w' ⟨rfl, hw'⟩
    exact ⟨rfl, hw'.trans (filled_entered hn)⟩

end Filled

end Comanche.Hstore
