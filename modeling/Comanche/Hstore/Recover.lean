import Comanche.Hstore.Recount
import Comanche.Hstore.Refine

/-!
# Recovery

The constructor, run on what a crash has left, makes a well-formed table of every recoverable one.
-/

namespace Comanche.Hstore

open Lib

section Constructor

variable {K κ V : Type} [DecidableEq κ] {cfg : Config K κ V} {t u : Table K V} {m : KeyMap κ V}
  {C : HopHash K V → Prop}

omit [DecidableEq κ] in
theorem reconstituteBuckets_sat (hC : ∀ l, C ⟨t, l⟩) (first count : Nat) (l : List (Step K V)) :
    Sat (reconstituteBuckets first count) ⟨t, l⟩ C
      (fun _ w' => w'.table = t ∧ (freedHead l = none → freedHead w'.log = none)) (fun _ _ => False) := by
  refine Sat.forRange (fun _ (w : HopHash K V) => w.table = t ∧ (freedHead l = none → freedHead w.log = none))
    ⟨rfl, id⟩ ?_ ?_
  · rintro ⟨t', l'⟩ ⟨rfl, -⟩
    exact hC l'
  · rintro i ⟨t', l'⟩ - ⟨rfl, hlog⟩
    refine sat_getTable_bind (Sat.when (fun _ => ?_) fun _ => ⟨hC l', rfl, hlog⟩)
    exact sat_call (hC l') (hC _) ⟨rfl, fun _ => rfl⟩

theorem Settled.of_rescanned {n : Nat} (h : Settled cfg t m) (hu : Rescanned t n u) : Settled cfg u m := by
  have hrep : Represents cfg u m := h.represents.congr (Table.bucketCount_congr hu.count)
    (fun i _ => congrFun hu.owner i) fun b _ => congrFun hu.value b
  exact h.of_represents hrep hu.count hu.segment

theorem Settled.rescanned (h : Settled cfg t m) (hu : Rescanned t t.bucketCount u) :
    WellFormed cfg (u.apply (.size (ValueUnstable.valueSetStable 8 (usedBuckets t).card))) m := by
  have hN : u.bucketCount = t.bucketCount := Table.bucketCount_congr hu.count
  refine ⟨(h.of_rescanned hu).apply_size _, fun b hb => ?_, ?_⟩
  · change b < u.bucketCount at hb
    rw [hN] at hb
    exact (hu.state b hb).trans (claimed_congr hN (fun i _ => congrFun hu.owner i) b).symm
  · rw [h.represents.card_usedBuckets]
    rfl

theorem Settled.rescanning (h : Settled cfg t m)
    (hunstable : ValueUnstable.isStable 8 t.sizeControl = false) (hu : Rescanned t 0 u) : Repairable cfg u m :=
  ⟨h.of_rescanned hu, Or.inl (by rwa [hu.size])⟩

theorem repair_sat (hC : ∀ w, Repairable cfg w.table m → C w) (h : Repairable cfg t m) (l : List (Step K V)) :
    Sat (do
        let t ← getTable
        Action.when (ValueUnstable.isStable 8 t.sizeControl = false) do
          recount) ⟨t, l⟩ C (fun _ w' => WellFormed cfg w'.table m) (fun _ _ => False) := by
  obtain ⟨hset, hrest⟩ := h
  refine sat_getTable_bind (Sat.when (fun hunstable => ?_) fun hstable => ⟨hC _ ⟨hset, hrest⟩, ?_⟩)
  · refine (recount_sat (fun u l hu => hC _ (hset.rescanning hunstable hu)) (fun u l hu => ?_) l).post ?_
    · exact hC _ (hset.rescanned hu).repairable
    · rintro - ⟨w', l'⟩ ⟨u, hu, rfl⟩
      exact hset.rescanned hu
  · exact hrest.resolve_left hstable

theorem hopHashBase_sat (hC : ∀ w, Recoverable cfg w.table m → C w) (h : Recoverable cfg t m)
    (mode : ConstructionMode) (l : List (Step K V)) (hl : freedHead l = none) :
    Sat (hopHashBase cfg mode) ⟨t, l⟩ C (fun _ w' => WellFormed cfg w'.table m) (fun _ _ => False) := by
  have hCt : ∀ l, C ⟨t, l⟩ := fun l => hC _ h
  have hsegments : ¬ ((List.range (segmentsUsed t)).any fun i => !t.segment i) = true := by
    simp only [List.any_eq_true, List.mem_range, Bool.not_eq_true', not_exists, not_and, Bool.not_eq_false]
    exact fun i hi => h.segmented i hi
  refine sat_getTable_bind (Sat.bind (Sat.when (fun hany => absurd hany hsegments) fun _ => ⟨hCt l, ?_⟩))
  have hlook : Sat (Action.when (mode = .reconstitute) do reconstituteBuckets 0 t.bucketCount)
      ⟨t, l⟩ C (fun _ w' => w'.table = t ∧ freedHead w'.log = none) (fun _ _ => False) := by
    refine Sat.when (fun _ => ?_) fun _ => ⟨hCt l, rfl, hl⟩
    exact (reconstituteBuckets_sat hCt 0 _ l).imp (fun _ w' hw' => ⟨hw'.1, hw'.2 hl⟩) (fun _ _ h => h)
  refine Sat.bind (hlook.post ?_)
  rintro - ⟨t', l₁⟩ ⟨rfl, hl₁⟩
  change freedHead l₁ = none at hl₁
  rcases h with hrepair | ⟨s, hwf, hroom, hcopied, hres⟩
  · -- no resize was cut: only the states and the size may have to be found again
    refine Sat.bind (Sat.when (fun hunstable => ?_) fun _ => ⟨hCt l₁, ?_⟩)
    · rw [hrepair.1.isStable_count] at hunstable
      cases hunstable
    · exact repair_sat (fun w hw => hC w (Or.inl hw)) hrepair l₁
  · -- pass 2 was cut: it is run again from the start, and leaves a table with a stable size
    have hunstable := hres.isStable_count hwf.toSettled.isStable_count
    have hCr : ∀ w, Resizing cfg s w.table → C w :=
      fun w hw => hC w (Or.inr ⟨s, hwf, hroom, hcopied, hw⟩)
    refine Sat.bind (Sat.when (fun _ => ?_) fun hstable => absurd hunstable hstable)
    refine sat_call_bind (hCt l₁) (Sat.bind ((reconstituteBuckets_sat hCt _ _ _).post ?_))
    rintro - ⟨t₂, l₂⟩ ⟨rfl, hl₂⟩
    refine Sat.bind ((resizePass2_sat (w := ⟨t₂, l₂⟩) (fun w hw _ => hCr w hw) hwf hcopied hres (hl₂ rfl)).post ?_)
    rintro - ⟨u, l₃⟩ ⟨hresu, -, hmoved⟩
    have hgrown := (Complete.mk hwf hroom hcopied hresu hmoved).wellFormed_grown
    refine sat_getTable_bind (sat_write (hCr _ hresu) (hC _ (Or.inl hgrown.repairable)) ?_)
    exact repair_sat (fun w hw => hC w (Or.inl hw)) hgrown.repairable _

end Constructor

end Comanche.Hstore
