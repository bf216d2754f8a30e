import Comanche.Hstore.Crash
import Comanche.Hstore.Stuck

/-!
# Displacements

What the loop of `make_space_for_insert` does from the nearest free bucket on.
-/

namespace Comanche.Hstore

open Lib

variable {K κ V : Type}

/-- The content that was locked last, in steps with the last one first. -/
def lastLocked (dst : Nat) : List (Step K V) → Nat
  | [] => dst
  | .call (.lockContent b) :: _ => b
  | _ :: l => lastLocked dst l

/-- Each bucket that is freed is nearer to `bi` than the one before, of which `dst` is the first; an owner
that is edited is behind `bi`, and not behind the bucket that is freed. -/
def Approaches (N bi dst : Nat) : List (Step K V) → Prop
  | [] => True
  | .call (.lockContent b) :: l =>
      Circle.dist N bi b < Circle.dist N bi (lastLocked dst l) ∧ Approaches N bi dst l
  | .write (.owner own _) :: l =>
      (0 < Circle.dist N bi own ∧ Circle.dist N bi own ≤ Circle.dist N bi (lastLocked dst l)) ∧
        Approaches N bi dst l
  | _ :: l => Approaches N bi dst l

variable [DecidableEq κ]

/-- The call ends, with a free bucket in reach of `bi` or with `move_stuck`, and leaves a table for the
same map. -/
def Neutral (cfg : Config K κ V) (t : Table K V) (m : KeyMap κ V) (bi dst : Nat) : Prop :=
  let space := makeSpaceForInsert cfg bi t.bucketCount dst
  let t' := (space.final ⟨t, []⟩).table
  Approaches t.bucketCount bi dst (space.final ⟨t, []⟩).log ∧ WellFormed cfg t' m ∧ t'.size = t.size ∧
    match space.result ⟨t, []⟩ with
    | .ok b => t'.state b = .free ∧ Circle.dist t.bucketCount bi b < 64
    | .error e => e = .moveStuck

section Steps

variable {N bi dst b : Nat}

structure Approaching (N bi dst b : Nat) (w : HopHash K V) : Prop where
  approaches : Approaches N bi dst w.log
  last : lastLocked dst w.log = b

omit [DecidableEq κ] in
theorem seekOwner_approaching (n own free : Nat) (eligible : BitVec 64) :
    Keeps (Approaching N bi dst b) (fun _ => True) (seekOwner free n own eligible : Act K V _) := by
  induction n generalizing own eligible with
  | zero => exact Keeps.fail trivial
  | succ n ih =>
    unfold seekOwner
    refine Keeps.bind (Keeps.read _) fun t => ?_
    split
    · exact Keeps.bind (Keeps.emit fun _ h => ⟨h.1, h.2⟩) fun _ =>
        Keeps.bind (Keeps.emit fun _ h => ⟨h.1, h.2⟩) fun _ => ih _ _
    · exact Keeps.pure _

theorem Approaching.plain {w : HopHash K V} {x : Step K V} (hx : x.Plain) (h : Approaching N bi dst b w) :
    Approaching N bi dst b (Store.apply w x) := by
  cases x with
  | write y =>
    cases y with
    | owner => exact hx.elim
    | _ => exact ⟨h.1, h.2⟩
  | call c =>
    cases c with
    | lockContent => exact hx.elim
    | _ => exact ⟨h.1, h.2⟩

end Steps

variable {cfg : Config K κ V} {t : Table K V} {m : KeyMap κ V} {bi : Nat}

theorem makeSpaceForInsert_approaches {d : Nat} (hwf : WellFormed cfg t m) (hbi : bi < t.bucketCount)
    (hnear : NearestFree t bi d) :
    Sat (makeSpaceForInsert cfg bi t.bucketCount (t.addSmall bi d)) ⟨t, []⟩ (fun _ => True)
      (fun b w' => WellFormed cfg w'.table m ∧ Approaches t.bucketCount bi (t.addSmall bi d) w'.log ∧
        w'.table.state b = .free ∧ ∃ d', d' ≤ d ∧ d' % 2 ^ 32 < 64 ∧ (2 ^ 32 ≤ d → 2 ^ 32 ≤ d') ∧
          Circle.dist t.bucketCount bi b = d')
      (fun e w' => WellFormed cfg w'.table m ∧ Approaches t.bucketCount bi (t.addSmall bi d) w'.log ∧ e = .moveStuck) := by
  generalize hN : t.bucketCount = N
  have hlt := hN ▸ hnear.lt
  have hrule := makeSpaceForInsert_rule (C := fun _ => True)
    (I := fun f w => w.table.bucketCount = N ∧ Approaching N bi (t.addSmall bi d) (Circle.step N bi f) w)
    (J := fun f _ w => w.table.bucketCount = N ∧ Approaching N bi (t.addSmall bi d) (Circle.step N bi f) w)
    (S := fun w => Approaches N bi (t.addSmall bi d) w.log) (fun _ _ _ => trivial) ?_ ?_ ?_ hbi hlt []
    ⟨hwf, rfl, rfl, hnear⟩ ⟨hN, trivial, ?_⟩
  · refine hrule.imp ?_ ?_
    · rintro b w' ⟨d', hd', hclose, hbig, rfl, hsearch, hN', happroach⟩
      refine ⟨hsearch.wellFormed, happroach.approaches, hsearch.nearest.free, d', hd', hclose, hbig, ?_⟩
      rw [Table.addSmall, hN']
      exact Circle.dist_step (hN ▸ hbi) (by omega)
    · rintro e w' ⟨he, ⟨_, _, hsearch⟩, happroach⟩
      exact ⟨hsearch.wellFormed, happroach, he⟩
  · intro t' f l _ hbi' hnear' hfar h
    have hlocked : Approaching N bi (t.addSmall bi d) (Circle.step N bi f)
        ⟨t', .call (.lockOwner (t'.subtractSmall (t'.addSmall bi f) 63)) :: l⟩ := ⟨h.2.1, h.2.2⟩
    refine ((seekOwner_sat (C := fun _ => True) (fun _ _ => trivial) cfg.ones (t'.addSmall_lt hbi')
      (by decide : 63 < 64) _ rfl).and (seekOwner_approaching 64 _ _ _ _ hlocked)).mono
      (fun _ _ => trivial) ?_ (fun _ _ _ => trivial)
    rintro r w' ⟨⟨htable, -, -⟩, happroach⟩
    exact ⟨htable ▸ h.1, happroach⟩
  · rintro t' f l own p q hhop - ⟨rfl, h⟩
    have hf := hhop.nearest.lt
    have hp := hhop.lt
    have hq := hhop.lt_size
    have hfar := hhop.far
    have hdist : ∀ g, g ≤ f → Circle.dist t'.bucketCount bi (Circle.step t'.bucketCount bi g) = g :=
      fun g hg => Circle.dist_step hhop.home (by omega)
    have hstart : Approaching t'.bucketCount bi (t.addSmall bi d) (t'.addSmall bi (f - (q - p)))
        ⟨t', .call (.lockContent (t'.addSmall bi (f - (q - p)))) :: l⟩ := by
      refine ⟨⟨?_, h.approaches⟩, rfl⟩
      rw [h.last, hdist f le_rfl, Table.addSmall, hdist _ (by omega)]
      omega
    have hown : Circle.dist t'.bucketCount bi own = f - q := by
      rw [hhop.own_eq]
      exact hdist _ (by omega)
    refine (displace_keeps (fun _ _ hx h => h.plain hx) (fun w hw => ?_) hstart).post fun _ w' hw' hN' => ⟨hN', hw'.1, hw'.2⟩
    refine ⟨⟨⟨by omega, ?_⟩, hw.1⟩, hw.2⟩
    rw [hw.2, hown, Table.addSmall, hdist _ (by omega)]
    omega
  · exact fun _ _ _ h => h.2.approaches
  · rw [← hN]
    rfl

theorem nearestFreeBucket_result {d : Nat} (hbi : bi < t.bucketCount) (hnear : NearestFree t bi d)
    (l : List (Step K V)) (hl : freedHead l = none) : (nearestFreeBucket bi).result ⟨t, l⟩ = .ok (t.addSmall bi d) := by
  have hsat := nearestFreeBucket_sat (C := fun _ => True) (fun _ _ => trivial) hbi l hl
  cases hr : (nearestFreeBucket bi).result ⟨t, l⟩ with
  | ok b =>
    obtain ⟨-, -, f, rfl, hf⟩ := hsat.of_ok hr
    rw [hf.unique hnear]
  | error e =>
    obtain ⟨-, -, -, hfull⟩ := hsat.of_error hr
    have hused := hfull _ (t.addSmall_lt (f := d) hbi)
    rw [hnear.free] at hused
    cases hused

/-- The loop does what it should if the free bucket is less than `2 ^ 32` places away, or if it finds no element to move
on its way: otherwise it takes a bucket `2 ^ 32` places away or more for one in reach, as its distance is cut to 32 bits. -/
theorem makeSpaceForInsert_neutral_iff (cfg : Config K κ V) {dst : Nat} (hwf : WellFormed cfg t m)
    (hbi : bi < t.bucketCount) (hdst : (nearestFreeBucket bi).result ⟨t, []⟩ = .ok dst) :
    Neutral cfg t m bi dst ↔ Circle.dist t.bucketCount bi dst < 2 ^ 32 ∨
      Stuck cfg t bi (Circle.dist t.bucketCount bi dst) := by
  obtain ⟨-, -, d, rfl, hnear⟩ :=
    (nearestFreeBucket_sat (C := fun _ => True) (fun _ _ => trivial) hbi [] rfl).of_ok hdst
  have hsat := (makeSpaceForInsert_approaches hwf hbi hnear).and (makeSpaceForInsert_stuck hwf hbi hnear [] rfl)
  have hdist : Circle.dist t.bucketCount bi (t.addSmall bi d) = d := Circle.dist_step hbi hnear.lt
  unfold Neutral
  dsimp only
  rw [hdist]
  cases hr : (makeSpaceForInsert cfg bi t.bucketCount (t.addSmall bi d)).result ⟨t, []⟩ with
  | error e =>
    obtain ⟨⟨hwf', happroach, he⟩, hstuck⟩ := hsat.of_error hr
    exact iff_of_true ⟨happroach, hwf', by rw [hwf.size, hwf'.size], he⟩ (Or.inr hstuck)
  | ok b =>
    obtain ⟨⟨hwf', happroach, hfree, d', hle, hclose, hbig, hb⟩, hstuck⟩ := hsat.of_ok hr
    rw [or_iff_left hstuck]
    simp only [hb]
    constructor
    · rintro ⟨-, -, -, -, hnear'⟩
      by_contra hfar
      have := hbig (by omega)
      omega
    · intro hnear'
      exact ⟨happroach, hwf', by rw [hwf.size, hwf'.size], hfree, by omega⟩

/-- The element in bucket 7 goes to bucket 70, the farthest that its owner reaches, and 7 is in reach of bucket 0. -/
theorem makeSpaceForInsert_neutral_seventy : ∃ m,
    WellFormed (idConfig Unit (BitVec.allOnes 64)) (filled 1 (fun _ => ()) 70) m ∧
      nextFree (idConfig Unit (BitVec.allOnes 64)) (filled 1 (fun _ => ()) 70) 0 70 = some 7 ∧
      Neutral (idConfig Unit (BitVec.allOnes 64)) (filled 1 (fun _ => ()) 70) m 0 70 := by
  obtain ⟨m, hwf⟩ := filled_wellFormed (BitVec.allOnes 64) (fun _ => ()) (c := 1) 1 (by decide)
    (by decide) (n := 70) (by decide)
  have hbi : 0 < (filled 1 (fun _ => ()) 70).bucketCount := Table.bucketCount_pos _
  have hfree := nearestFreeBucket_result hbi (filled_nearestFree (by decide) (by decide)) [] rfl
  rw [filled_addSmall (by decide)] at hfree
  refine ⟨m, hwf, by decide, (makeSpaceForInsert_neutral_iff _ hwf hbi hfree).mpr (Or.inl ?_)⟩
  rw [filled_bucketCount]
  decide

omit [DecidableEq κ] in
theorem makeSpaceForInsert_result (cfg : Config K κ V) {d : Nat} (hbi : bi < t.bucketCount) (hd : d < t.bucketCount)
    (hclose : d % 2 ^ 32 < 64) :
    (makeSpaceForInsert cfg bi t.bucketCount (t.addSmall bi d)).result ⟨t, []⟩ = .ok (t.addSmall bi d) := by
  have hdist : t.distanceWrapped bi (t.addSmall bi d) < Owner.size := by
    rwa [t.distanceWrapped_addSmall hbi hd]
  obtain ⟨n, hn⟩ := Nat.exists_eq_succ_of_ne_zero t.bucketCount_pos.ne'
  rw [hn, makeSpaceForInsert, Action.result, getTable, Action.read_bind_apply, if_pos hdist]
  rfl

/-- From bucket 0 the first free bucket is `2 ^ 32 + 1` places away, and is returned at once. -/
theorem not_neutral_far : ∃ m, WellFormed (idConfig Unit Owner.maskAllOnes) (filled 27 (fun _ => ()) (2 ^ 32 + 1)) m ∧
      (nearestFreeBucket 0).result ⟨filled 27 (fun _ => ()) (2 ^ 32 + 1), []⟩ = .ok (2 ^ 32 + 1) ∧
      ¬ Neutral (idConfig Unit Owner.maskAllOnes) (filled 27 (fun _ => ()) (2 ^ 32 + 1)) m 0 (2 ^ 32 + 1) := by
  obtain ⟨m, hwf⟩ := filled_wellFormed Owner.maskAllOnes (fun _ => ()) (c := 27) 2863311531 (by decide)
    (by decide) (n := 2 ^ 32 + 1) (by decide)
  have hbi : 0 < (filled 27 (fun _ => ()) (2 ^ 32 + 1)).bucketCount := Table.bucketCount_pos _
  have hnear : NearestFree (filled 27 (fun _ => ()) (2 ^ 32 + 1)) 0 (2 ^ 32 + 1) :=
    filled_nearestFree (by decide) (by decide)
  have hfree := nearestFreeBucket_result hbi hnear [] rfl
  have hspace := makeSpaceForInsert_result (idConfig Unit Owner.maskAllOnes) hbi hnear.lt (by decide)
  rw [filled_addSmall (by decide), Nat.zero_add] at hfree hspace
  refine ⟨m, hwf, hfree, fun ⟨_, _, _, hend⟩ => ?_⟩
  rw [hspace, filled_bucketCount] at hend
  exact absurd hend.2 (by decide)

end Comanche.Hstore
