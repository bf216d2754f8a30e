import Comanche.Hstore.Insert

/-!
# Where displacements get stuck

Whether `make_space_for_insert` throws, as a property of the table that it starts with.
-/

namespace Comanche.Hstore

open Lib
open Function (update update_of_ne update_self)

variable {K κ V : Type}

/-- The elements in front of the bucket `f` places past `bi` that the owner `q` places before it may move there. -/
def movable (cfg : Config K κ V) (t : Table K V) (bi f q : Nat) : BitVec 64 :=
  Owner.erase (t.owner (t.addSmall bi (f - q)) &&& cfg.ones >>> (63 - q)) q

/-- The place of the element that is moved to the bucket `f` places past `bi`: the first one of the farthest owner, at
most `q` places before it, that has one to move. -/
def seekFrom (cfg : Config K κ V) (t : Table K V) (bi f : Nat) : Nat → Option Nat
  | 0 => none
  | q + 1 =>
    if movable cfg t bi f (q + 1) = 0#64 then seekFrom cfg t bi f q
    else some (f - (q + 1 - Owner.rightmostOnePos (movable cfg t bi f (q + 1))))

def nextFree (cfg : Config K κ V) (t : Table K V) (bi f : Nat) : Option Nat := seekFrom cfg t bi f 63

/-- From the free bucket `f` places past `bi` on, the elements that can be moved come to an end before one leaves a
place whose distance has low 32 bits below 64. -/
inductive Stuck (cfg : Config K κ V) (t : Table K V) (bi : Nat) : Nat → Prop
  | here {f : Nat} : 64 ≤ f % 2 ^ 32 → nextFree cfg t bi f = none → Stuck cfg t bi f
  | hop {f g : Nat} : 64 ≤ f % 2 ^ 32 → nextFree cfg t bi f = some g → Stuck cfg t bi g → Stuck cfg t bi f

variable {cfg : Config K κ V} {t u : Table K V} {bi f q : Nat}

theorem not_stuck (hclose : f % 2 ^ 32 < 64) : ¬ Stuck cfg t bi f := by
  rintro (⟨hfar, -⟩ | ⟨hfar, -, -⟩) <;> omega

theorem stuck_hop_iff {g : Nat} (hfar : 64 ≤ f % 2 ^ 32) (hnext : nextFree cfg t bi f = some g) :
    Stuck cfg t bi f ↔ Stuck cfg t bi g := by
  refine ⟨fun h => ?_, .hop hfar hnext⟩
  cases h with
  | here _ hnone => exact absurd (hnone.symm.trans hnext) nofun
  | hop _ hsome hg => exact Option.some.inj (hsome.symm.trans hnext) ▸ hg

theorem seekFrom_eq_none {n : Nat} (hzero : ∀ q, 0 < q → q ≤ n → movable cfg t bi f q = 0#64) :
    seekFrom cfg t bi f n = none := by
  induction n with
  | zero => rfl
  | succ n ih =>
    rw [seekFrom, if_pos (hzero _ n.succ_pos le_rfl)]
    exact ih fun q hq hle => hzero q hq (by omega)

theorem seekFrom_eq_some {n : Nat} (hq : 0 < q) (hle : q ≤ n) (hne : movable cfg t bi f q ≠ 0#64)
    (hzero : ∀ q', q < q' → q' ≤ n → movable cfg t bi f q' = 0#64) :
    seekFrom cfg t bi f n = some (f - (q - Owner.rightmostOnePos (movable cfg t bi f q))) := by
  induction n with
  | zero => omega
  | succ n ih =>
    rcases Nat.le_succ_iff.mp hle with hle | rfl
    · rw [seekFrom, if_pos (hzero _ (by omega) le_rfl)]
      exact ih hle fun q' hlt hle => hzero q' hlt (by omega)
    · rw [seekFrom, if_neg hne]

/-- The steps of a displacement that neither lock a content nor edit an owner. -/
def Step.Plain : Step K V → Prop
  | .call (.lockContent _) | .write (.owner _ _) => False
  | _ => True

theorem displace_keeps {I : HopHash K V → Prop} {u : Table K V} {own src free p : Nat} {l : List (Step K V)}
    (hplain : ∀ w x, x.Plain → I w → I (Store.apply w x))
    (howner : ∀ w, I w → I (Store.apply w (.write (.owner own (Owner.move (u.owner own) (u.distanceWrapped own free) p)))))
    (hI : I ⟨u, l⟩) : Sat (displace cfg own src free p) ⟨u, l⟩ (fun _ => True) (fun _ w' => I w') (fun _ _ => True) := by
  have hemit {x : Step K V} (hx : x.Plain) : Keeps I (fun _ => False) (Action.emit x : Act K V Unit) :=
    Keeps.emit fun w => hplain w x hx
  have hsize (f : Nat → Nat) : Keeps I (fun _ => False) (sizeUpdate f : Act K V Unit) :=
    Keeps.bind (Keeps.read _) fun _ => hemit trivial
  refine sat_getTable_bind ((Keeps.bind ?_ fun _ => Keeps.bind (hsize _) fun _ => Keeps.bind (hemit ?_) fun _ =>
    Keeps.bind (hemit ?_) fun _ => Keeps.bind (Keeps.emit howner) fun _ => Keeps.bind ?_ fun _ => hsize _).sat hI fun _ _ h => h)
  · refine Keeps.bind (Keeps.read _) fun t => Keeps.bind (Keeps.emitAll ?_) fun _ =>
      Keeps.bind (hemit trivial) fun _ => hemit trivial
    intro x hx w
    obtain ⟨y, -, rfl⟩ := List.mem_map.mp hx
    exact hplain w _ trivial
  · trivial
  · trivial
  · exact Keeps.bind (Keeps.read _) fun _ => Keeps.when (Keeps.bind (hemit trivial) fun _ => hemit trivial)

/-- The owners of `u` have the elements of `t` that are nearer to `bi` than the bucket `f` places past it. -/
def SameBefore (t : Table K V) (bi : Nat) (f : Nat) (u : Table K V) : Prop :=
  u.bucketCount = t.bucketCount ∧ ∀ e p, e + p < f →
    (u.owner (t.addSmall bi e)).getLsbD p = (t.owner (t.addSmall bi e)).getLsbD p

theorem displace_owner {own src dst p : Nat} (hp : p < u.distanceWrapped own dst) (hdist : u.distanceWrapped own dst < 64)
    (l : List (Step K V)) : Sat (displace cfg own src dst p) ⟨u, l⟩ (fun _ => True)
      (fun _ w' => ∀ b p', b ≠ own ∨ p' < p → (w'.table.owner b).getLsbD p' = (u.owner b).getLsbD p') (fun _ _ => True) := by
  refine displace_keeps (I := fun w => ∀ b p', b ≠ own ∨ p' < p →
    (w.table.owner b).getLsbD p' = (u.owner b).getLsbD p') (fun w x hx h => ?_) (fun w h b p' hb => ?_)
    fun _ _ _ => rfl
  · cases x with
    | write y =>
      cases y with
      | owner => exact hx.elim
      | _ => exact h
    | call c => exact h
  · change (update w.table.owner own _ b).getLsbD p' = _
    by_cases hown : b = own
    · have hlt := hb.resolve_left fun hne => hne hown
      rw [hown, update_self, Owner.getLsbD_move, Nat.mod_eq_of_lt hdist, Nat.mod_eq_of_lt (by omega),
        decide_eq_false (by omega), decide_eq_false (by omega), Bool.or_false, Bool.not_false, Bool.and_true]
    · rw [update_of_ne hown]
      exact h b p' hb

theorem SameBefore.hop {u' : Table K V} {own p : Nat} (hsame : SameBefore t bi f u) (hhop : Hop u bi f own p q)
    (hcount : u'.bucketCount = u.bucketCount) (howner : ∀ b p', b ≠ own ∨ p' < p →
      (u'.owner b).getLsbD p' = (u.owner b).getLsbD p') : SameBefore t bi (f - (q - p)) u' := by
  have hf := hhop.nearest.lt
  have hp := hhop.lt
  have hq := hhop.lt_size
  have hfar := hhop.far
  refine ⟨hcount.trans hsame.1, fun e p' hlt => ?_⟩
  rw [howner _ _ ?_, hsame.2 e p' (by omega)]
  by_cases he : e = f - q
  · exact Or.inr (by omega)
  · refine Or.inl fun hown => he ?_
    rw [hhop.own_eq, Table.addSmall, Table.addSmall, ← hsame.1] at hown
    exact Circle.step_inj hhop.home (by omega) (by omega) hown

variable [DecidableEq κ] {m : KeyMap κ V}

/-- What an owner may move to a free bucket is the same in `t`. -/
theorem SameBefore.movable (hsame : SameBefore t bi f u) (hwf : WellFormed cfg u m) (hbi : bi < u.bucketCount)
    (hnear : NearestFree u bi f) (hq : q < 64) (hfar : 64 ≤ f) :
    u.owner (u.subtractSmall (u.addSmall bi f) q) &&& cfg.ones >>> (63 - q) = movable cfg t bi f q := by
  have hf := hnear.lt
  have hadd (e : Nat) : u.addSmall bi e = t.addSmall bi e := by rw [Table.addSmall, hsame.1]; rfl
  have hown : u.subtractSmall (u.addSmall bi f) q = t.addSmall bi (f - q) :=
    (Circle.back_step (by omega) (by omega)).trans (hadd _)
  have hfree : (u.owner (t.addSmall bi (f - q))).getLsbD q = false := by
    rw [← Bool.not_eq_true]
    intro hbit
    refine (hwf.free_iff (u.addSmall_lt hbi)).mp hnear.free ⟨t.addSmall bi (f - q), q, ⟨hadd _ ▸ u.addSmall_lt hbi, hbit⟩, ?_⟩
    rw [← hadd]
    exact Circle.step_step.trans (congrArg _ (by omega))
  refine BitVec.eq_of_getLsbD_eq fun p hp => ?_
  rw [hown, Hstore.movable, Owner.getLsbD_erase, BitVec.getLsbD_and, BitVec.getLsbD_and, Nat.mod_eq_of_lt hq]
  rcases Nat.lt_trichotomy p q with hlt | rfl | hgt
  · rw [hsame.2 (f - q) p (by omega), decide_eq_false (by omega), Bool.not_false, Bool.and_true]
  · rw [hfree, decide_eq_true rfl, Bool.not_true, Bool.and_false, Bool.false_and]
  · rw [BitVec.getLsbD_ushiftRight, BitVec.getLsbD_of_ge cfg.ones _ (by omega)]
    simp

/-- The loop throws exactly if the elements that it can move come to an end. -/
theorem makeSpaceForInsert_stuck {d : Nat} (hwf : WellFormed cfg t m) (hbi : bi < t.bucketCount)
    (hnear : NearestFree t bi d) (l : List (Step K V)) (hl : freedHead l = none) :
    Sat (makeSpaceForInsert cfg bi t.bucketCount (t.addSmall bi d)) ⟨t, l⟩ (fun _ => True)
      (fun _ _ => ¬ Stuck cfg t bi d) (fun _ _ => Stuck cfg t bi d) := by
  refine (makeSpaceForInsert_rule (C := fun _ => True)
    (I := fun f w => SameBefore t bi f w.table ∧ (Stuck cfg t bi d ↔ Stuck cfg t bi f))
    (J := fun f own w => SameBefore t bi f w.table ∧ ∃ q ≤ 63, own = w.table.subtractSmall (w.table.addSmall bi f) q ∧
      (own = w.table.addSmall bi f → Stuck cfg t bi d) ∧ (q ≠ 0 → (Stuck cfg t bi d ↔ Stuck cfg t bi
        (f - (q - Owner.rightmostOnePos (w.table.owner own &&& cfg.ones >>> (63 - q)))))))
    (S := fun _ => Stuck cfg t bi d) (fun _ _ _ => trivial) ?_ ?_ ?_ hbi hnear.lt l ⟨hwf, hl, rfl, hnear⟩
    ⟨⟨rfl, fun _ _ _ => rfl⟩, Iff.rfl⟩).imp ?_ (fun _ _ h => h.2.2)
  · intro u f l hwfu hbiu hnearu hfar ⟨hsame, hiff⟩
    refine (seekOwner_sat (C := fun _ => True) (fun _ _ => trivial) cfg.ones (u.addSmall_lt hbiu)
      (by decide : 63 < 64) _ rfl).mono (fun _ _ => trivial) ?_ (fun _ _ _ => trivial)
    rintro r ⟨u', l'⟩ ⟨rfl, -, q, hq, rfl, hne, hzero⟩
    change u'.bucketCount > bi at hbiu
    have hf : f < u'.bucketCount := hnearu.lt
    have hmovable {q' : Nat} (hq' : q' ≤ 63) := hsame.movable hwfu hbiu hnearu (q := q') (by omega) (by omega)
    refine ⟨hsame, q, hq, rfl, fun hself => ?_, fun hq0 => ?_⟩
    · have hstep : u'.addSmall bi (f - q) = u'.addSmall bi f := (Circle.back_step (by omega) (by omega)).symm.trans hself
      have heq := Circle.step_inj hbiu (by omega) (by omega) hstep
      refine hiff.mpr (.here hfar (seekFrom_eq_none fun q' hpos hle => ?_))
      rw [← hmovable hle]
      exact hzero q' (by omega) hle
    · refine hiff.trans (stuck_hop_iff hfar ?_)
      dsimp only
      rw [hmovable hq]
      refine seekFrom_eq_some (by omega) hq (hmovable hq ▸ hne hq0) fun q' hlt hle => ?_
      rw [← hmovable hle]
      exact hzero q' hlt hle
  · rintro u f l own p q hhop hp ⟨hsame, q', hq', hown, -, hiff⟩
    have hN := u.le_bucketCount
    have hfu := hhop.nearest.lt
    have hlt := hhop.lt
    have hq := hhop.lt_size
    have hfar := hhop.far
    -- the owner that was found is the one of the hop
    change own = u.subtractSmall (u.addSmall bi f) q' at hown
    obtain rfl : q' = q := by
      have hstep : own = u.addSmall bi (f - q') := hown.trans (Circle.back_step (by omega) (by omega))
      have heq := Circle.step_inj hhop.home (by omega) (by omega) (hstep.symm.trans hhop.own_eq)
      omega
    have hdist : u.distanceWrapped own (u.addSmall bi f) = q' := by
      rw [← hhop.dst_eq, u.distanceWrapped_addSmall hhop.claims.1 (by omega), Nat.mod_eq_of_lt (by omega)]
    refine (displace_owner (hdist ▸ hlt) (hdist ▸ hq) _).post fun _ w' hw' hN' => ?_
    dsimp only at hiff
    rw [hp] at hiff
    exact ⟨hsame.hop hhop hN' hw', hiff (by omega)⟩
  · rintro u f l ⟨-, q, hq, hown, hstuck, -⟩
    exact hstuck rfl
  · rintro b w' ⟨f, hf, hclose, -, -, -, -, hiff⟩
    exact fun hstuck => not_stuck hclose (hiff.mp hstuck)

end Comanche.Hstore
