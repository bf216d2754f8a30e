import Comanche.Hstore.ResizePass1

/-!
# Doubling the table: pass 2

Pass 2 moves the claims to the junior segment and frees the old places.
-/

namespace Comanche.Hstore

open Lib ValueUnstable
open Function (update update_idem update_of_ne update_self)

section Moving

variable {K κ V : Type} {cfg : Config K κ V} {s u : Table K V}

def Moves (cfg : Config K κ V) (s : Table K V) (o p : Nat) : Prop :=
  Claims s o p ∧ expanded cfg s (cfg.key (entry s o p).1) ≠ o

/-- The table `u` is reached in pass 2 from `s`, the table that pass 1 left. -/
structure Resizing (cfg : Config K κ V) (s u : Table K V) : Prop where
  count : u.segmentCountActual = destabilize s.segmentCountActual
  size : u.sizeControl = s.sizeControl
  segment : u.segment = s.segment
  value : u.value = s.value
  junior : ∀ ix, ix < s.bucketCount →
    u.state (s.bucketCount + ix) = s.state (s.bucketCount + ix)
  senior : ∀ ix, ix < s.bucketCount → s.state (s.bucketCount + ix) = .free →
    u.state ix = s.state ix
  kept : ∀ o p, o < s.bucketCount → ¬ Moves cfg s o p →
    (u.owner o).getLsbD p = (s.owner o).getLsbD p ∧
      (u.owner (s.bucketCount + o)).getLsbD p = false

structure Moved (cfg : Config K κ V) (s u : Table K V) (ix : Nat) : Prop where
  owner : ∀ o p, Moves cfg s o p → s.addSmall o p = ix →
    (u.owner o).getLsbD p = false ∧ (u.owner (s.bucketCount + o)).getLsbD p = true
  state : s.state (s.bucketCount + ix) = .inUse → u.state ix = .free

section

variable (h : Resizing cfg s u) (hstable : isStable 1 s.segmentCountActual = true)
include h hstable

theorem Resizing.segmentCountNotStable_eq :
    u.segmentCountNotStable = s.segmentCountNotStable := by
  unfold isStable at hstable
  unfold Table.segmentCountNotStable valueNotStable
  rw [h.count]
  unfold destabilize
  simp only [beq_iff_eq] at hstable
  rw [Nat.shiftRight_eq_div_pow, Nat.shiftRight_eq_div_pow]
  omega

theorem Resizing.bucketCount_eq : u.bucketCount = s.bucketCount := by
  unfold Table.bucketCount
  rw [h.segmentCountNotStable_eq hstable]

end

variable {o p ix : Nat}

theorem Resizing.claim (h : Resizing cfg s u) (hm : Moves cfg s o p) :
    Resizing cfg s (u.apply (.owner (s.bucketCount + o) (Owner.insert (u.owner (s.bucketCount + o)) p))) := by
  refine { h with kept := fun o' p' ho' hkeep => ?_ }
  have hother : ¬ (o' = o ∧ p' = p) := fun ⟨ho, hp⟩ => hkeep (ho ▸ hp ▸ hm)
  rw [getLsbD_claim, getLsbD_claim, (h.kept o' p' ho' hkeep).1, (h.kept o' p' ho' hkeep).2, Nat.mod_eq_of_lt hm.1.lt_size]
  simp [hother, show o' ≠ s.bucketCount + o by omega]

theorem Resizing.release (h : Resizing cfg s u) (hm : Moves cfg s o p) :
    Resizing cfg s (u.apply (.owner o (Owner.erase (u.owner o) p))) := by
  have ho := hm.1.1
  refine { h with kept := fun o' p' ho' hkeep => ?_ }
  have hother : ¬ (o' = o ∧ p' = p) := fun ⟨ho, hp⟩ => hkeep (ho ▸ hp ▸ hm)
  rw [getLsbD_release, getLsbD_release, (h.kept o' p' ho' hkeep).1, (h.kept o' p' ho' hkeep).2, Nat.mod_eq_of_lt hm.1.lt_size]
  simp [hother]

theorem Resizing.free (h : Resizing cfg s u) (hix : ix < s.bucketCount)
    (hmoved : s.state (s.bucketCount + ix) = .inUse) : Resizing cfg s (u.apply (.state ix .free)) := by
  refine ⟨h.count, h.size, h.segment, h.value, fun ix' hix' => ?_, fun ix' hix' hfree => ?_, h.kept⟩
  · change update u.state ix .free _ = _
    rw [update_of_ne (by omega)]
    exact h.junior ix' hix'
  · have hne : ix' ≠ ix := by
      rintro rfl
      rw [hmoved] at hfree
      cases hfree
    exact (update_of_ne hne _ _).trans (h.senior ix' hix' hfree)

theorem Moved.claim (h : Moved cfg s u ix) :
    Moved cfg s (u.apply (.owner (s.bucketCount + o) (Owner.insert (u.owner (s.bucketCount + o)) p))) ix := by
  refine { h with owner := fun o' p' hm hix => ?_ }
  have ho' := hm.1.1
  rw [getLsbD_claim, getLsbD_claim, (h.owner o' p' hm hix).1, (h.owner o' p' hm hix).2]
  simp [show o' ≠ s.bucketCount + o by omega]

theorem Moved.release (h : Moved cfg s u ix) (ho : o < s.bucketCount) :
    Moved cfg s (u.apply (.owner o (Owner.erase (u.owner o) p))) ix := by
  refine { h with owner := fun o' p' hm hix => ?_ }
  rw [getLsbD_release, getLsbD_release, (h.owner o' p' hm hix).1, (h.owner o' p' hm hix).2]
  simp [show s.bucketCount + o' ≠ o by omega]

theorem Moved.free (h : Moved cfg s u ix) (ix' : Nat) : Moved cfg s (u.apply (.state ix' .free)) ix := by
  refine ⟨h.owner, fun hmoved => ?_⟩
  change update u.state ix' .free ix = .free
  by_cases heq : ix = ix'
  · rw [heq, update_self]
  · rw [update_of_ne heq]
    exact h.state hmoved

end Moving

section Release

variable {K V : Type} {t : Table K V} {C : HopHash K V → Prop}

theorem Table.apply_state_state (t : Table K V) (i : Nat) (a b : ContentState) :
    (t.apply (.state i a)).apply (.state i b) = t.apply (.state i b) := by
  unfold Table.apply
  simp only [update_idem]

def CalledHead : List (Step K V) → Prop
  | .call _ :: _ => True
  | _ => False

theorem CalledHead.freedHead {l : List (Step K V)} (h : CalledHead l) : freedHead l = none := by
  cases l with
  | nil => rfl
  | cons x l =>
    cases x with
    | call c => rfl
    | write x => exact h.elim

theorem CalledHead.freedHead_write {l : List (Step K V)} (h : CalledHead l) (x : Write K V) :
    Hstore.freedHead (.write x :: l) = none := by
  cases l with
  | nil => exact h.elim
  | cons y l =>
    cases y with
    | write y => exact h.elim
    | call c =>
      cases x with
      | state i s => cases s <;> rfl
      | _ => rfl

theorem releaseOld_sat {ix : Nat} (l : List (Step K V)) (hl : CalledHead l) (hC : ∀ l, freedHead l = none → C ⟨t, l⟩)
    (hC' : ∀ l, freedHead l = none → C ⟨t.apply (.state ix .free), l⟩) :
    Sat (do
        contentErase ix
        write (.state ix .free)) ⟨t, l⟩ C
      (fun _ w' => w'.table = t.apply (.state ix .free) ∧ freedHead w'.log = none)
      (fun _ _ => False) := by
  refine Sat.bind (sat_getTable_bind (Sat.when (fun _ => ?_) fun _ => ⟨hC l hl.freedHead, ?_⟩))
  · refine sat_call_bind (hC l hl.freedHead) (sat_write (hC _ rfl) (hC' _ rfl) ?_)
    have hsame := Table.apply_state_state t ix .free .free
    refine sat_write (hC' _ rfl) ?_ ⟨hsame, rfl⟩
    change C ⟨(t.apply (.state ix .free)).apply (.state ix .free), _⟩
    rw [hsame]
    exact hC' _ rfl
  · have hlog := hl.freedHead_write (.state ix .free)
    exact sat_write (hC l hl.freedHead) (hC' _ hlog) ⟨rfl, hlog⟩

end Release

section Pass2

variable {K κ V : Type} [DecidableEq κ] {cfg : Config K κ V} {s : Table K V} {m : KeyMap κ V}
  {C : HopHash K V → Prop}

variable {w : HopHash K V}

section

variable (hC : ∀ w, Resizing cfg s w.table → freedHead w.log = none → C w) (hwf : WellFormed cfg s m)
include hC hwf

theorem resizePass2AdjustOwner_sat {o p : Nat} (hclaim : Claims s o p) (h : Resizing cfg s w.table) (hlog : CalledHead w.log) :
    Sat (resizePass2AdjustOwner cfg (s.addSmall o p) (cfg.key (entry s o p).1)) w C
      (fun _ w' => Resizing cfg s w'.table ∧ CalledHead w'.log ∧
        w'.table.state = w.table.state ∧ (∀ ix, Moved cfg s w.table ix → Moved cfg s w'.table ix) ∧
        (Moves cfg s o p → (w'.table.owner o).getLsbD p = false ∧
          (w'.table.owner (s.bucketCount + o)).getLsbD p = true)) (fun _ _ => False) := by
  obtain ⟨u, l⟩ := w
  change Resizing cfg s u at h
  change CalledHead l at hlog
  have hN := h.bucketCount_eq hwf.toSettled.isStable_count
  have hNs := s.le_bucketCount
  have hp := hclaim.lt_size
  have ho := hclaim.1
  have hhome := hwf.represents.home o p hclaim
  have hsenior : u.bucketIx (cfg.hf (cfg.key (entry s o p).1)) = o :=
    (bucket_congr hN _).trans hhome
  have hexp : u.bucketExpandedIx (cfg.hf (cfg.key (entry s o p).1)) =
      expanded cfg s (cfg.key (entry s o p).1) := expanded_congr hN _
  have hpos : u.distanceWrapped o (s.addSmall o p) = p := by
    rw [Table.distanceWrapped_eq, hN, Table.addSmall, Circle.dist_step ho (by omega), Nat.mod_eq_of_lt (by omega)]
  refine sat_getTable_bind ?_
  dsimp only
  rw [hsenior, hexp, hN, hpos]
  refine Sat.when (fun hmove => ?_) fun hstay => ⟨hC _ h hlog.freedHead, h, hlog, rfl, fun _ h => h,
    fun hm => absurd (Ne.symm hm.2) hstay⟩
  have hm : Moves cfg s o p := ⟨hclaim, Ne.symm hmove⟩
  have h₁ := h.claim hm
  have h₂ := h₁.release hm
  have howner : (u.apply (.owner (s.bucketCount + o)
      (Owner.insert (u.owner (s.bucketCount + o)) p))).owner o = u.owner o :=
    update_of_ne (by omega) _ _
  rw [howner] at h₂
  refine sat_call_bind (hC _ h hlog.freedHead) (sat_call_bind (hC _ h rfl) (sat_write_bind (hC _ h rfl)
    (sat_write_bind (hC _ h₁ rfl) (sat_call_bind (hC _ h₂ rfl) (sat_call (hC _ h₂ rfl)
      (hC _ h₂ rfl) ⟨h₂, trivial, rfl, fun ix hix => ?_, fun _ => ?_⟩)))))
  · have hkeep := (hix.claim (o := o) (p := p)).release (p := p) ho
    rwa [howner] at hkeep
  · change (update (update u.owner _ _) o _ o).getLsbD p = false ∧
      (update (update u.owner _ _) o _ (s.bucketCount + o)).getLsbD p = true
    rw [update_self, update_of_ne (by omega), update_self,
      Owner.getLsbD_erase, Owner.getLsbD_insert, Nat.mod_eq_of_lt hp]
    simp

section

variable (hcopied : Copying cfg s s.bucketCount s)
include hcopied

theorem resizePass2Content_sat {ix : Nat}
    (hix : ix < s.bucketCount) (h : Resizing cfg s w.table) (hlog : CalledHead w.log) :
    Sat (resizePass2Content cfg ix) w C (fun _ w' => Resizing cfg s w'.table ∧ freedHead w'.log = none ∧
        (∀ ix', Moved cfg s w.table ix' → Moved cfg s w'.table ix') ∧ Moved cfg s w'.table ix)
      (fun _ _ => False) := by
  obtain ⟨u, l⟩ := w
  change Resizing cfg s u at h
  change CalledHead l at hlog
  have hN := h.bucketCount_eq hwf.toSettled.isStable_count
  have hjunior := h.junior ix hix
  -- the claims on `ix` are those of one owner
  have hunique : ∀ o p o' p', Claims s o p → s.addSmall o p = ix → Moves cfg s o' p' →
      s.addSmall o' p' = ix → o' = o ∧ p' = p := fun o p o' p' hc heq hm heq' =>
    hwf.represents.claim_unique hm.1 hc (heq'.trans heq.symm)
  refine sat_getTable_bind ?_
  dsimp only
  rw [hN, h.value, hjunior]
  split
  · rename_i hmoved
    have hstate : s.state ix = .inUse := ((hcopied.state ix hix).mp hmoved).1
    obtain ⟨o, p, hclaim, rfl⟩ := (hwf.states ix hix).mp hstate
    rw [hcopied.value _ hix hmoved]
    refine Sat.bind ((resizePass2AdjustOwner_sat hC hwf hclaim h hlog).post ?_)
    rintro - ⟨v, lv⟩ ⟨hv, hlv, -, hkeep, hbits⟩
    refine (releaseOld_sat lv hlv (fun l' hl' => hC _ hv hl') (fun l' hl' => hC _ (hv.free hix hmoved) hl')).post ?_
    rintro - ⟨x, lx⟩ ⟨rfl, hlx⟩
    refine ⟨hv.free hix hmoved, hlx, fun ix' hix' => (hkeep ix' hix').free _, ?_, fun _ => update_self _ _ _⟩
    intro o' p' hm heq
    obtain ⟨rfl, rfl⟩ := hunique o p o' p' hclaim rfl hm heq
    exact hbits hm
  · rename_i hstay
    have hfree : s.state (s.bucketCount + ix) = .free := by
      cases hs : s.state (s.bucketCount + ix) with
      | free => rfl
      | inUse => exact absurd hs hstay
    rw [h.senior ix hix hfree]
    refine Sat.when (fun hstate => ?_) fun hempty => ⟨hC _ h hlog.freedHead, h, hlog.freedHead, fun _ h => h, ?_, ?_⟩
    · obtain ⟨o, p, hclaim, rfl⟩ := (hwf.states ix hix).mp hstate
      refine (resizePass2AdjustOwner_sat hC hwf hclaim h hlog).post ?_
      rintro - w' ⟨hv, hlv, -, hkeep, hbits⟩
      refine ⟨hv, hlv.freedHead, hkeep, fun o' p' hm heq => ?_, fun hmoved => absurd hmoved hstay⟩
      obtain ⟨rfl, rfl⟩ := hunique o p o' p' hclaim rfl hm heq
      exact hbits hm
    · intro o p hm heq
      exact absurd ((hwf.states ix hix).mpr ⟨o, p, hm.1, heq⟩) hempty
    · exact fun hmoved => absurd hmoved hstay

theorem resizePass2Bucket_sat {ix : Nat}
    (hix : ix < s.bucketCount) (h : Resizing cfg s w.table) (hlog : freedHead w.log = none) :
    Sat (resizePass2Bucket cfg ix) w C (fun _ w' => Resizing cfg s w'.table ∧ freedHead w'.log = none ∧
        (∀ ix', Moved cfg s w.table ix' → Moved cfg s w'.table ix') ∧ Moved cfg s w'.table ix)
      (fun _ _ => False) := by
  refine sat_getTable_bind (sat_call_bind (hC w h hlog) (sat_call_bind (hC _ h rfl) (Sat.bind ?_)))
  refine (resizePass2Content_sat (w := ⟨w.table, .call _ :: _⟩) hC hwf hcopied hix h trivial).post ?_
  rintro - w' ⟨h', hlog', hkeep, hmoved⟩
  exact sat_call_bind (hC w' h' hlog') (sat_call (hC _ h' rfl) (hC _ h' rfl) ⟨h', rfl, hkeep, hmoved⟩)

theorem resizePass2_sat
    (h : Resizing cfg s w.table) (hlog : freedHead w.log = none) :
    Sat (resizePass2 cfg) w C (fun _ w' => Resizing cfg s w'.table ∧ freedHead w'.log = none ∧
        ∀ ix, ix < s.bucketCount → Moved cfg s w'.table ix) (fun _ _ => False) := by
  refine sat_getTable_bind ?_
  rw [h.bucketCount_eq hwf.toSettled.isStable_count]
  refine Sat.forRange (fun i w => Resizing cfg s w.table ∧ freedHead w.log = none ∧
      ∀ ix, ix < i → Moved cfg s w.table ix) ⟨h, hlog, fun ix hix => by omega⟩
    (fun w hw => hC w hw.1 hw.2.1) fun i w hi hw => ?_
  obtain ⟨hw, hlogw, hdone⟩ := hw
  refine (resizePass2Bucket_sat hC hwf hcopied hi hw hlogw).post ?_
  rintro - w' ⟨hw', hlog', hkeep, hmoved⟩
  refine ⟨hw', hlog', fun ix hix => ?_⟩
  by_cases heq : ix = i
  · rwa [heq]
  · exact hkeep ix (hdone ix (by omega))

end

end

end Pass2

section Grown

variable {K κ V : Type} [DecidableEq κ] {cfg : Config K κ V} {s u : Table K V} {m : KeyMap κ V}

def grown (u : Table K V) : Table K V :=
  u.apply (.segmentCount (valueSetStable 1 (u.segmentCountNotStable + 1)))

structure Complete (cfg : Config K κ V) (s u : Table K V) (m : KeyMap κ V) : Prop where
  wellFormed : WellFormed cfg s m
  room : s.segmentCountNotStable < segmentCapacity
  copied : Copying cfg s s.bucketCount s
  resizing : Resizing cfg s u
  moved : ∀ ix, ix < s.bucketCount → Moved cfg s u ix

namespace Complete

section

variable (h : Complete cfg s u m)
include h

theorem count_eq : (grown u).segmentCountNotStable = s.segmentCountNotStable + 1 := by
  have hN := h.resizing.segmentCountNotStable_eq h.wellFormed.toSettled.isStable_count
  unfold grown Table.segmentCountNotStable Table.apply at *
  simp only
  rw [valueNotStable_valueSetStable, hN]

theorem bucketCount_eq : (grown u).bucketCount = 2 * s.bucketCount := by
  have hpos := h.wellFormed.count_pos
  rw [Table.bucketCount_eq_two_pow, Table.bucketCount_eq_two_pow, h.count_eq, ← Nat.pow_succ']
  congr 1
  omega

theorem bucket_eq (k : κ) : bucket cfg (grown u) k = expanded cfg s k := by
  unfold bucket expanded
  rw [Table.bucketIx_eq_mod, Table.bucketExpandedIx_eq_mod, h.bucketCount_eq]

theorem claims_iff (i p : Nat) : Claims (grown u) i p ↔
    ∃ o, Claims s o p ∧ expanded cfg s (cfg.key (entry s o p).1) = i := by
  have hN := h.bucketCount_eq
  unfold Claims
  rw [hN]
  change i < 2 * s.bucketCount ∧ (u.owner i).getLsbD p = true ↔ _
  constructor
  · rintro ⟨hi, hbit⟩
    by_cases hsenior : i < s.bucketCount
    · by_cases hm : Moves cfg s i p
      · have hgone := (h.moved _ (s.addSmall_lt hsenior)).owner i p hm rfl
        rw [hgone.1] at hbit
        cases hbit
      · rw [(h.resizing.kept i p hsenior hm).1] at hbit
        have hc : Claims s i p := ⟨hsenior, hbit⟩
        exact ⟨i, hc, by_contra fun hne => hm ⟨hc, hne⟩⟩
    · obtain ⟨o, rfl⟩ := Nat.exists_eq_add_of_le (Nat.le_of_not_lt hsenior)
      have ho : o < s.bucketCount := by omega
      by_cases hm : Moves cfg s o p
      · refine ⟨o, hm.1, ?_⟩
        have hexp := expanded_eq cfg s (cfg.key (entry s o p).1)
        rw [h.wellFormed.represents.home o p hm.1] at hexp
        rw [hexp.resolve_left hm.2, Nat.add_comm]
      · rw [(h.resizing.kept o p ho hm).2] at hbit
        cases hbit
  · rintro ⟨o, hc, rfl⟩
    have ho := hc.1
    have hexp := expanded_eq cfg s (cfg.key (entry s o p).1)
    rw [h.wellFormed.represents.home o p hc] at hexp
    rcases hexp with hstay | hmove
    · rw [hstay]
      exact ⟨by omega, (h.resizing.kept o p ho fun hm => hm.2 hstay).1.trans hc.2⟩
    · rw [hmove]
      refine ⟨by omega, ?_⟩
      rw [Nat.add_comm]
      exact ((h.moved _ (s.addSmall_lt ho)).owner o p ⟨hc, by omega⟩ rfl).2

theorem addSmall_expanded {o p : Nat} (hc : Claims s o p) :
    (grown u).addSmall (expanded cfg s (cfg.key (entry s o p).1)) p = target cfg s (s.addSmall o p) := by
  unfold Table.addSmall
  rw [h.bucketCount_eq]
  exact step_expanded (h.wellFormed.represents.home o p hc) hc.1 hc.lt_size

theorem entry_expanded {o p : Nat} (hc : Claims s o p) :
    entry (grown u) (expanded cfg s (cfg.key (entry s o p).1)) p = entry s o p := by
  have hix := s.addSmall_lt (f := p) hc.1
  have hstate := (h.wellFormed.states _ hix).mpr hc.claimed
  unfold entry
  rw [show (s.value (s.addSmall o p)) = entry s o p from rfl, h.addSmall_expanded hc]
  change u.value _ = _
  rw [h.resizing.value]
  unfold target
  split
  · rename_i hmove
    exact h.copied.value _ hix ((h.copied.state _ hix).mpr ⟨hstate, hmove⟩)
  · rfl

theorem represents : Represents cfg (grown u) m := by
  have hrep := h.wellFormed.represents
  refine ⟨fun i p hip => ?_, fun k v => ?_, fun i p p' hip hip' hkey => ?_⟩
  · obtain ⟨o, hc, rfl⟩ := (h.claims_iff i p).mp hip
    rw [h.entry_expanded hc, h.bucket_eq]
  · rw [hrep.lookup]
    constructor
    · rintro ⟨o, p, hc, hkey, hval⟩
      refine ⟨_, p, (h.claims_iff _ p).mpr ⟨o, hc, rfl⟩, ?_⟩
      rw [h.entry_expanded hc]
      exact ⟨hkey, hval⟩
    · rintro ⟨i, p, hip, hkey, hval⟩
      obtain ⟨o, hc, rfl⟩ := (h.claims_iff i p).mp hip
      rw [h.entry_expanded hc] at hkey hval
      exact ⟨o, p, hc, hkey, hval⟩
  · obtain ⟨o, hc, rfl⟩ := (h.claims_iff i p).mp hip
    obtain ⟨o', hc', heq⟩ := (h.claims_iff _ p').mp hip'
    rw [← heq, h.entry_expanded hc', heq, h.entry_expanded hc] at hkey
    exact (hrep.key_inj hc hc' hkey).2

theorem state_senior {ix : Nat} (hix : ix < s.bucketCount) :
    (grown u).state ix = .inUse ↔ s.state ix = .inUse ∧ target cfg s ix = ix := by
  have hN := s.le_bucketCount
  change u.state ix = .inUse ↔ _
  unfold target
  cases hmove : mustMove cfg s ix with
  | false =>
    have hjunior : s.state (s.bucketCount + ix) = .free := by
      cases hj : s.state (s.bucketCount + ix) with
      | free => rfl
      | inUse =>
        have := ((h.copied.state ix hix).mp hj).2
        rw [hmove] at this
        cases this
    rw [h.resizing.senior ix hix hjunior]
    simp
  | true =>
    simp only [if_true]
    constructor
    · intro hu
      exfalso
      cases hj : s.state (s.bucketCount + ix) with
      | free =>
        rw [h.resizing.senior ix hix hj] at hu
        have := (h.copied.state ix hix).mpr ⟨hu, hmove⟩
        rw [hj] at this
        cases this
      | inUse =>
        rw [(h.moved ix hix).state hj] at hu
        cases hu
    · rintro ⟨-, heq⟩
      omega

theorem state_junior {ix : Nat} (hix : ix < s.bucketCount) :
    (grown u).state (s.bucketCount + ix) = .inUse ↔ s.state ix = .inUse ∧ target cfg s ix = s.bucketCount + ix := by
  have hN := s.le_bucketCount
  change u.state _ = .inUse ↔ _
  rw [h.resizing.junior ix hix, h.copied.state ix hix]
  unfold target
  cases mustMove cfg s ix with
  | false =>
    simp only [Bool.false_eq_true, and_false, if_false, false_iff, not_and]
    omega
  | true => simp

theorem claimed_iff (b : Nat) : Claimed (grown u) b ↔ ∃ ix, Claimed s ix ∧ target cfg s ix = b := by
  constructor
  · rintro ⟨i, p, hip, rfl⟩
    obtain ⟨o, hc, rfl⟩ := (h.claims_iff i p).mp hip
    exact ⟨s.addSmall o p, hc.claimed, (h.addSmall_expanded hc).symm⟩
  · rintro ⟨_, ⟨o, p, hc, rfl⟩, rfl⟩
    exact ⟨_, p, (h.claims_iff _ p).mpr ⟨o, hc, rfl⟩, h.addSmall_expanded hc⟩

theorem statesAgree : StatesAgree (grown u) := by
  intro b hb
  rw [h.bucketCount_eq] at hb
  rw [h.claimed_iff]
  have htarget : ∀ ix, target cfg s ix = ix ∨ target cfg s ix = s.bucketCount + ix := by
    intro ix
    unfold target
    split
    · exact Or.inr rfl
    · exact Or.inl rfl
  by_cases hsenior : b < s.bucketCount
  · rw [h.state_senior hsenior, h.wellFormed.states b hsenior]
    constructor
    · exact fun hb => ⟨b, hb⟩
    · rintro ⟨ix, hc, heq⟩
      have hlt := hc.lt
      have : ix = b := by have := htarget ix; omega
      subst this
      exact ⟨hc, heq⟩
  · obtain ⟨ix, rfl⟩ := Nat.exists_eq_add_of_le (Nat.le_of_not_lt hsenior)
    have hix : ix < s.bucketCount := by omega
    rw [h.state_junior hix, h.wellFormed.states ix hix]
    constructor
    · exact fun hb => ⟨ix, hb⟩
    · rintro ⟨ix', hc, heq⟩
      have hlt := hc.lt
      have : ix' = ix := by have := htarget ix'; omega
      subst this
      exact ⟨hc, heq⟩

theorem wellFormed_grown : WellFormed cfg (grown u) m := by
  have hn := h.count_eq
  have hroom := h.room
  refine ⟨⟨h.represents, ?_, ?_, ?_, fun i hi => ?_⟩, h.statesAgree, ?_⟩
  · unfold Table.segmentCountNotStable grown Table.apply
    simp only
    rw [valueNotStable_valueSetStable]
  · omega
  · omega
  · change u.segment i = true
    rw [h.resizing.segment]
    by_cases hlt : i < s.segmentCountNotStable
    · exact h.wellFormed.segment i hlt
    · rw [show i = s.segmentCountNotStable by omega]
      exact h.copied.segment
  · exact h.resizing.size.trans h.wellFormed.size_eq

end

end Complete

end Grown

end Comanche.Hstore
