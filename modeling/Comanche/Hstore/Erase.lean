import Comanche.Hstore.Insert

/-!
# Removing an element

`erase` gives up the claim, marks the content FREE and counts the element out, in that order.
-/

namespace Comanche.Hstore

open Lib ValueUnstable

theorem Owner.erase_congr {p p' : Nat} (h : p % 64 = p' % 64) (v : BitVec 64) :
    Owner.erase v p = Owner.erase v p' := by
  unfold Owner.erase Owner.maskFromPos
  rw [h]

section Position

variable {K V : Type}

theorem Table.bucketCount_mod (t : Table K V) : t.bucketCount % 64 = 0 := by
  rw [t.bucketCount_eq_two_pow, Nat.pow_add]
  omega

theorem Table.bucketCount_le {t : Table K V} (h : t.segmentCountNotStable ≤ segmentCapacity) :
    t.bucketCount ≤ 2 ^ 38 := by
  rw [t.bucketCount_eq_two_pow]
  have hcap : segmentCapacity = 32 := rfl
  exact Nat.pow_le_pow_right (by decide) (by omega)

theorem erasePos_mod {t : Table K V} {i p : Nat} (hcap : t.segmentCountNotStable ≤ segmentCapacity)
    (hi : i < t.bucketCount) (hp : p < 64) : (t.addSmall i p + 2 ^ 64 - i) % 2 ^ 64 % 2 ^ 32 % 64 = p % 64 := by
  have hN := t.le_bucketCount
  have hle := Table.bucketCount_le hcap
  have hmod := t.bucketCount_mod
  have hstep := Circle.step_eq_ite (f := p) hi (by omega)
  rw [Nat.mod_mod_of_dvd _ (by decide : 64 ∣ 2 ^ 32), Nat.mod_mod_of_dvd _ (by decide : 64 ∣ 2 ^ 64)]
  unfold Table.addSmall
  rw [hstep]
  split <;> omega

end Position

variable {K κ V : Type} [DecidableEq κ] {cfg : Config K κ V} {t : Table K V} {m : KeyMap κ V}
  {C : HopHash K V → Prop}

theorem KeyMap.card_erase {k : κ} (hk : k ∈ m) : (m.erase k).keys.card + 1 = m.keys.card := by
  rw [Finmap.keys_erase]
  exact Finset.card_erase_add_one (Finmap.mem_keys.mpr hk)

theorem KeyMap.erase_of_notMem {k : κ} (hk : k ∉ m) : m.erase k = m := by
  apply Finmap.ext_lookup
  intro a
  by_cases ha : a = k
  · rw [ha, Finmap.lookup_erase, Finmap.lookup_eq_none.mpr hk]
  · rw [Finmap.lookup_erase_ne ha]

theorem eraseContent_sat {u : Table K V} {i p : Nat} {m' : KeyMap κ V}
    (hC : ∀ w, Repairable cfg w.table m' → Live w → C w) (hset : Settled cfg u m')
    (hclaimed : ¬ Claimed u (u.addSmall i p)) (hstate : u.state (u.addSmall i p) = .inUse)
    (hstates : ∀ b, b < u.bucketCount → b ≠ u.addSmall i p → (u.state b = .inUse ↔ Claimed u b))
    (hsize : u.sizeControl = destabilize (valueSetStable 8 (m'.keys.card + 1)))
    (l : List (Step K V)) (hl : freedHead l = none) :
    Sat (do
        contentErase (u.addSmall i p)
        sizeDecr
        sizeStabilize
        call (.unlockContent (u.addSmall i p))
        call (.unlockOwner i)
        return 1) ⟨u, l⟩ C
      (fun r w' => r = 1 ∧ WellFormed cfg w'.table m' ∧ freedHead w'.log = none ∧
        w'.table.segmentCountActual = u.segmentCountActual)
      (fun _ _ => False) := by
  have hcount := hset.isStable_count
  have hunstable := isStable_destabilize (by decide : 1 ≤ 8)
  have hinUse : ∀ b, Claimed u b → b ≠ u.addSmall i p ∧ u.state b = .inUse := by
    intro b hb
    have hne : b ≠ u.addSmall i p := fun heq => hclaimed (heq ▸ hb)
    exact ⟨hne, (hstates b hb.lt hne).mpr hb⟩
  have hCu : ∀ l, freedHead l = none → C ⟨u, l⟩ := fun l hl =>
    hC _ ⟨hset, Or.inl (hsize ▸ hunstable _)⟩
      (Live.of_claimsLive hcount (claimsLive_of_inUse fun b hb => (hinUse b hb).2) hl)
  have hset₁ := hset.apply_state (u.addSmall i p) .free
  have hlive₁ : ClaimsLive (u.apply (.state (u.addSmall i p) .free)) :=
    claimsLive_of_inUse fun b hb =>
      (Function.update_of_ne (hinUse b hb).1 _ _).trans (hinUse b hb).2
  have hC₁ : ∀ l, freedHead l = none → C ⟨u.apply (.state (u.addSmall i p) .free), l⟩ :=
    fun l hl => hC _ ⟨hset₁, Or.inl (hsize ▸ hunstable _)⟩ (Live.of_claimsLive hcount hlive₁ hl)
  have hdecr : decr 8 u.sizeControl =
      destabilize (valueSetStable 8 m'.keys.card) := by
    rw [hsize, decr_destabilize]
  refine Sat.bind (sat_getTable_bind (Sat.when (fun _ => ?_) fun hfree => ?_))
  · refine sat_call_bind (hCu l hl) (sat_write (hCu _ rfl) (hC₁ _ rfl) ?_)
    refine sat_sizeUpdate_bind (hC₁ _ rfl) ?_
    change Sat _ ⟨(u.apply (.state (u.addSmall i p) .free)).apply
      (.size (decr 8 u.sizeControl)), _⟩ C _ _
    rw [hdecr]
    have hwf : WellFormed cfg (((u.apply (.state (u.addSmall i p) .free)).apply
        (.size (destabilize (valueSetStable 8 m'.keys.card)))).apply
        (.size (stabilize
          (destabilize (valueSetStable 8 m'.keys.card))))) m' := by
      refine ⟨(hset₁.apply_size _).apply_size _, fun b hb => ?_, rfl⟩
      change Function.update u.state (u.addSmall i p) .free b = .inUse ↔ Claimed u b
      by_cases heq : b = u.addSmall i p
      · subst heq
        rw [Function.update_self]
        simp [hclaimed]
      · rw [Function.update_of_ne heq]
        exact hstates b hb heq
    refine sat_sizeUpdate_bind (hC _ ⟨hset₁.apply_size _, Or.inl (hunstable _)⟩
      (Live.of_claimsLive hcount hlive₁ rfl)) ?_
    exact sat_call_bind (hC _ hwf.repairable (hwf.live rfl)) (sat_call_bind (hC _ hwf.repairable (hwf.live rfl))
        (Sat.pure (hC _ hwf.repairable (hwf.live rfl)) ⟨rfl, hwf, rfl, rfl⟩))
  · exact absurd hstate (by rw [not_not.mp hfree]; decide)

theorem erase_sat {k : κ} (hC : ∀ w, (Repairable cfg w.table m ∨ Repairable cfg w.table (m.erase k)) → Live w → C w)
    (hwf : WellFormed cfg t m) (l : List (Step K V)) (hl : freedHead l = none) : Sat (erase cfg k) ⟨t, l⟩ C
      (fun r w' => r = (if k ∈ m then 1 else 0) ∧ WellFormed cfg w'.table (m.erase k) ∧
        freedHead w'.log = none ∧ w'.table.segmentCountActual = t.segmentCountActual) (fun _ _ => False) := by
  have hCt : ∀ l, freedHead l = none → C ⟨t, l⟩ :=
    fun l hl => hC _ (Or.inl hwf.repairable) (hwf.live hl)
  refine sat_getTable_bind (sat_call_bind (hCt l hl) ?_)
  cases hlocate : locateKey cfg t k (bucket cfg t k) with
  | none =>
    have hk := hwf.represents.locateKey_eq_none hlocate
    refine sat_call_bind (hCt _ rfl) (Sat.pure (hCt _ rfl) ⟨?_, ?_, rfl, rfl⟩)
    · rw [if_neg hk]
    · rwa [KeyMap.erase_of_notMem hk]
  | some j =>
    obtain ⟨p, hclaim, rfl, hkey, hlookup⟩ := hwf.represents.locateKey_eq_some hlocate
    have hk : k ∈ m := Finmap.mem_of_lookup_eq_some hlookup
    have hsize : t.sizeControl = valueSetStable 8 ((m.erase k).keys.card + 1) := by
      rw [hwf.size_eq, KeyMap.card_erase hk]
    have hunstable := hwf.isStable_destabilize
    have hinUse : ∀ b, Claimed t b → t.state b = .inUse :=
      fun b hb => (hwf.states b hb.lt).mpr hb
    have hset₁ := hwf.toSettled.apply_size (destabilize t.sizeControl)
    have hword := Owner.erase_congr (erasePos_mod hwf.count_le hclaim.1 hclaim.lt_size) (t.owner (bucket cfg t k))
    dsimp only
    rw [hword, if_pos hk]
    refine sat_call_bind (hCt _ rfl) (sat_sizeUpdate_bind (hCt _ rfl) ?_)
    refine sat_write_bind (hC _ (Or.inl ⟨hset₁, Or.inl hunstable⟩)
      (Live.of_claimsLive hwf.toSettled.isStable_count (claimsLive_of_inUse hinUse) rfl)) ?_
    have hrep := hset₁.represents.erase (p := p) hclaim hkey
    have hgone := hset₁.represents.claimed_erase (p := p) hclaim
    refine eraseContent_sat (fun w hw => hC w (Or.inr hw)) (hset₁.of_represents hrep rfl rfl)
      (fun hb => ((hgone _).mp hb).2 rfl) (hinUse _ hclaim.claimed) (fun b hb hne => ?_)
      (congrArg destabilize hsize) _ rfl
    exact ((hwf.states b hb).trans ⟨fun hc => (hgone b).mpr ⟨hc, hne⟩, fun hc => ((hgone b).mp hc).1⟩)

end Comanche.Hstore
