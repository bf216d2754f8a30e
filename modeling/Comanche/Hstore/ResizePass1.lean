import Comanche.Hstore.Insert

/-!
# Doubling the table: pass 1

Pass 1 copies to the junior segment the contents that the enlarged table expects there.
-/

namespace Comanche.Hstore

open Lib
open Function (update update_of_ne update_self)

section Target

variable {K κ V : Type} {cfg : Config K κ V} {t : Table K V}

def target (cfg : Config K κ V) (t : Table K V) (ix : Nat) : Nat :=
  if mustMove cfg t ix then t.bucketCount + ix else ix

def expanded (cfg : Config K κ V) (t : Table K V) (k : κ) : Nat := t.bucketExpandedIx (cfg.hf k)

theorem expanded_eq (cfg : Config K κ V) (t : Table K V) (k : κ) : expanded cfg t k = bucket cfg t k ∨
    expanded cfg t k = bucket cfg t k + t.bucketCount := t.bucketExpandedIx_eq _

theorem mustMove_iff (cfg : Config K κ V) (t : Table K V) (ix : Nat) : mustMove cfg t ix = true ↔
    ¬ (expanded cfg t (cfg.key (t.value ix).1) ≤ ix ∧ ix < expanded cfg t (cfg.key (t.value ix).1) + 64) ∧
    ¬ (ix < 64 ∧ t.bucketCount * 2 < expanded cfg t (cfg.key (t.value ix).1) + 64) := by
  unfold mustMove expanded Owner.size
  simp only
  split
  · simp_all
  · split <;> simp_all

theorem expanded_congr {u : Table K V} (hN : u.bucketCount = t.bucketCount) (k : κ) :
    expanded cfg u k = expanded cfg t k := by
  unfold expanded
  rw [Table.bucketExpandedIx_eq_mod, Table.bucketExpandedIx_eq_mod, hN]

theorem mustMove_congr {u : Table K V} {ix : Nat} (hN : u.bucketCount = t.bucketCount)
    (hvalue : u.value ix = t.value ix) : mustMove cfg u ix = mustMove cfg t ix := by
  rw [Bool.eq_iff_iff, mustMove_iff, mustMove_iff, hvalue, expanded_congr hN, hN]

theorem step_expanded {o p : Nat} (hhome : bucket cfg t (cfg.key (entry t o p).1) = o)
    (ho : o < t.bucketCount) (hp : p < 64) :
    Circle.step (2 * t.bucketCount) (expanded cfg t (cfg.key (entry t o p).1)) p = target cfg t (t.addSmall o p) := by
  have hN := t.le_bucketCount
  have hix : t.addSmall o p = if o + p < t.bucketCount then o + p else o + p - t.bucketCount :=
    Circle.step_eq_ite ho (by omega)
  have hexp := expanded_eq cfg t (cfg.key (entry t o p).1)
  have hmove := mustMove_iff cfg t (t.addSmall o p)
  rw [hhome] at hexp
  unfold target
  unfold entry at hexp ⊢
  generalize expanded cfg t (cfg.key (t.value (t.addSmall o p)).1) = o' at hexp hmove ⊢
  rw [Circle.step_eq_ite (by omega : o' < 2 * t.bucketCount) (by omega)]
  -- whether the content lies past the end of the old table, and whether its home moves
  by_cases hwrap : o + p < t.bucketCount
  · rw [if_pos hwrap] at hix
    rw [if_pos (by omega : o' + p < 2 * t.bucketCount)]
    by_cases hstay : o' = o
    · rw [if_neg fun h => by have := hmove.mp h; omega]
      omega
    · rw [if_pos (hmove.mpr (by omega))]
      omega
  · rw [if_neg hwrap] at hix
    by_cases hstay : o' = o
    · rw [if_pos (by omega : o' + p < 2 * t.bucketCount), if_pos (hmove.mpr (by omega))]
      omega
    · rw [if_neg (by omega : ¬ o' + p < 2 * t.bucketCount), if_neg fun h => by have := hmove.mp h; omega]
      omega

end Target

section Pass1

variable {K V : Type}

def Beyond (t : Table K V) : Write K V → Prop
  | .owner i _ => t.bucketCount ≤ i
  | .state i _ => t.bucketCount ≤ i
  | .value i _ => t.bucketCount ≤ i
  | .segment i => t.segmentCountNotStable ≤ i
  | .size _ => False
  | .segmentCount _ => False

theorem SameLive.refl (t : Table K V) : SameLive t t :=
  ⟨rfl, rfl, fun _ _ => rfl, fun _ _ => rfl, fun _ _ => rfl, fun _ _ => rfl⟩

theorem SameLive.apply {t u : Table K V} (h : SameLive t u) {x : Write K V} (hx : Beyond t x) :
    SameLive t (u.apply x) := by
  obtain ⟨hcount, hsize, hseg, howner, hstate, hvalue⟩ := h
  have hupdate : ∀ {α : Type} (f g : Nat → α) (i : Nat) (v : α) (n : Nat), n ≤ i →
      (∀ j, j < n → f j = g j) → ∀ j, j < n → update f i v j = g j := by
    intro α f g i v n hni hfg j hj
    rw [update_of_ne (by omega)]
    exact hfg j hj
  cases x with
  | owner i v => exact ⟨hcount, hsize, hseg, hupdate _ _ i v _ hx howner, hstate, hvalue⟩
  | state i v => exact ⟨hcount, hsize, hseg, howner, hupdate _ _ i v _ hx hstate, hvalue⟩
  | value i v => exact ⟨hcount, hsize, hseg, howner, hstate, hupdate _ _ i v _ hx hvalue⟩
  | segment i => exact ⟨hcount, hsize, hupdate _ _ i _ _ hx hseg, howner, hstate, hvalue⟩
  | _ => exact hx.elim

variable {κ : Type} {cfg : Config K κ V} {t u : Table K V}

/-- The table after the junior segment was allocated and `n` of its buckets were filled. -/
structure Copying (cfg : Config K κ V) (t : Table K V) (n : Nat) (u : Table K V) : Prop where
  live : SameLive t u
  owner : ∀ ix, ix < t.bucketCount → u.owner (t.bucketCount + ix) = 0#64
  segment : u.segment t.segmentCountNotStable = true
  state : ∀ ix, ix < n → (u.state (t.bucketCount + ix) = .inUse ↔
    t.state ix = .inUse ∧ mustMove cfg t ix = true)
  value : ∀ ix, ix < n → u.state (t.bucketCount + ix) = .inUse →
    u.value (t.bucketCount + ix) = t.value ix
  rest : ∀ ix, n ≤ ix → ix < t.bucketCount → u.state (t.bucketCount + ix) = .free

theorem Copying.skip {n : Nat} (h : Copying cfg t n u) (hn : n < t.bucketCount)
    (hskip : ¬ (t.state n = .inUse ∧ mustMove cfg t n = true)) : Copying cfg t (n + 1) u := by
  have hfree := h.rest n le_rfl hn
  refine ⟨h.live, h.owner, h.segment, fun ix hix => ?_, fun ix hix hstate => ?_, fun ix hle => h.rest ix (by omega)⟩
  · by_cases heq : ix = n
    · rw [heq, hfree]
      simpa using hskip
    · exact h.state ix (by omega)
  · by_cases heq : ix = n
    · rw [heq, hfree] at hstate
      cases hstate
    · exact h.value ix (by omega) hstate

theorem Copying.fill {n : Nat} (h : Copying cfg t n u) (hmove : t.state n = .inUse) (hmove' : mustMove cfg t n = true) :
    Copying cfg t (n + 1) ((u.apply (.value (t.bucketCount + n) (t.value n))).apply
      (.state (t.bucketCount + n) .inUse)) := by
  have hn : t.bucketCount ≤ t.bucketCount + n := Nat.le_add_right _ _
  have hstate : ∀ ix, ix ≠ n → update u.state (t.bucketCount + n) .inUse
      (t.bucketCount + ix) = u.state (t.bucketCount + ix) :=
    fun ix hix => update_of_ne (by omega) _ _
  have hlive := (h.live.apply (x := .value (t.bucketCount + n) (t.value n)) hn).apply
    (x := .state (t.bucketCount + n) .inUse) hn
  refine ⟨hlive, h.owner, h.segment, fun ix hix => ?_, fun ix hix hused => ?_, fun ix hle hlt => ?_⟩
  · change update u.state _ _ _ = _ ↔ _
    by_cases heq : ix = n
    · rw [heq, update_self]
      simp [hmove, hmove']
    · rw [hstate ix heq]
      exact h.state ix (by omega)
  · change update u.state _ _ _ = _ at hused
    change update u.value _ _ _ = _
    by_cases heq : ix = n
    · rw [heq, update_self]
    · rw [hstate ix heq] at hused
      rw [update_of_ne (by omega)]
      exact h.value ix (by omega) hused
  · exact (hstate ix (by omega)).trans (h.rest ix (by omega) hlt)

end Pass1

section Copying

variable {K κ V : Type} [DecidableEq κ] {cfg : Config K κ V} {t u : Table K V} {m : KeyMap κ V}
  {C : HopHash K V → Prop}

section

variable (hC : ∀ w, WellFormed cfg w.table m → freedHead w.log = none → C w) (hwf : WellFormed cfg t m)
include hC hwf

theorem resizeProlog_sat [Inhabited K] [Inhabited V] (l : List (Step K V)) (hl : freedHead l = none) : Sat resizeProlog ⟨t, l⟩ C
      (fun _ w' => Copying cfg t 0 w'.table ∧ freedHead w'.log = none) (fun _ _ => False) := by
  refine sat_getTable_bind (Sat.bind ?_)
  -- the buckets below `i` are constructed
  have hloop := Sat.forRange (C := C) (E := fun (_ : Exc) _ => False) (s := (⟨t, l⟩ : HopHash K V)) (n := t.bucketCount)
    (f := fun i => do
      write (.owner (t.bucketCount + i) 0#64)
      write (.state (t.bucketCount + i) .free)
      write (.value (t.bucketCount + i) default))
    (fun i w => SameLive t w.table ∧ freedHead w.log = none ∧ ∀ ix, ix < i → w.table.owner (t.bucketCount + ix) = 0#64 ∧
        w.table.state (t.bucketCount + ix) = .free)
    ⟨SameLive.refl t, hl, fun ix hix => by omega⟩
    (fun w hw => hC w (hwf.congr hw.1) hw.2.1) ?_
  · refine hloop.post ?_
    rintro - w ⟨hlive, hlog, hfresh⟩
    have hlive' : SameLive t (w.table.apply (.segment t.segmentCountNotStable)) :=
      hlive.apply (Nat.le_refl _)
    have hwf' := hwf.congr hlive'
    refine sat_write_bind (hC w (hwf.congr hlive) hlog)
      (sat_call (hC _ hwf' rfl) (hC _ hwf' rfl) ⟨⟨hlive', ?_, ?_, ?_, ?_, ?_⟩, rfl⟩)
    · exact fun ix hix => (hfresh ix hix).1
    · exact update_self _ _ _
    · intro ix hix
      omega
    · intro ix hix
      omega
    · exact fun ix _ hix => (hfresh ix hix).2
  · rintro i w hi ⟨hlive, hlog, hfresh⟩
    have hi' : t.bucketCount ≤ t.bucketCount + i := Nat.le_add_right _ _
    have h₁ := hlive.apply (x := .owner (t.bucketCount + i) 0#64) hi'
    have h₂ := h₁.apply (x := .state (t.bucketCount + i) .free) hi'
    have h₃ := h₂.apply (x := .value (t.bucketCount + i) default) hi'
    refine sat_write_bind (hC w (hwf.congr hlive) hlog) (sat_write_bind (hC _ (hwf.congr h₁) rfl)
      (sat_write (hC _ (hwf.congr h₂) rfl) (hC _ (hwf.congr h₃) rfl) ⟨h₃, rfl, fun ix hix => ?_⟩))
    change update w.table.owner (t.bucketCount + i) 0#64 (t.bucketCount + ix) = 0#64 ∧
      update w.table.state (t.bucketCount + i) .free (t.bucketCount + ix) = .free
    by_cases heq : ix = i
    · rw [heq, update_self, update_self]
      exact ⟨rfl, rfl⟩
    · rw [update_of_ne (by omega), update_of_ne (by omega)]
      exact hfresh ix (by omega)

theorem resizePass1Bucket_sat {ix : Nat} {w : HopHash K V} (hix : ix < t.bucketCount) (h : Copying cfg t ix w.table)
    (hlog : freedHead w.log = none) : Sat (resizePass1Bucket cfg ix) w C
      (fun _ w' => Copying cfg t (ix + 1) w'.table ∧ freedHead w'.log = none) (fun _ _ => False) := by
  obtain ⟨u, l⟩ := w
  change Copying cfg t ix u at h
  change freedHead l = none at hlog
  have hN := h.live.bucketCount_eq
  have hvalue := h.live.value ix hix
  have hbeyond : t.bucketCount ≤ t.bucketCount + ix := Nat.le_add_right _ _
  have hCu : ∀ l, freedHead l = none → C ⟨u, l⟩ := fun l hl => hC _ (hwf.congr h.live) hl
  have hCx : ∀ x l, freedHead l = none → C ⟨u.apply (.value (t.bucketCount + ix) x), l⟩ :=
    fun x l hl => hC _ (hwf.congr (h.live.apply (x := .value (t.bucketCount + ix) x) hbeyond)) hl
  have hcond : (u.isFree ix = false ∧ mustMove cfg u ix = true) ↔ (t.state ix = .inUse ∧ mustMove cfg t ix = true) := by
    rw [Table.isFree_eq_false_iff, h.live.state ix hix, mustMove_congr hN hvalue]
  refine sat_getTable_bind (sat_call_bind (hCu l hlog) (Sat.bind ?_))
  dsimp only
  rw [hN, hvalue]
  refine Sat.when (fun hmove => Sat.bind ?_) fun hskip => ⟨hCu _ rfl, ?_⟩
  · rw [hcond] at hmove
    refine (contentCopy_sat _ _ _ rfl hCu hCx).post ?_
    rintro - ⟨t₁, l₁⟩ ⟨rfl, hl₁⟩
    have hfill := h.fill hmove.1 hmove.2
    have hCf : ∀ l, freedHead l = none → C ⟨_, l⟩ := fun l hl => hC _ (hwf.congr hfill.live) hl
    exact sat_write (hCx _ _ hl₁) (hCf _ rfl) (sat_call (hCf _ rfl) (hCf _ rfl) ⟨hfill, rfl⟩)
  · exact sat_call (hCu _ rfl) (hCu _ rfl) ⟨h.skip hix (hcond.not.mp hskip), rfl⟩

theorem resizePass1_sat {w : HopHash K V} (h : Copying cfg t 0 w.table) (hlog : freedHead w.log = none) :
    Sat (resizePass1 cfg) w C (fun _ w' => Copying cfg t t.bucketCount w'.table ∧ freedHead w'.log = none)
      (fun _ _ => False) := by
  refine sat_getTable_bind ?_
  rw [h.live.bucketCount_eq]
  exact Sat.forRange (fun i w => Copying cfg t i w.table ∧ freedHead w.log = none) ⟨h, hlog⟩
    (fun w hw => hC w (hwf.congr hw.1.live) hw.2)
    fun i w hi hw => resizePass1Bucket_sat hC hwf hi hw.1 hw.2

end

end Copying

end Comanche.Hstore
