import Comanche.Hstore.ResizePass2

/-!
# Inserting an element

`emplace` enters the pair, or enlarges the table and tries again.
-/

namespace Comanche.Hstore

open Lib ValueUnstable

variable {K κ V : Type} [DecidableEq κ] {cfg : Config K κ V} {t u : Table K V} {m : KeyMap κ V}
  {C : HopHash K V → Prop}

def Recoverable (cfg : Config K κ V) (t : Table K V) (m : KeyMap κ V) : Prop :=
  Repairable cfg t m ∨ ∃ s, WellFormed cfg s m ∧ s.segmentCountNotStable < segmentCapacity ∧
    Copying cfg s s.bucketCount s ∧ Resizing cfg s t

omit [DecidableEq κ] in
theorem Resizing.isStable_count {s : Table K V} (h : Resizing cfg s t)
    (hstable : isStable 1 s.segmentCountActual = true) :
    isStable 1 t.segmentCountActual = false := by
  have hword := h.count
  unfold isStable destabilize at *
  simp only [beq_iff_eq, beq_eq_false_iff_ne] at hstable ⊢
  omega

theorem Recoverable.segmented (h : Recoverable cfg t m) : Segmented t := by
  rcases h with ⟨hset, -⟩ | ⟨s, hwf, -, hcopied, hres⟩
  · exact hset.segmented
  · intro i hi
    unfold segmentsUsed at hi
    have hstable := hwf.toSettled.isStable_count
    rw [hres.isStable_count hstable, hres.segmentCountNotStable_eq hstable] at hi
    rw [hres.segment]
    by_cases hlt : i < s.segmentCountNotStable
    · exact hwf.segment i hlt
    · -- the one segment past the counted ones is the junior, which the resize has set
      have heq : i = s.segmentCountNotStable := by
        simp only [Bool.not_false, Bool.toNat_true] at hi
        omega
      rw [heq]
      exact hcopied.segment

omit [DecidableEq κ] in
theorem Copying.self (h : Copying cfg t t.bucketCount u) : Copying cfg u u.bucketCount u := by
  have hN := h.live.bucketCount_eq
  refine ⟨SameLive.refl u, ?_, ?_, ?_, ?_, fun ix hle hlt => by omega⟩
  · rw [hN]
    exact h.owner
  · rw [h.live.segmentCountNotStable_eq]
    exact h.segment
  · rw [hN]
    intro ix hix
    rw [h.state ix hix, h.live.state ix hix, mustMove_congr hN (h.live.value ix hix)]
  · rw [hN]
    intro ix hix hstate
    rw [h.value ix hix hstate, h.live.value ix hix]

omit [DecidableEq κ] in
theorem Copying.resizing (h : Copying cfg u u.bucketCount u) :
    Resizing cfg u (u.apply (.segmentCount (destabilize u.segmentCountActual))) := by
  refine ⟨rfl, rfl, rfl, rfl, fun _ _ => rfl, fun _ _ _ => rfl, fun o p ho _ => ⟨rfl, ?_⟩⟩
  change (u.owner (u.bucketCount + o)).getLsbD p = false
  rw [h.owner o ho, BitVec.getLsbD_zero]

structure Doubled (t u : Table K V) : Prop where
  count : u.segmentCountNotStable = t.segmentCountNotStable + 1
  bucketCount : u.bucketCount = 2 * t.bucketCount
  free : ∀ ix, ix < t.bucketCount → t.state ix = .free →
    u.state ix = .free ∧ u.state (t.bucketCount + ix) = .free
  half : ∀ ix, ix < t.bucketCount → u.state ix = .free ∨ u.state (t.bucketCount + ix) = .free

theorem ContentState.free_of_ne {s : ContentState} (h : s ≠ .inUse) : s = .free := by
  cases s with
  | free => rfl
  | inUse => exact absurd rfl h

theorem Complete.doubled {s : Table K V} (h : Complete cfg s u m) (hlive : SameLive t s) : Doubled t (grown u) := by
  have hN := hlive.bucketCount_eq
  have hpos := t.bucketCount_pos
  refine ⟨?_, ?_, fun ix hix hfree => ?_, fun ix hix => ?_⟩
  · rw [h.count_eq, hlive.segmentCountNotStable_eq]
  · rw [h.bucketCount_eq, hN]
  · have hs : s.state ix ≠ .inUse := by
      rw [hlive.state ix hix, hfree]
      decide
    rw [← hN] at hix ⊢
    refine ⟨ContentState.free_of_ne fun hu => hs ((h.state_senior hix).mp hu).1,
      ContentState.free_of_ne fun hu => hs ((h.state_junior hix).mp hu).1⟩
  · rw [← hN] at hix ⊢
    by_cases htarget : target cfg s ix = ix
    · refine Or.inr (ContentState.free_of_ne fun hu => ?_)
      have := ((h.state_junior hix).mp hu).2
      omega
    · exact Or.inl (ContentState.free_of_ne fun hu => htarget ((h.state_senior hix).mp hu).2)

theorem resize_sat [Inhabited K] [Inhabited V]
    (hC : ∀ w, Recoverable cfg w.table m → Live w → C w) (hwf : WellFormed cfg t m)
    (hroom : t.segmentCountNotStable < segmentCapacity) (l : List (Step K V)) (hl : freedHead l = none) :
    Sat (resize cfg) ⟨t, l⟩ C (fun _ w' => WellFormed cfg w'.table m ∧ freedHead w'.log = none ∧ Doubled t w'.table)
      (fun _ _ => False) := by
  have hCw : ∀ w, WellFormed cfg w.table m → freedHead w.log = none → C w :=
    fun w hw hlog => hC w (Or.inl hw.repairable) (hw.live hlog)
  refine Sat.bind ((resizeProlog_sat hCw hwf l hl).post ?_)
  rintro - w₁ ⟨hcopy₁, hlog₁⟩
  refine Sat.bind ((resizePass1_sat hCw hwf hcopy₁ hlog₁).post ?_)
  rintro - ⟨s, l₂⟩ ⟨hcopy₂, hlog₂⟩
  have hlive : SameLive t s := hcopy₂.live
  have hwfs : WellFormed cfg s m := hwf.congr hlive
  have hcopied : Copying cfg s s.bucketCount s := hcopy₂.self
  have hrooms : s.segmentCountNotStable < segmentCapacity := by
    rwa [hlive.segmentCountNotStable_eq]
  have hCr : ∀ w, Resizing cfg s w.table → freedHead w.log = none → C w := fun w hw hlog =>
    hC w (Or.inr ⟨s, hwfs, hrooms, hcopied, hw⟩)
      (Live.of_stable (by rw [hw.size]; exact hwfs.isStable) hlog)
  refine Sat.bind (sat_getTable_bind (sat_write (hCw _ hwfs hlog₂) (hCr _ hcopied.resizing rfl) ?_))
  refine Sat.bind ((resizePass2_sat hCr hwfs hcopied hcopied.resizing rfl).post ?_)
  rintro - ⟨u, l₃⟩ ⟨hres, hlog₃, hmoved⟩
  have hcomplete : Complete cfg s u m := ⟨hwfs, hrooms, hcopied, hres, hmoved⟩
  have hwfu := hcomplete.wellFormed_grown
  exact sat_getTable_bind (sat_write (hCr _ hres hlog₃) (hCw _ hwfu rfl) ⟨hwfu, rfl, hcomplete.doubled hlive⟩)

/-- The table is small enough, or has a free bucket less than `2 ^ 32` places past the home of
`k`. -/
def Roomy (cfg : Config K κ V) (t : Table K V) (k : κ) : Prop :=
  t.bucketCount ≤ 2 ^ 31 ∨
    ∃ d, d < 2 ^ 32 ∧ t.state (t.addSmall (bucket cfg t k) d) = .free

omit [DecidableEq κ] in
theorem Roomy.near {k : κ} (h : Roomy cfg t k) : Near t (bucket cfg t k) := by
  intro d hd
  have hlt := hd.lt
  rcases h with hsmall | ⟨d₀, hd₀, hfree⟩
  · omega
  · by_contra hge
    have hused := hd.used d₀ (by omega)
    rw [hfree] at hused
    cases hused

omit [DecidableEq κ] in
theorem Doubled.addSmall (h : Doubled t u) (cfg : Config K κ V) (k : κ) (d : Nat) :
    u.addSmall (bucket cfg u k) d = t.addSmall (bucket cfg t k) d ∨
      u.addSmall (bucket cfg u k) d = t.bucketCount + t.addSmall (bucket cfg t k) d := by
  have hpos := t.bucketCount_pos
  unfold Table.addSmall Circle.step bucket
  rw [Table.bucketIx_eq_mod, Table.bucketIx_eq_mod, h.bucketCount, Nat.mod_add_mod, Nat.mod_add_mod]
  generalize (cfg.hf k).toNat + d = x
  rw [Nat.mul_comm 2, Nat.mod_mul]
  have hbit : x / t.bucketCount % 2 < 2 := Nat.mod_lt _ (by decide)
  interval_cases hb : x / t.bucketCount % 2
  · left
    omega
  · right
    omega

omit [DecidableEq κ] in
theorem Roomy.doubled {k : κ} {t' : Table K V} (h : Roomy cfg t k) (hcount : t'.bucketCount = t.bucketCount)
    (hfail : (t' = t ∧ ∀ b, b < t.bucketCount → t.state b = .inUse) ∨
      ∃ d, NearestFree t' (bucket cfg t k) d ∧ (Near t (bucket cfg t k) → d < 2 ^ 32))
    (hdouble : Doubled t' u) : Roomy cfg u k := by
  have hhome : bucket cfg t' k = bucket cfg t k := bucket_congr hcount k
  right
  rcases hfail with ⟨rfl, hfull⟩ | ⟨d, hnear, hd⟩
  · -- a full table is small, and the enlarged one is at most half full
    have hsmall : t'.bucketCount ≤ 2 ^ 31 := by
      refine h.resolve_right ?_
      rintro ⟨d, -, hfree⟩
      rw [hfull _ (t'.addSmall_lt (bucket_lt cfg t' k))] at hfree
      cases hfree
    have hlt := bucket_lt cfg t' k
    have hzero : t'.addSmall (bucket cfg t' k) 0 = bucket cfg t' k := Circle.step_zero hlt
    have hround : t'.addSmall (bucket cfg t' k) t'.bucketCount = bucket cfg t' k :=
      Circle.step_self hlt
    have h₀ := hdouble.addSmall cfg k 0
    have hN := hdouble.addSmall cfg k t'.bucketCount
    have hne : u.addSmall (bucket cfg u k) 0 ≠ u.addSmall (bucket cfg u k) t'.bucketCount := by
      intro heq
      have hpos := t'.bucketCount_pos
      have hu := hdouble.bucketCount
      have := Circle.step_inj (bucket_lt cfg u k) (by omega) (by omega) heq
      omega
    rw [hzero] at h₀
    rw [hround] at hN
    have hpair : ∀ b, b = bucket cfg t' k ∨ b = t'.bucketCount + bucket cfg t' k →
        b = u.addSmall (bucket cfg u k) 0 ∨ b = u.addSmall (bucket cfg u k) t'.bucketCount := by
      intro b hb
      omega
    rcases hdouble.half _ hlt with hfree | hfree
    · rcases hpair _ (Or.inl rfl) with heq | heq
      · exact ⟨0, by omega, heq ▸ hfree⟩
      · exact ⟨_, by omega, heq ▸ hfree⟩
    · rcases hpair _ (Or.inr rfl) with heq | heq
      · exact ⟨0, by omega, heq ▸ hfree⟩
      · exact ⟨_, by omega, heq ▸ hfree⟩
  · refine ⟨d, hd h.near, ?_⟩
    rw [← hhome] at hnear
    obtain ⟨hsenior, hjunior⟩ :=
      hdouble.free _ (t'.addSmall_lt (bucket_lt cfg t' k)) hnear.free
    rcases hdouble.addSmall cfg k d with heq | heq
    · rw [heq]
      exact hsenior
    · rw [heq]
      exact hjunior

/-- What a call of `emplace` on a well-formed table for `m` has done when it returns. -/
structure Emplaced (cfg : Config K κ V) (t : Table K V) (m : KeyMap κ V) (args : Nat → K × V)
    (k : κ) (r : Nat × Bool) (w : HopHash K V) : Prop where
  log : freedHead w.log = none
  present : k ∈ m → r.2 = false ∧ w.table = t ∧ cfg.key (t.value r.1).1 = k
  absent : k ∉ m → r.2 = true ∧ (Roomy cfg t k →
    ∃ j, w.table.value r.1 = args j ∧ WellFormed cfg w.table (m.insert k (args j).2))

theorem emplaceFrom_present [Inhabited K] [Inhabited V] (args : Nat → K × V) {k : κ}
    {E : Exc → HopHash K V → Prop} (hkey : ∀ j, cfg.key (args j).1 = k)
    (hC : ∀ l, freedHead l = none → C ⟨t, l⟩) {b : Nat}
    (hlocate : locateKey cfg t k (bucket cfg t k) = some b) (n j : Nat) (l : List (Step K V))
    (hl : freedHead l = none) : Sat (emplaceFrom cfg args (n + 1) j) ⟨t, l⟩ C
      (fun r w' => r = (b, false) ∧ w'.table = t ∧ freedHead w'.log = none) E := by
  unfold emplaceFrom
  dsimp only
  rw [hkey j]
  refine sat_call_bind (hC l hl) (sat_getTable_bind (sat_call_bind (hC _ rfl) ?_))
  dsimp only
  rw [Represents.alreadyPresent_eq_locateFrom]
  unfold locateKey at hlocate
  rw [hlocate]
  exact sat_call_bind (hC _ rfl) (sat_call_bind (hC _ rfl) (Sat.pure (hC _ rfl) ⟨rfl, rfl, rfl⟩))

section

variable [Inhabited K] [Inhabited V] {args : Nat → K × V} {k : κ} (hkey : ∀ j, cfg.key (args j).1 = k)
  (hC : ∀ w, (Roomy cfg t k → Recoverable cfg w.table m ∨ ∃ j, Recoverable cfg w.table (m.insert k (args j).2)) →
    Live w → Segmented w.table → C w) (hwf : WellFormed cfg t m)
include hkey hC hwf

theorem emplaceFrom_sat {n : Nat} (hn : segmentCapacity < t.segmentCountNotStable + n) (j : Nat)
    (l : List (Step K V)) (hl : freedHead l = none) : Sat (emplaceFrom cfg args n j) ⟨t, l⟩ C (Emplaced cfg t m args k)
      (fun e w' => e.noNearEmptyBucket = true ∧ WellFormed cfg w'.table m ∧ freedHead w'.log = none ∧
        (cfg.autoResize = true → w'.table.segmentCountNotStable = segmentCapacity)) := by
  induction n generalizing t j l with
  | zero =>
    have := hwf.count_le
    omega
  | succ n ih =>
    have hCt : ∀ l, freedHead l = none → C ⟨t, l⟩ := fun l hl =>
      hC _ (fun _ => Or.inl (Or.inl hwf.repairable)) (hwf.live hl) hwf.toSettled.segmented
    cases hlocate : locateKey cfg t k (bucket cfg t k) with
    | some b =>
      obtain ⟨p, -, -, hb, hlookup⟩ := hwf.represents.locateKey_eq_some hlocate
      have hmem : k ∈ m := Finmap.mem_of_lookup_eq_some hlookup
      refine (emplaceFrom_present args hkey hCt hlocate n j l hl).post ?_
      rintro r w' ⟨rfl, htable, hlog⟩
      exact ⟨hlog, fun _ => ⟨rfl, htable, hb⟩, fun hnew => absurd hmem hnew⟩
    | none =>
      have hnew : cfg.key (args j).1 ∉ m := by
        rw [hkey]
        exact hwf.represents.locateKey_eq_none hlocate
      unfold emplaceFrom
      dsimp only
      rw [hkey j]
      refine sat_call_bind (hCt l hl) (sat_getTable_bind (sat_call_bind (hCt _ rfl) ?_))
      dsimp only
      rw [Represents.alreadyPresent_eq_locateFrom]
      unfold locateKey at hlocate
      rw [hlocate]
      refine Sat.handle (Sat.bind ((emplaceNew_sat (fun w hrep hlive hseg => ?_) hwf
        (congrArg (bucket cfg t) (hkey j)) hnew _ rfl).imp ?_ ?_))
      · refine hC w (fun hroomy => ?_) hlive hseg
        rcases hrep hroomy.near with hold | hins
        · exact Or.inl (Or.inl hold)
        · rw [hkey] at hins
          exact Or.inr ⟨j, Or.inl hins⟩
      · rintro dst ⟨u, lu⟩ ⟨hlu, -, hsegu, hvalue, hstable, hwfu⟩
        rw [hkey] at hwfu hnew
        have hCu : ∀ l, freedHead l = none → C ⟨u, l⟩ := fun l hl =>
          hC _ (fun hroomy => Or.inr ⟨j, Or.inl (hwfu hroomy.near).repairable⟩)
            (Live.of_stable hstable hl) hsegu
        exact sat_call_bind (hCu lu hlu) (sat_call_bind (hCu _ rfl) (Sat.pure (hCu _ rfl)
          ⟨rfl, fun hmem => absurd hmem hnew, fun _ => ⟨rfl, fun hroomy =>
            ⟨j, hvalue, hwfu hroomy.near⟩⟩⟩))
      · rintro e ⟨u, lu⟩ ⟨he, hwfu, hlu, hcount, hfail⟩
        have hCu : ∀ l, freedHead l = none → C ⟨u, l⟩ := fun l hl =>
          hC _ (fun _ => Or.inl (Or.inl hwfu.repairable)) (hwfu.live hl) hwfu.toSettled.segmented
        have hN : u.bucketCount = t.bucketCount := Table.bucketCount_congr hcount
        have hsame : u.segmentCountNotStable = t.segmentCountNotStable :=
          congrArg (valueNotStable 1) hcount
        refine sat_call_bind (hCu lu hlu) (sat_getTable_bind ?_)
        split
        · rename_i hresize
          have hCr : ∀ w, Recoverable cfg w.table m → Live w → C w :=
            fun w hrec hlive => hC w (fun _ => Or.inl hrec) hlive hrec.segmented
          refine Sat.bind ((resize_sat hCr hwfu hresize.2.2 _ rfl).imp ?_ (fun _ _ h => h.elim))
          rintro - ⟨v, lv⟩ ⟨hwfv, hlv, hdouble⟩
          have hroomyv : Roomy cfg t k → Roomy cfg v k :=
            fun hroomy => hroomy.doubled hN hfail hdouble
          refine sat_call_bind (hCr _ (Or.inl hwfv.repairable) (hwfv.live hlv)) ?_
          rw [hkey] at hnew
          refine (ih (fun w hrep hlive => hC w (fun hroomy => hrep (hroomyv hroomy)) hlive) hwfv ?_ (j + 1) _ rfl).post ?_
          · have hnext : v.segmentCountNotStable = u.segmentCountNotStable + 1 := hdouble.count
            omega
          · rintro r w' ⟨hlog, hpresent, habsent⟩
            refine ⟨hlog, fun hmem => absurd hmem hnew, fun _ => ?_⟩
            obtain ⟨hr, hins⟩ := habsent hnew
            exact ⟨hr, fun hroomy => hins (hroomyv hroomy)⟩
        · rename_i hresize
          refine sat_call_bind (hCu _ rfl) (Sat.fail (hCu _ rfl) ⟨he, hwfu, rfl, fun hauto => ?_⟩)
          have hle := hwfu.count_le
          by_contra hne
          exact hresize ⟨he, hauto, Nat.lt_of_le_of_ne hle hne⟩

variable (args) in
theorem emplace_sat (l : List (Step K V)) (hl : freedHead l = none) :
    Sat (emplace cfg args) ⟨t, l⟩ C (Emplaced cfg t m args k)
      (fun e w' => e.noNearEmptyBucket = true ∧ WellFormed cfg w'.table m ∧ freedHead w'.log = none ∧
        (cfg.autoResize = true → w'.table.segmentCountNotStable = segmentCapacity)) := by
  have hpos := hwf.count_pos
  exact emplaceFrom_sat hkey hC hwf (by omega) 0 l hl

end

end Comanche.Hstore
