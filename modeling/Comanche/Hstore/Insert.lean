import Comanche.Hstore.WellFormed

/-!
# Finding a bucket for a new element

The search for a free bucket, the displacements, and the stores that enter the element.
-/

namespace Comanche.Hstore

open Lib ValueUnstable
open Function (update update_idem update_of_ne update_self)

section Live

variable {K V : Type}

def freedHead : List (Step K V) → Option Nat
  | .write (.state src .free) :: .write (.size _) :: _ => some src
  | _ => none

def ClaimsLive (t : Table K V) : Prop :=
  ∀ b, Claimed t b → ∃ b', b' < t.bucketCount ∧ t.state b' = .inUse ∧ t.value b' = t.value b

structure JustFreed (t : Table K V) (src : Nat) : Prop where
  claimed : Claimed t src
  state : t.state src = .free
  others : ∀ b, Claimed t b → b ≠ src → t.state b = .inUse
  unstable : isStable 8 t.sizeControl = false

/-- While the size is unstable the claimed contents are in use, unless a displacement has just
freed one. -/
structure Live (w : HopHash K V) : Prop where
  count : isStable 8 w.table.sizeControl = false →
    isStable 1 w.table.segmentCountActual = true
  claims : isStable 8 w.table.sizeControl = false → freedHead w.log = none →
    ClaimsLive w.table
  freed : ∀ src, freedHead w.log = some src → JustFreed w.table src

variable {t : Table K V}

theorem Live.of_stable {l : List (Step K V)}
    (h : isStable 8 t.sizeControl = true) (hl : freedHead l = none) : Live ⟨t, l⟩ := by
  refine ⟨fun hun => ?_, fun hun => ?_, fun src hsrc => ?_⟩
  · rw [show (HopHash.mk t l).table = t from rfl, h] at hun
    cases hun
  · rw [show (HopHash.mk t l).table = t from rfl, h] at hun
    cases hun
  · rw [show (HopHash.mk t l).log = l from rfl, hl] at hsrc
    cases hsrc

theorem Live.of_claimsLive {l : List (Step K V)}
    (hcount : isStable 1 t.segmentCountActual = true) (h : ClaimsLive t)
    (hl : freedHead l = none) : Live ⟨t, l⟩ := by
  refine ⟨fun _ => hcount, fun _ _ => h, fun src hsrc => ?_⟩
  rw [show (HopHash.mk t l).log = l from rfl, hl] at hsrc
  cases hsrc

theorem claimsLive_of_inUse (h : ∀ b, Claimed t b → t.state b = .inUse) : ClaimsLive t :=
  fun b hb => ⟨b, hb.lt, h b hb, rfl⟩

end Live

section Copy

variable {K κ V : Type} {cfg : Config K κ V} {t : Table K V} {C : HopHash K V → Prop}

theorem Table.apply_value_value (t : Table K V) (i : Nat) (kv kv' : K × V) :
    (t.apply (.value i kv)).apply (.value i kv') = t.apply (.value i kv') := by
  unfold Table.apply
  simp only [update_idem]

theorem contentCopy_sat {E : Exc → HopHash K V → Prop} (i : Nat) (kv : K × V)
    (l : List (Step K V)) (hl : freedHead l = none) (hC : ∀ l', freedHead l' = none → C ⟨t, l'⟩)
    (hC' : ∀ x l', freedHead l' = none → C ⟨t.apply (.value i x), l'⟩) : Sat (contentCopy cfg i kv) ⟨t, l⟩ C
      (fun _ w' => w'.table = t.apply (.value i kv) ∧ freedHead w'.log = none) E := by
  refine sat_getTable_bind (Sat.bind ?_)
  have himages := Sat.emitAll (ε := Exc) (E := E) (C := C) (s := (⟨t, l⟩ : HopHash K V))
    (l := (cfg.images (t.value i) kv).map fun x => Step.write (.value i x))
    (I := fun w => (w.table = t ∨ ∃ x, w.table = t.apply (.value i x)) ∧ freedHead w.log = none)
    ⟨Or.inl rfl, hl⟩ ?_ ?_
  · refine himages.imp (fun _ w' hw' => ?_) (fun _ _ h => h)
    have hlast : w'.table.apply (.value i kv) = t.apply (.value i kv) := by
      rcases hw'.1 with heq | ⟨x, heq⟩
      · rw [heq]
      · rw [heq, Table.apply_value_value]
    have hstart : C w' := by
      obtain ⟨table, log⟩ := w'
      obtain ⟨rfl | ⟨x, rfl⟩, hlog⟩ := hw'
      · exact hC log hlog
      · exact hC' x log hlog
    refine sat_write_bind hstart (sat_call ?_ ?_ ⟨hlast, rfl⟩)
    · rw [hlast]
      exact hC' kv _ rfl
    · rw [hlast]
      exact hC' kv _ rfl
  · rintro ⟨table, log⟩ ⟨rfl | ⟨x, rfl⟩, hlog⟩
    · exact hC log hlog
    · exact hC' x log hlog
  · intro x hx w hw
    obtain ⟨y, -, rfl⟩ := List.mem_map.mp hx
    refine ⟨Or.inr ⟨y, ?_⟩, rfl⟩
    change w.table.apply (.value i y) = t.apply (.value i y)
    rcases hw.1 with heq | ⟨z, heq⟩
    · rw [heq]
    · rw [heq, Table.apply_value_value]

end Copy

variable {K κ V : Type} [DecidableEq κ]

/-- The constructor makes a well-formed table for `m` of this one without finishing a resize. -/
def Repairable (cfg : Config K κ V) (t : Table K V) (m : KeyMap κ V) : Prop :=
  Settled cfg t m ∧ (isStable 8 t.sizeControl = false ∨ WellFormed cfg t m)

variable {cfg : Config K κ V} {t t' : Table K V} {m : KeyMap κ V}

theorem WellFormed.repairable (h : WellFormed cfg t m) : Repairable cfg t m :=
  ⟨h.toSettled, Or.inr h⟩

theorem WellFormed.isStable (h : WellFormed cfg t m) : isStable 8 t.sizeControl = true := by
  rw [h.size_eq]
  exact isStable_valueSetStable 8 _

theorem Settled.isStable_count (h : Settled cfg t m) : isStable 1 t.segmentCountActual = true := by
  rw [h.count]
  exact isStable_valueSetStable 1 _

def Segmented (t : Table K V) : Prop := ∀ i, i < segmentsUsed t → t.segment i = true

theorem Settled.segmented (h : Settled cfg t m) : Segmented t := by
  intro i hi
  unfold segmentsUsed at hi
  rw [h.isStable_count] at hi
  exact h.segment i hi

theorem Segmented.congr (h : Segmented t) (hcount : t'.segmentCountActual = t.segmentCountActual)
    (hseg : t'.segment = t.segment) : Segmented t' := by
  unfold Segmented segmentsUsed Table.segmentCountNotStable at *
  rw [hcount, hseg]
  exact h

theorem WellFormed.live (h : WellFormed cfg t m) {l : List (Step K V)} (hl : freedHead l = none) :
    Live ⟨t, l⟩ := Live.of_stable h.isStable hl

section Steps

variable {C : HopHash K V → Prop} {d : Nat}

/-- The bucket `d` places past `start` is the first free one from there on. -/
structure NearestFree (t : Table K V) (start d : Nat) : Prop where
  lt : d < t.bucketCount
  free : t.state (t.addSmall start d) = .free
  used : ∀ d', d' < d → t.state (t.addSmall start d') = .inUse

variable {d start n q own bi : Nat} {kv : K × V}

theorem NearestFree.unique {d' : Nat} (h : NearestFree t start d) (h' : NearestFree t start d') : d = d' := by
  rcases Nat.lt_trichotomy d d' with hlt | heq | hgt
  · have hused := h'.used d hlt
    rw [h.free] at hused
    cases hused
  · exact heq
  · have hused := h.used d' hgt
    rw [h'.free] at hused
    cases hused

section

variable (hC : ∀ l, freedHead l = none → C ⟨t, l⟩) (hstart : start < t.bucketCount)
include hC hstart

theorem nearestFreeFrom_sat (hd : d < t.bucketCount) (hn : d + n = t.bucketCount)
    (hused : ∀ d', d' < d → t.state (t.addSmall start d') = .inUse) (l : List (Step K V)) (hl : freedHead l = none) :
    Sat (nearestFreeFrom start n (t.addSmall start d)) ⟨t, l⟩ C (fun b w' => w'.table = t ∧ freedHead w'.log = none ∧
        ∃ f, b = t.addSmall start f ∧ NearestFree t start f)
      (fun e w' => e = .hopHashFull ∧ w'.table = t ∧ freedHead w'.log = none ∧
        ∀ b, b < t.bucketCount → t.state b = .inUse) := by
  induction n generalizing d l with
  | zero => omega
  | succ n ih =>
    unfold nearestFreeFrom
    refine sat_getTable_bind ?_
    split
    · rename_i hfree
      rw [Table.isFree_eq_true_iff] at hfree
      exact Sat.pure (hC l hl) ⟨rfl, hl, d, rfl, hd, hfree, hused⟩
    · rename_i hfree
      rw [Bool.not_eq_true, Table.isFree_eq_false_iff] at hfree
      have hused' : ∀ d', d' < d + 1 → t.state (t.addSmall start d') = .inUse := by
        intro d' hd'
        by_cases heq : d' = d
        · rw [heq]
          exact hfree
        · exact hused d' (by omega)
      have hnext : t.incrWithWrap (t.addSmall start d) = t.addSmall start (d + 1) :=
        Circle.step_step
      refine sat_call_bind (hC l hl) (sat_call_bind (hC _ rfl) ?_)
      rw [hnext]
      by_cases hlast : d + 1 = t.bucketCount
      · -- the search has come round to where it started
        have hround : t.addSmall start (d + 1) = start := by
          rw [hlast]
          exact Circle.step_self hstart
        rw [if_pos hround]
        refine sat_call_bind (hC _ rfl) (Sat.fail (hC _ rfl) ⟨rfl, rfl, rfl, fun b hb => ?_⟩)
        have hdist := Circle.dist_lt hstart hb
        rw [← Circle.step_dist hstart hb]
        exact hused' _ (by omega)
      · have hround : ¬ t.addSmall start (d + 1) = start := by
          intro heq
          have hzero : t.addSmall start (d + 1) = t.addSmall start 0 := by
            rw [heq]
            exact (Circle.step_zero hstart).symm
          have := Circle.step_inj hstart (by omega) t.bucketCount_pos hzero
          omega
        rw [if_neg hround]
        exact ih (by omega) (by omega) hused' _ rfl

theorem nearestFreeBucket_sat (l : List (Step K V)) (hl : freedHead l = none) :
    Sat (nearestFreeBucket start) ⟨t, l⟩ C (fun b w' => w'.table = t ∧ freedHead w'.log = none ∧
        ∃ f, b = t.addSmall start f ∧ NearestFree t start f)
      (fun e w' => e = .hopHashFull ∧ w'.table = t ∧ freedHead w'.log = none ∧
        ∀ b, b < t.bucketCount → t.state b = .inUse) := by
  refine sat_getTable_bind (sat_call_bind (hC l hl) ?_)
  have hzero : t.addSmall start 0 = start := Circle.step_zero hstart
  have h := nearestFreeFrom_sat hC hstart t.bucketCount_pos (Nat.zero_add _)
    (fun d' hd' => by omega) (.call (.lockContent start) :: l) rfl
  rwa [hzero] at h

end

theorem seekOwner_sat (hC : ∀ l, freedHead l = none → C ⟨t, l⟩) (ones : BitVec 64) {dst : Nat}
    (hdst : dst < t.bucketCount) (hq : q < 64) (l : List (Step K V)) (hl : freedHead l = none) :
    Sat (seekOwner dst (q + 1) (t.subtractSmall dst q) (ones >>> (63 - q))) ⟨t, l⟩ C
      (fun r w' => w'.table = t ∧ freedHead w'.log = none ∧ ∃ q' ≤ q,
        r = (t.subtractSmall dst q', ones >>> (63 - q')) ∧ (q' ≠ 0 → t.owner r.1 &&& r.2 ≠ 0#64) ∧
          ∀ q'', q' < q'' → q'' ≤ q → t.owner (t.subtractSmall dst q'') &&& ones >>> (63 - q'') = 0#64)
      (fun _ _ => False) := by
  have hN := t.le_bucketCount
  induction q generalizing l with
  | zero =>
    unfold seekOwner
    refine sat_getTable_bind ?_
    have hself : t.subtractSmall dst 0 = dst := Circle.back_zero hdst
    rw [hself, if_neg (fun h => h.1 rfl)]
    exact Sat.pure (hC l hl) ⟨rfl, hl, 0, le_rfl, by rw [hself], fun h => absurd rfl h, fun q'' _ _ => by omega⟩
  | succ q ih =>
    unfold seekOwner
    refine sat_getTable_bind ?_
    split
    · rename_i hnone
      have hnext : t.incrWithWrap (t.subtractSmall dst (q + 1)) = t.subtractSmall dst q :=
        Circle.step_back_of_le (by omega) (by omega)
      have hmask : (ones >>> (63 - (q + 1))) >>> 1 = ones >>> (63 - q) := by
        rw [← BitVec.shiftRight_add]
        congr 1
        omega
      rw [hnext, hmask]
      refine sat_call_bind (hC l hl) (sat_call_bind (hC _ rfl) ((ih (by omega) _ rfl).post ?_))
      rintro r w' ⟨htable, hlog, q', hq', hr, hne, hzero⟩
      refine ⟨htable, hlog, q', by omega, hr, hne, fun q'' hlt hle => ?_⟩
      rcases Nat.le_succ_iff.mp hle with hle | rfl
      · exact hzero q'' hlt hle
      · exact hnone.2
    · rename_i hfound
      refine Sat.pure (hC l hl) ⟨rfl, hl, q + 1, le_rfl, rfl, fun _ hzero => ?_, fun q'' _ _ => by omega⟩
      refine hfound ⟨fun hself => ?_, hzero⟩
      have := (Circle.back_eq_self_iff hdst (by omega)).mp hself
      omega

theorem Settled.apply_move (h : Settled cfg t m) {p : Nat} (hp : Claims t own p)
    (hq : q < 64) (hcopy : entry t own q = entry t own p) (hpq : p ≠ q)
    (hstates : ∀ b, b < t.bucketCount → (t.state b = .inUse ↔
      (Claimed t b ∧ b ≠ t.addSmall own p) ∨ b = t.addSmall own q)) :
    Settled cfg (t.apply (.owner own (Owner.move (t.owner own) q p))) m ∧
      StatesAgree (t.apply (.owner own (Owner.move (t.owner own) q p))) := by
  obtain ⟨hrep, hclaimed⟩ := h.represents.move hp hq hcopy hpq
  exact ⟨h.of_represents hrep rfl rfl, fun b hb => (hstates b hb).trans (hclaimed b).symm⟩

theorem displace_sat (hC : ∀ w, Repairable cfg w.table m → Live w → C w)
    (hwf : WellFormed cfg t m) {p : Nat} (hp : Claims t own p) (hq : q < 64)
    (hfree : t.state (t.addSmall own q) = .free) (l : List (Step K V)) (hl : freedHead l = none) :
    Sat (displace cfg own (t.addSmall own p) (t.addSmall own q) p) ⟨t, l⟩ C
      (fun _ w' => WellFormed cfg w'.table m ∧ freedHead w'.log = none ∧
        w'.table.segmentCountActual = t.segmentCountActual ∧
        w'.table.state = update (update t.state (t.addSmall own p) .free)
          (t.addSmall own q) .inUse) (fun _ _ => False) := by
  have hN := t.le_bucketCount
  generalize hsrc : t.addSmall own p = src
  generalize hdst : t.addSmall own q = dst at hfree
  have hsrcClaimed : Claimed t src := hsrc ▸ hp.claimed
  have hdstClaimed : ¬ Claimed t dst := (hwf.free_iff (hdst ▸ t.addSmall_lt hp.1)).mp hfree
  have hne : src ≠ dst := fun heq => hdstClaimed (heq ▸ hsrcClaimed)
  have hpq : p ≠ q := fun heq => hne (by rw [← hsrc, ← hdst, heq])
  have hstable := hwf.isStable
  have hcount := hwf.toSettled.isStable_count
  have hunstable := hwf.isStable_destabilize
  have hinUse : ∀ b, Claimed t b → t.state b = .inUse := fun b hb => (hwf.states b hb.lt).mpr hb
  refine sat_getTable_bind (Sat.bind ((contentCopy_sat dst (t.value src) l hl
    (fun l' hl' => hC _ hwf.repairable (hwf.live hl'))
    (fun x l' hl' => hC _ (hwf.apply_value hdstClaimed x).repairable ((hwf.apply_value hdstClaimed x).live hl'))).post ?_))
  rintro - ⟨t₁, l₁⟩ ⟨ht₁, hl₁⟩
  subst ht₁
  have hwf₁ := hwf.apply_value hdstClaimed (t.value src)
  -- the size is unstable until the owner has its new word and both states agree with it
  have hset₂ := hwf₁.toSettled.apply_size (destabilize t.sizeControl)
  have hset₃ := hset₂.apply_state src .free
  have hset₄ := hset₃.apply_state dst .inUse
  refine sat_sizeUpdate_bind (hC _ hwf₁.repairable (hwf₁.live hl₁)) ?_
  refine sat_write_bind (hC _ ⟨hset₂, Or.inl hunstable⟩ (Live.of_claimsLive hcount (claimsLive_of_inUse hinUse) rfl)) ?_
  refine sat_write_bind (hC _ ⟨hset₃, Or.inl hunstable⟩ ⟨fun _ => hcount, nofun, ?_⟩) ?_
  · -- the one point where a claimed content is marked FREE and has no copy in use
    rintro _ ⟨⟩
    refine ⟨hsrcClaimed, update_self _ _ _, fun b hb hbsrc => ?_, hunstable⟩
    exact (update_of_ne hbsrc _ _).trans (hinUse b hb)
  refine sat_write_bind (hC _ ⟨hset₄, Or.inl hunstable⟩ (Live.of_claimsLive hcount (fun b hb => ?_) rfl)) ?_
  · by_cases hbsrc : b = src
    · refine ⟨dst, hdst ▸ t.addSmall_lt hp.1, update_self _ _ _, ?_⟩
      change update t.value dst (t.value src) dst = update t.value dst (t.value src) b
      rw [update_self, hbsrc, update_of_ne hne]
    · have hbdst : b ≠ dst := fun heq => hdstClaimed (heq ▸ hb)
      refine ⟨b, Claimed.lt hb, ?_, rfl⟩
      change update (update t.state src .free) dst .inUse b = .inUse
      rw [update_of_ne hbdst, update_of_ne hbsrc]
      exact hinUse b hb
  have hdist : t.distanceWrapped own dst = q := by
    rw [Table.distanceWrapped_eq, ← hdst, Table.addSmall, Circle.dist_step hp.1 (by omega), Nat.mod_eq_of_lt (by omega)]
  rw [hdist]
  obtain ⟨hset₅, hstates₅⟩ := hset₄.apply_move (p := p) (q := q) hp hq (by
      change update t.value dst (t.value src) (t.addSmall own q) = update t.value dst (t.value src) (t.addSmall own p)
      rw [hsrc, hdst, update_self, update_of_ne hne]) hpq (fun b hb => by
    change update (update t.state src .free) dst .inUse b = .inUse ↔
      (Claimed t b ∧ b ≠ t.addSmall own p) ∨ b = t.addSmall own q
    rw [hsrc, hdst]
    by_cases hbdst : b = dst
    · simp [hbdst]
    · rw [update_of_ne hbdst]
      by_cases hbsrc : b = src
      · simp [hbsrc, hne]
      · rw [update_of_ne hbsrc, hwf.states b hb]
        simp [hbsrc, hbdst])
  have hlive₅ := claimsLive_of_inUse fun b hb => (hstates₅ b hb.lt).mpr hb
  -- the content at `src` was marked FREE before, so that nothing is left to erase
  refine Sat.bind (sat_getTable_bind (Sat.when (fun hstate => ?_) fun _ => ⟨?_, ?_⟩))
  · refine absurd ?_ hstate
    change update (update t.state src .free) dst .inUse src = .free
    rw [update_of_ne hne, update_self]
  · exact hC _ ⟨hset₅, Or.inl hunstable⟩ (Live.of_claimsLive hcount hlive₅ rfl)
  have hwf₆ := WellFormed.mk (hset₅.apply_size (stabilize
    (destabilize t.sizeControl))) hstates₅ hwf.size_eq
  exact sat_sizeUpdate (hC _ ⟨hset₅, Or.inl hunstable⟩ (Live.of_claimsLive hcount hlive₅ rfl))
    (hC _ hwf₆.repairable (hwf₆.live rfl)) ⟨hwf₆, rfl, rfl, rfl⟩

/-- What holds of the nearest free bucket `d` places past `bi`, before and after any number of
displacements. -/
structure Searching (cfg : Config K κ V) (m : KeyMap κ V) (count bi d : Nat) (w : HopHash K V) :
    Prop where
  wellFormed : WellFormed cfg w.table m
  log : freedHead w.log = none
  count_eq : w.table.segmentCountActual = count
  nearest : NearestFree w.table bi d

theorem Table.bucketCount_congr {t t' : Table K V}
    (h : t'.segmentCountActual = t.segmentCountActual) : t'.bucketCount = t.bucketCount := by
  unfold Table.bucketCount Table.segmentCountNotStable
  rw [h]

theorem eligible_lt {ones : BitVec 64} {dst : Nat} (hwf : WellFormed cfg t m)
    (hown : own < t.bucketCount) (hdst : t.addSmall own q = dst) (hfree : t.state dst = .free)
    (hq : q < 64) (hfound : t.owner own &&& ones >>> (63 - q) ≠ 0#64) :
    Claims t own (Owner.rightmostOnePos (t.owner own &&& ones >>> (63 - q))) ∧
      Owner.rightmostOnePos (t.owner own &&& ones >>> (63 - q)) < q := by
  obtain ⟨-, hbit⟩ := Owner.rightmostOnePos_spec hfound
  generalize Owner.rightmostOnePos (t.owner own &&& ones >>> (63 - q)) = p at hbit ⊢
  rw [BitVec.getLsbD_and, Bool.and_eq_true, BitVec.getLsbD_ushiftRight] at hbit
  obtain ⟨howner, heligible⟩ := hbit
  have hc : Claims t own p := ⟨hown, howner⟩
  have hle : 63 - q + p < 64 := by
    by_contra hge
    rw [BitVec.getLsbD_of_ge _ _ (by omega)] at heligible
    cases heligible
  have hne : p ≠ q := by
    rintro rfl
    rw [hwf.free_iff (hdst ▸ t.addSmall_lt hown), ← hdst] at hfree
    exact hfree hc.claimed
  exact ⟨hc, by omega⟩

/-- The element `p` places past `own` may move to the nearest free bucket, `q` places past it. -/
structure Hop (t : Table K V) (bi d own p q : Nat) : Prop where
  home : bi < t.bucketCount
  nearest : NearestFree t bi d
  far : 64 ≤ d
  lt : p < q
  lt_size : q < 64
  claims : Claims t own p
  own_eq : own = t.addSmall bi (d - q)
  dst_eq : t.addSmall own q = t.addSmall bi d
  src_eq : t.addSmall own p = t.addSmall bi (d - (q - p))

theorem movable_spec {ones : BitVec 64} (hwf : WellFormed cfg t m)
    (hbi : bi < t.bucketCount) (hnear : NearestFree t bi d) (hfar : 64 ≤ d) (hq : q < 64)
    (hfound : t.owner (t.subtractSmall (t.addSmall bi d) q) &&& ones >>> (63 - q) ≠ 0#64) :
    ∃ p, Owner.rightmostOnePos (t.owner (t.subtractSmall (t.addSmall bi d) q) &&& ones >>> (63 - q)) = p ∧
      Hop t bi d (t.subtractSmall (t.addSmall bi d) q) p q := by
  have hN := t.le_bucketCount
  have hd := hnear.lt
  have hdst : t.addSmall bi d < t.bucketCount := t.addSmall_lt hbi
  have hback : t.addSmall (t.subtractSmall (t.addSmall bi d) q) q = t.addSmall bi d :=
    Circle.step_back hdst (by omega)
  have hown : t.subtractSmall (t.addSmall bi d) q < t.bucketCount := Circle.back_lt hdst
  obtain ⟨hclaim, hp⟩ := eligible_lt hwf hown hback hnear.free hq hfound
  obtain ⟨p, hpos⟩ : ∃ p, Owner.rightmostOnePos
      (t.owner (t.subtractSmall (t.addSmall bi d) q) &&& ones >>> (63 - q)) = p := ⟨_, rfl⟩
  rw [hpos] at hclaim hp
  refine ⟨p, hpos, hbi, hnear, hfar, hp, hq, hclaim, Circle.back_step (by omega) (by omega), hback, ?_⟩
  unfold Table.addSmall Table.subtractSmall
  rw [Circle.step_back_of_le (by omega) (by omega), Circle.back_step (by omega) (by omega)]

theorem NearestFree.moved {u : Table K V} {f : Nat} (h : NearestFree t bi d)
    (hbi : bi < t.bucketCount) (hf : 1 ≤ f) (hfd : f ≤ d) (hN : u.bucketCount = t.bucketCount)
    (hstate : u.state = update (update t.state (t.addSmall bi (d - f)) .free) (t.addSmall bi d) .inUse) :
    NearestFree u bi (d - f) := by
  have hd := h.lt
  have hadd : ∀ g, u.addSmall bi g = t.addSmall bi g := by
    intro g
    unfold Table.addSmall
    rw [hN]
  have hinj : ∀ a b, a < t.bucketCount → b < t.bucketCount → a ≠ b → t.addSmall bi a ≠ t.addSmall bi b := by
    intro a b ha hb hne heq
    exact hne (Circle.step_inj hbi ha hb heq)
  refine ⟨by omega, ?_, fun d' hd' => ?_⟩
  · rw [hadd, hstate, update_of_ne (hinj _ _ (by omega) hd (by omega)), update_self]
  · rw [hadd, hstate, update_of_ne (hinj _ _ (by omega) hd (by omega)),
      update_of_ne (hinj _ _ (by omega) (by omega) (by omega))]
    exact h.used d' (by omega)

theorem makeSpaceForInsert_rule {I : Nat → HopHash K V → Prop} {J : Nat → Nat → HopHash K V → Prop}
    {S : HopHash K V → Prop} (hC : ∀ w, Repairable cfg w.table m → Live w → C w) {count : Nat}
    (hseek : ∀ t d l, WellFormed cfg t m → bi < t.bucketCount → NearestFree t bi d → 64 ≤ d % 2 ^ 32 → I d ⟨t, l⟩ →
      Sat (seekOwner (t.addSmall bi d) 64 (t.subtractSmall (t.addSmall bi d) 63) cfg.ones)
        ⟨t, .call (.lockOwner (t.subtractSmall (t.addSmall bi d) 63)) :: l⟩ (fun _ => True)
        (fun r w' => J d r.1 w') (fun _ _ => True)) (hmove : ∀ t d l own p q, Hop t bi d own p q →
      Owner.rightmostOnePos (t.owner own &&& cfg.ones >>> (63 - q)) = p → J d own ⟨t, l⟩ →
      Sat (displace cfg own (t.addSmall bi (d - (q - p))) (t.addSmall bi d) p)
        ⟨t, .call (.lockContent (t.addSmall bi (d - (q - p)))) :: l⟩ (fun _ => True)
        (fun _ w' => w'.table.bucketCount = t.bucketCount → I (d - (q - p)) ⟨w'.table,
          .call (.unlockOwner own) :: .call (.unlockContent (t.addSmall bi d)) :: w'.log⟩) (fun _ _ => True))
    (hstuck : ∀ t d l, J d (t.addSmall bi d) ⟨t, l⟩ → S ⟨t,
      .call (.unlockContent (t.addSmall bi d)) :: .call (.unlockOwner (t.addSmall bi d)) :: l⟩)
 (hbi : bi < t.bucketCount) (hn : d < n) (l : List (Step K V))
    (h : Searching cfg m count bi d ⟨t, l⟩) (hI : I d ⟨t, l⟩) :
    Sat (makeSpaceForInsert cfg bi n (t.addSmall bi d)) ⟨t, l⟩ C
      (fun b w' => ∃ d', d' ≤ d ∧ d' % 2 ^ 32 < 64 ∧ (2 ^ 32 ≤ d → 2 ^ 32 ≤ d') ∧
        b = w'.table.addSmall bi d' ∧ Searching cfg m count bi d' w' ∧ I d' w')
      (fun e w' => e = .moveStuck ∧ (∃ d', d' ≤ d ∧ Searching cfg m count bi d' w') ∧ S w') := by
  induction n generalizing t d l with
  | zero => omega
  | succ n ih =>
    obtain ⟨hwf, hl, hcount, hnear⟩ := h
    change WellFormed cfg t m at hwf
    change freedHead l = none at hl
    change NearestFree t bi d at hnear
    have hdst : t.addSmall bi d < t.bucketCount := t.addSmall_lt hbi
    have hCt : ∀ l, freedHead l = none → C ⟨t, l⟩ :=
      fun l hl => hC _ hwf.repairable (hwf.live hl)
    have hdist := t.distanceWrapped_addSmall hbi hnear.lt
    unfold makeSpaceForInsert
    refine sat_getTable_bind ?_
    rw [hdist]
    split
    · rename_i hclose
      exact Sat.pure (hCt l hl) ⟨d, le_rfl, hclose, id, rfl, ⟨hwf, hl, hcount, hnear⟩, hI⟩
    · rename_i hfar
      have hsize : Owner.size = 64 := rfl
      have hfar' : 64 ≤ d := by
        have := Nat.mod_le d (2 ^ 32)
        omega
      refine sat_call_bind (hCt l hl) (Sat.bind ?_)
      refine ((seekOwner_sat hCt cfg.ones hdst (by decide : 63 < 64) _ rfl).and
        (hseek t d l hwf hbi hnear (Nat.le_of_not_lt hfar) hI)).mono (fun _ h => h.1) ?_ (fun _ _ h => h.1.elim)
      rintro ⟨own, eligible⟩ ⟨t', l'⟩ ⟨⟨ht', hl', hfound⟩, hJ⟩
      change t' = t at ht'
      subst ht'
      change freedHead l' = none at hl'
      change J d own ⟨t', l'⟩ at hJ
      dsimp only
      by_cases hself : own = t'.addSmall bi d
      · -- no owner in reach has an element to move
        rw [if_pos hself]
        subst hself
        refine sat_call_bind (hCt l' hl') (sat_call_bind (hCt _ rfl) (Sat.fail (hCt _ rfl) ?_))
        exact ⟨rfl, ⟨d, le_rfl, hwf, rfl, hcount, hnear⟩, hstuck t' d l' hJ⟩
      · rw [if_neg hself]
        obtain ⟨q, hle, hown, hne, -⟩ := hfound
        cases hown
        have hq : q < 64 := by omega
        have hne := hne fun hzero => hself (by rw [hzero]; exact Circle.back_zero hdst)
        obtain ⟨p, hpos, hhop⟩ := movable_spec hwf hbi hnear hfar' hq hne
        rw [hpos]
        generalize t'.subtractSmall (t'.addSmall bi d) q = own at hhop hJ hpos ⊢
        refine sat_call_bind (hCt l' hl') (Sat.bind ?_)
        have hdone := displace_sat hC hwf hhop.claims hq (hhop.dst_eq ▸ hnear.free)
          (.call (.lockContent (t'.addSmall own p)) :: l') rfl
        rw [hhop.dst_eq, hhop.src_eq] at hdone
        rw [hhop.src_eq]
        refine (hdone.and (hmove t' d l' own p q hhop hpos hJ)).mono (fun _ h => h.1) ?_ (fun _ _ h => h.1.elim)
        rintro - ⟨u, lu⟩ ⟨⟨hwfu, hlu, hcountu, hstateu⟩, hIu⟩
        change WellFormed cfg u m at hwfu
        change u.segmentCountActual = t'.segmentCountActual at hcountu
        change u.state = _ at hstateu
        have hNu : u.bucketCount = t'.bucketCount := Table.bucketCount_congr hcountu
        have hp := hhop.lt
        have hnearu := hnear.moved hbi (by omega) (by omega) hNu hstateu
        have haddu : u.addSmall bi (d - (q - p)) = t'.addSmall bi (d - (q - p)) := by
          unfold Table.addSmall
          rw [hNu]
        have hCu : ∀ l, freedHead l = none → C ⟨u, l⟩ :=
          fun l hl => hC _ hwfu.repairable (hwfu.live hl)
        refine sat_call_bind (hCu lu hlu) (sat_call_bind (hCu _ rfl) ?_)
        rw [← haddu]
        refine (ih (hNu ▸ hbi) (by omega) _ ⟨hwfu, rfl, hcountu.trans hcount, hnearu⟩ (hIu hNu)).imp ?_ ?_
        · rintro b w' ⟨d', hd', hclose, hbig, hrest⟩
          -- a displacement brings the free bucket at most 63 places nearer
          have hstep : 2 ^ 32 ≤ d → 2 ^ 32 ≤ d - (q - p) := by omega
          exact ⟨d', by omega, hclose, hbig ∘ hstep, hrest⟩
        · rintro e w' ⟨he, ⟨d', hd', hrest⟩, hS⟩
          exact ⟨he, ⟨d', by omega, hrest⟩, hS⟩

theorem makeSpaceForInsert_sat (hC : ∀ w, Repairable cfg w.table m → Live w → C w)
    {count : Nat} (hbi : bi < t.bucketCount) (hn : d < n) (l : List (Step K V))
    (h : Searching cfg m count bi d ⟨t, l⟩) : Sat (makeSpaceForInsert cfg bi n (t.addSmall bi d)) ⟨t, l⟩ C
      (fun b w' => ∃ d', d' ≤ d ∧ d' % 2 ^ 32 < 64 ∧ b = w'.table.addSmall bi d' ∧ Searching cfg m count bi d' w')
      (fun e w' => e = .moveStuck ∧ ∃ d', d' ≤ d ∧ Searching cfg m count bi d' w') := by
  refine (makeSpaceForInsert_rule (I := fun _ _ => True) (J := fun _ _ _ => True)
    (S := fun _ => True) hC (fun _ _ _ _ _ _ _ _ => ?_) (fun _ _ _ _ _ _ _ _ _ => ?_)
    (fun _ _ _ _ => trivial) hbi hn l h trivial).imp ?_ ?_
  · exact (Sat.final _ _).imp (fun _ _ _ => trivial) (fun _ _ _ => trivial)
  · exact (Sat.final _ _).imp (fun _ _ _ _ => trivial) (fun _ _ _ => trivial)
  · rintro b w' ⟨d', hd', hclose, -, hb, hs, -⟩
    exact ⟨d', hd', hclose, hb, hs⟩
  · rintro e w' ⟨he, hs, -⟩
    exact ⟨he, hs⟩

theorem KeyMap.card_insert {k : κ} (hk : k ∉ m) (v : V) : (m.insert k v).keys.card = m.keys.card + 1 := by
  have hkeys : (m.insert k v).keys = Insert.insert k m.keys := by
    ext a
    rw [Finmap.mem_keys, Finmap.mem_insert, Finset.mem_insert, Finmap.mem_keys]
  rw [hkeys, Finset.card_insert_of_notMem fun h => hk (Finmap.mem_keys.mp h)]

section

variable (hC : ∀ w, (d < 64 → Repairable cfg w.table m ∨ Repairable cfg w.table (m.insert (cfg.key kv.1) kv.2)) → Live w → C w)
include hC

theorem emplaceClaim_sat (hset : Settled cfg t m) (hbi : bi < t.bucketCount) (hd : d < t.bucketCount)
    (hclose : d % 2 ^ 32 < 64) (hvalue : t.value (t.addSmall bi d) = kv)
    (hhome : bucket cfg t (cfg.key kv.1) = bi) (hnew : cfg.key kv.1 ∉ m) (hstates : ∀ b, b < t.bucketCount →
      (t.state b = .inUse ↔ Claimed t b ∨ b = t.addSmall bi d))
    (hused : ∀ d', d' < d → t.state (t.addSmall bi d') = .inUse) (hsize : t.sizeControl =
      destabilize (valueSetStable 8 m.keys.card))
    (l : List (Step K V)) (hl : freedHead l = none) : Sat (emplaceClaim bi (t.addSmall bi d)) ⟨t, l⟩ C
      (fun _ w' => freedHead w'.log = none ∧ w'.table.segmentCountActual = t.segmentCountActual ∧
        w'.table.value = t.value ∧ isStable 8 w'.table.sizeControl = true ∧
        (d < 64 → WellFormed cfg w'.table (m.insert (cfg.key kv.1) kv.2))) (fun _ _ => False) := by
  have hcount := hset.isStable_count
  have hunstable := isStable_destabilize (by decide : 1 ≤ 8)
  have hdist := t.distanceWrapped_addSmall hbi hd
  have hdst : t.state (t.addSmall bi d) = .inUse :=
    (hstates _ (t.addSmall_lt hbi)).mpr (Or.inr rfl)
  refine sat_getTable_bind (sat_write_bind (hC _ (fun _ => Or.inl ⟨hset, Or.inl ?_⟩) ?_) ?_)
  · rw [hsize]
    exact hunstable _
  · exact Live.of_claimsLive hcount (claimsLive_of_inUse fun b hb => (hstates b hb.lt).mpr (Or.inl hb)) hl
  rw [hdist]
  generalize hu : t.apply (.owner bi (Owner.insert (t.owner bi) (d % 2 ^ 32))) = u
  have hclaimed := claimed_insert hbi hclose
  rw [hu] at hclaimed
  have hustate : u.state = t.state := by rw [← hu]; rfl
  have huvalue : u.value = t.value := by rw [← hu]; rfl
  have hucount : u.segmentCountActual = t.segmentCountActual := by rw [← hu]; rfl
  have husize : u.sizeControl = t.sizeControl := by rw [← hu]; rfl
  -- the claim may be meant for a bucket far away; the bucket it names is in use all the same
  have hlive : ClaimsLive u := by
    refine claimsLive_of_inUse fun b hb => ?_
    rw [hustate]
    rcases (hclaimed b).mp hb with hold | rfl
    · exact (hstates b hold.lt).mpr (Or.inl hold)
    · by_cases hfar : d % 2 ^ 32 = d
      · rw [hfar]
        exact hdst
      · have hle := Nat.mod_le d (2 ^ 32)
        exact hused _ (by omega)
  have hnear : d < 64 → Settled cfg u (m.insert (cfg.key kv.1) kv.2) ∧ StatesAgree u := by
    intro h64
    have hmod : d % 2 ^ 32 = d := Nat.mod_eq_of_lt (by omega)
    have hentry : entry t bi d = kv := hvalue
    have hrep := hset.represents.insert hbi h64 (by rw [hentry, hhome]) (by rwa [hentry])
    rw [hentry, ← hmod, hu] at hrep
    refine ⟨hset.of_represents hrep hucount (by rw [← hu]; rfl), fun b hb => ?_⟩
    rw [hustate, hclaimed, hmod]
    exact hstates b (Table.bucketCount_congr hucount ▸ hb)
  have hsize₁ : incr 8 u.sizeControl =
      destabilize (valueSetStable 8 (m.keys.card + 1)) := by
    rw [husize, hsize, incr_destabilize]
  refine sat_sizeUpdate_bind (hC _ (fun h64 => Or.inr ⟨(hnear h64).1, Or.inl ?_⟩)
    (Live.of_claimsLive (hucount ▸ hcount) hlive rfl)) ?_
  · rw [husize, hsize]
    exact hunstable _
  change Sat sizeStabilize ⟨u.apply (.size (incr 8 u.sizeControl)), _⟩ C _ _
  rw [hsize₁]
  have hwf : d < 64 → WellFormed cfg ((u.apply (.size (destabilize
      (valueSetStable 8 (m.keys.card + 1))))).apply (.size (stabilize
        (destabilize (valueSetStable 8 (m.keys.card + 1))))))
      (m.insert (cfg.key kv.1) kv.2) := fun h64 =>
    ⟨((hnear h64).1.apply_size _).apply_size _, (hnear h64).2, by
      rw [KeyMap.card_insert hnew]
      rfl⟩
  have hstable := isStable_valueSetStable 8 (m.keys.card + 1)
  exact sat_sizeUpdate (hC _ (fun h64 => Or.inr ⟨(hnear h64).1.apply_size _, Or.inl (hunstable _)⟩)
      (Live.of_claimsLive (hucount ▸ hcount) hlive rfl))
    (hC _ (fun h64 => Or.inr (hwf h64).repairable) (Live.of_stable hstable rfl))
    ⟨rfl, hucount, huvalue, hstable, hwf⟩

theorem emplaceAt_sat (hwf : WellFormed cfg t m) (hbi : bi < t.bucketCount) (hnear : NearestFree t bi d)
    (hclose : d % 2 ^ 32 < 64) (hhome : bucket cfg t (cfg.key kv.1) = bi)
    (hnew : cfg.key kv.1 ∉ m) (l : List (Step K V)) (hl : freedHead l = none) :
    Sat (emplaceAt cfg bi (t.addSmall bi d) kv) ⟨t, l⟩ C
      (fun _ w' => freedHead w'.log = none ∧ w'.table.segmentCountActual = t.segmentCountActual ∧
        w'.table.value (t.addSmall bi d) = kv ∧ isStable 8 w'.table.sizeControl = true ∧
        (d < 64 → WellFormed cfg w'.table (m.insert (cfg.key kv.1) kv.2))) (fun _ _ => False) := by
  have hdst : ¬ Claimed t (t.addSmall bi d) := (hwf.free_iff (t.addSmall_lt hbi)).mp hnear.free
  have hcount := hwf.toSettled.isStable_count
  have hunstable := hwf.isStable_destabilize
  have hCold : ∀ w, Repairable cfg w.table m → Live w → C w :=
    fun w hrep hlive => hC w (fun _ => Or.inl hrep) hlive
  refine Sat.bind ((contentCopy_sat (t.addSmall bi d) kv l hl (fun l' hl' => hCold _ hwf.repairable (hwf.live hl'))
    (fun x l' hl' => hCold _ (hwf.apply_value hdst x).repairable ((hwf.apply_value hdst x).live hl'))).post ?_)
  rintro - ⟨t₁, l₁⟩ ⟨rfl, hl₁⟩
  have hwf₁ := hwf.apply_value hdst kv
  have hset₂ := hwf₁.toSettled.apply_size (destabilize t.sizeControl)
  refine sat_sizeUpdate_bind (hCold _ hwf₁.repairable (hwf₁.live hl₁)) ?_
  refine sat_write_bind (hCold _ ⟨hset₂, Or.inl hunstable⟩ (Live.of_claimsLive hcount
    (claimsLive_of_inUse fun b hb => (hwf.states b hb.lt).mpr hb) rfl)) ?_
  have hstate : ∀ b, b ≠ t.addSmall bi d → update t.state (t.addSmall bi d) .inUse b = t.state b :=
    fun b hb => update_of_ne hb _ _
  refine (emplaceClaim_sat (d := d) hC (hset₂.apply_state (t.addSmall bi d) .inUse) hbi hnear.lt
    hclose (update_self _ _ _) hhome hnew (fun b hb => ?_) (fun d' hd' => ?_)
    (congrArg destabilize hwf.size_eq) _ rfl).post ?_
  · change update t.state (t.addSmall bi d) .inUse b = .inUse ↔ Claimed t b ∨ b = t.addSmall bi d
    by_cases heq : b = t.addSmall bi d
    · rw [heq, update_self]
      simp
    · rw [hstate b heq, hwf.states b hb]
      simp [heq]
  · have hne : t.addSmall bi d' ≠ t.addSmall bi d := by
      intro heq
      have hlt := hnear.lt
      have := Circle.step_inj hbi (by omega) hlt heq
      omega
    exact (hstate _ hne).trans (hnear.used d' hd')
  · rintro - w' ⟨hlog, hcount', hvalue, hrest⟩
    refine ⟨hlog, hcount', ?_, hrest⟩
    rw [hvalue]
    exact update_self _ _ _

end

omit [DecidableEq κ] in
theorem emplaceAt_keeps (bi dst : Nat) (kv : K × V) :
    Keeps (fun w : HopHash K V => w.table.segmentCountActual = t.segmentCountActual ∧
      w.table.segment = t.segment) (fun _ => False) (emplaceAt cfg bi dst kv) := by
  have hsize : ∀ f, Keeps (fun w : HopHash K V => w.table.segmentCountActual =
      t.segmentCountActual ∧ w.table.segment = t.segment) (fun _ => False) (sizeUpdate f) :=
    fun f => Keeps.bind (Keeps.read _) fun _ => Keeps.emit fun _ h => h
  refine Keeps.bind (Keeps.bind (Keeps.read _) fun _ => Keeps.bind (Keeps.emitAll ?_) fun _ =>
    Keeps.bind (Keeps.emit fun _ h => h) fun _ => Keeps.emit fun _ h => h) fun _ =>
    Keeps.bind (hsize _) fun _ => Keeps.bind (Keeps.emit fun _ h => h) fun _ =>
    Keeps.bind (Keeps.read _) fun _ => Keeps.bind (Keeps.emit fun _ h => h) fun _ =>
    Keeps.bind (hsize _) fun _ => hsize _
  intro x hx w hw
  obtain ⟨y, -, rfl⟩ := List.mem_map.mp hx
  exact hw

/-- The first free bucket past `bi` is near enough for its distance to fit in an `unsigned`. -/
def Near (t : Table K V) (bi : Nat) : Prop := ∀ d, NearestFree t bi d → d < 2 ^ 32

theorem emplaceNew_sat (hC : ∀ w, (Near t bi → Repairable cfg w.table m ∨
      Repairable cfg w.table (m.insert (cfg.key kv.1) kv.2)) → Live w → Segmented w.table → C w)
    (hwf : WellFormed cfg t m) (hhome : bucket cfg t (cfg.key kv.1) = bi)
    (hnew : cfg.key kv.1 ∉ m) (l : List (Step K V)) (hl : freedHead l = none) : Sat (emplaceNew cfg bi kv) ⟨t, l⟩ C
      (fun b w' => freedHead w'.log = none ∧ w'.table.segmentCountActual = t.segmentCountActual ∧
        Segmented w'.table ∧ w'.table.value b = kv ∧ isStable 8 w'.table.sizeControl = true ∧
        (Near t bi → WellFormed cfg w'.table (m.insert (cfg.key kv.1) kv.2)))
      (fun e w' => e.noNearEmptyBucket = true ∧ WellFormed cfg w'.table m ∧ freedHead w'.log = none ∧
        w'.table.segmentCountActual = t.segmentCountActual ∧
        ((w'.table = t ∧ ∀ b, b < t.bucketCount → t.state b = .inUse) ∨
          ∃ d, NearestFree w'.table bi d ∧ (Near t bi → d < 2 ^ 32))) := by
  have hbi : bi < t.bucketCount := hhome ▸ bucket_lt cfg t (cfg.key kv.1)
  have hCold : ∀ w, Repairable cfg w.table m → Live w → C w :=
    fun w hrep hlive => hC w (fun _ => Or.inl hrep) hlive hrep.1.segmented
  refine sat_getTable_bind (Sat.bind ((nearestFreeBucket_sat
    (fun l hl => hCold ⟨t, l⟩ hwf.repairable (hwf.live hl)) hbi l hl).imp ?_ ?_))
  · rintro free ⟨t', l'⟩ ⟨rfl, hl', d, rfl, hnear⟩
    refine Sat.bind ((makeSpaceForInsert_sat hCold hbi hnear.lt l' ⟨hwf, hl', rfl, hnear⟩).imp ?_ ?_)
    · rintro dst ⟨u, lu⟩ ⟨d', hd', hclose, rfl, hwfu, hlu, hcountu, hnearu⟩
      have hNu := Table.bucketCount_congr hcountu
      have h64 : Near t' bi → d' < 64 := by
        intro hfit
        have := hfit d hnear
        rwa [Nat.mod_eq_of_lt (by omega)] at hclose
      have hsegu := hwfu.toSettled.segmented
      have henter : Sat (emplaceAt cfg bi (u.addSmall bi d') kv) ⟨u, lu⟩ (fun w => (Near t' bi → Repairable cfg w.table m ∨
            Repairable cfg w.table (m.insert (cfg.key kv.1) kv.2)) ∧ Live w) _ _ :=
        emplaceAt_sat (fun w hrep hlive => ⟨fun hfit => hrep (h64 hfit), hlive⟩) hwfu (hNu ▸ hbi)
          hnearu hclose ((bucket_congr hNu _).trans hhome) hnew lu hlu
      refine Sat.bind ((henter.and (emplaceAt_keeps _ _ _ ⟨u, lu⟩ ⟨rfl, rfl⟩)).mono
        (fun w hw => hC w hw.1.1 hw.1.2 (hsegu.congr hw.2.1 hw.2.2)) ?_ (fun _ _ h => h.1.elim))
      rintro - ⟨v, lv⟩ ⟨⟨hlv, hcountv, hvalue, hstable, hwfv⟩, -, hsegv⟩
      have hsegmented : Segmented v := hsegu.congr hcountv hsegv
      have hCv : ∀ l, freedHead l = none → C ⟨v, l⟩ := fun l hl =>
        hC _ (fun hfit => Or.inr (hwfv (h64 hfit)).repairable) (Live.of_stable hstable hl) hsegmented
      exact sat_call_bind (hCv lv hlv) (Sat.pure (hCv _ rfl)
        ⟨rfl, hcountv.trans hcountu, hsegmented, hvalue, hstable, fun hfit => hwfv (h64 hfit)⟩)
    · rintro e ⟨u, lu⟩ ⟨rfl, d', hd', hwfu, hlu, hcountu, hnearu⟩
      refine ⟨rfl, hwfu, hlu, hcountu, Or.inr ⟨d', hnearu, fun hfit => ?_⟩⟩
      have := hfit d hnear
      omega
  · rintro e ⟨t', l'⟩ ⟨rfl, rfl, hl', hfull⟩
    exact ⟨rfl, hwf, hl', rfl, Or.inl ⟨rfl, hfull⟩⟩

end Steps

end Comanche.Hstore
