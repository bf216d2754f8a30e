import Comanche.Hstore.Crash

/-!
# What recovery tells the allocator

Out-of-line strings survive a crash in the heap blocks that keys and values refer to.
-/

namespace Comanche.Hstore

open Lib ValueUnstable

section Log

variable {K V : Type} {t : Table K V}

/-- The pairs whose `reconstitute` was called, the last one first. -/
def reconstituted (l : List (Step K V)) : List (K × V) :=
  l.filterMap fun
    | .call (.reconstitute kv) => some kv
    | _ => none

/-- The calls made for the buckets from `first` up to `last`, on top of those in `l`. -/
def Announced (t : Table K V) (l : List (Step K V)) (first last : Nat) (w : HopHash K V) : Prop :=
  w.table = t ∧ ∀ kv, kv ∈ reconstituted w.log ↔ kv ∈ reconstituted l ∨
    ∃ b, first ≤ b ∧ b < last ∧ t.state b ≠ .free ∧ t.value b = kv

theorem Announced.next {l : List (Step K V)} {first last : Nat} {w : HopHash K V}
    (h : Announced t l first last w) (hle : first ≤ last) (hused : t.state last ≠ .free) :
    Announced t l first (last + 1) ⟨t, .call (.reconstitute (t.value last)) :: w.log⟩ := by
  refine ⟨rfl, fun kv => ?_⟩
  change kv ∈ t.value last :: reconstituted w.log ↔ _
  rw [List.mem_cons, h.2]
  constructor
  · rintro (rfl | hold | ⟨b, hfirst, hlast, hb⟩)
    · exact Or.inr ⟨last, hle, by omega, hused, rfl⟩
    · exact Or.inl hold
    · exact Or.inr ⟨b, hfirst, by omega, hb⟩
  · rintro (hold | ⟨b, hfirst, hlast, hb, rfl⟩)
    · exact Or.inr (Or.inl hold)
    · by_cases heq : b = last
      · exact Or.inl (by rw [heq])
      · exact Or.inr (Or.inr ⟨b, hfirst, by omega, hb, rfl⟩)

theorem Announced.skip {l : List (Step K V)} {first last : Nat} {w : HopHash K V}
    (h : Announced t l first last w) (hfree : t.state last = .free) : Announced t l first (last + 1) w := by
  refine ⟨h.1, fun kv => ?_⟩
  rw [h.2]
  refine or_congr_right ⟨fun ⟨b, hfirst, hlast, hb⟩ => ⟨b, hfirst, by omega, hb⟩, ?_⟩
  rintro ⟨b, hfirst, hlast, hb, hkv⟩
  have hne : b ≠ last := by
    rintro rfl
    exact hb hfree
  exact ⟨b, hfirst, by omega, hb, hkv⟩

theorem reconstituteBuckets_announced (first count : Nat) (l : List (Step K V)) :
    Sat (reconstituteBuckets first count) ⟨t, l⟩ (fun _ => True)
      (fun _ w' => Announced t l first (first + count) w') (fun _ _ => False) := by
  refine Sat.forRange (fun i w => Announced t l first (first + i) w) ⟨rfl, fun kv => ?_⟩
    (fun _ _ => trivial) fun i w _ hw => ?_
  · rw [or_iff_left]
    rintro ⟨b, hfirst, hlast, -⟩
    omega
  · obtain ⟨t', l'⟩ := w
    obtain ⟨rfl, -⟩ := id hw
    refine sat_getTable_bind (Sat.when (fun hused => ?_) fun hfree => ⟨trivial, ?_⟩)
    · exact sat_call trivial trivial (hw.next (Nat.le_add_right first i) hused)
    · exact hw.skip (not_not.mp hfree)

structure OnlyFreed (t : Table K V) (calls : List (K × V)) (w : HopHash K V) : Prop where
  state : ∀ b, w.table.state b = .inUse → t.state b = .inUse
  value : w.table.value = t.value
  count : w.table.segmentCountActual = t.segmentCountActual
  size : w.table.sizeControl = t.sizeControl
  calls : reconstituted w.log = calls

theorem OnlyFreed.free {calls : List (K × V)} {w : HopHash K V} (h : OnlyFreed t calls w)
    (i : Nat) : OnlyFreed t calls ⟨w.table.apply (.state i .free), .write (.state i .free) :: w.log⟩ := by
  refine ⟨fun b hb => h.state b ?_, h.value, h.count, h.size, h.calls⟩
  change Function.update w.table.state i .free b = .inUse at hb
  by_cases heq : b = i
  · rw [heq, Function.update_self] at hb
    cases hb
  · rwa [Function.update_of_ne heq] at hb

variable {κ : Type} {cfg : Config K κ V}

theorem resizePass2_onlyFreed (calls : List (K × V)) :
    Keeps (OnlyFreed t calls) (fun _ => False) (resizePass2 cfg) := by
  have hlock : ∀ c : Call K V, (∀ kv, c ≠ .reconstitute kv) → Keeps (OnlyFreed t calls) (fun _ => False) (call c) := by
    intro c hc
    refine Keeps.emit fun w h => ⟨h.state, h.value, h.count, h.size, ?_⟩
    rw [← h.calls]
    cases c with
    | reconstitute kv => exact absurd rfl (hc kv)
    | _ => rfl
  have howner : ∀ i v, Keeps (OnlyFreed t calls) (fun _ => False) (write (.owner i v)) := fun i v =>
    Keeps.emit fun w h => ⟨h.state, h.value, h.count, h.size, h.calls⟩
  have hfree : ∀ i, Keeps (OnlyFreed t calls) (fun _ => False) (write (.state i .free)) := fun i =>
    Keeps.emit fun w h => h.free i
  have hadjust : ∀ ix k, Keeps (OnlyFreed t calls) (fun _ => False) (resizePass2AdjustOwner cfg ix k) := fun ix k =>
    Keeps.bind (Keeps.read _) fun _ => Keeps.when (Keeps.bind (hlock _ (by simp)) fun _ =>
      Keeps.bind (hlock _ (by simp)) fun _ => Keeps.bind (howner _ _) fun _ =>
      Keeps.bind (howner _ _) fun _ => Keeps.bind (hlock _ (by simp)) fun _ => hlock _ (by simp))
  have hcontent : ∀ ix, Keeps (OnlyFreed t calls) (fun _ => False) (resizePass2Content cfg ix) := by
    refine fun ix => Keeps.bind (Keeps.read _) fun t' => ?_
    split
    · exact Keeps.bind (hadjust _ _) fun _ => Keeps.bind (Keeps.bind (Keeps.read _) fun _ =>
        Keeps.when (Keeps.bind (hlock _ (by simp)) fun _ => hfree _)) fun _ => hfree _
    · exact Keeps.when (hadjust _ _)
  exact Keeps.bind (Keeps.read _) fun _ => Keeps.forRange fun ix =>
    Keeps.bind (Keeps.read _) fun _ => Keeps.bind (hlock _ (by simp)) fun _ =>
    Keeps.bind (hlock _ (by simp)) fun _ => Keeps.bind (hcontent ix) fun _ =>
    Keeps.bind (hlock _ (by simp)) fun _ => hlock _ (by simp)

theorem recount_calls (calls : List (K × V)) :
    Keeps (fun w : HopHash K V => reconstituted w.log = calls) (fun _ => False) recount := by
  refine Keeps.bind (Keeps.read _) fun _ => Keeps.bind (Keeps.foldRange fun i acc => ?_) fun _ => Keeps.emit fun _ h => h
  exact Keeps.bind (Keeps.read _) fun _ => Keeps.bind (Keeps.when (Keeps.emit fun _ h => h)) fun _ => Keeps.pure _

end Log

section Constructor

variable {K κ V : Type} {cfg : Config K κ V} {t : Table K V}

theorem Segmented.any_eq_false (h : Segmented t) :
    ¬ ((List.range (segmentsUsed t)).any fun i => !t.segment i) = true := by
  simp only [List.any_eq_true, List.mem_range, Bool.not_eq_true', not_exists, not_and, Bool.not_eq_false]
  exact h

theorem grown_bucketCount_le (u : Table K V) : (grown u).bucketCount ≤ 2 * u.bucketCount := by
  have hcount : (grown u).segmentCountNotStable = u.segmentCountNotStable + 1 :=
    valueNotStable_valueSetStable 1 _
  rw [Table.bucketCount_eq_two_pow, Table.bucketCount_eq_two_pow, hcount, ← Nat.pow_succ']
  exact Nat.pow_le_pow_right (by decide) (by omega)

theorem hopHashBase_calls_of_stable (hseg : Segmented t) (hsize : isStable 8 t.sizeControl = true) :
    Sat (hopHashBase cfg .reconstitute) ⟨t, []⟩ (fun _ => True)
      (fun _ w' => ∀ b, b < w'.table.bucketCount → w'.table.state b = .inUse →
        w'.table.value b ∈ reconstituted w'.log) (fun _ _ => False) := by
  refine sat_getTable_bind (Sat.bind (Sat.when (fun hany => absurd hany hseg.any_eq_false) fun _ => ⟨trivial, ?_⟩))
  refine Sat.bind (Sat.when (fun _ => ?_) fun hmode => absurd rfl hmode)
  refine (reconstituteBuckets_announced 0 t.bucketCount []).post ?_
  rintro - ⟨t₁, l₁⟩ ⟨rfl, hcalls₁⟩
  rw [Nat.zero_add] at hcalls₁
  have hskip : ∀ (w : HopHash K V), w.table.sizeControl = t₁.sizeControl →
      (∀ b, b < w.table.bucketCount → w.table.state b = .inUse → w.table.value b ∈ reconstituted w.log) →
      Sat (do
          let t ← getTable
          Action.when (isStable 8 t.sizeControl = false) do
            recount) w (fun _ => True)
        (fun _ w' => ∀ b, b < w'.table.bucketCount → w'.table.state b = .inUse →
          w'.table.value b ∈ reconstituted w'.log) (fun _ _ => False) := by
    intro w hw hdone
    refine sat_getTable_bind (Sat.when (fun hunstable => ?_) fun _ => ⟨trivial, hdone⟩)
    rw [hw, hsize] at hunstable
    cases hunstable
  refine Sat.bind (Sat.when (fun hunstable => ?_) fun _ => ⟨trivial, hskip _ rfl ?_⟩)
  · -- pass 2 frees contents only, and the junior segment is announced before it
    refine sat_call_bind trivial (Sat.bind ((reconstituteBuckets_announced _ _ _).post ?_))
    rintro - ⟨t₂, l₂⟩ ⟨rfl, hcalls₂⟩
    have hpass : Sat (resizePass2 cfg) ⟨t₂, l₂⟩ (OnlyFreed t₂ (reconstituted l₂)) _ _ :=
      resizePass2_onlyFreed _ ⟨t₂, l₂⟩ ⟨fun _ h => h, rfl, rfl, rfl, rfl⟩
    refine Sat.bind (hpass.ends ?_ (fun _ _ h => h.1))
    rintro - ⟨u, l₃⟩ hfreed
    refine sat_getTable_bind (sat_write trivial trivial (hskip _ hfreed.size fun b hb hused => ?_))
    change b < (grown u).bucketCount at hb
    have hN : u.bucketCount = t₂.bucketCount := Table.bucketCount_congr hfreed.count
    have hb' : b < t₂.bucketCount + t₂.bucketCount := by
      have := grown_bucketCount_le u
      omega
    have hold : t₂.state b ≠ .free := by
      rw [hfreed.state b hused]
      decide
    change u.value b ∈ reconstituted l₃
    rw [show u.value b = t₂.value b from congrFun hfreed.value b,
      show reconstituted l₃ = reconstituted l₂ from hfreed.calls, hcalls₂]
    rcases Nat.lt_or_ge b t₂.bucketCount with hsenior | hjunior
    · exact Or.inl ((hcalls₁ _).mpr (Or.inr ⟨b, Nat.zero_le b, hsenior, hold, rfl⟩))
    · exact Or.inr ⟨b, hjunior, hb', hold, rfl⟩
  · intro b hb hused
    refine (hcalls₁ _).mpr (Or.inr ⟨b, Nat.zero_le b, hb, ?_, rfl⟩)
    rw [hused]
    decide

theorem hopHashBase_calls_of_unstable (hseg : Segmented t)
    (hcount : isStable 1 t.segmentCountActual = true)
    (hsize : isStable 8 t.sizeControl = false) :
    Sat (hopHashBase cfg .reconstitute) ⟨t, []⟩ (fun _ => True)
      (fun _ w' => w'.table.bucketCount = t.bucketCount ∧ w'.table.value = t.value ∧
        (∀ b, b < t.bucketCount → (w'.table.state b = .inUse ↔ Claimed t b)) ∧
        ∀ kv, kv ∈ reconstituted w'.log ↔ ∃ b, b < t.bucketCount ∧ t.state b = .inUse ∧
          t.value b = kv) (fun _ _ => False) := by
  refine sat_getTable_bind (Sat.bind (Sat.when (fun hany => absurd hany hseg.any_eq_false) fun _ => ⟨trivial, ?_⟩))
  refine Sat.bind (Sat.when (fun _ => ?_) fun hmode => absurd rfl hmode)
  refine (reconstituteBuckets_announced 0 t.bucketCount []).post ?_
  rintro - ⟨t₁, l₁⟩ ⟨rfl, hcalls₁⟩
  refine Sat.bind (Sat.when (fun hunstable => ?_) fun _ => ⟨trivial, ?_⟩)
  · rw [hcount] at hunstable
    cases hunstable
  refine sat_getTable_bind (Sat.when (fun _ => ?_) fun hstable => absurd hsize hstable)
  refine ((recount_sat (C := fun _ => True) (fun _ _ _ => trivial) (fun _ _ _ => trivial) l₁).and
    (recount_calls _ ⟨t₁, l₁⟩ rfl)).ends ?_ (fun _ _ h => h.1)
  rintro - ⟨t₂, l₂⟩ ⟨⟨u, hu, rfl⟩, hcalls₂⟩
  refine ⟨Table.bucketCount_congr hu.count, hu.value, hu.state, fun kv => ?_⟩
  rw [show reconstituted l₂ = reconstituted l₁ from hcalls₂, hcalls₁, Nat.zero_add]
  have hne : ∀ b, t₁.state b ≠ .free ↔ t₁.state b = .inUse := fun b => by
    cases t₁.state b <;> simp
  simp [reconstituted, hne]

end Constructor

section Registered

variable {K κ V β : Type} (blocks : K × V → List β)

/-- Each heap block that a content in use refers to was reconstituted. `blocks` gives the blocks of
a pair. -/
def Registered (w : HopHash K V) : Prop :=
  ∀ b, b < w.table.bucketCount → w.table.state b = .inUse → ∀ x ∈ blocks (w.table.value b),
    ∃ kv ∈ reconstituted w.log, x ∈ blocks kv

/-- The last step before the crash marked the source of a displacement FREE, and one of its blocks
belongs to no content that is in use. -/
def Orphaned (w : HopHash K V) : Prop :=
  ∃ src, freedHead w.log = some src ∧ ∃ x ∈ blocks (w.table.value src),
    ∀ b, b < w.table.bucketCount → w.table.state b = .inUse → x ∉ blocks (w.table.value b)

variable {cfg : Config K κ V} {w : HopHash K V}

theorem Live.registered_iff (hlive : Live w) (hseg : Segmented w.table) :
    ((hopHashBase cfg .reconstitute).result ⟨w.table, []⟩ = .ok () ∧
      Registered blocks ((hopHashBase cfg .reconstitute).final ⟨w.table, []⟩)) ↔ ¬ Orphaned blocks w := by
  cases hsize : isStable 8 w.table.sizeControl with
  | true =>
    have hsat : Sat (hopHashBase cfg .reconstitute) ⟨w.table, []⟩ _ _ _ :=
      hopHashBase_calls_of_stable hseg hsize
    cases hr : (hopHashBase cfg .reconstitute).result ⟨w.table, []⟩ with
    | error e => exact (hsat.of_error hr).elim
    | ok r =>
      refine iff_of_true ⟨rfl, fun b hb hused x hx => ?_⟩ ?_
      · exact ⟨_, hsat.of_ok hr b hb hused, hx⟩
      · rintro ⟨src, hsrc, -⟩
        rw [(hlive.freed src hsrc).unstable] at hsize
        cases hsize
  | false =>
    have hsat : Sat (hopHashBase cfg .reconstitute) ⟨w.table, []⟩ _ _ _ :=
      hopHashBase_calls_of_unstable hseg (hlive.count hsize) hsize
    cases hr : (hopHashBase cfg .reconstitute).result ⟨w.table, []⟩ with
    | error e => exact (hsat.of_error hr).elim
    | ok r =>
      obtain ⟨hN, hvalue, hstate, hcalls⟩ := hsat.of_ok hr
      generalize (hopHashBase cfg .reconstitute).final ⟨w.table, []⟩ = w' at *
      refine Iff.trans (and_iff_right rfl) ⟨?_, fun hnot b hb hused x hx => ?_⟩
      · -- the freed bucket is claimed, so that it comes back without having been announced
        rintro hreg ⟨src, hsrc, x, hx, hothers⟩
        have hclaimed := (hlive.freed src hsrc).claimed
        obtain ⟨kv, hkv, hxkv⟩ := hreg src (hN ▸ hclaimed.lt) ((hstate src hclaimed.lt).mpr hclaimed) x (by rwa [hvalue])
        obtain ⟨b, hb, hused, rfl⟩ := (hcalls kv).mp hkv
        exact hothers b hb hused hxkv
      · rw [hN] at hb
        have hclaimed := (hstate b hb).mp hused
        rw [hvalue] at hx
        cases hfreed : freedHead w.log with
        | none =>
          obtain ⟨b', hb', hused', heq⟩ := hlive.claims hsize hfreed b hclaimed
          exact ⟨_, (hcalls _).mpr ⟨b', hb', hused', rfl⟩, heq ▸ hx⟩
        | some src =>
          by_cases hsrc : b = src
          · subst hsrc
            by_contra hlost
            refine hnot ⟨b, hfreed, x, hx, fun b' hb' hused' hx' => hlost ?_⟩
            exact ⟨_, (hcalls _).mpr ⟨b', hb', hused', rfl⟩, hx'⟩
          · have hb' := (hlive.freed src hfreed).others b hclaimed hsrc
            exact ⟨_, (hcalls _).mpr ⟨b, hb, hb', rfl⟩, hx⟩

variable [DecidableEq κ] [Inhabited K] [Inhabited V] {t : Table K V} {m : KeyMap κ V}

theorem cut_live (h : WellFormed cfg t m) (op : Op K κ V) (n : Nat) :
    Live (op.cut cfg n ⟨t, []⟩) ∧ Segmented (op.cut cfg n ⟨t, []⟩).table := by
  cases op with
  | emplace kv =>
    exact (emplace_sat (C := fun w => Live w ∧ Segmented w.table) (fun _ => kv) (fun _ => rfl)
      (fun _ _ hlive hseg => ⟨hlive, hseg⟩) h [] rfl).cut n
  | erase k =>
    exact (erase_sat (C := fun w => Live w ∧ Segmented w.table) (k := k)
      (fun _ hrep hlive => ⟨hlive, hrep.elim (·.1.segmented) (·.1.segmented)⟩) h [] rfl).cut n
  | at_ k =>
    exact (at_sat (C := fun w => Live w ∧ Segmented w.table) (k := k) (w := ⟨t, []⟩)
      (fun _ hl => ⟨h.live hl, h.toSettled.segmented⟩) ⟨h, rfl⟩).cut n

/-- After a crash in any call, recovery registers every block that is live after it, unless the
crash came right after the first store of a displacement and orphaned a block. -/
theorem registered_recovered_iff (cfg : Config K κ V) (blocks : K × V → List β) {t : Table K V}
    {m : KeyMap κ V} (h : WellFormed cfg t m) (op : Op K κ V) (n : Nat) :
    ((hopHashBase cfg .reconstitute).result ⟨(op.cut cfg n ⟨t, []⟩).table, []⟩ = .ok () ∧ Registered blocks
        ((hopHashBase cfg .reconstitute).final ⟨(op.cut cfg n ⟨t, []⟩).table, []⟩)) ↔
      ¬ Orphaned blocks (op.cut cfg n ⟨t, []⟩) :=
  (cut_live h op n).1.registered_iff blocks (cut_live h op n).2

def valueBlock (kv : Nat × Nat) : List Nat := [kv.2]

/-- With the first 64 of 128 buckets full, the insertion of key 128 moves key 1 to bucket 64. It is cut when bucket 64 is
in use, before the owner is edited. -/
theorem registered_recovered_iff_moved : ∃ m, WellFormed (idConfig Nat (BitVec.allOnes 64)) (filled 1 id 64) m ∧
    (hopHashBase (idConfig Nat (BitVec.allOnes 64)) .reconstitute).result
        ⟨((Op.emplace (128, 128)).cut (idConfig Nat (BitVec.allOnes 64)) 138 ⟨filled 1 id 64, []⟩).table, []⟩ = .ok () ∧
      Registered valueBlock ((hopHashBase (idConfig Nat (BitVec.allOnes 64)) .reconstitute).final
        ⟨((Op.emplace (128, 128)).cut (idConfig Nat (BitVec.allOnes 64)) 138 ⟨filled 1 id 64, []⟩).table, []⟩) := by
  obtain ⟨m, hwf⟩ := filled_wellFormed (BitVec.allOnes 64) id (c := 1) 1 (by decide) (by decide) (n := 64)
    (by decide)
  refine ⟨m, hwf, (registered_recovered_iff _ valueBlock hwf _ 138).mpr ?_⟩
  have hnone : freedHead ((Op.emplace (128, 128)).cut (idConfig Nat (BitVec.allOnes 64)) 138 ⟨filled 1 id 64, []⟩).log =
      none := by
    decide +kernel
  rintro ⟨src, hsrc, -⟩
  cases hnone.symm.trans hsrc

/-- The same insertion, cut after the step that marks bucket 1 FREE. -/
def displacedCut : HopHash Nat Nat :=
  (Op.emplace (128, 128)).cut (idConfig Nat (BitVec.allOnes 64)) 137 ⟨filled 1 id 64, []⟩

theorem not_registered_displacedCut : (∃ m, WellFormed (idConfig Nat (BitVec.allOnes 64)) (filled 1 id 64) m) ∧
      ¬ Registered valueBlock ((hopHashBase (idConfig Nat (BitVec.allOnes 64)) .reconstitute).final
        ⟨displacedCut.table, []⟩) := by
  refine ⟨filled_wellFormed _ id 1 (by decide) (by decide) (by decide), fun h => ?_⟩
  -- bucket 1 is in use again, with block 1, which no reconstituted pair has
  obtain ⟨kv, hkv, hx⟩ := h 1 (by decide +kernel) (by decide +kernel) 1 (by decide +kernel)
  have hnone : ∀ kv ∈ reconstituted ((hopHashBase (idConfig Nat (BitVec.allOnes 64))
      .reconstitute).final ⟨displacedCut.table, []⟩).log, 1 ∉ valueBlock kv := by
    decide +kernel
  exact hnone kv hkv hx

end Registered

end Comanche.Hstore
