import Comanche.Hstore.Emplace
import Comanche.Hstore.Mutexes
import Comanche.Hstore.Stuck

/-!
# The mutexes that an operation of the table takes

While it runs, an operation holds some owners and contents on top of the mutexes that were held before
it started.
-/

namespace Comanche.Hstore

open Lib

section Primitives

variable {K κ V : Type} {cfg : Config K κ V} {M : Mutexes} {t₀ t : Table K V} {O C : Finset Nat}
  {w : HopHash K V} {i : Nat} {T : Exc → Prop}

/-- A bucket that is held in `M` is the same in both tables, which have the same size if there is
one. -/
structure Spares (M : Mutexes) (t₀ t : Table K V) : Prop where
  value : ∀ b, M.content b ≠ 0 → t.value b = t₀.value b
  state : ∀ b, M.content b ≠ 0 → t.state b = t₀.state b
  count : ∀ b, M.content b ≠ 0 → t.segmentCountActual = t₀.segmentCountActual

/-- The running operation holds the owners `O` and the contents `C` on top of the mutexes `M`, and
has not changed a bucket that is held in `M`. -/
structure Locking (M : Mutexes) (t₀ : Table K V) (O C : Finset Nat) (w : HopHash K V) : Prop
    extends Spares M t₀ w.table where
  mutexes : Mutexes.ofLog w.log = M.held O C

namespace Locking

section

variable (h : Locking M t₀ O C w)
include h

theorem call {O' C' : Finset Nat} {c : Call K V} (hc : (M.held O C).call c = M.held O' C') :
    Locking M t₀ O' C' (Store.apply w (Step.call c)) := by
  refine ⟨h.toSpares, ?_⟩
  change (Mutexes.ofLog w.log).call c = M.held O' C'
  rw [h.mutexes, hc]

theorem lockOwner (hM : M.Calm) (hi : i ∉ O) : Locking M t₀ (insert i O) C (Store.apply w (Step.call (.lockOwner i))) :=
  h.call (Mutexes.held_lockOwner hM hi)

theorem unlockOwner (hM : M.Calm) (hi : i ∈ O) :
    Locking M t₀ (O.erase i) C (Store.apply w (Step.call (.unlockOwner i))) :=
  h.call (Mutexes.held_unlockOwner hM hi)

section

variable (hfree : M.content i = 0)
include hfree

theorem lockContent (hi : i ∉ C) : Locking M t₀ O (insert i C) (Store.apply w (Step.call (.lockContent i))) :=
  h.call (Mutexes.held_lockContent hfree hi)

theorem unlockContent (hi : i ∈ C) : Locking M t₀ O (C.erase i) (Store.apply w (Step.call (.unlockContent i))) :=
  h.call (Mutexes.held_unlockContent hfree hi)

theorem write_value (kv : K × V) : Locking M t₀ O C (Store.apply w (Step.write (.value i kv))) := by
  refine ⟨⟨fun b hb => ?_, h.state, h.count⟩, h.mutexes⟩
  have hne : b ≠ i := by
    rintro rfl
    exact hb hfree
  exact (Function.update_of_ne hne _ _).trans (h.value b hb)

theorem write_state (s : ContentState) : Locking M t₀ O C (Store.apply w (Step.write (.state i s))) := by
  refine ⟨⟨h.value, fun b hb => ?_, h.count⟩, h.mutexes⟩
  have hne : b ≠ i := by
    rintro rfl
    exact hb hfree
  exact (Function.update_of_ne hne _ _).trans (h.state b hb)

end

theorem write_other {x : Write K V} (hvalue : (w.table.apply x).value = w.table.value)
    (hstate : (w.table.apply x).state = w.table.state)
    (hcount : (w.table.apply x).segmentCountActual = w.table.segmentCountActual) :
    Locking M t₀ O C (Store.apply w (Step.write x)) := by
  refine ⟨⟨fun b hb => ?_, fun b hb => ?_, fun b hb => hcount.trans (h.count b hb)⟩, h.mutexes⟩
  · change (w.table.apply x).value b = t₀.value b
    rw [hvalue]
    exact h.value b hb
  · change (w.table.apply x).state b = t₀.state b
    rw [hstate]
    exact h.state b hb

end

end Locking

theorem erase_pair {a b : Nat} (hne : a ≠ b) : ({a, b} : Finset Nat).erase b = {a} := by
  rw [Finset.erase_insert_of_ne hne, Finset.erase_singleton, insert_empty_eq]

theorem sizeUpdate_locking (f : Nat → Nat) : Keeps (Locking M t₀ O C) T (sizeUpdate f) :=
  Keeps.bind (Keeps.read _) fun _ => Keeps.emit fun _ h => h.write_other rfl rfl rfl

theorem contentCopy_locking (hi : M.content i = 0) (kv : K × V) :
    Keeps (Locking M t₀ O C) T (contentCopy cfg i kv) := by
  refine Keeps.bind (Keeps.read _) fun t => Keeps.bind (Keeps.emitAll ?_) fun _ =>
    Keeps.bind (Keeps.emit fun _ h => h.write_value hi kv) fun _ =>
      Keeps.emit fun _ h => h.call rfl
  intro x hx w h
  obtain ⟨y, -, rfl⟩ := List.mem_map.mp hx
  exact h.write_value hi y

theorem contentErase_locking (hi : M.content i = 0) : Keeps (Locking M t₀ O C) T (contentErase i : Act K V Unit) :=
  Keeps.bind (Keeps.read _) fun _ => Keeps.when <|
    Keeps.bind (Keeps.emit fun _ h => h.call rfl) fun _ =>
      Keeps.emit fun _ h => h.write_state hi .free

theorem displace_locking {own src dst p : Nat} (hsrc : M.content src = 0) (hdst : M.content dst = 0) :
    Keeps (Locking M t₀ O C) T (displace cfg own src dst p) :=
  Keeps.bind (Keeps.read _) fun _ => Keeps.bind (contentCopy_locking hdst _) fun _ =>
    Keeps.bind (sizeUpdate_locking _) fun _ =>
    Keeps.bind (Keeps.emit fun _ h => h.write_state hsrc _) fun _ =>
    Keeps.bind (Keeps.emit fun _ h => h.write_state hdst _) fun _ =>
    Keeps.bind (Keeps.emit fun _ h => h.write_other rfl rfl rfl) fun _ =>
    Keeps.bind (contentErase_locking hsrc) fun _ => sizeUpdate_locking _

theorem emplaceAt_locking {bi dst : Nat} (hdst : M.content dst = 0) (kv : K × V) :
    Keeps (Locking M t₀ O C) T (emplaceAt cfg bi dst kv) :=
  Keeps.bind (contentCopy_locking hdst _) fun _ => Keeps.bind (sizeUpdate_locking _) fun _ =>
    Keeps.bind (Keeps.emit fun _ h => h.write_state hdst _) fun _ =>
    Keeps.bind (Keeps.read _) fun _ => Keeps.bind (Keeps.emit fun _ h => h.write_other rfl rfl rfl)
      fun _ => Keeps.bind (sizeUpdate_locking _) fun _ => sizeUpdate_locking _

end Primitives

section Search

variable {K κ V : Type} [DecidableEq κ] {cfg : Config K κ V} {M : Mutexes} {t₀ t : Table K V}
  {O C : Finset Nat} {bi d : Nat} {m : KeyMap κ V}

/-- No bucket from `bi` on is held in `M`, up to and including the first one that is free. -/
def PathClear (M : Mutexes) (t : Table K V) (bi : Nat) : Prop :=
  ∀ d, (∀ d', d' < d → t.state (t.addSmall bi d') = .inUse) → M.content (t.addSmall bi d) = 0

theorem Table.incrWithWrap_ne (t : Table K V) {i : Nat} (hi : i < t.bucketCount) : t.incrWithWrap i ≠ i := by
  have hN := t.le_bucketCount
  intro heq
  have hzero : Circle.step t.bucketCount i 1 = Circle.step t.bucketCount i 0 :=
    heq.trans (Circle.step_zero hi).symm
  have := Circle.step_inj hi (by omega) (by omega) hzero
  omega

theorem nearestFreeFrom_locking (hbi : bi < t.bucketCount) (hclear : PathClear M t bi) {n : Nat}
    (hd : d < t.bucketCount) (hn : d + n = t.bucketCount)
    (hused : ∀ d', d' < d → t.state (t.addSmall bi d') = .inUse) (l : List (Step K V))
    (h : Locking M t₀ O {t.addSmall bi d} ⟨t, l⟩) : Sat (nearestFreeFrom bi n (t.addSmall bi d)) ⟨t, l⟩ (fun _ => True)
      (fun b w' => Locking M t₀ O {b} w') (fun _ w' => Locking M t₀ O ∅ w') := by
  induction n generalizing d l with
  | zero => omega
  | succ n ih =>
    unfold nearestFreeFrom
    refine sat_getTable_bind ?_
    split
    · exact Sat.pure trivial h
    · rename_i hfree
      rw [Bool.not_eq_true, Table.isFree_eq_false_iff] at hfree
      have hused' : ∀ d', d' < d + 1 → t.state (t.addSmall bi d') = .inUse := by
        intro d' hd'
        by_cases heq : d' = d
        · rw [heq]
          exact hfree
        · exact hused d' (by omega)
      have hne := t.incrWithWrap_ne (t.addSmall_lt (f := d) hbi)
      have hnext : t.incrWithWrap (t.addSmall bi d) = t.addSmall bi (d + 1) :=
        Circle.step_step
      rw [hnext] at hne ⊢
      have htaken := h.lockContent (hclear (d + 1) hused') (by simpa using hne)
      have hleft := htaken.unlockContent (hclear d hused) (by simp)
      rw [erase_pair hne] at hleft
      refine sat_call_bind trivial (sat_call_bind trivial ?_)
      split
      · have hdone := hleft.unlockContent (hclear (d + 1) hused') (by simp)
        rw [Finset.erase_singleton] at hdone
        exact sat_call_bind trivial (Sat.fail trivial hdone)
      · rename_i hround
        have hlast : d + 1 ≠ t.bucketCount := by
          intro heq
          rw [heq] at hround
          exact hround (Circle.step_self hbi)
        exact ih (by omega) (by omega) hused' _ hleft

theorem nearestFreeBucket_locking (hbi : bi < t.bucketCount) (hclear : PathClear M t bi)
    (l : List (Step K V)) (h : Locking M t₀ O ∅ ⟨t, l⟩) : Sat (nearestFreeBucket bi) ⟨t, l⟩ (fun _ => True)
      (fun b w' => Locking M t₀ O {b} w') (fun _ w' => Locking M t₀ O ∅ w') := by
  have hzero : t.addSmall bi 0 = bi := Circle.step_zero hbi
  have hfree := hclear 0 (fun d' hd' => by omega)
  rw [hzero] at hfree
  have hfirst : Locking M t₀ O {bi} ⟨t, .call (.lockContent bi) :: l⟩ :=
    h.lockContent hfree (by simp)
  rw [← hzero] at hfirst
  refine sat_getTable_bind (sat_call_bind trivial ?_)
  have hsearch := nearestFreeFrom_locking hbi hclear t.bucketCount_pos (Nat.zero_add _) (fun d' hd' => by omega) _ hfirst
  rw [hzero] at hsearch
  exact hsearch

omit [DecidableEq κ] in
theorem seekOwner_locking (hM : M.Calm) {dst q : Nat} (hdst : dst < t.bucketCount) (hq : q < 64)
    (hbi : ∀ q', q' ≤ q → t.subtractSmall dst q' ≠ bi) (eligible : BitVec 64)
    (l : List (Step K V)) (h : Locking M t₀ {t.subtractSmall dst q, bi} C ⟨t, l⟩) :
    Sat (seekOwner dst (q + 1) (t.subtractSmall dst q) eligible) ⟨t, l⟩ (fun _ => True)
      (fun r w' => r.1 ≠ bi ∧ Locking M t₀ {r.1, bi} C w') (fun _ _ => False) := by
  have hN := t.le_bucketCount
  induction q generalizing eligible l with
  | zero =>
    unfold seekOwner
    refine sat_getTable_bind ?_
    have hself : t.subtractSmall dst 0 = dst := Circle.back_zero hdst
    rw [if_neg (fun hgo => hgo.1 hself)]
    exact Sat.pure trivial ⟨hbi 0 le_rfl, h⟩
  | succ q ih =>
    unfold seekOwner
    refine sat_getTable_bind ?_
    split
    · have hown : t.subtractSmall dst (q + 1) < t.bucketCount := Circle.back_lt hdst
      have hne := t.incrWithWrap_ne hown
      have hnext : t.incrWithWrap (t.subtractSmall dst (q + 1)) = t.subtractSmall dst q :=
        Circle.step_back_of_le (by omega) (by omega)
      have hbi₀ := hbi q (by omega)
      have hbi₁ := hbi (q + 1) le_rfl
      rw [hnext] at hne ⊢
      generalize t.subtractSmall dst (q + 1) = own at h hne hbi₁ ⊢
      have htaken := h.lockOwner hM (i := t.subtractSmall dst q) (by simp [hne, hbi₀])
      have hleft := htaken.unlockOwner hM (i := own) (by simp)
      have hset : (insert (t.subtractSmall dst q) ({own, bi} : Finset Nat)).erase own = {t.subtractSmall dst q, bi} := by
        ext j
        simp only [Finset.mem_erase, Finset.mem_insert, Finset.mem_singleton]
        omega
      rw [hset] at hleft
      exact sat_call_bind trivial (sat_call_bind trivial (ih (by omega) (fun q' hq' => hbi q' (by omega)) _ _ hleft))
    · exact Sat.pure trivial ⟨hbi (q + 1) le_rfl, h⟩

theorem Table.subtractSmall_ne (hbi : bi < t.bucketCount) (hd : d < t.bucketCount) {q : Nat}
    (hq : q < d) : t.subtractSmall (t.addSmall bi d) q ≠ bi := by
  have hback : t.subtractSmall (t.addSmall bi d) q = t.addSmall bi (d - q) :=
    Circle.back_step (by omega) (by omega)
  rw [hback]
  intro heq
  have hzero : t.addSmall bi (d - q) = t.addSmall bi 0 := by
    rw [heq]
    exact (Circle.step_zero hbi).symm
  have := Circle.step_inj hbi (by omega) t.bucketCount_pos hzero
  omega

/-- The free bucket is locked, and the buckets from the home up to it can be. -/
structure Locking.Ready (M : Mutexes) (t₀ : Table K V) (bi d : Nat) (O : Finset Nat)
    (w : HopHash K V) : Prop where
  clear : ∀ d', d' ≤ d → M.content (w.table.addSmall bi d') = 0
  locking : Locking M t₀ O {w.table.addSmall bi d} w

theorem makeSpaceForInsert_locking (hM : M.Calm) {count n : Nat} (hbi : bi < t.bucketCount)
    (hn : d < n) (l : List (Step K V)) (hsearch : Searching cfg m count bi d ⟨t, l⟩)
    (h : Locking.Ready M t₀ bi d {bi} ⟨t, l⟩) :
    Sat (makeSpaceForInsert cfg bi n (t.addSmall bi d)) ⟨t, l⟩ (fun _ => True)
      (fun b w' => M.content b = 0 ∧ Locking M t₀ {bi} {b} w') (fun _ w' => Locking M t₀ {bi} ∅ w') := by
  have hpair {own} (hne : own ≠ bi) : ({own, bi} : Finset Nat).erase own = {bi} := by
    rw [Finset.pair_comm, erase_pair hne.symm]
  refine (makeSpaceForInsert_rule (I := fun d => Locking.Ready M t₀ bi d {bi})
    (J := fun d own w => own ≠ bi ∧ Locking.Ready M t₀ bi d {own, bi} w)
    (S := Locking M t₀ {bi} ∅) (fun _ _ _ => trivial) ?_ ?_ ?_ hbi hn l hsearch h).imp ?_ (fun _ _ h => h.2.2)
  · intro t d l _ hbi hnear hfar h
    have hne : ∀ q, q ≤ 63 → t.subtractSmall (t.addSmall bi d) q ≠ bi :=
      fun q hq => Table.subtractSmall_ne hbi hnear.lt (by omega)
    have hfirst := h.locking.lockOwner hM (i := t.subtractSmall (t.addSmall bi d) 63)
      (by rw [Finset.mem_singleton]; exact hne 63 le_rfl)
    refine ((seekOwner_sat (C := fun _ => True) (fun _ _ => trivial) cfg.ones (t.addSmall_lt hbi)
      (by decide : 63 < 64) _ rfl).and (seekOwner_locking hM (t.addSmall_lt hbi) (by decide : 63 < 64)
        hne cfg.ones _ hfirst)).ends ?_ (fun _ _ _ => trivial)
    rintro r ⟨t', l'⟩ ⟨⟨rfl, -, -⟩, hne, hlock⟩
    exact ⟨hne, h.clear, hlock⟩
  · intro t d l own p q hhop _ h
    obtain ⟨hne, hclear, hlock⟩ := h
    have hd := hhop.nearest.lt
    have hp := hhop.lt
    have hfar := hhop.far
    have hq := hhop.lt_size
    have hsrcFree := hclear (d - (q - p)) (by omega)
    have hsrcNe : t.addSmall bi (d - (q - p)) ≠ t.addSmall bi d := by
      intro heq
      have := Circle.step_inj hhop.home (by omega) hd heq
      omega
    refine (displace_locking hsrcFree (hclear d le_rfl)).sat
      (hlock.lockContent hsrcFree (by simpa using hsrcNe)) fun _ w' hw' hN => ?_
    have hadd : ∀ g, w'.table.addSmall bi g = t.addSmall bi g := by
      intro g
      unfold Table.addSmall
      rw [hN]
    have hleft := hw'.unlockContent (hclear d le_rfl) (by simp)
    rw [erase_pair hsrcNe] at hleft
    have hready := hleft.unlockOwner hM (i := own) (by simp)
    rw [hpair hne, ← hadd] at hready
    exact ⟨fun d' hd' => (hadd d').symm ▸ hclear d' (by omega), hready⟩
  · intro t d l h
    obtain ⟨hne, hclear, hlock⟩ := h
    have hleft := hlock.unlockOwner hM (i := t.addSmall bi d) (by simp)
    rw [hpair hne] at hleft
    have hdone := hleft.unlockContent (hclear d le_rfl) (by simp)
    rwa [Finset.erase_singleton] at hdone
  · rintro b w' ⟨d', -, -, -, rfl, -, hready⟩
    exact ⟨hready.clear d' le_rfl, hready.locking⟩

theorem emplaceNew_locking (hM : M.Calm) (kv : K × V) (hwf : WellFormed cfg t m)
    (hbi : bi < t.bucketCount) (hclear : PathClear M t bi) (l : List (Step K V))
    (hl : freedHead l = none) (h : Locking M t₀ {bi} ∅ ⟨t, l⟩) : Sat (emplaceNew cfg bi kv) ⟨t, l⟩ (fun _ => True)
      (fun _ w' => Locking M t₀ {bi} ∅ w')
      (fun _ w' => Locking M t₀ {bi} ∅ w' ∧ ∀ d, NearestFree t bi d → Stuck cfg t bi d) := by
  refine sat_getTable_bind (Sat.bind (((nearestFreeBucket_sat (C := fun _ => True)
    (fun _ _ => trivial) hbi l hl).and (nearestFreeBucket_locking hbi hclear l h)).ends ?_ ?_))
  · rintro free ⟨t', l'⟩ ⟨⟨rfl, hl', d, rfl, hnear⟩, hfree⟩
    have hpath : ∀ d', d' ≤ d → M.content (t'.addSmall bi d') = 0 :=
      fun d' hd' => hclear d' fun e he => hnear.used e (by omega)
    refine Sat.bind (((makeSpaceForInsert_locking hM hbi hnear.lt l' ⟨hwf, hl', rfl, hnear⟩ ⟨hpath, hfree⟩).and
      (makeSpaceForInsert_stuck hwf hbi hnear l' hl')).ends ?_ ?_)
    · rintro dst w₁ ⟨⟨hdst, hlock₁⟩, -⟩
      refine Sat.bind ((emplaceAt_locking hdst kv).sat hlock₁ fun _ w₂ hlock₂ => ?_)
      have hdone := hlock₂.unlockContent hdst (by simp)
      rw [Finset.erase_singleton] at hdone
      exact sat_call_bind trivial (Sat.pure trivial hdone)
    · rintro e w₁ ⟨hlock₁, hstuck⟩
      exact ⟨hlock₁, fun d' hnear' => hnear'.unique hnear ▸ hstuck⟩
  · rintro e w' ⟨⟨-, -, -, hfull⟩, hlock⟩
    refine ⟨hlock, fun d hnear => ?_⟩
    cases (hfull _ (t.addSmall_lt hbi)).symm.trans hnear.free

end Search

section Resize

variable {K κ V : Type} {cfg : Config K κ V} {t₀ : Table K V} {O C : Finset Nat} {w : HopHash K V}

theorem Mutexes.init_calm : Mutexes.init.Calm := ⟨rfl, fun _ => rfl⟩

theorem Locking.write (h : Locking Mutexes.init t₀ O C w) (x : Write K V) :
    Locking Mutexes.init t₀ O C (Store.apply w (Step.write x)) :=
  ⟨⟨fun _ hb => absurd rfl hb, fun _ hb => absurd rfl hb, fun _ hb => absurd rfl hb⟩, h.mutexes⟩

theorem resizeProlog_locking [Inhabited K] [Inhabited V] :
    Keeps (Locking Mutexes.init t₀ ∅ ∅) (fun _ => False) (resizeProlog : Act K V Unit) := by
  refine Keeps.bind (Keeps.read _) fun t => Keeps.bind (Keeps.forRange fun i => ?_) fun _ =>
    Keeps.bind (Keeps.emit fun _ h => h.write _) fun _ => Keeps.emit fun _ h => h.call ?_
  · exact Keeps.bind (Keeps.emit fun _ h => h.write _) fun _ =>
      Keeps.bind (Keeps.emit fun _ h => h.write _) fun _ => Keeps.emit fun _ h => h.write _
  · -- the mutexes of the junior segment were never taken before
    ext j
    · simp [Mutexes.held, Mutexes.call, Mutexes.init]
    · simp [Mutexes.held, Mutexes.call, Mutexes.init]
    · simp [Mutexes.held, Mutexes.call, Mutexes.init]
    · rfl

theorem resizePass1Bucket_locking (ix : Nat) (h : Locking Mutexes.init t₀ ∅ ∅ w) :
    Sat (resizePass1Bucket cfg ix) w (fun _ => True)
      (fun _ w' => Locking Mutexes.init t₀ ∅ ∅ w') (fun _ _ => False) := by
  have htaken := h.lockContent (i := ix) rfl (by simp)
  refine sat_getTable_bind (sat_call_bind trivial (Sat.bind ?_))
  have hcopy : Keeps (Locking Mutexes.init t₀ ∅ (insert ix ∅)) (fun _ => False)
      (Action.when (w.table.isFree ix = false ∧ mustMove cfg w.table ix = true) do
        contentCopy cfg (w.table.bucketCount + ix) (w.table.value ix)
        Hstore.write (.state (w.table.bucketCount + ix) .inUse)) :=
    Keeps.when (Keeps.bind (contentCopy_locking rfl _) fun _ =>
      Keeps.emit fun _ h => h.write _)
  refine hcopy.sat htaken fun _ w₁ h₁ => ?_
  have hdone := h₁.unlockContent (i := ix) rfl (by simp)
  rw [Finset.erase_insert (by simp)] at hdone
  exact sat_call trivial trivial hdone

theorem resizePass2AdjustOwner_locking (ix : Nat) (k : κ) (h : Locking Mutexes.init t₀ ∅ C w) :
    Sat (resizePass2AdjustOwner cfg ix k) w (fun _ => True)
      (fun _ w' => Locking Mutexes.init t₀ ∅ C w') (fun _ _ => False) := by
  have hM := Mutexes.init_calm
  refine sat_getTable_bind (Sat.when (fun _ => ?_) fun _ => ⟨trivial, h⟩)
  generalize w.table.bucketIx (cfg.hf k) = senior
  have hpos := w.table.bucketCount_pos
  have hne : w.table.bucketCount + senior ≠ senior := by omega
  have h₁ := h.lockOwner hM (i := senior) (by simp)
  have h₂ := h₁.lockOwner hM (i := w.table.bucketCount + senior) (by simpa using hne)
  have h₃ := (h₂.write (.owner (w.table.bucketCount + senior) (Owner.insert
    (w.table.owner (w.table.bucketCount + senior)) (w.table.distanceWrapped senior ix)))).write
    (.owner senior (Owner.erase (w.table.owner senior) (w.table.distanceWrapped senior ix)))
  have h₄ := h₃.unlockOwner hM (i := w.table.bucketCount + senior) (by simp)
  rw [Finset.erase_insert (by simpa using hne)] at h₄
  have h₅ := h₄.unlockOwner hM (i := senior) (by simp)
  rw [Finset.erase_insert (by simp)] at h₅
  exact sat_call_bind trivial (sat_call_bind trivial (sat_write_bind trivial (sat_write_bind trivial
    (sat_call_bind trivial (sat_call trivial trivial h₅)))))

theorem resizePass2Content_locking (ix : Nat) (h : Locking Mutexes.init t₀ ∅ C w) :
    Sat (resizePass2Content cfg ix) w (fun _ => True)
      (fun _ w' => Locking Mutexes.init t₀ ∅ C w') (fun _ _ => False) := by
  refine sat_getTable_bind ?_
  split
  · refine Sat.bind ((resizePass2AdjustOwner_locking ix _ h).post fun _ w₁ h₁ => ?_)
    refine Sat.bind ((contentErase_locking rfl).sat h₁ fun _ w₂ h₂ => ?_)
    exact sat_write trivial trivial (h₂.write (.state ix .free))
  · exact Sat.when (fun _ => resizePass2AdjustOwner_locking ix _ h) fun _ => ⟨trivial, h⟩

theorem resizePass2Bucket_locking (ix : Nat) (h : Locking Mutexes.init t₀ ∅ ∅ w) :
    Sat (resizePass2Bucket cfg ix) w (fun _ => True)
      (fun _ w' => Locking Mutexes.init t₀ ∅ ∅ w') (fun _ _ => False) := by
  have hpos := w.table.bucketCount_pos
  have hne : ix ≠ w.table.bucketCount + ix := by omega
  have h₁ := h.lockContent (i := w.table.bucketCount + ix) rfl (by simp)
  have h₂ := h₁.lockContent (i := ix) rfl (by simpa using hne)
  refine sat_getTable_bind (sat_call_bind trivial (sat_call_bind trivial (Sat.bind
    ((resizePass2Content_locking ix h₂).post fun _ w₁ h₃ => ?_))))
  have h₄ := h₃.unlockContent (i := ix) rfl (by simp)
  rw [Finset.erase_insert (by simpa using hne)] at h₄
  have h₅ := h₄.unlockContent (i := w.table.bucketCount + ix) rfl (by simp)
  rw [Finset.erase_insert (by simp)] at h₅
  exact sat_call_bind trivial (sat_call trivial trivial h₅)

theorem resize_locking [Inhabited K] [Inhabited V] (h : Locking Mutexes.init t₀ ∅ ∅ w) :
    Sat (resize cfg) w (fun _ => True) (fun _ w' => Locking Mutexes.init t₀ ∅ ∅ w') (fun _ _ => False) := by
  refine Sat.bind (resizeProlog_locking.sat h fun _ w₁ h₁ => ?_)
  refine Sat.bind ((sat_getTable_bind (Sat.forRange (fun _ => Locking Mutexes.init t₀ ∅ ∅)
    h₁ (fun _ _ => trivial) fun i _ _ => resizePass1Bucket_locking i)).post fun _ w₂ h₂ => ?_)
  refine Sat.bind (sat_getTable_bind (sat_write trivial trivial ?_))
  have hunstable := h₂.write (.segmentCount (ValueUnstable.destabilize w₂.table.segmentCountActual))
  refine Sat.bind ((sat_getTable_bind (Sat.forRange (fun _ => Locking Mutexes.init t₀ ∅ ∅)
    hunstable (fun _ _ => trivial) fun i _ _ => resizePass2Bucket_locking i)).post fun _ w₃ h₃ => ?_)
  exact sat_getTable_bind (sat_write trivial trivial (h₃.write
    (.segmentCount (ValueUnstable.valueSetStable 1 (w₃.table.segmentCountNotStable + 1)))))

end Resize

section Public

variable {K κ V : Type} [DecidableEq κ] {cfg : Config K κ V} {M : Mutexes} {t₀ t : Table K V}
  {m : KeyMap κ V} {k : κ}

theorem erase_locking (hM : M.Calm) (hfree : ∀ j, locateKey cfg t k (bucket cfg t k) = some j → M.content j = 0)
    (l : List (Step K V)) (h : Locking M t₀ ∅ ∅ ⟨t, l⟩) :
    Sat (erase cfg k) ⟨t, l⟩ (fun _ => True) (fun _ w' => Locking M t₀ ∅ ∅ w') (fun _ _ => False) := by
  generalize hbi : bucket cfg t k = bi at hfree
  have hhome := h.lockOwner hM (i := bi) (by simp)
  refine sat_getTable_bind ?_
  dsimp only
  rw [hbi]
  refine sat_call_bind trivial ?_
  cases hlocate : locateKey cfg t k bi with
  | none =>
    have hdone := hhome.unlockOwner hM (i := bi) (by simp)
    rw [Finset.erase_insert (by simp)] at hdone
    exact sat_call_bind trivial (Sat.pure trivial hdone)
  | some j =>
    have hj := hfree j hlocate
    have htaken := hhome.lockContent hj (by simp)
    dsimp only
    refine sat_call_bind trivial (Sat.bind ((sizeUpdate_locking _).sat htaken fun _ w₁ h₁ => ?_))
    have h₂ : Locking M t₀ (insert bi ∅) (insert j ∅) (Store.apply w₁ (Step.write (.owner bi
        (Owner.erase (t.owner bi) ((j + 2 ^ 64 - bi) % 2 ^ 64 % 2 ^ 32))))) :=
      h₁.write_other rfl rfl rfl
    refine sat_write_bind trivial (Sat.bind ((contentErase_locking hj).sat h₂ fun _ w₃ h₃ => ?_))
    refine Sat.bind ((sizeUpdate_locking _).sat h₃ fun _ w₄ h₄ => ?_)
    refine Sat.bind ((sizeUpdate_locking _).sat h₄ fun _ w₅ h₅ => ?_)
    have h₆ := h₅.unlockContent hj (by simp)
    have h₇ := h₆.unlockOwner hM (i := bi) (by simp)
    rw [Finset.erase_insert (by simp), Finset.erase_insert (by simp)] at h₇
    exact sat_call_bind trivial (sat_call_bind trivial (Sat.pure trivial h₇))

/-- All buckets are in use, or the nearest free one cannot be brought into reach of the home of `k`, and the table can be
enlarged. -/
def AsksResize (cfg : Config K κ V) (t : Table K V) (k : κ) : Prop :=
  (∀ d, NearestFree t (bucket cfg t k) d → Stuck cfg t (bucket cfg t k) d) ∧
    cfg.autoResize = true ∧ t.segmentCountNotStable < segmentCapacity

theorem emplaceFrom_locking [Inhabited K] [Inhabited V] (args : Nat → K × V)
    (hkey : ∀ j, cfg.key (args j).1 = k) (hM : M.Calm) (hwf : WellFormed cfg t m) (n j : Nat)
    (l : List (Step K V)) (hguard : M = Mutexes.init ∨ (locateKey cfg t k (bucket cfg t k) = none →
        PathClear M t (bucket cfg t k) ∧ ¬ AsksResize cfg t k)) (h : Locking M t₀ ∅ ∅ ⟨t, l⟩) :
    Sat (emplaceFrom cfg args n j) ⟨t, l⟩ (fun _ => True) (fun _ w' => Locking M t₀ ∅ ∅ w')
      (fun _ w' => Locking M t₀ ∅ ∅ w') := by
  induction n generalizing t j l with
  | zero => exact Sat.fail trivial h
  | succ n ih =>
    have hbi := bucket_lt cfg t k
    unfold emplaceFrom
    dsimp only
    rw [hkey j]
    have hhome : Locking M t₀ {bucket cfg t k} ∅
        ⟨t, .call (.lockOwner (bucket cfg t k)) :: .call (.construct (args j)) :: l⟩ :=
      (h.call (c := .construct (args j)) rfl).lockOwner hM (by simp)
    refine sat_call_bind trivial (sat_getTable_bind (sat_call_bind trivial ?_))
    dsimp only
    rw [Represents.alreadyPresent_eq_locateFrom]
    have hleave : ∀ w, Locking M t₀ {bucket cfg t k} ∅ w → Locking M t₀ ∅ ∅
        (Store.apply w (Step.call (.unlockOwner (bucket cfg t k)))) := by
      intro w hw
      have hdone := hw.unlockOwner hM (i := bucket cfg t k) (by simp)
      rwa [Finset.erase_singleton] at hdone
    cases hlocate : locateFrom cfg t k Owner.size (t.owner (bucket cfg t k)) (bucket cfg t k) with
    | some b =>
      exact sat_call_bind trivial (sat_call_bind trivial (Sat.pure trivial
        ((hleave _ hhome).call (c := .destroy (args j)) rfl)))
    | none =>
      have hnew : cfg.key (args j).1 ∉ m := by
        rw [hkey]
        exact hwf.represents.locateKey_eq_none hlocate
      have hclear : PathClear M t (bucket cfg t k) := by
        rcases hguard with hinit | hguard
        · intro d _
          rw [hinit]
          rfl
        · exact (hguard hlocate).1
      have hfind := emplaceNew_sat (C := fun _ => True) (fun _ _ _ _ => trivial) hwf (congrArg (bucket cfg t) (hkey j)) hnew
        (.call (.lockOwner (bucket cfg t k)) :: .call (.construct (args j)) :: l) rfl
      have hlocks := emplaceNew_locking hM (args j) hwf hbi hclear _ rfl hhome
      refine Sat.handle (Sat.bind ((hfind.and hlocks).ends ?_ ?_))
      · rintro dst w₁ ⟨-, h₁⟩
        exact sat_call_bind trivial (sat_call_bind trivial (Sat.pure trivial
          ((hleave _ h₁).call (c := .destroy (args j)) rfl)))
      · rintro e ⟨u, lu⟩ ⟨⟨-, hwfu, hlu, hcount, -⟩, h₁, hstuck⟩
        have h₂ := hleave _ h₁
        refine sat_call_bind trivial (sat_getTable_bind ?_)
        split
        · rename_i hresize
          -- the table is enlarged only when no mutex is held
          have hinit : M = Mutexes.init := by
            refine hguard.resolve_right fun hguard => (hguard hlocate).2 ⟨hstuck, hresize.2.1, ?_⟩
            have hsame : u.segmentCountNotStable = t.segmentCountNotStable :=
              congrArg (ValueUnstable.valueNotStable 1) hcount
            exact hsame ▸ hresize.2.2
          subst hinit
          have hgrow := resize_sat (C := fun _ => True) (fun _ _ _ => trivial) hwfu hresize.2.2
            (.call (.unlockOwner (bucket cfg t k)) :: lu) rfl
          refine Sat.bind ((hgrow.and (resize_locking h₂)).ends ?_ (fun _ _ h => h.1.elim))
          rintro - ⟨v, lv⟩ ⟨⟨hwfv, -, -⟩, h₃⟩
          exact sat_call_bind trivial (ih hwfv (j + 1) _ (Or.inl rfl) (h₃.call rfl))
        · exact sat_call_bind trivial (Sat.fail trivial (h₂.call (c := .destroy (args j)) rfl))

end Public

end Comanche.Hstore
