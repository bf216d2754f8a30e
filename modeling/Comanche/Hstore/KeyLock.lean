import Comanche.Hstore.Locking
import Comanche.Hstore.Refine
import Comanche.Hstore.Session

/-!
# Locks on keys

Between requests the content mutex of a bucket records the handles on the key that stands there.
-/

namespace Comanche.Hstore

open Lib
open Function (update update_of_ne update_self)

section LockState

variable {κ : Type} [DecidableEq κ] {handles : List (κ × Bool)} {k k' : κ} {exclusive : Bool}

local instance lawfulBEq_handle : LawfulBEq (κ × Bool) := inferInstance

def lockState (handles : List (κ × Bool)) (k : κ) : Int :=
  if (k, true) ∈ handles then -1 else handles.count (k, false)

def Exclusive (handles : List (κ × Bool)) : Prop :=
  ∀ k, (k, true) ∈ handles → handles.count (k, true) = 1 ∧ (k, false) ∉ handles

theorem lockState_eq_zero_iff : lockState handles k = 0 ↔ ∀ b, (k, b) ∉ handles := by
  unfold lockState
  split
  · rename_i hmem
    simp only [Int.reduceNeg, reduceCtorEq, false_iff]
    exact fun hnone => hnone true hmem
  · rename_i hmem
    rw [Int.natCast_eq_zero, List.count_eq_zero]
    constructor
    · intro hfalse b
      cases b with
      | true => exact hmem
      | false => exact hfalse
    · intro hnone
      exact hnone false

theorem lockState_nonneg_iff : 0 ≤ lockState handles k ↔ (k, true) ∉ handles := by
  unfold lockState
  split
  · rename_i hmem
    simp [hmem]
  · rename_i hmem
    simp [hmem]

theorem lockState_eq_neg_one_iff : lockState handles k = -1 ↔ (k, true) ∈ handles := by
  unfold lockState
  split
  · rename_i hmem
    simp [hmem]
  · rename_i hmem
    simp only [hmem, iff_false]
    omega

theorem lockState_cons_of_ne (h : k' ≠ k) : lockState ((k', exclusive) :: handles) k = lockState handles k := by
  unfold lockState
  have hne : ∀ b, (k', exclusive) ≠ (k, b) := fun b heq => h (congrArg Prod.fst heq)
  rw [List.count_cons_of_ne (hne false)]
  simp only [List.mem_cons, (hne true).symm, false_or]

theorem lockState_cons_shared (h : (k, true) ∉ handles) :
    lockState ((k, false) :: handles) k = lockState handles k + 1 := by
  unfold lockState
  have hcons : (k, true) ∉ (k, false) :: handles := by simp [h]
  rw [if_neg h, if_neg hcons, List.count_cons_self]
  push_cast
  rfl

theorem lockState_erase_of_ne (h : k' ≠ k) : lockState (handles.erase (k', exclusive)) k = lockState handles k := by
  unfold lockState
  have hne : ∀ b, (k, b) ≠ (k', exclusive) := fun b heq => h (congrArg Prod.fst heq).symm
  rw [List.count_erase_of_ne (hne false)]
  simp [List.mem_erase_of_ne (hne true)]

section

variable (hex : Exclusive handles)
include hex

theorem lockState_erase_exclusive (hmem : (k, true) ∈ handles) : lockState (handles.erase (k, true)) k = 0 := by
  obtain ⟨hone, hnone⟩ := hex k hmem
  rw [lockState_eq_zero_iff]
  intro b
  cases b with
  | true =>
    rw [← List.count_eq_zero, List.count_erase_self, hone]
  | false => exact fun h => hnone (List.mem_of_mem_erase h)

theorem lockState_erase_shared (hmem : (k, false) ∈ handles) :
    lockState (handles.erase (k, false)) k = lockState handles k - 1 := by
  have hnone : (k, true) ∉ handles := fun h => (hex k h).2 hmem
  have hpos : 0 < handles.count (k, false) := List.count_pos_iff.mpr hmem
  unfold lockState
  rw [if_neg hnone, if_neg fun h => hnone (List.mem_of_mem_erase h), List.count_erase_self]
  omega

theorem Exclusive.cons (hadmits : if exclusive then lockState handles k = 0 else 0 ≤ lockState handles k) :
    Exclusive ((k, exclusive) :: handles) := by
  intro k' hmem
  by_cases heq : k' = k
  · subst heq
    cases exclusive with
    | true =>
      rw [if_pos rfl, lockState_eq_zero_iff] at hadmits
      rw [List.count_cons_self, List.count_eq_zero.mpr (hadmits true)]
      exact ⟨rfl, by simpa using hadmits false⟩
    | false =>
      rw [if_neg (by decide), lockState_nonneg_iff] at hadmits
      simp only [List.mem_cons, Prod.mk.injEq, Bool.true_eq_false, and_false, false_or] at hmem
      exact absurd hmem hadmits
  · have hne : ∀ b, (k', b) ≠ (k, exclusive) := fun b h => heq (congrArg Prod.fst h)
    rw [List.mem_cons, or_iff_right (hne true)] at hmem
    obtain ⟨hone, hnone⟩ := hex k' hmem
    rw [List.count_cons_of_ne (hne true).symm]
    refine ⟨hone, ?_⟩
    rw [List.mem_cons, or_iff_right (hne false)]
    exact hnone

theorem Exclusive.erase (h : κ × Bool) : Exclusive (handles.erase h) := by
  intro k hmem
  obtain ⟨hone, hnone⟩ := hex k (List.mem_of_mem_erase hmem)
  refine ⟨le_antisymm ?_ (List.count_pos_iff.mpr hmem), fun h => hnone (List.mem_of_mem_erase h)⟩
  rw [← hone]
  exact List.Sublist.count_le _ List.erase_sublist

end

end LockState

section Recorded

variable {K κ V : Type} [DecidableEq κ] {cfg : Config K κ V} {t t' : Table K V}
  {m m' : KeyMap κ V} {handles : List (κ × Bool)} {k : κ} {b j : Nat}

theorem WellFormed.locateKey_eq_some_iff (h : WellFormed cfg t m) : locateKey cfg t k (bucket cfg t k) = some j ↔
      j < t.bucketCount ∧ t.state j = .inUse ∧ cfg.key (t.value j).1 = k := by
  constructor
  · intro hj
    obtain ⟨p, hc, rfl, hkey, -⟩ := h.represents.locateKey_eq_some hj
    exact ⟨t.addSmall_lt hc.1, (h.states _ (t.addSmall_lt hc.1)).mpr hc.claimed, hkey⟩
  · rintro ⟨hlt, hstate, hkey⟩
    obtain ⟨i, p, hc, rfl⟩ := (h.states j hlt).mp hstate
    have hmem : k ∈ m := hkey ▸ Finmap.mem_of_lookup_eq_some (h.represents.lookup_entry hc)
    cases hlocate : locateKey cfg t k (bucket cfg t k) with
    | none => exact absurd hmem (h.represents.locateKey_eq_none hlocate)
    | some j' =>
      obtain ⟨p', hc', rfl, hkey', -⟩ := h.represents.locateKey_eq_some hlocate
      obtain ⟨rfl, rfl⟩ := h.represents.key_inj hc' hc (hkey'.trans hkey.symm)
      rfl

theorem WellFormed.exists_locateKey (h : WellFormed cfg t m) (hk : k ∈ m) :
    ∃ j, locateKey cfg t k (bucket cfg t k) = some j := by
  cases hlocate : locateKey cfg t k (bucket cfg t k) with
  | none => exact absurd hk (h.represents.locateKey_eq_none hlocate)
  | some j => exact ⟨j, rfl⟩

def recorded (cfg : Config K κ V) (t : Table K V) (handles : List (κ × Bool)) : Mutexes :=
  let content b :=
    if b < t.bucketCount ∧ t.state b = .inUse then lockState handles (cfg.key (t.value b).1) else 0
  ⟨fun _ => 0, content, fun b => decide (content b = -1), true⟩

theorem recorded_calm : (recorded cfg t handles).Calm := ⟨rfl, fun _ => rfl⟩

theorem Mutexes.ofLog_call (c : Call K V) (l : List (Step K V)) : ofLog (.call c :: l) = (ofLog l).call c := rfl

theorem recorded_nil : recorded cfg t [] = Mutexes.init := by
  ext b
  · rfl
  · simp [recorded, Mutexes.init, lockState]
  · simp [recorded, Mutexes.init, lockState]
  · rfl

theorem recorded_ext {M : Mutexes} (hM : M.Calm) (hunique : ∀ b, M.unique b = true ↔ M.content b = -1)
    (h : ∀ b, M.content b = (recorded cfg t handles).content b) : M = recorded cfg t handles := by
  ext b
  · exact hM.owner b
  · exact h b
  · rw [Bool.eq_iff_iff, hunique, h]
    exact decide_eq_true_iff.symm
  · exact hM.sound

section

variable (h : WellFormed cfg t m) (hj : locateKey cfg t k (bucket cfg t k) = some j)
include h hj

theorem recorded_content_of_locate : (recorded cfg t handles).content j = lockState handles k := by
  obtain ⟨hlt, hstate, hkey⟩ := h.locateKey_eq_some_iff.mp hj
  change (if _ then _ else _) = _
  rw [if_pos ⟨hlt, hstate⟩, hkey]

theorem recorded_content_of_locate_ne (hb : b ≠ j) {handles' : List (κ × Bool)}
    (hother : ∀ k', k' ≠ k → lockState handles' k' = lockState handles k') :
    (recorded cfg t handles').content b = (recorded cfg t handles).content b := by
  change (if _ then _ else _) = if _ then _ else _
  split
  · rename_i hused
    refine hother _ fun hkey => hb ?_
    have hloc := h.locateKey_eq_some_iff.mpr ⟨hused.1, hused.2, hkey⟩
    exact Option.some.inj (hloc.symm.trans hj)
  · rfl

end

theorem recorded_content_ne_zero (hb : (recorded cfg t handles).content b ≠ 0) :
    b < t.bucketCount ∧ t.state b = .inUse ∧ ∃ h ∈ handles, h.1 = cfg.key (t.value b).1 := by
  change (if _ then _ else _) ≠ _ at hb
  split at hb
  · rename_i hused
    rw [Ne, lockState_eq_zero_iff, not_forall] at hb
    obtain ⟨e, hmem⟩ := hb
    exact ⟨hused.1, hused.2, _, not_not.mp hmem, rfl⟩
  · exact absurd rfl hb

section

variable (h : Spares (recorded cfg t handles) t t') (hwf : WellFormed cfg t m) (hwf' : WellFormed cfg t' m')
include h hwf hwf'

theorem Spares.locateKey {e : κ × Bool} (he : e ∈ handles) (hk : e.1 ∈ m) :
    ∃ j, locateKey cfg t e.1 (bucket cfg t e.1) = some j ∧
      locateKey cfg t' e.1 (bucket cfg t' e.1) = some j ∧ t'.value j = t.value j := by
  obtain ⟨j, hj⟩ := hwf.exists_locateKey hk
  obtain ⟨hlt, hstate, hkey⟩ := hwf.locateKey_eq_some_iff.mp hj
  have hheld : (recorded cfg t handles).content j ≠ 0 := by
    rw [recorded_content_of_locate hwf hj, Ne, lockState_eq_zero_iff]
    exact fun hnone => hnone e.2 he
  refine ⟨j, hj, hwf'.locateKey_eq_some_iff.mpr ⟨?_, ?_, ?_⟩, h.value j hheld⟩
  · rwa [Table.bucketCount_congr (h.count j hheld)]
  · rw [h.state j hheld, hstate]
  · rw [h.value j hheld, hkey]

theorem Spares.recorded_eq (hpresent : ∀ e ∈ handles, e.1 ∈ m) : recorded cfg t' handles = recorded cfg t handles := by
  refine (recorded_ext recorded_calm (fun _ => decide_eq_true_iff) fun b => ?_).symm
  by_cases hb : (recorded cfg t' handles).content b = 0
  · rw [hb]
    by_contra hne
    obtain ⟨hlt, hstate, e, he, hkey⟩ := recorded_content_ne_zero hne
    obtain ⟨j, hj, hj', -⟩ := h.locateKey hwf hwf' he (hpresent e he)
    have hloc := hwf.locateKey_eq_some_iff.mpr ⟨hlt, hstate, hkey.symm⟩
    cases hloc.symm.trans hj
    rw [recorded_content_of_locate hwf' hj'] at hb
    exact lockState_eq_zero_iff.mp hb e.2 he
  · obtain ⟨hlt, hstate, e, he, hkey⟩ := recorded_content_ne_zero hb
    obtain ⟨j, hj, hj', -⟩ := h.locateKey hwf hwf' he (hpresent e he)
    have hloc := hwf'.locateKey_eq_some_iff.mpr ⟨hlt, hstate, hkey.symm⟩
    cases hloc.symm.trans hj'
    rw [recorded_content_of_locate hwf' hj', recorded_content_of_locate hwf hj]

end

end Recorded

namespace Mutexes

variable {K V : Type} {M : Mutexes} {bi j : Nat}

def taken (M : Mutexes) (j : Nat) (exclusive : Bool) : Mutexes :=
  { M with
    content := update M.content j (if exclusive then -1 else M.content j + 1)
    unique := update M.unique j exclusive }

def released (M : Mutexes) (j : Nat) (exclusive : Bool) : Mutexes :=
  { M with
    content := update M.content j (if exclusive then 0 else M.content j - 1)
    unique := update M.unique j false }

attribute [local simp] call setOwner setContent taken released

theorem call_lockUnique (hM : M.Calm) (hj : M.content j = 0) :
    (((M.call (.lockOwnerShared bi : Call K V)).call (.lockContent j : Call K V)).call
      (.setUnique j true : Call K V)).call (.unlockOwnerShared bi : Call K V) = M.taken j true := by
  ext i
  · by_cases heq : i = bi <;> simp [heq, hM.owner]
  · simp
  · simp
  · simp [hj, hM.owner, hM.sound]

theorem call_lockShared (hM : M.Calm) (hj : 0 ≤ M.content j) :
    (((M.call (.lockOwnerShared bi : Call K V)).call (.lockContentShared j : Call K V)).call
      (.setUnique j false : Call K V)).call (.unlockOwnerShared bi : Call K V) = M.taken j false := by
  have hne : M.content j ≠ -1 := by omega
  ext i
  · by_cases heq : i = bi <;> simp [heq, hM.owner]
  · simp
  · simp
  · simp [hne, hM.owner, hM.sound]

theorem call_unlockUnique (hM : M.Calm) (hj : M.content j = -1) :
    (((M.call (.lockOwnerShared bi : Call K V)).call (.setUnique j false : Call K V)).call
      (.unlockContent j : Call K V)).call (.unlockOwnerShared bi : Call K V) = M.released j true := by
  ext i
  · by_cases heq : i = bi <;> simp [heq, hM.owner]
  · simp
  · simp
  · simp [hj, hM.owner, hM.sound]

theorem call_unlockShared (hM : M.Calm) (hj : 0 < M.content j) (hunique : M.unique j = false) :
    ((M.call (.lockOwnerShared bi : Call K V)).call (.unlockContentShared j : Call K V)).call
      (.unlockOwnerShared bi : Call K V) = M.released j false := by
  ext i
  · by_cases heq : i = bi <;> simp [heq, hM.owner]
  · simp
  · by_cases heq : i = j <;> simp [heq, hunique]
  · simp [hj, hM.owner, hM.sound]

end Mutexes

section Handles

variable {K κ V : Type} [DecidableEq κ] {cfg : Config K κ V} {t : Table K V} {m : KeyMap κ V}
  {handles : List (κ × Bool)} {k : κ} {j : Nat}

section

variable (h : WellFormed cfg t m) (hj : locateKey cfg t k (bucket cfg t k) = some j)
include h hj

theorem recorded_update {handles' : List (κ × Bool)} {c : Int} {unique : Bool} (hc : c = lockState handles' k)
    (hunique : unique = true ↔ (k, true) ∈ handles')
    (hother : ∀ k', k' ≠ k → lockState handles' k' = lockState handles k') :
    { recorded cfg t handles with
      content := update (recorded cfg t handles).content j c
      unique := update (recorded cfg t handles).unique j unique } = recorded cfg t handles' := by
  subst hc
  refine recorded_ext ⟨rfl, fun _ => rfl⟩ (fun b => ?_) fun b => ?_
  · dsimp only
    by_cases hb : b = j
    · rw [hb, update_self, update_self, hunique, lockState_eq_neg_one_iff]
    · rw [update_of_ne hb, update_of_ne hb]
      exact decide_eq_true_iff
  · dsimp only
    by_cases hb : b = j
    · rw [hb, update_self, recorded_content_of_locate h hj]
    · rw [update_of_ne hb, recorded_content_of_locate_ne h hj hb hother]

theorem recorded_cons {exclusive : Bool}
    (hadmits : if exclusive then lockState handles k = 0 else 0 ≤ lockState handles k) :
    (recorded cfg t handles).taken j exclusive = recorded cfg t ((k, exclusive) :: handles) := by
  refine recorded_update h hj ?_ ?_ fun k' hk' => lockState_cons_of_ne hk'.symm
  · rw [recorded_content_of_locate h hj]
    cases exclusive with
    | true => simp [lockState]
    | false => exact (lockState_cons_shared (lockState_nonneg_iff.mp hadmits)).symm
  · cases exclusive with
    | true => simp
    | false => simpa using lockState_nonneg_iff.mp hadmits

theorem recorded_erase (hex : Exclusive handles) {exclusive : Bool}
    (hmem : (k, exclusive) ∈ handles) : (recorded cfg t handles).released j exclusive =
      recorded cfg t (handles.erase (k, exclusive)) := by
  refine recorded_update h hj ?_ ?_ fun k' hk' => lockState_erase_of_ne hk'.symm
  · rw [recorded_content_of_locate h hj]
    cases exclusive with
    | true => exact (lockState_erase_exclusive hex hmem).symm
    | false => exact (lockState_erase_shared hex hmem).symm
  · refine iff_of_false Bool.false_ne_true ?_
    cases exclusive with
    | true => exact lockState_eq_zero_iff.mp (lockState_erase_exclusive hex hmem) true
    | false => exact fun hin => (hex k (List.mem_of_mem_erase hin)).2 hmem

end

end Handles

section Kept

variable {K κ V : Type} [DecidableEq κ] {cfg : Config K κ V} {m m' : KeyMap κ V}
  {handles : List (κ × Bool)} {w w' : HopHash K V} {k : κ}

/-- The table stands for `m`, and its mutexes record the handles. -/
structure Kept (cfg : Config K κ V) (handles : List (κ × Bool)) (m : KeyMap κ V)
    (w : HopHash K V) : Prop where
  stands : Stands cfg w m
  mutexes : Mutexes.ofLog w.log = recorded cfg w.table handles
  present : ∀ e ∈ handles, e.1 ∈ m
  exclusive : Exclusive handles

def Respects (cfg : Config K κ V) (handles : List (κ × Bool)) (t : Table K V) (m : KeyMap κ V)
    (w : HopHash K V) : Prop :=
  Kept cfg handles m w ∧ Spares (recorded cfg t handles) t w.table

theorem Spares.refl (M : Mutexes) (t : Table K V) : Spares M t t :=
  ⟨fun _ _ => rfl, fun _ _ => rfl, fun _ _ => rfl⟩

theorem Mutexes.content_lockOwnerShared (M : Mutexes) (bi : Nat) :
    (M.call (.lockOwnerShared bi : Call K V)).content = M.content := rfl

theorem Mutexes.unique_lockOwnerShared (M : Mutexes) (bi : Nat) :
    (M.call (.lockOwnerShared bi : Call K V)).unique = M.unique := rfl

section

variable (h : Kept cfg handles m w)
include h

theorem Kept.locking : Locking (recorded cfg w.table handles) w.table ∅ ∅ w :=
  ⟨Spares.refl _ _, by rw [Mutexes.held_empty]; exact h.mutexes⟩

theorem Kept.respects (hl : Locking (recorded cfg w.table handles) w.table ∅ ∅ w') (hstands : Stands cfg w' m')
    (hpresent : ∀ e ∈ handles, e.1 ∈ m') : Respects cfg handles w.table m' w' := by
  refine ⟨⟨hstands, ?_, hpresent, h.exclusive⟩, hl.toSpares⟩
  rw [hl.mutexes, Mutexes.held_empty]
  exact (hl.toSpares.recorded_eq h.stands.wellFormed hstands.wellFormed h.present).symm

theorem Kept.unlockOwnerShared {bi : Nat} :
    Kept cfg handles m ⟨w.table, .call (.unlockOwnerShared bi) :: .call (.lockOwnerShared bi) :: w.log⟩ := by
  refine ⟨⟨h.stands.wellFormed, rfl⟩, ?_, h.present, h.exclusive⟩
  simp only [Mutexes.ofLog_call]
  rw [h.mutexes, Mutexes.call_ownerShared recorded_calm]

theorem lockContentOf_sat (admits : Int → Bool) (take : Nat → Call K V) (exclusive : Bool)
    (hadmits : ∀ c, admits c = true ↔ if exclusive then c = 0 else 0 ≤ c)
    (htake : ∀ (M : Mutexes) (bi j : Nat), M.Calm → admits (M.content j) = true →
      (((M.call (.lockOwnerShared bi : Call K V)).call (take j)).call
        (.setUnique j exclusive : Call K V)).call (.unlockOwnerShared bi : Call K V) = M.taken j exclusive) :
    Sat (lockContentOf cfg admits take exclusive k) w (fun _ => True)
      (fun r w' => w'.table = w.table ∧ r = (decide (k ∈ m) && admits (lockState handles k)) ∧
        if r then Kept cfg ((k, exclusive) :: handles) m w' else Kept cfg handles m w') (fun _ _ => False) := by
  have hwf := h.stands.wellFormed
  refine sat_getTable_bind (sat_call_bind trivial ?_)
  cases hlocate : locateKey cfg w.table k (bucket cfg w.table k) with
  | none =>
    have hk := hwf.represents.locateKey_eq_none hlocate
    refine sat_call_bind trivial (Sat.pure trivial ⟨rfl, ?_, h.unlockOwnerShared⟩)
    simp [hk]
  | some j =>
    obtain ⟨p, -, -, -, hlookup⟩ := hwf.represents.locateKey_eq_some hlocate
    have hk : k ∈ m := Finmap.mem_of_lookup_eq_some hlookup
    have hcontent : (Mutexes.ofLog (Step.call (.lockOwnerShared (bucket cfg w.table k)) ::
        w.log)).content j = lockState handles k := by
      rw [Mutexes.ofLog_call, h.mutexes, Mutexes.content_lockOwnerShared, recorded_content_of_locate hwf hlocate]
    refine Sat.bind (Sat.read trivial ?_)
    dsimp only
    rw [hcontent]
    by_cases hgrant : admits (lockState handles k) = true
    · rw [if_pos hgrant]
      refine sat_call_bind trivial (sat_call_bind trivial (sat_call_bind trivial
        (Sat.pure trivial ⟨rfl, by simp [hk, hgrant], ?_⟩)))
      rw [if_pos rfl]
      refine ⟨⟨hwf, rfl⟩, ?_, ?_, h.exclusive.cons ((hadmits _).mp hgrant)⟩
      · simp only [Mutexes.ofLog_call]
        rw [h.mutexes, htake _ _ _ recorded_calm, recorded_cons hwf hlocate ((hadmits _).mp hgrant)]
        rwa [recorded_content_of_locate hwf hlocate]
      · intro e he
        rcases List.mem_cons.mp he with rfl | he
        · exact hk
        · exact h.present e he
    · rw [if_neg hgrant]
      refine sat_call_bind trivial (Sat.pure trivial ⟨rfl, ?_, h.unlockOwnerShared⟩)
      simp [hgrant]

def admitted (handles : List (κ × Bool)) (exclusive : Bool) (k : κ) : Bool :=
  if exclusive then lockState handles k == 0 else decide (0 ≤ lockState handles k)

theorem tryLock_sat (exclusive : Bool) : Sat (tryLock cfg exclusive k) w (fun _ => True)
      (fun r w' => w'.table = w.table ∧ r = (decide (k ∈ m) && admitted handles exclusive k) ∧
        if r then Kept cfg ((k, exclusive) :: handles) m w' else Kept cfg handles m w') (fun _ _ => False) := by
  cases exclusive with
  | true =>
    exact lockContentOf_sat h (fun state => state == 0) .lockContent true (fun c => by simp)
      fun M bi j hM hj => Mutexes.call_lockUnique hM (by simpa using hj)
  | false =>
    exact lockContentOf_sat h (fun state => decide (0 ≤ state)) .lockContentShared false
      (fun c => by simp) fun M bi j hM hj => Mutexes.call_lockShared hM (by simpa using hj)

theorem unlock_sat {exclusive : Bool} (hmem : (k, exclusive) ∈ handles) : Sat (unlock cfg k) w (fun _ => True)
      (fun _ w' => w'.table = w.table ∧ Kept cfg (handles.erase (k, exclusive)) m w') (fun _ _ => False) := by
  have hwf := h.stands.wellFormed
  have hk : k ∈ m := h.present _ hmem
  obtain ⟨j, hlocate⟩ := hwf.exists_locateKey hk
  have hcontent : (recorded cfg w.table handles).content j = lockState handles k :=
    recorded_content_of_locate hwf hlocate
  have herase := recorded_erase hwf hlocate h.exclusive hmem
  have hpresent : ∀ e ∈ handles.erase (k, exclusive), e.1 ∈ m :=
    fun e he => h.present e (List.mem_of_mem_erase he)
  have hunique : (recorded cfg w.table handles).unique j = exclusive := by
    rw [Bool.eq_iff_iff]
    refine Iff.trans decide_eq_true_iff ?_
    change (recorded cfg w.table handles).content j = -1 ↔ _
    rw [hcontent, lockState_eq_neg_one_iff]
    cases exclusive with
    | true => simp [hmem]
    | false => simpa using fun hex => (h.exclusive k hex).2 hmem
  refine sat_getTable_bind (sat_call_bind trivial ?_)
  rw [hlocate]
  refine Sat.bind (Sat.read trivial ?_)
  dsimp only
  have hstate : (Mutexes.ofLog (Step.call (.lockOwnerShared (bucket cfg w.table k)) :: w.log)).unique j = exclusive := by
    rw [Mutexes.ofLog_call, h.mutexes, Mutexes.unique_lockOwnerShared, hunique]
  rw [hstate]
  cases exclusive with
  | true =>
    refine sat_call_bind trivial (sat_call_bind trivial (sat_call trivial trivial
      ⟨rfl, ⟨hwf, rfl⟩, ?_, hpresent, h.exclusive.erase _⟩))
    simp only [Mutexes.ofLog_call]
    rw [h.mutexes, Mutexes.call_unlockUnique recorded_calm, herase]
    rw [hcontent, lockState_eq_neg_one_iff]
    exact hmem
  | false =>
    refine sat_call_bind trivial (sat_call trivial trivial ⟨rfl, ⟨hwf, rfl⟩, ?_, hpresent, h.exclusive.erase _⟩)
    simp only [Mutexes.ofLog_call]
    rw [h.mutexes, Mutexes.call_unlockShared recorded_calm _ hunique, herase]
    have hnonneg := lockState_nonneg_iff.mpr fun hex => (h.exclusive k hex).2 hmem
    have hne : lockState handles k ≠ 0 := fun hzero => lockState_eq_zero_iff.mp hzero false hmem
    rw [hcontent]
    omega

theorem at_kept : Sat (at_ cfg k) w (fun _ => True) (fun _ w' => k ∈ m ∧ w'.table = w.table ∧ Kept cfg handles m w')
      (fun e w' => e = .outOfRange ∧ k ∉ m ∧ w'.table = w.table ∧ Kept cfg handles m w') := by
  have hwf := h.stands.wellFormed
  refine sat_getTable_bind (sat_call_bind trivial (sat_call_bind trivial ?_))
  dsimp only
  cases hlocate : locateKey cfg w.table k (bucket cfg w.table k) with
  | none =>
    exact Sat.fail trivial ⟨rfl, hwf.represents.locateKey_eq_none hlocate, rfl, h.unlockOwnerShared⟩
  | some j =>
    obtain ⟨p, -, -, -, hlookup⟩ := hwf.represents.locateKey_eq_some hlocate
    exact Sat.pure trivial ⟨Finmap.mem_of_lookup_eq_some hlookup, rfl, h.unlockOwnerShared⟩

end

theorem assign_sat (h : Kept cfg ((k, true) :: handles) m w) (hfree : lockState handles k = 0) (v : V) :
    Sat (assign cfg k v) w (fun _ => True) (fun _ w' => Kept cfg ((k, true) :: handles) (m.insert k v) w' ∧
        Spares (recorded cfg w.table handles) w.table w'.table) (fun _ _ => False) := by
  have hk : k ∈ m := h.present _ List.mem_cons_self
  refine Sat.bind ((at_kept h).imp ?_ fun _ _ hout => hout.2.1 hk)
  rintro - ⟨t, l⟩ ⟨-, htable, hkept⟩
  change t = w.table at htable
  rw [← htable]
  have hwf : WellFormed cfg t m := hkept.stands.wellFormed
  obtain ⟨j, hlocate⟩ := hwf.exists_locateKey hk
  obtain ⟨p, hclaim, hj, hkey, -⟩ := hwf.represents.locateKey_eq_some hlocate
  obtain ⟨kj, hkj⟩ : ∃ kj, (t.value j).1 = kj := ⟨_, rfl⟩
  rw [hkj] at hkey
  refine sat_getTable_bind ?_
  dsimp only
  rw [hlocate]
  dsimp only
  rw [hkj]
  -- until the last store only the value at `j` has changed, and no mutex
  refine Sat.bind ((Sat.emitAll (C := fun _ => True) (E := fun _ _ => False)
    (I := fun w' => Mutexes.ofLog w'.log = recorded cfg t ((k, true) :: handles) ∧
      (w'.table = t ∨ ∃ x, w'.table = t.apply (.value j x))) ⟨hkept.mutexes, Or.inl rfl⟩
    (fun _ _ => trivial) ?_).post ?_)
  · intro x hx w' hw'
    obtain ⟨y, -, rfl⟩ := List.mem_map.mp hx
    refine ⟨hw'.1, Or.inr ⟨y, ?_⟩⟩
    change w'.table.apply (.value j y) = t.apply (.value j y)
    rcases hw'.2 with heq | ⟨z, heq⟩
    · rw [heq]
    · rw [heq, Table.apply_value_value]
  · rintro - w' ⟨hmutexes, hw'⟩
    have hlast : w'.table.apply (.value j (kj, v)) = t.apply (.value j (kj, v)) := by
      rcases hw' with heq | ⟨z, heq⟩
      · rw [heq]
      · rw [heq, Table.apply_value_value]
    refine sat_write trivial trivial ?_
    rw [hlast]
    have hself : cfg.key kj = cfg.key (entry t (bucket cfg t k) p).1 := by
      unfold entry
      rw [← hj, hkj]
    have hwf' : WellFormed cfg (t.apply (.value (t.addSmall (bucket cfg t k) p) (kj, v)))
        (m.insert (cfg.key kj) v) := hwf.update hclaim hself
    rw [← hj, hkey] at hwf'
    have hother : ∀ b, b ≠ j → (t.apply (.value j (kj, v))).value b = t.value b :=
      fun b hb => update_of_ne hb _ _
    refine ⟨⟨⟨hwf', rfl⟩, ?_, fun e he => ?_, h.exclusive⟩, fun b hb => ?_, fun b hb => rfl, fun b hb => rfl⟩
    · change Mutexes.ofLog w'.log = _
      rw [hmutexes]
      -- the key at `j` is the same, so that the record is
      refine recorded_ext recorded_calm (fun _ => decide_eq_true_iff) fun b => ?_
      have hkeys : cfg.key ((t.apply (.value j (kj, v))).value b).1 = cfg.key (t.value b).1 := by
        by_cases hb : b = j
        · subst hb
          have hnew : (t.apply (.value b (kj, v))).value b = (kj, v) := update_self _ _ _
          rw [hnew, hkj]
        · rw [hother b hb]
      change (if _ then _ else _) = if _ then _ else _
      rw [hkeys]
      rfl
    · rw [Finmap.mem_insert]
      exact Or.inr (h.present e he)
    · refine hother b ?_
      rintro rfl
      rw [recorded_content_of_locate hwf hlocate] at hb
      exact hb hfree

theorem erase_kept (h : Kept cfg handles m w) (hfree : ∀ e ∈ handles, e.1 ≠ k) :
    Sat (erase cfg k) w (fun _ => True) (fun _ w' => Respects cfg handles w.table (m.erase k) w')
      (fun _ _ => False) := by
  obtain ⟨t, l⟩ := w
  have hwf : WellFormed cfg t m := h.stands.wellFormed
  have hzero : lockState handles k = 0 :=
    lockState_eq_zero_iff.mpr fun b hb => hfree _ hb rfl
  refine ((erase_sat (C := fun _ => True) (fun _ _ _ => trivial) hwf l h.stands.log).and
    (erase_locking recorded_calm (fun j hj => ?_) l h.locking)).ends ?_
    (fun _ _ h => h.1)
  · exact (recorded_content_of_locate hwf hj).trans hzero
  · rintro r w' ⟨⟨-, hwf', hlog, -⟩, hlock⟩
    refine h.respects hlock ⟨hwf', hlog⟩ fun e he => ?_
    rw [Finmap.mem_erase]
    exact ⟨hfree e he, h.present e he⟩

variable [Inhabited K] [Inhabited V]

def Unhindered (cfg : Config K κ V) (handles : List (κ × Bool)) (w : HopHash K V) (kv : K × V) :
    Prop :=
  locateKey cfg w.table (cfg.key kv.1) (bucket cfg w.table (cfg.key kv.1)) = none →
    Roomy cfg w.table (cfg.key kv.1) ∧ (handles = [] ∨
      (PathClear (Mutexes.ofLog w.log) w.table (bucket cfg w.table (cfg.key kv.1)) ∧
        ¬ AsksResize cfg w.table (cfg.key kv.1)))

theorem emplace_kept (h : Kept cfg handles m w) {kv : K × V} (hclear : Unhindered cfg handles w kv) :
    Sat (emplace cfg fun _ => kv) w (fun _ => True)
      (fun r w' => if r.2 then Respects cfg handles w.table (m.insert (cfg.key kv.1) kv.2) w'
        else cfg.key kv.1 ∈ m ∧ w'.table = w.table ∧ Kept cfg handles m w')
      (fun _ w' => Respects cfg handles w.table m w') := by
  obtain ⟨t, l⟩ := w
  have hwf : WellFormed cfg t m := h.stands.wellFormed
  have hmutexes : Mutexes.ofLog l = recorded cfg t handles := h.mutexes
  have hguard : recorded cfg t handles = Mutexes.init ∨
      (locateKey cfg t (cfg.key kv.1) (bucket cfg t (cfg.key kv.1)) = none →
        PathClear (recorded cfg t handles) t (bucket cfg t (cfg.key kv.1)) ∧ ¬ AsksResize cfg t (cfg.key kv.1)) := by
    by_cases hnil : handles = []
    · rw [hnil]
      exact Or.inl recorded_nil
    · right
      intro hnone
      have hpath := (hclear hnone).2.resolve_left hnil
      rwa [show Mutexes.ofLog (HopHash.mk t l).log = _ from hmutexes] at hpath
  have hsat := emplace_sat (C := fun _ => True) (fun _ => kv) (fun _ => rfl) (fun _ _ _ _ => trivial) hwf l h.stands.log
  have hlocks := emplaceFrom_locking (fun _ => kv) (fun _ => rfl) recorded_calm hwf
    (segmentCapacity + 1) 0 l hguard h.locking
  refine (hsat.and hlocks).ends ?_ ?_
  · rintro ⟨j, inserted⟩ w' ⟨⟨hlog, hpresent, habsent⟩, hlock⟩
    by_cases hmem : cfg.key kv.1 ∈ m
    · obtain ⟨hfalse, htable, -⟩ := hpresent hmem
      change inserted = false at hfalse
      rw [hfalse, if_neg (by simp)]
      refine ⟨hmem, htable, (h.respects hlock ⟨?_, hlog⟩ h.present).1⟩
      rw [htable]
      exact hwf
    · obtain ⟨htrue, hins⟩ := habsent hmem
      change inserted = true at htrue
      obtain ⟨-, -, hwf'⟩ := hins (hclear (hwf.represents.locateKey_of_notMem hmem)).1
      rw [htrue, if_pos rfl]
      refine h.respects hlock ⟨hwf', hlog⟩ fun e he => ?_
      rw [Finmap.mem_insert]
      exact Or.inr (h.present e he)
  · rintro e w' ⟨⟨-, hwf', hlog, -⟩, hlock⟩
    exact h.respects hlock ⟨hwf', hlog⟩ h.present

omit [Inhabited K] [Inhabited V] in
theorem Unhindered.of_table {kv : K × V} (hclear : Unhindered cfg handles w kv)
    (h : Kept cfg handles m w) (h' : Kept cfg handles m w') (htable : w'.table = w.table) :
    Unhindered cfg handles w' kv := by
  unfold Unhindered at *
  rw [h'.mutexes, htable, ← h.mutexes]
  exact hclear

theorem admitted_eq_false {exclusive : Bool} (h : (k, true) ∈ handles) : admitted handles exclusive k = false := by
  have hstate := lockState_eq_neg_one_iff.mpr h
  unfold admitted
  rw [hstate]
  cases exclusive <;> rfl

structure Locked (cfg : Config K κ V) (handles : List (κ × Bool)) (t : Table K V) (k : κ)
    (exclusive granted : Bool) (w : HopHash K V) : Prop where
  kept : ∃ m', Kept cfg (if granted then (k, exclusive) :: handles else handles) m' w
  spares : Spares (recorded cfg t handles) t w.table
  refused : (k, true) ∈ handles → granted = false

theorem lock_sat (h : Kept cfg handles m w) {kv : K × V} (hclear : Unhindered cfg handles w kv) (exclusive : Bool) :
    Sat (lock cfg kv exclusive) w (fun _ => True) (fun r w' => Locked cfg handles w.table (cfg.key kv.1) exclusive r w')
      (fun _ w' => (cfg.key kv.1, true) ∉ handles ∧ Respects cfg handles w.table m w') := by
  refine Sat.handle (Sat.bind ((at_kept h).imp ?_ ?_))
  · rintro - w₁ ⟨-, htable, h₁⟩
    refine (tryLock_sat h₁ exclusive).imp ?_ (fun _ _ h => h.elim)
    rintro r w₂ ⟨htable₂, hr, h₂⟩
    refine ⟨⟨m, by split at h₂ <;> simp_all⟩, ?_, fun hex => ?_⟩
    · rw [htable₂, htable]
      exact Spares.refl _ _
    · rw [hr, admitted_eq_false hex, Bool.and_false]
  · rintro e w₁ ⟨rfl, habsent, htable, h₁⟩
    rw [if_pos rfl]
    have hnohandle : (cfg.key kv.1, true) ∉ handles := fun hex => habsent (h.present _ hex)
    refine Sat.bind ((emplace_kept h₁ (hclear.of_table h h₁ htable)).imp ?_ ?_)
    · rintro ⟨j, inserted⟩ w₂ h₂
      cases inserted with
      | false =>
        rw [if_neg (by simp)] at h₂
        exact absurd h₂.1 habsent
      | true =>
        rw [if_pos rfl, htable] at h₂
        change Sat (tryLock cfg exclusive (cfg.key kv.1)) w₂ _ _ _
        refine (tryLock_sat h₂.1 exclusive).imp ?_ (fun _ _ h => h.elim)
        rintro r w₃ ⟨htable₃, -, h₃⟩
        refine ⟨⟨m.insert (cfg.key kv.1) kv.2, by split at h₃ <;> simp_all⟩, ?_, fun hex => absurd hex hnohandle⟩
        rw [htable₃]
        exact h₂.2
    · intro e w₂ h₂
      rw [htable] at h₂
      exact ⟨hnohandle, h₂⟩

omit [Inhabited K] [Inhabited V] in
theorem updateByIssue41_sat (h : Kept cfg handles m w) (kv : K × V) : Sat (updateByIssue41 cfg kv) w (fun _ => True)
      (fun _ w' => ∃ m', Respects cfg handles w.table m' w') (fun _ _ => False) := by
  refine Sat.bind ((tryLock_sat h true).post ?_)
  rintro granted w₁ ⟨htable, hgranted, h₁⟩
  cases granted with
  | false =>
    refine Sat.pure trivial ⟨m, h₁, ?_⟩
    rw [htable]
    exact Spares.refl _ _
  | true =>
    have hadmitted : admitted handles true (cfg.key kv.1) = true :=
      (Bool.and_eq_true_iff.mp hgranted.symm).2
    have hfree : lockState handles (cfg.key kv.1) = 0 := by simpa [admitted] using hadmitted
    change Sat (assign cfg (cfg.key kv.1) kv.2 >>= _) w₁ _ _ _
    refine Sat.bind ((assign_sat h₁ hfree kv.2).post ?_)
    rintro - w₂ ⟨h₂, hspares⟩
    refine Sat.bind ((unlock_sat h₂ List.mem_cons_self).post ?_)
    rintro - w₃ ⟨htable₃, h₃⟩
    rw [List.erase_cons_head] at h₃
    refine Sat.pure trivial ⟨_, h₃, ?_⟩
    rw [htable₃, ← htable]
    exact hspares

theorem put_sat (h : Kept cfg handles m w) {kv : K × V} (hclear : Unhindered cfg handles w kv) (dontStomp : Bool) :
    Sat (put cfg kv dontStomp) w (fun _ => True) (fun _ w' => ∃ m', Respects cfg handles w.table m' w')
      (fun _ w' => Respects cfg handles w.table m w') := by
  refine Sat.bind ((emplace_kept h hclear).post ?_)
  rintro ⟨j, inserted⟩ w₁ h₁
  cases inserted with
  | true => exact Sat.pure trivial ⟨_, h₁⟩
  | false =>
    obtain ⟨-, htable, h₁⟩ := h₁
    change Sat (if dontStomp = true then _ else _) w₁ _ _ _
    split
    · refine Sat.pure trivial ⟨m, h₁, ?_⟩
      rw [htable]
      exact Spares.refl _ _
    · rw [← htable]
      exact (updateByIssue41_sat h₁ kv).imp (fun _ _ h => h) (fun _ _ h => h.elim)

end Kept

section Run

variable {K κ V : Type} [DecidableEq κ] [Inhabited K] [Inhabited V]

/-- The request does not fall foul of a handle. An insertion meets no held mutex on its way and asks
for no resize while there are handles, and a locked key is not erased. -/
def Clear (cfg : Config K κ V) (s : Session K κ V) : Request K κ V → Prop
  | .lock kv _ => Unhindered cfg s.handles s.hop kv
  | .unlock _ => True
  | .put kv _ => Unhindered cfg s.handles s.hop kv
  | .erase k => ∀ e ∈ s.handles, e.1 ≠ k

/-- No assertion of a mutex has failed, each key stays locked in its place with its value until it is
unlocked, and nobody else gets a key that is locked exclusively. -/
structure LocksRespected (cfg : Config K κ V) (s : Session K κ V) (r : Request K κ V) : Prop where
  sound : (Mutexes.ofLog (r.run cfg s).2.hop.log).sound = true
  stays : ∀ e ∈ s.handles, e ∈ (r.run cfg s).2.handles →
    ∃ j, locateKey cfg s.hop.table e.1 (bucket cfg s.hop.table e.1) = some j ∧
      locateKey cfg (r.run cfg s).2.hop.table e.1 (bucket cfg (r.run cfg s).2.hop.table e.1) =
        some j ∧ (r.run cfg s).2.hop.table.value j = s.hop.table.value j
  refused : ∀ kv exclusive, r = .lock kv exclusive → (cfg.key kv.1, true) ∈ s.handles →
    (r.run cfg s).1 = .keyNone

variable {cfg : Config K κ V} {s : Session K κ V} {m m' : KeyMap κ V}

theorem LocksRespected.of_kept {r : Request K κ V} (h : Kept cfg s.handles m s.hop)
    (h' : Kept cfg (r.run cfg s).2.handles m' (r.run cfg s).2.hop)
    (hspares : Spares (recorded cfg s.hop.table s.handles) s.hop.table (r.run cfg s).2.hop.table)
    (hrefused : ∀ kv exclusive, r = .lock kv exclusive → (cfg.key kv.1, true) ∈ s.handles →
      (r.run cfg s).1 = .keyNone) : LocksRespected cfg s r := by
  refine ⟨?_, fun e he _ => ?_, hrefused⟩
  · rw [h'.mutexes]
    rfl
  · exact hspares.locateKey h.stands.wellFormed h'.stands.wellFormed he (h.present e he)

theorem run_kept (h : Kept cfg s.handles m s.hop) (r : Request K κ V) (hclear : Clear cfg s r) :
    LocksRespected cfg s r ∧ ∃ m', Kept cfg (r.run cfg s).2.handles m' (r.run cfg s).2.hop := by
  suffices hstep : ∃ m', Kept cfg (r.run cfg s).2.handles m' (r.run cfg s).2.hop ∧
      Spares (recorded cfg s.hop.table s.handles) s.hop.table (r.run cfg s).2.hop.table ∧
      ∀ kv exclusive, r = .lock kv exclusive → (cfg.key kv.1, true) ∈ s.handles → (r.run cfg s).1 = .keyNone by
    obtain ⟨m', h', hspares, hrefused⟩ := hstep
    exact ⟨.of_kept h h' hspares hrefused, m', h'⟩
  cases r with
  | lock kv exclusive =>
    have hsat := lock_sat h hclear exclusive
    simp only [Request.run]
    cases hr : (lock cfg kv exclusive).result s.hop with
    | ok granted =>
      obtain ⟨⟨m', h'⟩, hspares, hrefused⟩ := hsat.of_ok hr
      cases granted with
      | true =>
        refine ⟨m', h', hspares, ?_⟩
        rintro _ _ ⟨⟩ hex
        cases hrefused hex
      | false => exact ⟨m', h', hspares, fun _ _ _ _ => rfl⟩
    | error e =>
      obtain ⟨hnone, h', hspares⟩ := hsat.of_error hr
      refine ⟨m, h', hspares, ?_⟩
      rintro _ _ ⟨⟩ hex
      exact absurd hex hnone
  | unlock e =>
    simp only [Request.run]
    split
    · rename_i hmem
      have hsat := unlock_sat h hmem
      cases hr : (unlock cfg e.1).result s.hop with
      | ok _ =>
        obtain ⟨htable, h'⟩ := hsat.of_ok hr
        refine ⟨m, h', ?_, nofun⟩
        rw [htable]
        exact Spares.refl _ _
      | error _ => exact (hsat.of_error hr).elim
    · exact ⟨m, h, Spares.refl _ _, nofun⟩
  | put kv dontStomp =>
    have hsat := put_sat h hclear dontStomp
    simp only [Request.run]
    cases hr : (put cfg kv dontStomp).result s.hop with
    | ok status =>
      obtain ⟨m', h', hspares⟩ := hsat.of_ok hr
      exact ⟨m', h', hspares, nofun⟩
    | error e =>
      obtain ⟨h', hspares⟩ := hsat.of_error hr
      exact ⟨m, h', hspares, nofun⟩
  | erase k =>
    have hsat : Sat (eraseKey cfg k) s.hop (fun _ => True)
        (fun _ w' => Respects cfg s.handles s.hop.table (m.erase k) w') (fun _ _ => False) :=
      Sat.bind ((erase_kept h hclear).post (fun _ _ h' => Sat.pure trivial h'))
    simp only [Request.run]
    cases hr : (eraseKey cfg k).result s.hop with
    | ok status =>
      obtain ⟨h', hspares⟩ := hsat.of_ok hr
      exact ⟨m.erase k, h', hspares, nofun⟩
    | error e => exact (hsat.of_error hr).elim

theorem created_kept {n : Nat} (hn : segmentCountSpecified n ≤ segmentCapacity) : Kept cfg [] ∅ (created cfg n) := by
  rw [created_eq]
  refine ⟨persistMap_stands hn, ?_, nofun, nofun⟩
  rw [recorded_nil]
  rfl

theorem allRequests_locksRespected (rs : List (Request K κ V)) (h : Kept cfg s.handles m s.hop)
    (hclear : AllRequests cfg (Clear cfg) rs s) : AllRequests cfg (LocksRespected cfg) rs s := by
  induction rs generalizing s m with
  | nil => trivial
  | cons r rs ih =>
    obtain ⟨hrespected, m', hnext⟩ := run_kept h r hclear.1
    exact ⟨hrespected, ih hnext hclear.2⟩

/-- From `persist_map` on, every request respects the handles in every run whose requests are `Clear`. -/
theorem requests_locksRespected (cfg : Config K κ V) {n : Nat}
    (hn : segmentCountSpecified n ≤ segmentCapacity) (rs : List (Request K κ V))
    (hclear : AllRequests cfg (Clear cfg) rs ⟨created cfg n, []⟩) :
    AllRequests cfg (LocksRespected cfg) rs ⟨created cfg n, []⟩ :=
  allRequests_locksRespected rs (created_kept hn) hclear

def smallRequests : List (Request Nat Nat Nat) :=
  [.lock (3, 30) true, .put (4, 40) false, .put (3, 31) false, .unlock (3, true), .put (3, 32) false]

theorem requests_locksRespected_smallRequests :
    AllRequests (idConfig Nat Owner.maskAllOnes) (LocksRespected (idConfig Nat Owner.maskAllOnes))
      smallRequests ⟨created (idConfig Nat Owner.maskAllOnes) 1, []⟩ := by
  refine requests_locksRespected _ (by decide) _ ?_
  rw [created_eq]
  refine ⟨fun _ => ⟨Or.inl (by decide), Or.inl rfl⟩, fun _ => ⟨Or.inl (by decide), Or.inr ⟨?_, ?_⟩⟩,
    fun h => absurd h (by decide +kernel), trivial, fun h => absurd h (by decide +kernel), trivial⟩
  · intro d hused
    cases d with
    | zero => decide +kernel
    | succ d => exact absurd (hused 0 (Nat.succ_pos d)) (by decide +kernel)
  · rintro ⟨hstuck, -⟩
    exact not_stuck (by decide) (hstuck 0 ⟨Table.bucketCount_pos _, by decide +kernel, nofun⟩)

def collidingRequests : List (Request Nat Nat Nat) := [.lock (0, 0) true, .put (128, 0) false]

theorem not_locksRespected_collidingRequests : ¬ AllRequests (idConfig Nat Owner.maskAllOnes)
      (LocksRespected (idConfig Nat Owner.maskAllOnes)) collidingRequests
      ⟨created (idConfig Nat Owner.maskAllOnes) 1, []⟩ := by
  rw [created_eq]
  rintro ⟨-, hput, -⟩
  exact absurd hput.sound (by decide +kernel)

end Run

end Comanche.Hstore
