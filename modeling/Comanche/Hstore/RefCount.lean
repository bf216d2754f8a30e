import Comanche.Hstore.FixedString
import Comanche.Hstore.Refine

/-!
# Reference counts

The count of each block against the fields of the table that refer to it.
-/

namespace Comanche.Hstore

open Lib ValueUnstable
open Function (update update_eq_self update_of_ne update_self)

section Uses

def held (t : Table FixedString FixedString) (b p : Nat) : Nat :=
  match t.state b with
  | .inUse => (pairBlocks (t.value b)).count p
  | .free => 0

/-- The references that the first `n` buckets hold to block `p`. -/
def uses (n : Nat) (t : Table FixedString FixedString) (p : Nat) : Nat :=
  ∑ b ∈ Finset.range n, held t b p

variable {t t' : Table FixedString FixedString} {n : Nat}

variable {b : Nat}

theorem held_congr (hstate : t'.state b = t.state b) (hvalue : t'.value b = t.value b)
    (p : Nat) : held t' b p = held t b p := by
  unfold held
  rw [hstate, hvalue]

theorem held_inUse (h : t.state b = .inUse) (p : Nat) : held t b p = (pairBlocks (t.value b)).count p := by
  unfold held
  rw [h]

theorem held_free (h : t.state b = .free) (p : Nat) : held t b p = 0 := by
  unfold held
  rw [h]

theorem uses_congr (h : ∀ b, b < n → ∀ p, held t' b p = held t b p) (p : Nat) : uses n t' p = uses n t p :=
  Finset.sum_congr rfl fun b hb => h b (Finset.mem_range.mp hb) p

theorem uses_apply_state {i : Nat} (hi : i < n) (s : ContentState) (p : Nat) :
    uses n (t.apply (.state i s)) p + held t i p = uses n t p + held (t.apply (.state i s)) i p := by
  unfold uses
  have hmem := Finset.mem_range.mpr hi
  rw [← Finset.add_sum_erase _ _ hmem, ← Finset.add_sum_erase _ (fun b => held t b p) hmem]
  have hrest : ∑ b ∈ (Finset.range n).erase i, held (t.apply (.state i s)) b p =
      ∑ b ∈ (Finset.range n).erase i, held t b p := by
    refine Finset.sum_congr rfl fun b hb => ?_
    have hstate : (t.apply (.state i s)).state b = t.state b :=
      update_of_ne (Finset.ne_of_mem_erase hb) _ _
    exact held_congr hstate rfl p
  rw [hrest]
  omega

theorem held_le_uses {i : Nat} (hi : i < n) (p : Nat) : held t i p ≤ uses n t p :=
  Finset.single_le_sum (f := fun b => held t b p) (fun _ _ => Nat.zero_le _)
    (Finset.mem_range.mpr hi)

theorem uses_add {m : Nat} (h : ∀ i, i < m → t.state (n + i) = .free) (p : Nat) : uses (n + m) t p = uses n t p := by
  unfold uses
  have hzero : ∑ i ∈ Finset.range m, held t (n + i) p = 0 :=
    Finset.sum_eq_zero fun i hi => held_free (h i (Finset.mem_range.mp hi)) p
  rw [Finset.sum_range_add, hzero, Nat.add_zero]

end Uses

section Exact

/-- The counts of the blocks are the uses by the first `n` buckets, and by the strings outside of the table whose blocks
`pending` lists. The blocks in `F` are not used by the table. -/
structure Exact (F : Set Nat) (pending : List Nat) (n : Nat)
    (w : HopHash FixedString FixedString) : Prop where
  sound : (StringHeap.ofLog w.log).Sound
  refCount : ∀ p, (StringHeap.ofLog w.log).refCount p = uses n w.table p + pending.count p
  unused : ∀ p ∈ F, uses n w.table p = 0

namespace Exact

variable {F : Set Nat} {pending : List Nat} {n : Nat} {w w' : HopHash FixedString FixedString}
  {kv : FixedString × FixedString}

theorem frame (h : Exact F pending n w) (hheap : StringHeap.ofLog w'.log = StringHeap.ofLog w.log)
    (hheld : ∀ b, b < n → ∀ p, held w'.table b p = held w.table b p) : Exact F pending n w' := by
  refine ⟨hheap ▸ h.sound, fun p => ?_, fun p hp => ?_⟩
  · rw [hheap, h.refCount, uses_congr hheld]
  · rw [uses_congr hheld, h.unused p hp]

theorem construct (h : Exact F pending n w) (hfresh : ∀ p ∈ pairBlocks kv, (StringHeap.ofLog w.log).refCount p = 0)
    (hnodup : (pairBlocks kv).Nodup) :
    Exact F (pairBlocks kv ++ pending) n ⟨w.table, .call (.construct kv) :: w.log⟩ := by
  refine ⟨(h.sound.construct kv.1).construct kv.2, fun p => ?_, h.unused⟩
  change ((StringHeap.ofLog w.log).call (.construct kv)).refCount p = uses n w.table p + _
  rw [StringHeap.refCount_call_construct hfresh hnodup, h.refCount, List.count_append]
  omega

theorem copy (h : Exact F pending n w) (hlive : ∀ p ∈ pairBlocks kv, 0 < uses n w.table p + pending.count p) :
    Exact F (pairBlocks kv ++ pending) n ⟨w.table, .call (.copy kv) :: w.log⟩ := by
  refine ⟨h.sound.call_copy fun p hp => ?_, fun p => ?_, h.unused⟩
  · rw [h.refCount]
    exact hlive p hp
  · change ((StringHeap.ofLog w.log).call (.copy kv)).refCount p = uses n w.table p + _
    rw [StringHeap.refCount_call_copy, h.refCount, List.count_append]
    omega

theorem destroy (h : Exact F (pairBlocks kv ++ pending) n w) :
    Exact F pending n ⟨w.table, .call (.destroy kv) :: w.log⟩ := by
  have hlive (p : Nat) : (pairBlocks kv).count p ≤ (StringHeap.ofLog w.log).refCount p := by
    rw [h.refCount, List.count_append]
    omega
  obtain ⟨hsound, hcount⟩ := h.sound.call_destroy hlive
  refine ⟨hsound, fun p => (hcount p).trans ?_, h.unused⟩
  rw [h.refCount, List.count_append]
  change _ = uses n w.table p + _
  omega

theorem fill (h : Exact F (pairBlocks kv ++ pending) n w) {i : Nat} (hi : i < n)
    (hfree : w.table.state i = .free) (hvalue : w.table.value i = kv) (hunused : ∀ p ∈ F, p ∉ pairBlocks kv) :
    Exact F pending n ⟨w.table.apply (.state i .inUse), .write (.state i .inUse) :: w.log⟩ := by
  have huses : ∀ p, uses n (w.table.apply (.state i .inUse)) p = uses n w.table p + (pairBlocks kv).count p := by
    intro p
    have hsum := uses_apply_state (t := w.table) hi .inUse p
    have hnew : held (w.table.apply (.state i .inUse)) i p = (pairBlocks kv).count p := by
      rw [held_inUse (update_self i _ _)]
      exact congrArg (fun kv => (pairBlocks kv).count p) hvalue
    rwa [held_free hfree, hnew, Nat.add_zero] at hsum
  refine ⟨h.sound, fun p => ?_, fun p hp => ?_⟩
  · change (StringHeap.ofLog w.log).refCount p = uses n (w.table.apply (.state i .inUse)) p + _
    rw [h.refCount, huses, List.count_append]
    omega
  · change uses n (w.table.apply (.state i .inUse)) p = 0
    rw [huses, h.unused p hp, List.count_eq_zero_of_not_mem (hunused p hp)]

theorem release (h : Exact F pending n w) {i : Nat} (hi : i < n) (hused : w.table.state i = .inUse) :
    Exact F pending n ⟨w.table.apply (.state i .free),
      .write (.state i .free) :: .call (.destroy (w.table.value i)) :: w.log⟩ := by
  have huses : ∀ p, uses n (w.table.apply (.state i .free)) p +
      (pairBlocks (w.table.value i)).count p = uses n w.table p := by
    intro p
    have hsum := uses_apply_state (t := w.table) hi .free p
    have hnew : held (w.table.apply (.state i .free)) i p = 0 :=
      held_free (update_self i _ _) p
    rwa [hnew, held_inUse hused] at hsum
  have hlive (p : Nat) : (pairBlocks (w.table.value i)).count p ≤ (StringHeap.ofLog w.log).refCount p := by
    rw [h.refCount, ← huses p]
    omega
  obtain ⟨hsound, hcount⟩ := h.sound.call_destroy hlive
  refine ⟨hsound, fun p => (hcount p).trans ?_, fun p hp => ?_⟩
  · rw [h.refCount, ← huses p]
    change _ = uses n (w.table.apply (.state i .free)) p + _
    omega
  · have hp' := huses p
    rw [h.unused p hp] at hp'
    change uses n (w.table.apply (.state i .free)) p = 0
    omega

end Exact

end Exact

section Steps

variable {κ : Type} {cfg : Config FixedString κ FixedString} {F : Set Nat} {pending : List Nat}
  {n word : Nat}

structure Tallied (F : Set Nat) (pending : List Nat) (n word : Nat) (w : HopHash FixedString FixedString) :
    Prop where
  exact : Exact F pending n w
  count : w.table.segmentCountActual = word

variable {T : Exc → Prop} {w : HopHash FixedString FixedString} {N : Nat}

theorem tallied_call {c : Call FixedString FixedString}
    (hc : ∀ h : StringHeap, h.call c = h) : Keeps (Tallied F pending n word) T (call c) := by
  refine Keeps.emit fun w h => ⟨h.exact.frame ?_ fun _ _ _ => rfl, h.count⟩
  exact hc _

theorem tallied_owner (i : Nat) (v : BitVec 64) : Keeps (Tallied F pending n word) T (write (.owner i v)) :=
  Keeps.emit fun _ h => ⟨h.exact.frame rfl fun _ _ _ => rfl, h.count⟩

theorem tallied_size (f : Nat → Nat) : Keeps (Tallied F pending n word) T (sizeUpdate f) :=
  Keeps.bind (Keeps.read _) fun _ =>
    Keeps.emit fun _ h => ⟨h.exact.frame rfl fun _ _ _ => rfl, h.count⟩

theorem tallied_contentErase {i : Nat} (hi : i < n) (h : Tallied F pending n word w) :
    Sat (contentErase i) w (fun _ => True)
      (fun _ w' => Tallied F pending n word w' ∧ w'.table.state i = .free) (fun _ _ => False) := by
  refine sat_getTable_bind (Sat.when (fun hused => ?_) fun hfree =>
    ⟨trivial, h, not_not.mp hfree⟩)
  have hstate : w.table.state i = .inUse := by
    cases hs : w.table.state i with
    | free => exact absurd hs hused
    | inUse => rfl
  exact sat_call_bind trivial (sat_write trivial trivial ⟨⟨h.exact.release hi hstate, h.count⟩, update_self i _ _⟩)

theorem tallied_contentCopy {i : Nat} {kv : FixedString × FixedString} (h : Tallied F pending n word w)
    (hfree : w.table.state i = .free) (hlive : ∀ p ∈ pairBlocks kv, 0 < uses n w.table p + pending.count p) :
    Sat (contentCopy cfg i kv) w (fun _ => True)
      (fun _ w' => Tallied F (pairBlocks kv ++ pending) n word w' ∧ w'.table.value i = kv ∧
        w'.table.state = w.table.state) (fun _ _ => False) := by
  have hvalue : ∀ (v : HopHash FixedString FixedString) x, v.table.state = w.table.state →
      ∀ b p, held (v.table.apply (.value i x)) b p = held v.table b p := by
    intro v x hv b p
    by_cases heq : b = i
    · subst heq
      rw [held_free (by rw [hv, hfree] : v.table.state b = .free)]
      exact held_free (by change v.table.state b = .free; rw [hv, hfree]) p
    · have hsame : (v.table.apply (.value i x)).value b = v.table.value b :=
        update_of_ne heq _ _
      have hstate : (v.table.apply (.value i x)).state b = v.table.state b := rfl
      exact held_congr hstate hsame p
  refine sat_getTable_bind (Sat.bind ((Sat.emitAll (ε := Exc)
    (I := fun v => Tallied F pending n word v ∧ v.table.state = w.table.state ∧
      ∀ p, uses n v.table p = uses n w.table p) ⟨h, rfl, fun _ => rfl⟩ (fun _ _ => trivial)
    ?_).post ?_))
  · rintro x hx v ⟨htally, hstate, huses⟩
    obtain ⟨y, -, rfl⟩ := List.mem_map.mp hx
    refine ⟨⟨htally.exact.frame rfl fun b _ p => hvalue v y hstate b p, htally.count⟩, hstate, fun p => ?_⟩
    rw [← huses]
    exact uses_congr (fun b _ p => hvalue v y hstate b p) p
  · rintro - v ⟨htally, hstate, huses⟩
    have hnext : Exact F pending n ⟨v.table.apply (.value i kv), .write (.value i kv) :: v.log⟩ :=
      htally.exact.frame rfl fun b _ p => hvalue v kv hstate b p
    have huses' : ∀ p, uses n (v.table.apply (.value i kv)) p = uses n w.table p := fun p =>
      (uses_congr (fun b _ p => hvalue v kv hstate b p) p).trans (huses p)
    refine sat_write_bind trivial (sat_call trivial trivial
      ⟨⟨hnext.copy fun p hp => ?_, htally.count⟩, update_self i _ _, hstate⟩)
    change 0 < uses n (v.table.apply (.value i kv)) p + _
    rw [huses']
    exact hlive p hp

theorem tallied_resizeProlog (hN : w.table.bucketCount = N) (h : Tallied F pending N word w) :
    Sat resizeProlog w (fun _ => True) (fun _ w' => Tallied F pending (N + N) word w' ∧
        ∀ i, i < N → w'.table.state (N + i) = .free) (fun _ _ => False) := by
  refine sat_getTable_bind (Sat.bind ?_)
  rw [hN]
  refine (Sat.forRange (fun i v => Tallied F pending N word v ∧
    ∀ j, j < i → v.table.state (N + j) = .free) ⟨h, fun j hj => by omega⟩ (fun _ _ => trivial)
    fun i v hi hv => ?_).post ?_
  · obtain ⟨htally, hfree⟩ := hv
    refine sat_write_bind trivial (sat_write_bind trivial (sat_write trivial trivial ⟨⟨?_, ?_⟩, ?_⟩))
    · refine htally.exact.frame rfl fun b hb p => ?_
      have hne : b ≠ N + i := by omega
      exact held_congr (update_of_ne hne _ _) (update_of_ne hne _ _) p
    · exact htally.count
    · intro j hj
      change update v.table.state (N + i) .free (N + j) = .free
      by_cases heq : j = i
      · rw [heq, update_self]
      · rw [update_of_ne (by omega)]
        exact hfree j (by omega)
  · rintro - v ⟨htally, hfree⟩
    have hwide : Exact F pending (N + N) v :=
      ⟨htally.exact.sound, fun p => by rw [uses_add hfree, htally.exact.refCount],
        fun p hp => by rw [uses_add hfree, htally.exact.unused p hp]⟩
    refine sat_write_bind trivial (sat_call trivial trivial ⟨⟨?_, htally.count⟩, hfree⟩)
    exact hwide.frame rfl fun _ _ _ => rfl

section

variable (hN : ∀ v : Table FixedString FixedString, v.segmentCountActual = word → v.bucketCount = N) (h : Tallied F pending (N + N) word w)
include hN h

theorem tallied_resizePass1 (hfree : ∀ i, i < N → w.table.state (N + i) = .free) :
    Sat (resizePass1 cfg) w (fun _ => True) (fun _ w' => Tallied F pending (N + N) word w') (fun _ _ => False) := by
  refine sat_getTable_bind ?_
  rw [hN _ h.count]
  refine (Sat.forRange (fun i v => Tallied F pending (N + N) word v ∧
    ∀ j, i ≤ j → j < N → v.table.state (N + j) = .free) ⟨h, fun j _ hj => hfree j hj⟩
    (fun _ _ => trivial) fun i v hi hv => ?_).imp (fun _ _ h => h.1) (fun _ _ h => h)
  obtain ⟨htally, hrest⟩ := hv
  have hNv := hN _ htally.count
  refine sat_getTable_bind (sat_call_bind trivial (Sat.bind (Sat.when (fun hmove => ?_) fun _ => ⟨trivial, ?_⟩)))
  · rw [hNv]
    -- the copy takes references of its own, which become those of the junior bucket
    have hused : v.table.state i = .inUse := v.table.isFree_eq_false_iff.mp hmove.1
    have hlive : ∀ p ∈ pairBlocks (v.table.value i), 0 < uses (N + N) v.table p := by
      intro p hp
      have hle := held_le_uses (t := v.table) (n := N + N) (i := i) (by omega) p
      rw [held_inUse hused] at hle
      have := List.count_pos_iff.mpr hp
      omega
    have htally' : Tallied F pending (N + N) word ⟨v.table, .call (.lockContent i) :: v.log⟩ :=
      ⟨htally.exact.frame rfl fun _ _ _ => rfl, htally.count⟩
    refine Sat.bind ((tallied_contentCopy htally' (hrest i le_rfl hi) fun p hp => Nat.add_pos_left (hlive p hp) _).post ?_)
    rintro - u ⟨htallyu, hvalue, hstate⟩
    have hfilled := htallyu.exact.fill (i := N + i) (by omega)
      (by rw [hstate]; exact hrest i le_rfl hi) hvalue fun p hp hmem => by
        have := hlive p hmem
        have := htally.exact.unused p hp
        omega
    refine sat_write trivial trivial (sat_call trivial trivial ⟨⟨?_, htallyu.count⟩, ?_⟩)
    · exact hfilled.frame rfl fun _ _ _ => rfl
    · intro j hj hjN
      change update u.table.state (N + i) .inUse (N + j) = .free
      rw [update_of_ne (by omega), hstate]
      exact hrest j (by omega) hjN
  · refine sat_call trivial trivial ⟨⟨?_, htally.count⟩, fun j hj hjN => hrest j (by omega) hjN⟩
    exact htally.exact.frame rfl fun _ _ _ => rfl

theorem tallied_resizePass2 : Sat (resizePass2 cfg) w (fun _ => True)
      (fun _ w' => Tallied F pending (N + N) word w') (fun _ _ => False) := by
  have hlock : ∀ {c : Call FixedString FixedString}, (∀ h : StringHeap, h.call c = h) →
      Keeps (Tallied F pending (N + N) word) (fun _ => False) (call c) := fun hc => tallied_call hc
  have hadjust : ∀ ix k, Keeps (Tallied F pending (N + N) word) (fun _ => False)
      (resizePass2AdjustOwner cfg ix k) := fun ix k =>
    Keeps.bind (Keeps.read _) fun _ => Keeps.when (Keeps.bind (hlock fun _ => rfl) fun _ =>
      Keeps.bind (hlock fun _ => rfl) fun _ => Keeps.bind (tallied_owner _ _) fun _ =>
      Keeps.bind (tallied_owner _ _) fun _ => Keeps.bind (hlock fun _ => rfl) fun _ =>
      hlock fun _ => rfl)
  have hcontent : ∀ ix, ix < N → ∀ v, Tallied F pending (N + N) word v → Sat (resizePass2Content cfg ix) v (fun _ => True)
        (fun _ w' => Tallied F pending (N + N) word w') (fun _ _ => False) := by
    intro ix hix v hv
    refine sat_getTable_bind ?_
    split
    · refine Sat.bind ((hadjust _ _).sat hv fun _ u hu => ?_)
      refine Sat.bind ((tallied_contentErase (by omega) hu).post ?_)
      rintro - u' ⟨hu', hfree⟩
      -- the bucket is FREE already when it is marked FREE once more
      refine sat_write trivial trivial ⟨hu'.exact.frame rfl fun b _ p => ?_, hu'.count⟩
      have hsame : (u'.table.apply (.state ix .free)).state b = u'.table.state b := by
        change update u'.table.state ix .free b = _
        rw [← hfree, update_eq_self]
      have hvalue : (u'.table.apply (.state ix .free)).value b = u'.table.value b := rfl
      exact held_congr hsame hvalue p
    · exact (Keeps.when (hadjust _ _)).sat hv fun _ _ h => h
  refine sat_getTable_bind ?_
  rw [hN _ h.count]
  refine Sat.forRange (fun _ v => Tallied F pending (N + N) word v) h (fun _ _ => trivial) fun ix v hix hv => ?_
  refine sat_getTable_bind (Sat.bind ((hlock fun _ => rfl).sat hv fun _ v₁ hv₁ => ?_))
  refine Sat.bind ((hlock fun _ => rfl).sat hv₁ fun _ v₂ hv₂ => ?_)
  refine Sat.bind ((hcontent ix hix v₂ hv₂).post ?_)
  rintro - v₃ hv₃
  exact (Keeps.bind (hlock fun _ => rfl) fun _ => hlock fun _ => rfl).sat hv₃ fun _ _ h => h

end

def Settles (F : Set Nat) (pending : List Nat) (c : Nat) (w : HopHash FixedString FixedString) : Prop :=
  Tallied F pending (2 ^ (7 + (c - 1))) (valueSetStable 1 c) w

theorem Settles.bucketCount_eq {c : Nat} (h : Settles F pending c w) : w.table.bucketCount = 2 ^ (7 + (c - 1)) := by
  rw [Table.bucketCount_eq_two_pow, Table.segmentCountNotStable, h.count, valueNotStable_valueSetStable]

theorem valueNotStable_destabilize (c : Nat) : valueNotStable 1
    (destabilize (valueSetStable 1 c)) = c := by
  unfold valueNotStable destabilize valueSetStable
  rw [Nat.shiftLeft_eq, Nat.shiftRight_eq_div_pow]
  omega

theorem tallied_resize {c : Nat} (hc : 1 ≤ c) (h : Settles F pending c w) :
    Sat (resize cfg) w (fun _ => True) (fun _ w' => Settles F pending (c + 1) w') (fun _ _ => False) := by
  have hN {word : Nat} (hword : valueNotStable 1 word = c) (v : Table FixedString FixedString)
      (hv : v.segmentCountActual = word) : v.bucketCount = 2 ^ (7 + (c - 1)) := by
    rw [Table.bucketCount_eq_two_pow, Table.segmentCountNotStable, hv, hword]
  refine Sat.bind ((tallied_resizeProlog h.bucketCount_eq h).post ?_)
  rintro - w₁ ⟨hw₁, hfree⟩
  refine Sat.bind ((tallied_resizePass1 (hN (valueNotStable_valueSetStable ..)) hw₁ hfree).post ?_)
  rintro - w₂ hw₂
  refine Sat.bind (sat_getTable_bind (sat_write trivial trivial ?_))
  rw [hw₂.count]
  have hw₃ : Tallied F pending (2 ^ (7 + (c - 1)) + 2 ^ (7 + (c - 1)))
      (destabilize (valueSetStable 1 c))
      ⟨w₂.table.apply (.segmentCount (destabilize (valueSetStable 1 c))),
        .write (.segmentCount (destabilize (valueSetStable 1 c))) ::
          w₂.log⟩ :=
    ⟨hw₂.exact.frame rfl fun _ _ _ => rfl, rfl⟩
  refine Sat.bind ((tallied_resizePass2 (hN (valueNotStable_destabilize c)) hw₃).post ?_)
  rintro - w₄ hw₄
  have hcount : w₄.table.segmentCountNotStable = c := by
    rw [Table.segmentCountNotStable, hw₄.count, valueNotStable_destabilize]
  refine sat_getTable_bind (sat_write trivial trivial ?_)
  rw [hcount]
  refine ⟨?_, rfl⟩
  have hdouble : 2 ^ (7 + (c + 1 - 1)) = 2 ^ (7 + (c - 1)) + 2 ^ (7 + (c - 1)) := by
    rw [show 7 + (c + 1 - 1) = 7 + (c - 1) + 1 by omega, Nat.pow_succ]
    omega
  rw [hdouble]
  exact hw₄.exact.frame rfl fun _ _ _ => rfl

end Steps

section Insertion

variable {K κ V : Type}

/-- No owner that reaches the free bucket `dst` has an item that could be moved there. -/
def Immovable (cfg : Config K κ V) (t : Table K V) (dst : Nat) : Prop :=
  ∀ i, i < Owner.size - 1 →
    t.owner (t.addSmall (t.subtractSmall dst (Owner.size - 1)) i) &&& (cfg.ones >>> i) = 0#64

/-- An attempt to insert with home `bi` displaces nothing: the nearest free bucket is in reach, or
`make_space_for_insert` finds nothing to move. -/
def NoDisplacement (cfg : Config K κ V) (t : Table K V) (bi : Nat) : Prop :=
  ∀ d, NearestFree t bi d → d % 2 ^ 32 < Owner.size ∨ Immovable cfg t (t.addSmall bi d)

/-- None of the attempts of an insertion displaces anything. An attempt is followed by a resize and
another one if no free bucket is in reach. -/
def Undisturbed [DecidableEq κ] [Inhabited K] [Inhabited V] (cfg : Config K κ V)
    (args : Nat → K × V) : Nat → Nat → Table K V → Prop
  | 0, _, _ => True
  | n + 1, j, t =>
      let bi := bucket cfg t (cfg.key (args j).1)
      locateKey cfg t (cfg.key (args j).1) bi = none → NoDisplacement cfg t bi ∧
        ((∀ d, NearestFree t bi d → Owner.size ≤ d % 2 ^ 32) →
          ∀ l, Undisturbed cfg args n (j + 1) ((resize cfg).final ⟨t, l⟩).table)

def LocksOnly (t : Table FixedString FixedString) (l : List (Step FixedString FixedString))
    (w : HopHash FixedString FixedString) : Prop :=
  w.table = t ∧ StringHeap.ofLog w.log = StringHeap.ofLog l

variable {cfg : Config FixedString κ FixedString} {t : Table FixedString FixedString}

theorem nearestFreeFrom_heap (h : StringHeap) (start : Nat) (n bi : Nat) :
    Keeps (fun w : HopHash FixedString FixedString => StringHeap.ofLog w.log = h) (fun _ => True)
      (nearestFreeFrom start n bi) := by
  induction n generalizing bi with
  | zero => exact Keeps.fail trivial
  | succ n ih =>
    unfold nearestFreeFrom
    refine Keeps.bind (Keeps.read _) fun t => ?_
    split
    · exact Keeps.pure _
    · refine Keeps.bind (Keeps.emit fun _ h => h) fun _ => Keeps.bind (Keeps.emit fun _ h => h) fun _ => ?_
      split
      · exact Keeps.bind (Keeps.emit fun _ h => h) fun _ => Keeps.fail trivial
      · exact ih _

theorem seekOwner_immovable {dst : Nat} (hdst : dst < t.bucketCount) (himm : Immovable cfg t dst)
    (l₀ : List (Step FixedString FixedString)) (n i : Nat) (hi : i + n = Owner.size)
    (l : List (Step FixedString FixedString)) (hl : StringHeap.ofLog l = StringHeap.ofLog l₀) :
    Sat (seekOwner dst n (t.addSmall (t.subtractSmall dst (Owner.size - 1)) i) (cfg.ones >>> i))
      ⟨t, l⟩ (fun _ => True) (fun r w' => r.1 = dst ∧ LocksOnly t l₀ w') (fun _ w' => LocksOnly t l₀ w') := by
  induction n generalizing i l with
  | zero => exact Sat.fail trivial ⟨rfl, hl⟩
  | succ n ih =>
    have hsize : Owner.size = 64 := rfl
    unfold seekOwner
    refine sat_getTable_bind ?_
    split
    · refine sat_call_bind trivial (sat_call_bind trivial ?_)
      have hnext : t.incrWithWrap (t.addSmall (t.subtractSmall dst (Owner.size - 1)) i) =
          t.addSmall (t.subtractSmall dst (Owner.size - 1)) (i + 1) :=
        Circle.step_step
      have hshift : cfg.ones >>> i >>> 1 = cfg.ones >>> (i + 1) := (BitVec.shiftRight_add _ _ _).symm
      dsimp only
      rw [hnext, hshift]
      exact ih (i + 1) (by omega) _ hl
    · rename_i hstop
      refine Sat.pure trivial ⟨?_, rfl, hl⟩
      by_cases hlast : i < Owner.size - 1
      · by_contra hne
        exact hstop ⟨hne, himm i hlast⟩
      · rw [show i = Owner.size - 1 by omega]
        exact Circle.step_back hdst (by have := t.le_bucketCount; omega)

variable {bi : Nat} {F : Set Nat} {pending : List Nat} {w : HopHash FixedString FixedString}

theorem makeSpaceForInsert_still {d : Nat} (hbi : bi < t.bucketCount)
    (hnear : NearestFree t bi d) (hcalm : NoDisplacement cfg t bi) (n : Nat) (l : List (Step FixedString FixedString)) :
    Sat (makeSpaceForInsert cfg bi (n + 1) (t.addSmall bi d)) ⟨t, l⟩ (fun _ => True)
      (fun b w' => b = t.addSmall bi d ∧ LocksOnly t l w')
      (fun _ w' => Owner.size ≤ d % 2 ^ 32 ∧ LocksOnly t l w') := by
  have hdist := t.distanceWrapped_addSmall hbi hnear.lt
  unfold makeSpaceForInsert
  refine sat_getTable_bind ?_
  split
  · exact Sat.pure trivial ⟨rfl, rfl, rfl⟩
  · rename_i hfar
    rw [hdist] at hfar
    have himm := (hcalm d hnear).resolve_left hfar
    have hdst := t.addSmall_lt (f := d) hbi
    have hfirst : t.subtractSmall (t.addSmall bi d) (Owner.size - 1) < t.bucketCount :=
      Circle.back_lt hdst
    have hseek := seekOwner_immovable hdst himm l Owner.size 0 (Nat.zero_add _)
      (.call (.lockOwner (t.subtractSmall (t.addSmall bi d) (Owner.size - 1))) :: l) rfl
    have hzero : t.addSmall (t.subtractSmall (t.addSmall bi d) (Owner.size - 1)) 0 =
        t.subtractSmall (t.addSmall bi d) (Owner.size - 1) := Circle.step_zero hfirst
    rw [hzero, BitVec.ushiftRight_zero] at hseek
    refine sat_call_bind trivial (Sat.bind (hseek.imp ?_ (fun _ _ h => ⟨Nat.le_of_not_lt hfar, h⟩)))
    rintro ⟨own, eligible⟩ w' ⟨hown, hw'⟩
    dsimp only at hown ⊢
    rw [if_pos hown]
    exact sat_call_bind trivial (sat_call_bind trivial (Sat.fail trivial ⟨Nat.le_of_not_lt hfar, hw'⟩))

theorem Settles.locksOnly {c : Nat} {w' : HopHash FixedString FixedString} (h : Settles F pending c w)
    (hw' : LocksOnly w.table w.log w') : Settles F pending c w' := by
  refine ⟨h.exact.frame hw'.2 fun b _ p => ?_, ?_⟩
  · rw [hw'.1]
  · rw [hw'.1, h.count]

theorem tallied_emplaceAt {n word dst : Nat} {kv : FixedString × FixedString}
    (h : Tallied ∅ pending n word w) (hdst : dst < n) (hfree : w.table.state dst = .free)
    (hpending : ∀ p ∈ pairBlocks kv, p ∈ pending) :
    Sat (emplaceAt cfg bi dst kv) w (fun _ => True) (fun _ w' => Tallied ∅ pending n word w') (fun _ _ => False) := by
  have hlive : ∀ p ∈ pairBlocks kv, 0 < uses n w.table p + pending.count p := fun p hp =>
    Nat.add_pos_right _ (List.count_pos_iff.mpr (hpending p hp))
  refine Sat.bind ((tallied_contentCopy h hfree hlive).post ?_)
  rintro - u ⟨hu, hvalue, hstate⟩
  have hunstable : Exact ∅ (pairBlocks kv ++ pending) n
      ⟨u.table.apply (.size (destabilize u.table.sizeControl)),
        .write (.size (destabilize u.table.sizeControl)) :: u.log⟩ :=
    hu.exact.frame rfl fun _ _ _ => rfl
  have hfill := hunstable.fill hdst (by change u.table.state dst = _; rw [hstate, hfree]) hvalue fun p hp => hp.elim
  refine sat_sizeUpdate_bind trivial (sat_write_bind trivial ?_)
  exact (Keeps.bind (Keeps.read _) fun _ => Keeps.bind (tallied_owner _ _) fun _ =>
    Keeps.bind (tallied_size _) fun _ => tallied_size _).sat ⟨hfill, hu.count⟩ fun _ _ h => h

theorem Exact.weaken {n : Nat} (h : Exact F pending n w) : Exact ∅ pending n w :=
  ⟨h.sound, h.refCount, fun _ hp => hp.elim⟩

theorem settles_emplaceNew {c : Nat} {kv : FixedString × FixedString} {l : List (Step FixedString FixedString)}
    (h : Settles F pending c ⟨t, l⟩) (hl : freedHead l = none) (hbi : bi < t.bucketCount)
    (hcalm : NoDisplacement cfg t bi) (hpending : ∀ p ∈ pairBlocks kv, p ∈ pending) :
    Sat (emplaceNew cfg bi kv) ⟨t, l⟩ (fun _ => True) (fun _ w' => Settles ∅ pending c w')
      (fun _ w' => (∀ d, NearestFree t bi d → Owner.size ≤ d % 2 ^ 32) ∧ LocksOnly t l w') := by
  have hheap : Keeps (fun w : HopHash FixedString FixedString =>
      StringHeap.ofLog w.log = StringHeap.ofLog l) (fun _ => True) (nearestFreeBucket bi) :=
    Keeps.bind (Keeps.read _) fun _ => Keeps.bind (Keeps.emit fun _ h => h) fun _ =>
      nearestFreeFrom_heap _ _ _ _
  refine sat_getTable_bind (Sat.bind (((nearestFreeBucket_sat (C := fun _ => True)
    (fun _ _ => trivial) hbi l hl).and (hheap ⟨t, l⟩ rfl)).ends ?_ ?_))
  · rintro b ⟨t', l'⟩ ⟨⟨rfl, -, d, rfl, hnear⟩, hheap'⟩
    obtain ⟨n, hn⟩ := Nat.exists_eq_succ_of_ne_zero t'.bucketCount_pos.ne'
    have hsame : ∀ {w}, LocksOnly t' l' w → LocksOnly t' l w := fun hw => ⟨hw.1, hw.2.trans hheap'⟩
    rw [hn]
    refine Sat.bind ((makeSpaceForInsert_still hbi hnear hcalm n l').imp ?_ ?_)
    · rintro b u ⟨rfl, hu⟩
      have hsettle : Settles F pending c u := h.locksOnly (hsame hu)
      have hdst : t'.addSmall bi d < 2 ^ (7 + (c - 1)) := by
        rw [← h.bucketCount_eq]
        exact t'.addSmall_lt hbi
      refine Sat.bind ((tallied_emplaceAt ⟨hsettle.exact.weaken, hsettle.count⟩ hdst
        (by rw [hu.1]; exact hnear.free) hpending).imp ?_ (fun _ _ h => h.elim))
      rintro - v hv
      exact sat_call_bind trivial (Sat.pure trivial ⟨hv.exact.frame rfl fun _ _ _ => rfl, hv.count⟩)
    · rintro e u ⟨hfar, hu⟩
      refine ⟨fun d' hd' => ?_, hsame hu⟩
      rwa [hd'.unique hnear]
  · rintro e ⟨t', l'⟩ ⟨⟨-, rfl, -, hfull⟩, -, hheap'⟩
    refine ⟨fun d hd => ?_, rfl, hheap'⟩
    have hused := hfull _ (t'.addSmall_lt (f := d) hbi)
    rw [hd.free] at hused
    cases hused

def AllCounted (F : Set Nat) (w : HopHash FixedString FixedString) : Prop :=
  ∃ c, 1 ≤ c ∧ Settles F [] c w

variable [DecidableEq κ]

theorem allCounted_emplaceFrom {args : Nat → FixedString × FixedString}
    (hunused : ∀ j, ∀ p ∈ pairBlocks (args j), p ∈ F) (hnodup : ∀ j, (pairBlocks (args j)).Nodup)
    (n j : Nat) (h : AllCounted F w) (hcalm : Undisturbed cfg args n j w.table) :
    Sat (emplaceFrom cfg args n j) w (fun _ => True) (fun _ w' => AllCounted ∅ w') (fun _ w' => AllCounted ∅ w') := by
  have hfinish : ∀ {F c kv} {v : HopHash FixedString FixedString}, 1 ≤ c → Settles F (pairBlocks kv ++ []) c v →
      AllCounted F ⟨v.table, .call (.destroy kv) :: v.log⟩ :=
    fun hc hv => ⟨_, hc, hv.exact.destroy, hv.count⟩
  have hunlock : ∀ {F pending c} {v : HopHash FixedString FixedString} {bi : Nat},
      Settles F pending c v → Settles F pending c ⟨v.table, .call (.unlockOwner bi) :: v.log⟩ :=
    fun hv => hv.locksOnly ⟨rfl, rfl⟩
  have hweaken : ∀ {F} {v : HopHash FixedString FixedString}, AllCounted F v → AllCounted ∅ v :=
    fun ⟨c, hc, hv⟩ => ⟨c, hc, hv.exact.weaken, hv.count⟩
  induction n generalizing j w with
  | zero => exact Sat.fail trivial (hweaken h)
  | succ n ih =>
    obtain ⟨t, l⟩ := w
    obtain ⟨c, hc, hsettle⟩ := h
    have hbuilt : Settles F (pairBlocks (args j) ++ []) c ⟨t, .call (.construct (args j)) :: l⟩ := by
      refine ⟨hsettle.exact.construct (fun p hp => ?_) (hnodup j), hsettle.count⟩
      rw [hsettle.exact.refCount, hsettle.exact.unused p (hunused j p hp)]
      rfl
    have hlocked : Settles F (pairBlocks (args j) ++ []) c ⟨t, .call (.lockOwner (bucket cfg t (cfg.key (args j).1))) ::
          .call (.construct (args j)) :: l⟩ := hbuilt.locksOnly ⟨rfl, rfl⟩
    have hbi := bucket_lt cfg t (cfg.key (args j).1)
    unfold emplaceFrom
    refine sat_call_bind trivial (sat_getTable_bind (sat_call_bind trivial ?_))
    dsimp only
    rw [Represents.alreadyPresent_eq_locateFrom]
    cases hlocate : locateFrom cfg t (cfg.key (args j).1) Owner.size (t.owner (bucket cfg t (cfg.key (args j).1)))
        (bucket cfg t (cfg.key (args j).1)) with
    | some b =>
      exact sat_call_bind trivial (sat_call_bind trivial (Sat.pure trivial (hweaken (hfinish hc (hunlock hlocked)))))
    | none =>
      obtain ⟨hnone, hretry⟩ := hcalm hlocate
      refine Sat.handle (Sat.bind ((settles_emplaceNew hlocked rfl hbi hnone
        fun p hp => List.mem_append_left _ hp).imp ?_ ?_))
      · rintro b v hv
        exact sat_call_bind trivial (sat_call_bind trivial (Sat.pure trivial (hfinish hc (hunlock hv))))
      · rintro e ⟨t', l'⟩ ⟨hfar, hv⟩
        have hsettle' : Settles F (pairBlocks (args j) ++ []) c ⟨t', l'⟩ := hlocked.locksOnly hv
        obtain ⟨rfl, -⟩ := hv
        refine sat_call_bind trivial (sat_getTable_bind ?_)
        split
        · -- the pair of this attempt is still there during the resize, and destroyed after it
          refine Sat.bind (((tallied_resize hc (hunlock hsettle')).and (Sat.final _ _)).ends ?_ (fun _ _ h => h.1.elim))
          rintro - v ⟨hv, rfl⟩
          exact sat_call_bind trivial (ih (j + 1) (hfinish (by omega) hv) (hretry hfar _))
        · exact sat_call_bind trivial (Sat.fail trivial (hweaken (hfinish hc (hunlock hsettle'))))

theorem allCounted_erase (k : κ) (h : AllCounted ∅ w) :
    Sat (erase cfg k) w (fun _ => True) (fun _ w' => AllCounted ∅ w') (fun _ _ => False) := by
  obtain ⟨t, l⟩ := w
  obtain ⟨c, hc, hsettle⟩ := h
  refine sat_getTable_bind (sat_call_bind trivial ?_)
  cases hlocate : locateKey cfg t k (bucket cfg t k) with
  | none =>
    exact sat_call_bind trivial (Sat.pure trivial ⟨c, hc, hsettle.locksOnly ⟨rfl, rfl⟩⟩)
  | some j =>
    obtain ⟨q, -, rfl, -⟩ := Represents.locateFrom_eq_some (bucket_lt cfg t k) hlocate
    have hlt : t.addSmall (bucket cfg t k) q < 2 ^ (7 + (c - 1)) := by
      rw [← hsettle.bucketCount_eq]
      exact t.addSmall_lt (bucket_lt cfg t k)
    refine sat_call_bind trivial (sat_sizeUpdate_bind trivial (sat_write_bind trivial ?_))
    have hrelease : ∀ v, Settles ∅ [] c v → Sat (contentErase (t.addSmall (bucket cfg t k) q)) v (fun _ => True)
          (fun _ w' => Settles ∅ [] c w') (fun _ _ => False) := fun v hv =>
      (tallied_contentErase hlt hv).imp (fun _ _ h => h.1) (fun _ _ h => h)
    refine Sat.bind ((hrelease _ ?_).post ?_)
    · exact ⟨hsettle.exact.frame rfl fun _ _ _ => rfl, hsettle.count⟩
    · rintro - v hv
      exact (Keeps.bind (tallied_size _) fun _ => Keeps.bind (tallied_size _) fun _ =>
        Keeps.bind (tallied_call fun _ => rfl) fun _ => Keeps.bind (tallied_call fun _ => rfl)
        fun _ => Keeps.pure _).sat hv fun _ _ h => ⟨c, hc, h⟩

end Insertion

section Runs

variable {κ : Type} [DecidableEq κ]

/-- A call that changes a table of strings. Each attempt of an insertion builds its pair in blocks
that the allocator gives for it. -/
inductive Change (κ : Type) where
  | emplace (args : Nat → FixedString × FixedString)
  | erase (k : κ)

def Change.run (cfg : Config FixedString κ FixedString) :
    Change κ → HopHash FixedString FixedString → HopHash FixedString FixedString
  | .emplace args, w => (Hstore.emplace cfg args).final w
  | .erase k, w => (Hstore.erase cfg k).final w

def runChanges (cfg : Config FixedString κ FixedString) (cs : List (Change κ))
    (w : HopHash FixedString FixedString) : HopHash FixedString FixedString :=
  cs.foldl (fun w c => c.run cfg w) w

def AllChanges (cfg : Config FixedString κ FixedString)
    (P : HopHash FixedString FixedString → Change κ → Prop) :
    List (Change κ) → HopHash FixedString FixedString → Prop
  | [], _ => True
  | c :: cs, w => P w c ∧ AllChanges cfg P cs (c.run cfg w)

def FreshPair (w : HopHash FixedString FixedString) (kv : FixedString × FixedString) : Prop :=
  (pairBlocks kv).Nodup ∧ ∀ p ∈ pairBlocks kv, (StringHeap.ofLog w.log).allocated p = false

instance (w : HopHash FixedString FixedString) (kv : FixedString × FixedString) :
    Decidable (FreshPair w kv) :=
  inferInstanceAs (Decidable (_ ∧ _))

def Fresh (w : HopHash FixedString FixedString) : Change κ → Prop
  | .emplace args => ∀ j, FreshPair w (args j)
  | .erase _ => True

def Calm (cfg : Config FixedString κ FixedString) (w : HopHash FixedString FixedString) :
    Change κ → Prop
  | .emplace args => Undisturbed cfg args (segmentCapacity + 1) 0 w.table
  | .erase _ => True

/-- The count of each block is the number of fields in use that refer to it, and the block is
released when there is none. -/
def CountsExact (w : HopHash FixedString FixedString) : Prop :=
  ∀ p, (StringHeap.ofLog w.log).refCount p = uses w.table.bucketCount w.table p ∧
    ((StringHeap.ofLog w.log).allocated p = true ↔ 0 < uses w.table.bucketCount w.table p)

variable {cfg : Config FixedString κ FixedString} {w : HopHash FixedString FixedString}

theorem AllCounted.countsExact (h : AllCounted ∅ w) : CountsExact w := by
  obtain ⟨c, -, hsettle⟩ := h
  intro p
  have hcount := hsettle.exact.refCount p
  rw [List.count_nil, Nat.add_zero, ← hsettle.bucketCount_eq] at hcount
  refine ⟨hcount, ?_⟩
  rw [hsettle.exact.sound p, hcount, decide_eq_true_iff]

theorem allCounted_change (h : AllCounted ∅ w) {c : Change κ} (hfresh : Fresh w c)
    (hcalm : Calm cfg w c) : AllCounted ∅ (c.run cfg w) := by
  cases c with
  | emplace args =>
    obtain ⟨n, hn, hsettle⟩ := h
    -- the blocks of the new pairs are not used by the table
    have hunused : AllCounted {p | ∃ j, p ∈ pairBlocks (args j)} w := by
      refine ⟨n, hn, ⟨hsettle.exact.sound, hsettle.exact.refCount, ?_⟩, hsettle.count⟩
      rintro p ⟨j, hp⟩
      have hfree := (hfresh j).2 p hp
      rw [hsettle.exact.sound p, hsettle.exact.refCount, decide_eq_false_iff_not] at hfree
      omega
    have hmem : ∀ j, ∀ p ∈ pairBlocks (args j), p ∈ {p | ∃ j, p ∈ pairBlocks (args j)} :=
      fun j p hp => ⟨j, hp⟩
    have hsat := allCounted_emplaceFrom hmem (fun j => (hfresh j).1) (segmentCapacity + 1) 0 hunused hcalm
    change AllCounted ∅ ((emplaceFrom cfg args (segmentCapacity + 1) 0).final w)
    cases hr : (emplaceFrom cfg args (segmentCapacity + 1) 0).result w with
    | ok r => exact hsat.of_ok hr
    | error e => exact hsat.of_error hr
  | erase k =>
    have hsat : Sat (erase cfg k) w _ _ _ := allCounted_erase k h
    cases hr : (erase cfg k).result w with
    | ok r => exact hsat.of_ok hr
    | error e => exact (hsat.of_error hr).elim

theorem allCounted_runChanges (cs : List (Change κ)) (h : AllCounted ∅ w)
    (hfresh : AllChanges cfg Fresh cs w) (hcalm : AllChanges cfg (Calm cfg) cs w) :
    AllCounted ∅ (runChanges cfg cs w) := by
  induction cs generalizing w with
  | nil => exact h
  | cons c cs ih => exact ih (allCounted_change h hfresh.1 hcalm.1) hfresh.2 hcalm.2

theorem allCounted_persistMap (n : Nat) : AllCounted ∅ ⟨persistMap n, []⟩ := by
  refine ⟨segmentCountSpecified n, ?_, ⟨fun _ => rfl, fun p => ?_, fun _ hp => hp.elim⟩, rfl⟩
  · unfold segmentCountSpecified log2
    split <;> omega
  · change 0 = _
    rw [List.count_nil, Nat.add_zero]
    exact (Finset.sum_eq_zero fun b _ => held_free rfl p).symm

/-- The counts are exact in every state that a run reaches which displaces nothing. -/
theorem runChanges_countsExact (cfg : Config FixedString κ FixedString) (n : Nat)
    (cs : List (Change κ)) (hfresh : AllChanges cfg Fresh cs (created cfg n))
    (hcalm : AllChanges cfg (Calm cfg) cs (created cfg n)) : CountsExact (runChanges cfg cs (created cfg n)) := by
  rw [created_eq] at *
  exact (allCounted_runChanges cs (allCounted_persistMap n) hfresh hcalm).countsExact

theorem undisturbed_of_free {args : Nat → FixedString × FixedString} {n j : Nat} {t : Table FixedString FixedString}
    (hfree : t.state (bucket cfg t (cfg.key (args j).1)) = .free) : Undisturbed cfg args n j t := by
  cases n with
  | zero => trivial
  | succ n =>
    have hnear : NearestFree t (bucket cfg t (cfg.key (args j).1)) 0 := by
      refine ⟨t.bucketCount_pos, ?_, nofun⟩
      rwa [Table.addSmall, Circle.step_zero (bucket_lt ..)]
    exact fun _ => ⟨fun d hd => Or.inl (hd.unique hnear ▸ by decide), fun hfar => absurd (hfar 0 hnear) (by decide)⟩

def headConfig (ones : BitVec 64) : Config FixedString (List UInt8) FixedString where
  key := FixedString.data
  hf k := BitVec.ofNat 64 (k.headD 0).toNat
  images _ _ := []
  ones := ones
  autoResize := true

/-- A key and a value of 24 characters each, in the blocks `2 * i` and `2 * i + 1`. -/
def longPair (i : Nat) (c : UInt8) : FixedString × FixedString :=
  (.ofData (2 * i) (List.replicate 24 c), .ofData (2 * i + 1) (List.replicate 24 c))

def smallChanges : List (Change (List UInt8)) :=
  [.emplace fun _ => longPair 0 7, .emplace fun _ => longPair 1 8, .erase (List.replicate 24 7)]

theorem runChanges_countsExact_smallChanges : CountsExact (runChanges (headConfig (BitVec.allOnes 64)) smallChanges
      (created (headConfig (BitVec.allOnes 64)) 1)) := by
  refine runChanges_countsExact _ 1 _ ?_ ?_
  · rw [created_eq]
    have h₀ : FreshPair ⟨persistMap 1, []⟩ (longPair 0 7) := by decide +kernel
    have h₁ : FreshPair ((Change.emplace fun _ => longPair 0 7).run (headConfig (BitVec.allOnes 64))
        ⟨persistMap 1, []⟩) (longPair 1 8) := by decide +kernel
    exact ⟨fun _ => h₀, fun _ => h₁, trivial, trivial⟩
  · rw [created_eq]
    exact ⟨undisturbed_of_free (by decide +kernel), undisturbed_of_free (by decide +kernel), trivial, trivial⟩

def longChanges (cs : List Nat) : List (Change (List UInt8)) :=
  cs.map fun i => .emplace fun _ => longPair i (UInt8.ofNat i)

def freshThroughout (cfg : Config FixedString (List UInt8) FixedString) :
    List Nat → HopHash FixedString FixedString → Bool
  | [], _ => true
  | i :: is, w => decide (FreshPair w (longPair i (UInt8.ofNat i))) &&
      freshThroughout cfg is ((emplace cfg fun _ => longPair i (UInt8.ofNat i)).final w)

theorem allChanges_fresh {cfg : Config FixedString (List UInt8) FixedString} {is : List Nat}
    {w : HopHash FixedString FixedString} (h : freshThroughout cfg is w = true) :
    AllChanges cfg Fresh (longChanges is) w := by
  induction is generalizing w with
  | nil => trivial
  | cons i is ih =>
    unfold freshThroughout at h
    rw [Bool.and_eq_true, decide_eq_true_iff] at h
    exact ⟨fun _ => h.1, ih h.2⟩

/-- With the first 64 of 128 buckets full, the insertion of a key with home 0 moves the pair of bucket 1, whose blocks
then count two references. -/
theorem not_countsExact_displaced :
    AllChanges (headConfig (BitVec.allOnes 64)) Fresh (longChanges (List.range 64 ++ [128]))
        (created (headConfig (BitVec.allOnes 64)) 1) ∧ ¬ CountsExact (runChanges (headConfig (BitVec.allOnes 64))
        (longChanges (List.range 64 ++ [128])) (created (headConfig (BitVec.allOnes 64)) 1)) := by
  rw [created_eq]
  refine ⟨allChanges_fresh (by decide +kernel), fun h => ?_⟩
  have hblock := (h 2).1
  revert hblock
  decide +kernel

end Runs

end Comanche.Hstore
