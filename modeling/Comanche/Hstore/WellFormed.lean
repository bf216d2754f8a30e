import Comanche.Hstore.Represents

/-!
# Well-formed tables

A table is settled when no resize is under way and its claims represent a map.
-/

namespace Comanche.Hstore

open Lib ValueUnstable

section Rules

variable {K V β : Type} {w : HopHash K V} {C : HopHash K V → Prop} {Q : β → HopHash K V → Prop}
  {E : Exc → HopHash K V → Prop}

theorem sat_write {x : Write K V} {Q : Unit → HopHash K V → Prop} (hC : C w)
    (hC' : C ⟨w.table.apply x, .write x :: w.log⟩)
    (hQ : Q () ⟨w.table.apply x, .write x :: w.log⟩) : Sat (write x) w C Q E :=
  Sat.emit hC hC' hQ

theorem sat_write_bind {x : Write K V} {f : Unit → Act K V β} (hC : C w)
    (h : Sat (f ()) ⟨w.table.apply x, .write x :: w.log⟩ C Q E) : Sat (write x >>= f) w C Q E :=
  Sat.bind (Sat.emit hC h.start h)

theorem sat_call {c : Call K V} {Q : Unit → HopHash K V → Prop} (hC : C w)
    (hC' : C ⟨w.table, .call c :: w.log⟩) (hQ : Q () ⟨w.table, .call c :: w.log⟩) : Sat (call c) w C Q E :=
  Sat.emit hC hC' hQ

theorem sat_call_bind {c : Call K V} {f : Unit → Act K V β} (hC : C w)
    (h : Sat (f ()) ⟨w.table, .call c :: w.log⟩ C Q E) : Sat (call c >>= f) w C Q E :=
  Sat.bind (Sat.emit hC h.start h)

theorem sat_getTable_bind {f : Table K V → Act K V β} (h : Sat (f w.table) w C Q E) : Sat (getTable >>= f) w C Q E :=
  Sat.bind (Sat.read h.start h)

theorem sat_sizeUpdate_bind {g : Nat → Nat} {f : Unit → Act K V β} (hC : C w)
    (h : Sat (f ()) ⟨w.table.apply (.size (g w.table.sizeControl)),
      .write (.size (g w.table.sizeControl)) :: w.log⟩ C Q E) : Sat (sizeUpdate g >>= f) w C Q E :=
  Sat.bind (sat_getTable_bind (sat_write hC h.start h))

theorem sat_sizeUpdate {g : Nat → Nat} {Q : Unit → HopHash K V → Prop} (hC : C w)
    (hC' : C ⟨w.table.apply (.size (g w.table.sizeControl)), .write (.size (g w.table.sizeControl)) :: w.log⟩)
    (hQ : Q () ⟨w.table.apply (.size (g w.table.sizeControl)), .write (.size (g w.table.sizeControl)) :: w.log⟩) :
    Sat (sizeUpdate g) w C Q E :=
  sat_getTable_bind (sat_write hC hC' hQ)

end Rules

variable {K κ V : Type} [DecidableEq κ]

structure Settled (cfg : Config K κ V) (t : Table K V) (m : KeyMap κ V) : Prop where
  represents : Represents cfg t m
  count : t.segmentCountActual = valueSetStable 1 t.segmentCountNotStable
  count_pos : 1 ≤ t.segmentCountNotStable
  count_le : t.segmentCountNotStable ≤ segmentCapacity
  segment : ∀ i, i < t.segmentCountNotStable → t.segment i = true

def StatesAgree (t : Table K V) : Prop :=
  ∀ b, b < t.bucketCount → (t.state b = .inUse ↔ Claimed t b)

structure WellFormed (cfg : Config K κ V) (t : Table K V) (m : KeyMap κ V) : Prop
    extends Settled cfg t m where
  states : StatesAgree t
  size_eq : t.sizeControl = valueSetStable 8 m.keys.card

namespace ValueUnstable

theorem isStable_valueSetStable (N n : Nat) : isStable N (valueSetStable N n) = true := by
  unfold isStable valueSetStable
  rw [Nat.shiftLeft_eq, Nat.mul_mod_left]
  rfl

theorem valueNotStable_valueSetStable (N n : Nat) : valueNotStable N (valueSetStable N n) = n := by
  unfold valueNotStable valueSetStable
  rw [Nat.shiftLeft_eq, Nat.shiftRight_eq_div_pow, Nat.mul_div_cancel _ (Nat.two_pow_pos N)]

theorem isStable_destabilize {N : Nat} (hN : 1 ≤ N) (n : Nat) :
    isStable N (destabilize (valueSetStable N n)) = false := by
  unfold isStable destabilize valueSetStable
  have hone : 1 < 2 ^ N := Nat.one_lt_two_pow (by omega)
  rw [Nat.shiftLeft_eq, Nat.add_comm, Nat.add_mul_mod_self_right, Nat.mod_eq_of_lt hone]
  rfl

theorem incr_destabilize (N n : Nat) :
    incr N (destabilize (valueSetStable N n)) = destabilize (valueSetStable N (n + 1)) := by
  unfold incr destabilize valueSetStable
  rw [Nat.shiftLeft_eq, Nat.shiftLeft_eq, Nat.add_mul]
  omega

theorem decr_destabilize (N n : Nat) :
    decr N (destabilize (valueSetStable N (n + 1))) = destabilize (valueSetStable N n) := by
  rw [← incr_destabilize]
  unfold decr incr
  omega

end ValueUnstable

structure SameLive (t t' : Table K V) : Prop where
  count : t'.segmentCountActual = t.segmentCountActual
  size : t'.sizeControl = t.sizeControl
  segment : ∀ i, i < t.segmentCountNotStable → t'.segment i = t.segment i
  owner : ∀ i, i < t.bucketCount → t'.owner i = t.owner i
  state : ∀ i, i < t.bucketCount → t'.state i = t.state i
  value : ∀ i, i < t.bucketCount → t'.value i = t.value i

theorem SameLive.segmentCountNotStable_eq {t t' : Table K V} (h : SameLive t t') :
    t'.segmentCountNotStable = t.segmentCountNotStable := by
  unfold Table.segmentCountNotStable
  rw [h.count]

theorem SameLive.bucketCount_eq {t t' : Table K V} (h : SameLive t t') : t'.bucketCount = t.bucketCount := by
  unfold Table.bucketCount
  rw [h.segmentCountNotStable_eq]

variable {cfg : Config K κ V} {t t' : Table K V} {m : KeyMap κ V}

namespace Settled

section

variable (h : Settled cfg t m)
include h

theorem of_represents {m' : KeyMap κ V} (hr : Represents cfg t' m')
    (hcount : t'.segmentCountActual = t.segmentCountActual) (hseg : t'.segment = t.segment) : Settled cfg t' m' := by
  have hn : t'.segmentCountNotStable = t.segmentCountNotStable := by
    unfold Table.segmentCountNotStable
    rw [hcount]
  refine ⟨hr, ?_, ?_, ?_, ?_⟩
  · rw [hcount, hn, h.count]
  · rw [hn]
    exact h.count_pos
  · rw [hn]
    exact h.count_le
  · rw [hn, hseg]
    exact h.segment

theorem apply_state (i : Nat) (s : ContentState) : Settled cfg (t.apply (.state i s)) m :=
  h.of_represents (h.represents.apply_state i s) rfl rfl

theorem apply_size (word : Nat) : Settled cfg (t.apply (.size word)) m :=
  h.of_represents (h.represents.apply_size word) rfl rfl

theorem apply_value {b : Nat} (hb : ¬ Claimed t b) (kv : K × V) : Settled cfg (t.apply (.value b kv)) m :=
  h.of_represents (h.represents.apply_value hb kv) rfl rfl

end

end Settled

namespace WellFormed

section

variable (h : WellFormed cfg t m)
include h

theorem free_iff {b : Nat} (hb : b < t.bucketCount) : t.state b = .free ↔ ¬ Claimed t b := by
  rw [← h.states b hb]
  cases t.state b <;> simp

theorem apply_value {b : Nat} (hb : ¬ Claimed t b) (kv : K × V) : WellFormed cfg (t.apply (.value b kv)) m where
  toSettled := h.toSettled.apply_value hb kv
  states := h.states
  size_eq := h.size_eq

theorem update {i p : Nat} (hip : Claims t i p) {kv : K × V} (hkey : cfg.key kv.1 = cfg.key (entry t i p).1) :
    WellFormed cfg (t.apply (.value (t.addSmall i p) kv)) (m.insert (cfg.key kv.1) kv.2) := by
  have hmem : cfg.key kv.1 ∈ m := by
    rw [hkey]
    exact Finmap.mem_of_lookup_eq_some (h.represents.lookup_entry hip)
  have hkeys : (m.insert (cfg.key kv.1) kv.2).keys = m.keys := by
    ext a
    rw [Finmap.mem_keys, Finmap.mem_insert, Finmap.mem_keys]
    constructor
    · rintro (rfl | ha)
      · exact hmem
      · exact ha
    · exact Or.inr
  refine ⟨h.toSettled.of_represents (h.represents.update hip hkey) rfl rfl, h.states, ?_⟩
  rw [hkeys]
  exact h.size_eq

theorem congr (hs : SameLive t t') : WellFormed cfg t' m := by
  have hn := hs.segmentCountNotStable_eq
  have hN := hs.bucketCount_eq
  refine ⟨⟨h.represents.congr hN hs.owner fun b hb => hs.value b hb.lt, ?_, ?_, ?_, ?_⟩, ?_, ?_⟩
  · rw [hs.count, hn, h.count]
  · rw [hn]
    exact h.count_pos
  · rw [hn]
    exact h.count_le
  · rw [hn]
    intro i hi
    rw [hs.segment i hi, h.segment i hi]
  · intro b hb
    rw [hN] at hb
    rw [hs.state b hb, claimed_congr hN hs.owner, h.states b hb]
  · rw [hs.size, h.size_eq]

theorem size : t.size = m.keys.card := by
  unfold Table.size
  rw [h.size_eq, valueNotStable_valueSetStable]

theorem isStable_destabilize : isStable 8 (destabilize t.sizeControl) = false := by
  rw [h.size_eq]
  exact ValueUnstable.isStable_destabilize (by decide) _

end

end WellFormed

end Comanche.Hstore
