import Comanche.Lib.Run
import Mathlib.Data.Nat.Bitwise

/-!
# Striping over devices

`Raid_component` sends block `lba` to the device `lba % n`.
-/

namespace Comanche.Block.Raid

open Lib

structure Setup where
  deviceCount : Nat
  pos : 0 < deviceCount
  le : deviceCount ≤ 16

inductive Direction where
  | read
  | write
  deriving DecidableEq

/-- A request, as it was passed to a device, with the work identifier of the device. -/
structure Request where
  direction : Direction
  index : Nat
  lba : Nat
  gwid : Nat
  completed : Bool
  deriving DecidableEq

abbrev State : Type := List Request

def Request.lgwid (r : Request) : Nat := r.gwid ||| r.index <<< 60

/-- The device `index` returns a work identifier above those that it returned before. -/
def State.Fresh (s : State) (index gwid : Nat) : Prop :=
  0 < gwid ∧ gwid < 2 ^ 60 ∧ ∀ r ∈ s, r.index = index → r.gwid < gwid

instance (s : State) (index gwid : Nat) : Decidable (s.Fresh index gwid) := inferInstanceAs (Decidable (_ ∧ _))

/-- A request for one block, to which the device gives the identifier `gwid`. -/
def State.issue (s : State) (c : Setup) (direction : Direction) (lba lbaCount gwid : Nat) : Except String State :=
  if lbaCount ≠ 1 then .error "invalid parameter(s)"
  else .ok (s ++ [⟨direction, lba % c.deviceCount, lba / c.deviceCount, gwid, false⟩])

def State.asyncRead (s : State) (c : Setup) (lba lbaCount gwid : Nat) : Except String State :=
  s.issue c .read lba lbaCount gwid

def State.asyncWrite (s : State) (c : Setup) (lba lbaCount gwid : Nat) : Except String State :=
  s.issue c .write lba lbaCount gwid

/-- `check_completion` of a device, which is exact: everything up to the identifier, and with 0 everything,
has completed. -/
def State.deviceCheck (s : State) (index gwid : Nat) : Bool :=
  s.all fun r => decide (r.index = index) && (gwid == 0 || decide (r.gwid ≤ gwid)) → r.completed

def gwidToSeq (lgwid : Nat) : Nat := lgwid &&& 0x00FFFFFFFFFFFFFF

def State.checkCompletion (s : State) (lgwid : Nat) : Bool :=
  s.deviceCheck (lgwid >>> 60) (gwidToSeq lgwid)

inductive Event where
  | io (direction : Direction) (lba lbaCount gwid : Nat)
  | complete (p : Nat)
  | check (p : Nat)
  | checkAll

def step (c : Setup) (s : State) : Event → Option State
  | .io direction lba lbaCount gwid =>
    if s.Fresh (lba % c.deviceCount) gwid then
      match direction with
      | .read => some ((s.asyncRead c lba lbaCount gwid).toOption.getD s)
      | .write => some ((s.asyncWrite c lba lbaCount gwid).toOption.getD s)
    else none
  | .complete p => some (s.modify p fun r => { r with completed := true })
  | .check _ | .checkAll => some s

/-- The answer to a check covers all work that was issued before, and the device is asked for the identifier
that it returned. -/
def Covers (s : State) : Event → Prop
  | .check p => ∀ r ∈ s[p]?, r.lgwid >>> 60 = r.index ∧ gwidToSeq r.lgwid = r.gwid ∧
      (s.checkCompletion r.lgwid = true → ∀ q ∈ s.take (p + 1), q.completed = true)
  | .checkAll => s.checkCompletion 0 = true → ∀ q ∈ s, q.completed = true
  | _ => True

/-- The identifier has at most 56 bits, and with all that its own device was given up to the request also
what the other devices were given before has completed. -/
def Sound (s : State) : Event → Prop
  | .check p => ∀ r ∈ s[p]?, r.gwid < 2 ^ 56 ∧
      (s.deviceCheck r.index r.gwid = true → ∀ q ∈ s.take p, q.index ≠ r.index → q.completed = true)
  | .checkAll => s.deviceCheck 0 0 = true → ∀ q ∈ s, q.index ≠ 0 → q.completed = true
  | _ => True

section Identifiers

variable {r : Request}

theorem lgwid_eq (h : r.gwid < 2 ^ 60) : r.lgwid = r.index * 2 ^ 60 + r.gwid := by
  unfold Request.lgwid
  rw [Nat.or_comm, ← Nat.shiftLeft_add_eq_or_of_lt h, Nat.shiftLeft_eq]

theorem lgwid_index (h : r.gwid < 2 ^ 60) : r.lgwid >>> 60 = r.index := by
  rw [Nat.shiftRight_eq_div_pow, lgwid_eq h]
  omega

theorem gwidToSeq_lgwid (h : r.gwid < 2 ^ 60) : gwidToSeq r.lgwid = r.gwid % 2 ^ 56 := by
  unfold gwidToSeq
  rw [show 0x00FFFFFFFFFFFFFF = 2 ^ 56 - 1 from rfl, Nat.and_two_pow_sub_one_eq_mod, lgwid_eq h]
  omega

end Identifiers

structure State.Ordered (s : State) : Prop where
  lt : ∀ r ∈ s, 0 < r.gwid ∧ r.gwid < 2 ^ 60
  increasing : s.Pairwise fun q r => q.index = r.index → q.gwid < r.gwid

section Order

variable {c : Setup} {s s' : State}

theorem State.deviceCheck_iff {index gwid : Nat} : s.deviceCheck index gwid = true ↔
      ∀ r ∈ s, r.index = index → (gwid = 0 ∨ r.gwid ≤ gwid) → r.completed = true := by
  unfold State.deviceCheck
  simp only [List.all_eq_true, decide_eq_true_eq, Bool.and_eq_true, Bool.or_eq_true, beq_iff_eq, and_imp]

section

variable (h : s.Ordered)
include h

theorem State.Ordered.issue {direction : Direction} {lba lbaCount gwid : Nat}
    (hfresh : s.Fresh (lba % c.deviceCount) gwid) :
    State.Ordered ((s.issue c direction lba lbaCount gwid).toOption.getD s) := by
  obtain ⟨hpos, hlt, hlast⟩ := hfresh
  unfold State.issue
  split
  · exact h
  · refine ⟨fun r hr => ?_, ?_⟩
    · rcases List.mem_append.mp hr with hr | hr
      · exact h.lt r hr
      · obtain rfl := List.mem_singleton.mp hr
        exact ⟨hpos, hlt⟩
    · refine List.pairwise_append.mpr ⟨h.increasing, List.pairwise_singleton _ _, fun q hq r hr hindex => ?_⟩
      obtain rfl := List.mem_singleton.mp hr
      exact hlast q hq hindex

theorem State.Ordered.complete (p : Nat) : State.Ordered (s.modify p fun r => { r with completed := true }) := by
  have hmap : (s.modify p fun r => { r with completed := true }).map (fun r => (r.index, r.gwid)) =
      s.map fun r => (r.index, r.gwid) := by
    refine List.ext_getElem? fun k => ?_
    rw [List.getElem?_map, List.getElem?_map, List.getElem?_modify]
    split
    · cases s[k]? with
      | none => rfl
      | some r => rfl
    · simp
  refine ⟨fun r hr => ?_, ?_⟩
  · have hmem : (r.index, r.gwid) ∈ s.map fun r => (r.index, r.gwid) := hmap ▸ List.mem_map_of_mem hr
    obtain ⟨q, hq, heq⟩ := List.mem_map.mp hmem
    obtain ⟨-, hgwid⟩ := Prod.mk.inj heq
    exact hgwid ▸ h.lt q hq
  · have hpairs : (s.map fun r => (r.index, r.gwid)).Pairwise fun a b => a.1 = b.1 → a.2 < b.2 :=
      List.pairwise_map.mpr h.increasing
    rw [← hmap] at hpairs
    exact List.pairwise_map.mp hpairs

theorem step_ordered {e : Event} (hstep : s' ∈ step c s e) : s'.Ordered := by
  cases e with
  | io direction lba lbaCount gwid =>
    change s' ∈ ite _ _ _ at hstep
    split at hstep
    · next hfresh =>
      cases direction with
      | read =>
        cases hstep
        exact h.issue hfresh
      | write =>
        cases hstep
        exact h.issue hfresh
    · cases hstep
  | complete p =>
    cases hstep
    exact h.complete p
  | _ =>
    cases hstep
    exact h

theorem State.Ordered.completed_of_check {p : Nat} {r q : Request} (hr : s[p]? = some r)
    (hcheck : s.deviceCheck r.index r.gwid = true) (hq : q ∈ s.take (p + 1)) (hindex : q.index = r.index) :
    q.completed = true := by
  refine State.deviceCheck_iff.mp hcheck q (List.mem_of_mem_take hq) hindex (.inr ?_)
  obtain ⟨hp, rfl⟩ := List.getElem?_eq_some_iff.mp hr
  obtain ⟨k, hk, rfl⟩ := List.mem_take_iff_getElem.mp hq
  rcases Nat.lt_or_eq_of_le (Nat.le_of_lt_succ (Nat.lt_of_lt_of_le hk (Nat.min_le_left _ _))) with hlt | rfl
  · exact Nat.le_of_lt (List.pairwise_iff_getElem.mp h.increasing k p _ hp hlt hindex)
  · exact Nat.le_refl _

theorem covers_check_iff (p : Nat) : Covers s (.check p) ↔ Sound s (.check p) := by
  refine forall₂_congr fun r hr => ?_
  have hlt := (h.lt r (List.mem_of_getElem? hr)).2
  rw [lgwid_index hlt, gwidToSeq_lgwid hlt]
  simp only [true_and]
  have hkept : r.gwid % 2 ^ 56 = r.gwid ↔ r.gwid < 2 ^ 56 := Nat.mod_eq_iff_lt (by decide)
  rw [hkept]
  refine and_congr_right fun hsmall => ?_
  have hcheck : s.checkCompletion r.lgwid = s.deviceCheck r.index r.gwid := by
    unfold State.checkCompletion
    rw [lgwid_index hlt, gwidToSeq_lgwid hlt, Nat.mod_eq_of_lt hsmall]
  have hmem : ∀ q, q ∈ s.take (p + 1) ↔ q ∈ s.take p ∨ q = r := fun q => by
    rw [List.take_add_one, Option.mem_def.mp hr]
    simp
  rw [hcheck]
  constructor
  · intro hcovers hdone q hq _
    exact hcovers hdone q ((hmem q).mpr (.inl hq))
  · intro hsound hdone q hq
    by_cases hindex : q.index = r.index
    · exact h.completed_of_check hr hdone hq hindex
    · -- the request itself is one of its device
      rcases (hmem q).mp hq with hbefore | rfl
      · exact hsound hdone q hbefore hindex
      · exact absurd rfl hindex

end

theorem covers_checkAll_iff : Covers s .checkAll ↔ Sound s .checkAll := by
  change (s.deviceCheck 0 0 = true → _) ↔ (s.deviceCheck 0 0 = true → _)
  refine forall_congr' fun hdone => forall₂_congr fun q hq => ?_
  refine ⟨fun hcompleted _ => hcompleted, fun hother => ?_⟩
  by_cases hindex : q.index = 0
  · exact State.deviceCheck_iff.mp hdone q hq hindex (.inl rfl)
  · exact hother hindex

end Order

/-- In every run the checks cover what was issued before exactly when each identifier has 56 bits and no device is
behind the one that is asked. -/
theorem covers_iff_sound (c : Setup) (es : List Event) :
    Throughout (step c) Covers [] es ↔ Throughout (step c) Sound [] es := by
  refine Throughout.iff (I := State.Ordered) ?_ (fun _ _ _ hs _ hstep => step_ordered hs hstep)
    ⟨fun r hr => absurd hr List.not_mem_nil, List.Pairwise.nil⟩
  intro s e hs
  cases e with
  | check p => exact covers_check_iff hs p
  | checkAll => exact covers_checkAll_iff
  | _ => rfl

/-- The second of two devices has completed its request, the first has not. -/
theorem not_covers_otherDevice : ¬ Throughout (step ⟨2, by decide, by decide⟩) Covers []
      [.io .write 0 1 1, .io .write 1 1 1, .complete 1, .check 1] := by
  rintro ⟨-, h⟩
  obtain ⟨-, h⟩ := h _ (Option.get_mem (by decide))
  obtain ⟨-, h⟩ := h _ (Option.get_mem (by decide))
  obtain ⟨hcovers, -⟩ := h _ (Option.get_mem (by decide))
  have hdone := (hcovers _ (Option.get_mem (by decide))).2.2 (by decide)
  exact absurd (hdone ⟨.write, 0, 0, 1, false⟩ (by decide)) (by decide)

end Comanche.Block.Raid
