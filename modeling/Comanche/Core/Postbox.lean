import Comanche.Lib.Cells
import Comanche.Lib.Run
import Mathlib.Algebra.Group.Nat.Defs

/-!
# The post box

`Mpmc_postbox` is an array of slots in shared memory.
-/

namespace Comanche.Core.Postbox

open Lib

/-- What a thread does next: in `post` of a value the test and the exchange of slot `next`, in `collect` the test, the
load, the exchange and the store after it. -/
inductive Pc where
  | idle
  | postTest (val next attempts : Nat)
  | postSwap (val next attempts : Nat)
  | collectTest (next attempts : Nat)
  | collectRead (next attempts : Nat)
  | collectSwap (next attempts val : Nat)
  | collectStore (next : Nat)
  deriving DecidableEq

/-- The slots are shared, and every thread has an object of its own. `posted` and `collected` are the values whose
exchange has succeeded. -/
structure State where
  numSlots : Nat
  slots : Nat → Nat
  nextFree : Nat → Nat
  nextToCollect : Nat → Nat
  pc : Nat → Pc
  posted : List Nat
  collected : List Nat

def State.new (numSlots : Nat) : State := ⟨numSlots, fun _ => 0, fun _ => 0, fun _ => 0, fun _ => .idle, [], []⟩

def State.after (s : State) (next : Nat) : Nat := if next + 1 = s.numSlots then 0 else next + 1

def State.to (s : State) (t : Nat) (pc : Pc) : State := { s with pc := Function.update s.pc t pc }

def State.store (s : State) (i val : Nat) : State := { s with slots := Function.update s.slots i val }

def State.retry (s : State) (t attempts : Nat) (pc : Pc) : State :=
  if attempts + 1 < s.numSlots * 2 % 2 ^ 32 then s.to t pc else s.to t .idle

/-- `post` returns true. -/
def State.put (s : State) (t val next : Nat) : State :=
  { (s.store next val).to t .idle with
    nextFree := Function.update s.nextFree t (if next = s.numSlots then 0 else next)
    posted := s.posted ++ [val] }

def State.take (s : State) (t val next : Nat) : State :=
  { (s.store next 0).to t (.collectStore next) with collected := s.collected ++ [val] }

def State.finish (s : State) (t next : Nat) : State :=
  { (s.store next 0).to t .idle with nextToCollect := Function.update s.nextToCollect t (s.after next) }

def State.go (s : State) (t : Nat) : Pc → Option State
  | .idle => none
  | .postTest val next attempts =>
    some (if s.slots next ≠ 0 then s.retry t attempts (.postTest val (s.after next) (attempts + 1))
      else s.to t (.postSwap val next attempts))
  | .postSwap val next attempts =>
    some (if s.slots next = 0 then s.put t val next else s.retry t attempts (.postTest val next (attempts + 1)))
  | .collectTest next attempts =>
    some (if s.slots next = 0 then s.retry t attempts (.collectTest (s.after next) (attempts + 1))
      else s.to t (.collectRead next attempts))
  | .collectRead next attempts => some (s.to t (.collectSwap next attempts (s.slots next)))
  | .collectSwap next attempts val =>
    some (if s.slots next = val then s.take t val next else s.retry t attempts (.collectTest next (attempts + 1)))
  | .collectStore next => some (s.finish t next)

inductive Event where
  | post (t val : Nat)
  | collect (t : Nat)
  | go (t : Nat)

/-- There is no object without a slot, a thread makes one call after the other, and values are not zero. -/
def step (s : State) : Event → Option State
  | .post t val =>
    if 0 < s.numSlots ∧ s.pc t = .idle ∧ val ≠ 0 then some (s.to t (.postTest val (s.nextFree t) 0)) else none
  | .collect t =>
    if 0 < s.numSlots ∧ s.pc t = .idle then some (s.to t (.collectTest (s.nextToCollect t) 0)) else none
  | .go t => s.go t (s.pc t)

def State.inSlots (s : State) : List Nat := Cells.contents (fun v => v != 0) s.slots s.numSlots

/-- No value is collected more often than it was posted, and when no call is running the values posted are those
collected and those in the slots. -/
structure State.Fine (s : State) : Prop where
  once : ∀ v, s.collected.count v ≤ s.posted.count v
  union : (∀ t, s.pc t = .idle) → s.posted.Perm (s.collected ++ s.inSlots)

def Holds (s : State) (e : Event) : Prop := ∀ s' ∈ step s e, s'.Fine

/-- An exchange of `collect` does not find the slot empty as expected, and the store after it does not find a
value. -/
def SafeAt (s : State) : Pc → Prop
  | .collectSwap next _ val => s.slots next = val → val ≠ 0
  | .collectStore next => s.slots next = 0
  | _ => True

def Safe (s : State) : Event → Prop
  | .go t => SafeAt s (s.pc t)
  | _ => True

instance (s : State) (pc : Pc) : Decidable (SafeAt s pc) := by
  unfold SafeAt
  split <;> infer_instance

instance (s : State) : ∀ e, Decidable (Safe s e)
  | .go t => inferInstanceAs (Decidable (SafeAt s (s.pc t)))
  | .post _ _ | .collect _ => isTrue trivial

section Runs

variable {s s' : State} {t : Nat}

def Fits (numSlots : Nat) : Pc → Prop
  | .idle => True
  | .postTest val next _ | .postSwap val next _ => next < numSlots ∧ val ≠ 0
  | .collectTest next _ | .collectRead next _ | .collectSwap next _ _ | .collectStore next => next < numSlots

structure State.Inv (s : State) : Prop where
  nextFree : 0 < s.numSlots → ∀ t, s.nextFree t < s.numSlots
  nextToCollect : 0 < s.numSlots → ∀ t, s.nextToCollect t < s.numSlots
  fits : ∀ t, Fits s.numSlots (s.pc t)
  union : s.posted.Perm (s.collected ++ s.inSlots)

theorem State.Inv.fine (h : s.Inv) : s.Fine := by
  refine ⟨fun v => ?_, fun _ => h.union⟩
  rw [h.union.count_eq, List.count_append]
  exact Nat.le_add_right _ _

theorem after_lt {next : Nat} (h : next < s.numSlots) : s.after next < s.numSlots := by
  unfold State.after
  split
  · omega
  · omega

section

variable (h : s.Inv)
include h

theorem fits_update {pc : Pc} (hpc : Fits s.numSlots pc) (t' : Nat) : Fits s.numSlots (Function.update s.pc t pc t') :=
  (Function.forall_update_iff s.pc fun _ pc => Fits s.numSlots pc).mpr ⟨hpc, fun t' _ => h.fits t'⟩ t'

theorem State.Inv.to {pc : Pc} (hpc : Fits s.numSlots pc) : (s.to t pc).Inv :=
  ⟨h.nextFree, h.nextToCollect, fits_update h hpc, h.union⟩

theorem State.Inv.retry {attempts : Nat} {pc : Pc} (hpc : Fits s.numSlots pc) : (s.retry t attempts pc).Inv := by
  unfold State.retry
  split
  · exact h.to hpc
  · exact h.to trivial

theorem State.Inv.put {val next : Nat} (hnext : next < s.numSlots) (hval : val ≠ 0)
    (hempty : s.slots next = 0) : (s.put t val next).Inv := by
  refine ⟨fun hpos t' => ?_, h.nextToCollect, fits_update h trivial, ?_⟩
  · refine (Function.forall_update_iff s.nextFree fun _ i => i < s.numSlots).mpr ⟨?_, fun t' _ => h.nextFree hpos t'⟩ t'
    rwa [if_neg hnext.ne]
  · have hfill : (s.put t val next).inSlots.Perm (val :: s.inSlots) :=
      Cells.contents_fill hnext (by rw [hempty]; rfl) (bne_iff_ne.mpr hval)
    calc s.posted ++ [val]
        _ |>.Perm (val :: s.posted) := List.perm_append_singleton _ _
        _ |>.Perm (val :: (s.collected ++ s.inSlots)) := h.union.cons val
        _ |>.Perm (s.collected ++ (val :: s.inSlots)) := List.perm_middle.symm
        _ |>.Perm (s.collected ++ (s.put t val next).inSlots) := hfill.symm.append_left _

theorem State.Inv.take {next : Nat} (hnext : next < s.numSlots) (hfull : s.slots next ≠ 0) :
    (s.take t (s.slots next) next).Inv := by
  refine ⟨h.nextFree, h.nextToCollect, fits_update h hnext, ?_⟩
  have hvalue : (fun v => v != 0) (s.slots next) = true := bne_iff_ne.mpr hfull
  have hdrain : s.inSlots.Perm (s.slots next :: (s.take t (s.slots next) next).inSlots) :=
    Cells.contents_drain hnext hvalue (x := 0) rfl
  refine (h.union.trans (hdrain.append_left _)).trans ?_
  change (s.collected ++ (s.slots next :: _)).Perm (s.collected ++ [s.slots next] ++ _)
  rw [List.append_assoc]
  exact List.Perm.refl _

theorem State.Inv.finish {next : Nat} (hnext : next < s.numSlots) (hempty : s.slots next = 0) :
    (s.finish t next).Inv := by
  have hslots : (s.finish t next).slots = s.slots := Function.update_eq_self_iff.mpr hempty.symm
  refine ⟨h.nextFree, fun hpos => ?_, fits_update h trivial, ?_⟩
  · exact (Function.forall_update_iff s.nextToCollect fun _ i => i < s.numSlots).mpr
      ⟨after_lt hnext, fun t' _ => h.nextToCollect hpos t'⟩
  · rw [State.inSlots, hslots]
    exact h.union

theorem State.Inv.go {pc : Pc} (hpc : Fits s.numSlots pc) (hsafe : SafeAt s pc) (hs' : s' ∈ s.go t pc) : s'.Inv := by
  cases pc with
  | idle => cases hs'
  | postTest val next attempts =>
    cases hs'
    split
    · exact h.retry ⟨after_lt hpc.1, hpc.2⟩
    · exact h.to hpc
  | postSwap val next attempts =>
    cases hs'
    split
    · exact h.put hpc.1 hpc.2 ‹_›
    · exact h.retry hpc
  | collectTest next attempts =>
    cases hs'
    split
    · exact h.retry (after_lt hpc)
    · exact h.to hpc
  | collectRead next attempts => exact Option.some.inj hs' ▸ h.to hpc
  | collectSwap next attempts val =>
    cases hs'
    split
    · rename_i hsame
      subst hsame
      exact h.take hpc (hsafe rfl)
    · exact h.retry hpc
  | collectStore next => exact Option.some.inj hs' ▸ h.finish hpc hsafe

theorem State.Inv.step {e : Event} (hsafe : Safe s e) (hs' : s' ∈ step s e) : s'.Inv := by
  cases e with
  | post t val =>
    obtain ⟨⟨hpos, -, hval⟩, hs'⟩ := Option.ite_none_right_eq_some.mp hs'
    exact Option.some.inj hs' ▸ h.to ⟨h.nextFree hpos t, hval⟩
  | collect t =>
    obtain ⟨⟨hpos, -⟩, hs'⟩ := Option.ite_none_right_eq_some.mp hs'
    exact Option.some.inj hs' ▸ h.to (h.nextToCollect hpos t)
  | go t => exact h.go (h.fits t) hsafe hs'

end

theorem new_inv (numSlots : Nat) : (State.new numSlots).Inv := by
  refine ⟨fun hpos _ => hpos, fun hpos _ => hpos, fun _ => trivial, ?_⟩
  have hnone : (State.new numSlots).inSlots = [] := by
    refine List.filter_eq_nil_iff.mpr fun v hv => ?_
    obtain ⟨i, -, rfl⟩ := List.mem_map.mp hv
    exact Bool.false_ne_true
  rw [hnone]
  exact List.Perm.refl _

/-- In every run in which no exchange of `collect` takes an empty slot and no store of it meets a value, values are
neither lost nor duplicated. -/
theorem values_kept_of_safe (numSlots : Nat) (es : List Event) (hsafe : Throughout step Safe (State.new numSlots) es) :
    Throughout step Holds (State.new numSlots) es :=
  hsafe.imp (I := State.Inv) (fun _ _ h hs _ hs' => (h.step hs hs').fine) (fun _ _ _ h hs hs' => h.step hs hs')
    (new_inv numSlots)

theorem values_kept_exchange : Throughout step Holds (State.new 2)
    [.post 0 5, .collect 1, .go 0, .go 0, .post 0 7, .go 1, .go 0, .go 1, .go 1, .go 1, .go 0, .go 0] :=
  values_kept_of_safe 2 _ (by decide +kernel)

/-- Thread 1 has taken value 5 when thread 0 posts 7 into the slot, and then stores zero into it. -/
theorem not_values_kept : ¬ Throughout step Holds (State.new 1)
    [.post 0 5, .go 0, .go 0, .collect 1, .go 1, .go 1, .go 1, .post 0 7, .go 0, .go 0, .go 1] := by
  intro h
  have hfine := h.nth 10 (Option.get_mem (by decide +kernel)) rfl _ (Option.get_mem (by decide +kernel))
  have hunion := hfine.union fun t => by
    match t with
    | 0 | 1 => decide +kernel
    | t + 2 => rfl
  exact absurd hunion (by decide +kernel)

end Runs

end Comanche.Core.Postbox
