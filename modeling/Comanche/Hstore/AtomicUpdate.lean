import Comanche.Lib.Memory

/-!
# Atomic updates

`hstore::atomic_update` copies the bytes of its writes into the value of a key.
-/

namespace Comanche.Hstore.AtomicUpdate

open Lib

variable {K : Type} {ws : List (Nat × Bytes)}

inductive Operation where
  | write (offset : Nat) (data : Bytes)
  | other

structure ModControl where
  offsetSrc : Nat
  offsetDst : Nat
  size : Nat

/-- `value` is where the data of a key is and its length, and `held` says whose content mutex is taken. -/
structure Pool (K : Type) where
  memory : Memory
  value : K → Option (Nat × Nat)
  held : K → Bool

inductive Status where
  | ok
  | poolNotFound
  | notSupported
  | already
  | tooLarge

def collect (src : Bytes) : List Operation → Option (Bytes × List ModControl)
  | [] => some (src, [])
  | .write offset data :: ops =>
    (collect (src ++ data) ops).map fun r => (r.1, ⟨src.length, offset, data.length⟩ :: r.2)
  | .other :: _ => none

/-- `redo` after `enter_update`. The exception for a key that is not there is caught. -/
def redo (p : Pool K) (key : K) (src : Bytes) (mods : List ModControl) : Pool K :=
  if mods.length = 0 then p
  else
    match p.value key with
    | none => p
    | some (dst, _) => { p with
        memory := mods.foldl (fun m i => m.store (dst + i.offsetDst) (readAt src i.offsetSrc i.size)) p.memory }

/-- `room` says whether the key and the arguments of the update can be allocated. -/
def atomicUpdate (pool : Option (Pool K)) (key : K) (ops : List Operation) (takeLock : Bool)
    (room : Bool × Bool) : Status × Option (Pool K) :=
  match pool with
  | none => (.poolNotFound, none)
  | some p =>
    if room.1 = false then (.tooLarge, p)
    else if takeLock = true ∧ ((p.value key).isNone ∨ p.held key = true) then (.already, p)
    else
      match collect [] ops with
      | none => (.notSupported, p)
      | some (src, mods) => if room.2 = false then (.tooLarge, p) else (.ok, redo p key src mods)

def writes (ws : List (Nat × Bytes)) : List Operation := ws.map fun w => .write w.1 w.2

def Pool.Covers (p : Pool K) (key : K) (ws : List (Nat × Bytes)) : Prop :=
  ∃ v ∈ p.value key, ∀ w ∈ ws, w.1 + w.2.length ≤ v.2

def Truthful (pool : Option (Pool K)) (key : K) (ws : List (Nat × Bytes)) (takeLock : Bool)
    (room : Bool × Bool) : Prop :=
  match atomicUpdate pool key (writes ws) takeLock room with
  | (.ok, pool') => ∃ p p', pool = some p ∧ pool' = some p' ∧ p.Covers key ws ∧ p'.value = p.value ∧
      ∀ v ∈ p.value key, p'.memory.slice v.1 v.2 =
        ws.foldl (fun bytes w => writeAt bytes w.1 w.2) (p.memory.slice v.1 v.2)
  | (_, pool') => pool' = pool

/-- Nothing fails for want of memory, and the lock is obtained if it is asked for. -/
def Proceeds (p : Pool K) (key : K) (takeLock : Bool) (room : Bool × Bool) : Prop :=
  room = (true, true) ∧ ¬ (takeLock = true ∧ ((p.value key).isNone ∨ p.held key = true))

theorem collect_writes (src : Bytes) (ws : List (Nat × Bytes)) :
    ∃ rest mods, collect src (writes ws) = some (src ++ rest, mods) ∧
      ∀ dst m, mods.foldl (fun m i => Memory.store m (dst + i.offsetDst) (readAt (src ++ rest) i.offsetSrc i.size)) m =
        ws.foldl (fun m w => m.store (dst + w.1) w.2) m := by
  induction ws generalizing src with
  | nil => exact ⟨[], [], by simp [writes, collect], fun _ _ => rfl⟩
  | cons w ws ih =>
    obtain ⟨rest, mods, heq, hfold⟩ := ih (src ++ w.2)
    refine ⟨w.2 ++ rest, ⟨src.length, w.1, w.2.length⟩ :: mods, ?_, fun dst m => ?_⟩
    · change (collect (src ++ w.2) (writes ws)).map _ = _
      rw [heq, ← List.append_assoc]
      rfl
    · rw [List.foldl_cons, List.foldl_cons, ← hfold, ← List.append_assoc]
      dsimp only
      rw [readAt_append]

theorem slice_foldl_store {dst len : Nat} (m : Memory) (h : ∀ w ∈ ws, w.1 + w.2.length ≤ len) :
    Memory.slice (ws.foldl (fun m w => m.store (dst + w.1) w.2) m) dst len =
      ws.foldl (fun bytes w => writeAt bytes w.1 w.2) (m.slice dst len) := by
  induction ws generalizing m with
  | nil => rfl
  | cons w ws ih =>
    rw [List.forall_mem_cons] at h
    rw [List.foldl_cons, List.foldl_cons, ih _ h.2, Memory.slice_store_add h.1]

theorem redo_of_mem {p : Pool K} {key : K} {v : Nat × Nat} (hv : p.value key = some v) (src : Bytes)
    (mods : List ModControl) :
    redo p key src mods = { p with
      memory := mods.foldl (fun m i => m.store (v.1 + i.offsetDst) (readAt src i.offsetSrc i.size)) p.memory } := by
  cases mods with
  | nil => rfl
  | cons i mods => simp [redo, hv]

/-- It tells the truth just if no call gets through to the update with a key that is not there or with a
write that leaves its value. -/
theorem truthful_iff (pool : Option (Pool K)) (key : K) (ws : List (Nat × Bytes)) (takeLock : Bool)
    (room : Bool × Bool) : Truthful pool key ws takeLock room ↔
      ∀ p ∈ pool, Proceeds p key takeLock room → p.Covers key ws := by
  cases pool with
  | none => exact iff_of_true rfl nofun
  | some p =>
    simp only [Option.mem_def, Option.some.injEq, forall_eq', Truthful, atomicUpdate, Proceeds, Prod.ext_iff]
    obtain ⟨rest, mods, hcollect, hfold⟩ := collect_writes [] ws
    rw [hcollect]
    split_ifs with hkey hlock hmods
    · exact iff_of_true rfl fun h => absurd (hkey.symm.trans h.1.1) nofun
    · exact iff_of_true rfl fun h => absurd hlock h.2
    · exact iff_of_true rfl fun h => absurd (hmods.symm.trans h.1.2) nofun
    constructor
    · rintro ⟨_, _, rfl, -, hcovers, -⟩ -
      exact hcovers
    · intro hcovers
      obtain ⟨v, hv, hin⟩ := hcovers ⟨⟨eq_true_of_ne_false hkey, eq_true_of_ne_false hmods⟩, hlock⟩
      refine ⟨p, _, rfl, rfl, ⟨v, hv, hin⟩, ?_, fun v' hv' => ?_⟩
      · rw [redo_of_mem hv]
      · obtain rfl := Option.mem_unique hv hv'
        rw [redo_of_mem hv, hfold, slice_foldl_store _ hin]

/-- Without the lock a missing key is not noticed, and with it a byte is written behind a value. -/
theorem not_truthful_missing :
    ¬ Truthful (some ⟨fun _ => 0, fun _ => none, fun _ => false⟩) () [(0, [1])] false (true, true) ∧
      ¬ Truthful (some ⟨fun _ => 0, fun _ => some (0, 1), fun _ => false⟩) () [(1, [1])] true (true, true) := by
  constructor
  · rintro ⟨_, _, hp, -, ⟨_, hv, -⟩, -⟩
    cases hp
    exact nomatch hv
  · rintro ⟨_, _, hp, -, ⟨_, hv, hin⟩, -⟩
    cases hp
    cases hv
    exact absurd (hin _ (List.mem_singleton_self _)) (by decide)

end Comanche.Hstore.AtomicUpdate
