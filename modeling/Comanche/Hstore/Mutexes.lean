import Comanche.Hstore.Table

/-!
# The mutexes of the buckets

Each bucket has a mutex for its owner word and one for its content.
-/

namespace Comanche.Hstore

/-- `bucket_mutexes` of every bucket. A mutex is 0 when it is free, -1 when it is held for one user,
and else the number of users that share it. -/
structure Mutexes where
  owner : Nat → Int
  content : Nat → Int
  unique : Nat → Bool
  sound : Bool

namespace Mutexes

def init : Mutexes := ⟨fun _ => 0, fun _ => 0, fun _ => false, true⟩

def setOwner (m : Mutexes) (i : Nat) (asserted : Bool) (state : Int) : Mutexes :=
  { m with owner := Function.update m.owner i state, sound := m.sound && asserted }

def setContent (m : Mutexes) (i : Nat) (asserted : Bool) (state : Int) : Mutexes :=
  { m with content := Function.update m.content i state, sound := m.sound && asserted }

def call {K V : Type} (m : Mutexes) : Call K V → Mutexes
  | .lockOwner i => m.setOwner i (m.owner i == 0) (-1)
  | .unlockOwner i => m.setOwner i (m.owner i == -1) 0
  | .lockOwnerShared i => m.setOwner i (m.owner i != -1) (m.owner i + 1)
  | .unlockOwnerShared i => m.setOwner i (decide (0 < m.owner i)) (m.owner i - 1)
  | .lockContent i => m.setContent i (m.content i == 0) (-1)
  | .unlockContent i => m.setContent i (m.content i == -1) 0
  | .lockContentShared i => m.setContent i (m.content i != -1) (m.content i + 1)
  | .unlockContentShared i => m.setContent i (decide (0 < m.content i)) (m.content i - 1)
  | .newMutexes first count =>
      { m with
        owner := fun i => if first ≤ i ∧ i < first + count then 0 else m.owner i
        content := fun i => if first ≤ i ∧ i < first + count then 0 else m.content i
        unique := fun i => if first ≤ i ∧ i < first + count then false else m.unique i }
  | .setUnique i u => { m with unique := Function.update m.unique i u }
  | _ => m

def step {K V : Type} (m : Mutexes) : Step K V → Mutexes
  | .write _ => m
  | .call c => m.call c

def ofLog {K V : Type} (l : List (Step K V)) : Mutexes := l.foldr (fun s m => m.step s) init

structure Calm (m : Mutexes) : Prop where
  sound : m.sound = true
  owner : ∀ i, m.owner i = 0

/-- The mutexes `m` with, on top, the owners in `O` and the contents in `C` held for one user. -/
def held (m : Mutexes) (O C : Finset Nat) : Mutexes where
  owner i := if i ∈ O then -1 else m.owner i
  content i := if i ∈ C then -1 else m.content i
  unique := m.unique
  sound := m.sound

@[ext] theorem ext {a b : Mutexes} (howner : ∀ i, a.owner i = b.owner i)
    (hcontent : ∀ i, a.content i = b.content i) (hunique : ∀ i, a.unique i = b.unique i)
    (hsound : a.sound = b.sound) : a = b := by
  obtain ⟨ao, ac, au, as⟩ := a
  obtain ⟨bo, bc, bu, bs⟩ := b
  obtain rfl : ao = bo := funext howner
  obtain rfl : ac = bc := funext hcontent
  obtain rfl : au = bu := funext hunique
  obtain rfl : as = bs := hsound
  rfl

section Held

variable {K V : Type} {m : Mutexes} {O C : Finset Nat} {i : Nat}

attribute [local simp] call setOwner setContent held

@[simp] theorem held_empty : m.held ∅ ∅ = m := by
  ext j <;> simp

theorem held_lockOwner (hm : m.Calm) (hi : i ∉ O) :
    (m.held O C).call (.lockOwner i : Call K V) = m.held (insert i O) C := by
  ext j
  · by_cases heq : j = i <;> simp [heq]
  · simp
  · simp
  · simp [hi, hm.owner]

theorem held_unlockOwner (hm : m.Calm) (hi : i ∈ O) :
    (m.held O C).call (.unlockOwner i : Call K V) = m.held (O.erase i) C := by
  ext j
  · by_cases heq : j = i
    · simp [heq, hm.owner]
    · simp [heq]
  · simp
  · simp
  · simp [hi]

theorem held_lockContent (hfree : m.content i = 0) (hi : i ∉ C) :
    (m.held O C).call (.lockContent i : Call K V) = m.held O (insert i C) := by
  ext j
  · simp
  · by_cases heq : j = i <;> simp [heq]
  · simp
  · simp [hi, hfree]

theorem held_unlockContent (hfree : m.content i = 0) (hi : i ∈ C) :
    (m.held O C).call (.unlockContent i : Call K V) = m.held O (C.erase i) := by
  ext j
  · simp
  · by_cases heq : j = i
    · simp [heq, hfree]
    · simp [heq]
  · simp
  · simp [hi]

theorem call_ownerShared (hm : m.Calm) :
    (m.call (.lockOwnerShared i : Call K V)).call (.unlockOwnerShared i : Call K V) = m := by
  ext j
  · by_cases heq : j = i
    · simp [heq, hm.owner]
    · simp
  · simp
  · simp
  · simp [hm.owner, hm.sound]

end Held

end Mutexes

end Comanche.Hstore
