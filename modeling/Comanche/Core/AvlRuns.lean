import Comanche.Core.AvlTree
import Comanche.Lib.Run

/-!
# Runs of the AVL tree

Calls of `insert_node` and `remove_node` of `AVL_tree`, in any order.
-/

namespace Comanche.Core.AvlTree

open Lib AvlNode

variable {α β : Type} [LinearOrder β]

structure State (α : Type) where
  root : AvlNode α
  nodes : List α

inductive Call (α : Type) where
  | insertNode (n : α) (new : AvlNode α)
  | removeNode (n : α)

def State.new : State α := ⟨.null, []⟩

def fresh (n : α) : AvlNode α := .node .null n 0 .null

variable (key : α → β)

def State.Has (s : State α) (n : α) : Prop := ∃ x ∈ s.nodes, key x = key n

def State.call (s : State α) : Call α → Except Exc (State α × Int)
  | .insertNode n new => do
      let (root, change) ← insertLinked key n new s.root
      return (⟨root, n :: s.nodes⟩, change)
  | .removeNode n => do
      let (_, root, change) ← remove key n .eq s.root
      return (⟨root, s.nodes.filter fun x => decide (key x ≠ key n)⟩, -change)

def step (s : State α) (c : Call α) : Option (State α) :=
  match s.call key c with
  | .ok (s', _) => some s'
  | .error _ => some s

structure State.Fine (s : State α) : Prop where
  sorted : Sorted key s.root
  holds : s.root.toList.Perm s.nodes
  balanced : s.root.Balanced

def State.Throws (s : State α) : Call α → Prop
  | .insertNode n _ => s.Has key n
  | .removeNode n => ¬ s.Has key n

/-- The call throws if it is to, or else says by how much the height has changed; the tree is right after
it either way. -/
def Holds (s : State α) (c : Call α) : Prop :=
  match s.call key c with
  | .ok (s', change) => ¬ s.Throws key c ∧ (s'.root.height : Int) = s.root.height + change ∧ s'.Fine key
  | .error _ => s.Throws key c ∧ s.Fine key

/-- No node is inserted with links of an earlier place in a tree, and nothing is removed from an empty
tree. -/
def Safe (s : State α) : Call α → Prop
  | .insertNode n new => s.Has key n ∨ new = fresh n
  | .removeNode _ => s.nodes ≠ []

instance (s : State α) (n : α) : Decidable (s.Has key n) :=
  inferInstanceAs (Decidable (∃ x ∈ s.nodes, _))

instance [DecidableEq α] (s : State α) : (c : Call α) → Decidable (Safe key s c)
  | .insertNode _ _ => inferInstanceAs (Decidable (_ ∨ _))
  | .removeNode _ => inferInstanceAs (Decidable (_ ≠ _))

variable {key} {s : State α} {n : α}

theorem State.Fine.has_iff (h : s.Fine key) : s.Has key n ↔ ∃ x ∈ s.root.toList, key x = key n :=
  exists_congr fun _ => and_congr_left fun _ => h.holds.mem_iff.symm

theorem State.Fine.insertNode (h : s.Fine key) (hno : ¬ s.Has key n) :
    ∃ s' change, s.call key (.insertNode n (fresh n)) = .ok (s', change) ∧
      (s'.root.height : Int) = s.root.height + change ∧ s'.Fine key := by
  rw [h.has_iff] at hno
  push Not at hno
  obtain ⟨root, change, heq, hgrown, hsorted, hperm⟩ := insert_perm h.balanced h.sorted hno
  unfold AvlNode.insert at heq
  refine ⟨⟨root, n :: s.nodes⟩, change, ?_, hgrown.height, hsorted, ?_, hgrown.balanced⟩
  · rw [call, fresh, heq]
    rfl
  · exact hperm.trans (h.holds.cons n)

theorem State.Fine.removeNode (h : s.Fine key) (hhas : s.Has key n) :
    ∃ s' change, s.call key (.removeNode n) = .ok (s', change) ∧
      (s'.root.height : Int) = s.root.height + change ∧ s'.Fine key := by
  obtain ⟨m, hm, hkey⟩ := h.has_iff.mp hhas
  obtain ⟨root, change, heq, hshrunk, hsorted, hperm⟩ := remove_perm h.balanced h.sorted hm hkey.symm
  refine ⟨⟨root, _⟩, -change, by rw [call, heq]; rfl, hshrunk.height, hsorted, ?_, hshrunk.balanced⟩
  -- only `m` has the key
  have hout := h.sorted.notMem_of_perm hperm
  have hkept : (m :: root.toList).filter (fun x => decide (key x ≠ key n)) = root.toList := by
    rw [List.filter_cons_of_neg (by simpa using hkey), List.filter_eq_self]
    intro x hx
    have hx' : x ∈ s.root.toList := hperm.mem_iff.mpr (List.mem_cons_of_mem m hx)
    exact decide_eq_true fun heq => hout (h.sorted.inj hm hx' (hkey.trans heq.symm) ▸ hx)
  rw [← hkept]
  exact (hperm.symm.trans h.holds).filter _

theorem State.Fine.call (h : s.Fine key) {c : Call α} (hsafe : Safe key s c) : Holds key s c := by
  unfold Holds
  cases c with
  | insertNode n new =>
    by_cases hhas : s.Has key n
    · obtain ⟨m, hm, hkey⟩ := h.has_iff.mp hhas
      rw [State.call, insertLinked_conflict h.sorted hm hkey.symm]
      exact ⟨hhas, h⟩
    · obtain rfl := hsafe.resolve_left hhas
      obtain ⟨s', change, heq, hheight, hfine⟩ := h.insertNode hhas
      rw [heq]
      exact ⟨hhas, hheight, hfine⟩
  | removeNode n =>
    by_cases hhas : s.Has key n
    · obtain ⟨s', change, heq, hheight, hfine⟩ := h.removeNode hhas
      rw [heq]
      exact ⟨fun hno => hno hhas, hheight, hfine⟩
    · have hne : s.root ≠ .null := by
        intro hnull
        have hnil := h.holds
        rw [hnull] at hnil
        exact hsafe (List.nil_perm.mp hnil)
      have hno := hhas
      rw [h.has_iff] at hno
      push Not at hno
      rw [State.call, remove_absent hne hno]
      exact ⟨hhas, h⟩

theorem Holds.step {s' : State α} {c : Call α} (h : Holds key s c) (hs' : s' ∈ step key s c) : s'.Fine key := by
  unfold Holds at h
  unfold AvlTree.step at hs'
  split at hs'
  case h_1 heq =>
    rw [heq] at h
    exact Option.some.inj hs' ▸ h.2.2
  case h_2 heq =>
    rw [heq] at h
    exact Option.some.inj hs' ▸ h.2

/-- Every call throws or changes the tree as it should, and the tree stays a search tree with true balance factors that
holds the inserted nodes. -/
theorem tree_correct (key : α → β) (cs : List (Call α)) (hsafe : Throughout (step key) (Safe key) .new cs) :
    Throughout (step key) (Holds key) .new cs :=
  hsafe.imp (I := State.Fine key) (fun _ _ h hs => h.call hs) (fun _ _ _ h hs hs' => (h.call hs).step hs')
    ⟨List.Pairwise.nil, .nil, trivial⟩

def turningCalls : List (Call Nat) :=
  [.insertNode 3 (fresh 3), .insertNode 1 (fresh 1), .insertNode 2 (fresh 2), .insertNode 2 (fresh 2),
    .insertNode 4 (fresh 4), .insertNode 5 (fresh 5), .removeNode 2, .removeNode 7]

theorem tree_correct_turningCalls : Throughout (step id) (Holds id) .new turningCalls :=
  tree_correct id turningCalls (by decide +kernel)

def staleCalls : List (Call Nat) :=
  [.insertNode 1 (fresh 1), .insertNode 2 (fresh 2), .removeNode 1, .removeNode 2,
    .insertNode 1 (.node .null 1 1 (fresh 2))]

/-- With the node 1 the node 2 comes back as well; and a removal from an empty tree does not throw. -/
theorem not_correct_staleCalls : ¬ Throughout (step id) (Holds id) .new staleCalls ∧
      ¬ Throughout (step id) (Holds id) .new [Call.removeNode 1] := by
  constructor
  · intro h
    have hlast : Holds id ⟨.null, []⟩ (.insertNode 1 (.node .null 1 1 (fresh 2))) := h.nth 4 rfl rfl
    exact absurd hlast.2.2.holds.length_eq (by decide)
  · intro h
    exact h.1.1 nofun

end Comanche.Core.AvlTree
