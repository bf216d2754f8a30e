import Mathlib

/-!
# Doubly linked lists

Nodes are numbers and the two pointer fields are functions of the node.
-/

namespace Comanche.Lib

variable {next prev next' prev' : Nat → Option Nat} {a b : Option Nat} {l m : List Nat} {i : Nat}

/-- The nodes `l` are linked in both directions, from `a` before them to `b` after them. -/
def Linked (next prev : Nat → Option Nat) : Option Nat → List Nat → Option Nat → Prop
  | _, [], _ => True
  | a, i :: l, b => prev i = a ∧ next i = l.head?.or b ∧ Linked next prev (some i) l b

@[simp] theorem linked_nil : Linked next prev a [] b := trivial

theorem linked_cons : Linked next prev a (i :: l) b ↔
      prev i = a ∧ next i = l.head?.or b ∧ Linked next prev (some i) l b := Iff.rfl

@[simp] theorem linked_singleton : Linked next prev a [i] b ↔ prev i = a ∧ next i = b := by
  rw [linked_cons]
  simp

theorem linked_append : Linked next prev a (l ++ m) b ↔
      Linked next prev a l (m.head?.or b) ∧ Linked next prev (l.getLast?.or a) m b := by
  induction l generalizing a with
  | nil => simp
  | cons i l ih =>
    rw [List.cons_append, linked_cons, linked_cons, ih, List.head?_append, List.getLast?_cons]
    cases l <;> simp [and_assoc]

theorem linked_append_cons : Linked next prev a (l ++ i :: m) b ↔
      Linked next prev a l (some i) ∧ prev i = l.getLast?.or a ∧ next i = m.head?.or b ∧ Linked next prev (some i) m b := by
  rw [linked_append, linked_cons]
  simp

theorem Linked.congr (h : Linked next prev a l b) (hnext : ∀ i ∈ l, next' i = next i)
    (hprev : ∀ i ∈ l, prev' i = prev i) : Linked next' prev' a l b := by
  induction l generalizing a with
  | nil => trivial
  | cons i l ih =>
    obtain ⟨hp, hn, hl⟩ := h
    refine ⟨?_, ?_, ih hl (fun j hj => hnext j (List.mem_cons_of_mem i hj)) fun j hj => hprev j (List.mem_cons_of_mem i hj)⟩
    · rw [hprev i List.mem_cons_self, hp]
    · rw [hnext i List.mem_cons_self, hn]

theorem Linked.next_mem (h : Linked next prev a l b) (hi : i ∈ l) {j : Nat}
    (hj : next i = some j) : j ∈ l ∨ b = some j := by
  obtain ⟨p, q, rfl⟩ := List.append_of_mem hi
  obtain ⟨-, -, hnext, -⟩ := linked_append_cons.mp h
  rw [hj] at hnext
  cases q with
  | nil => exact Or.inr hnext.symm
  | cons k q =>
    simp only [List.head?_cons, Option.some_or, Option.some.injEq] at hnext
    exact Or.inl (by simp [hnext])

theorem Linked.isChain (h : Linked next prev a l b) : l.IsChain fun i j => next i = some j := by
  induction l generalizing a with
  | nil => exact List.IsChain.nil
  | cons i l ih =>
    cases l with
    | nil => exact List.IsChain.singleton i
    | cons j l => exact List.IsChain.cons_cons h.2.1 (ih h.2.2)

theorem Linked.exists_append {old : List Nat} {c : Option Nat} (h : Linked next prev a (i :: l) none)
    (hold : Linked next prev c (i :: old) b) : ∃ m, l = old ++ m ∧ m.head? = b := by
  induction old generalizing a c i l with
  | nil =>
    obtain ⟨-, hnext, -⟩ := h
    obtain ⟨-, hnext', -⟩ := hold
    exact ⟨l, rfl, by simpa [hnext] using hnext'⟩
  | cons j old ih =>
    obtain ⟨-, hnext, hl⟩ := h
    obtain ⟨-, hnext', hold⟩ := hold
    rw [hnext] at hnext'
    cases l with
    | nil => simp at hnext'
    | cons k l =>
      simp only [List.head?_cons, Option.some_or, Option.some.injEq] at hnext'
      subst hnext'
      obtain ⟨m, rfl, hm⟩ := ih hl hold
      exact ⟨m, rfl, hm⟩

theorem Linked.replace {old new : List Nat} (h : Linked next prev a (l ++ i :: (old ++ m)) b)
    (hnew : Linked next' prev' (l.getLast?.or a) (i :: new) (m.head?.or b))
    (hnextl : ∀ j ∈ l, next' j = next j) (hprevl : ∀ j ∈ l, prev' j = prev j)
    (hnextm : ∀ j ∈ m, next' j = next j) (hprevm : ∀ j ∈ m.tail, prev' j = prev j)
    (hfirst : ∀ j, m.head? = some j → prev' j = (i :: new).getLast?) :
    Linked next' prev' a (l ++ i :: (new ++ m)) b := by
  have hcut : l ++ i :: (old ++ m) = (l ++ i :: old) ++ m := by simp
  rw [hcut, linked_append, linked_append_cons] at h
  obtain ⟨⟨hl, -, -, -⟩, hm⟩ := h
  have hcut' : l ++ i :: (new ++ m) = l ++ ((i :: new) ++ m) := by simp
  rw [hcut', linked_append, linked_append]
  refine ⟨hl.congr hnextl hprevl, hnew, ?_⟩
  cases m with
  | nil => trivial
  | cons j m =>
    obtain ⟨-, hnextj, hm⟩ := hm
    refine ⟨?_, ?_, hm.congr (fun k hk => hnextm k (List.mem_cons_of_mem j hk)) hprevm⟩
    · rw [hfirst j rfl, List.getLast?_cons]
      rfl
    · rw [hnextm j List.mem_cons_self, hnextj]

end Comanche.Lib
