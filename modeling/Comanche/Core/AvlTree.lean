import Mathlib

/-!
# AVL trees

The insertion and removal of `core/avl_tree.h`.
-/

namespace Comanche.Core

/-- How a call of the tree or of the allocator over it ends other than by returning. -/
inductive Exc where
  | rootIsNull
  | avlTree
  | conflictingRegion
  | nodeNotFound
  | failedToAllocate
  | noContainingRegion
  | insufficientRegion
  | nullPointer
  | assertion

inductive Dir where
  | left
  | right

inductive Cmp where
  | min
  | eq
  | max

inductive AvlNode (α : Type) where
  | null
  | node (left : AvlNode α) (elem : α) (bf : Int) (right : AvlNode α)
  deriving DecidableEq

namespace AvlNode

variable {α β : Type} [LinearOrder β]

def toList : AvlNode α → List α
  | null => []
  | node l x _ r => l.toList ++ x :: r.toList

def size : AvlNode α → Nat
  | null => 0
  | node l _ _ r => l.size + r.size + 1

/-- A node whose subtree in direction `dir` is `near` and whose other subtree is `far`. -/
def join (dir : Dir) (near : AvlNode α) (x : α) (bf : Int) (far : AvlNode α) : AvlNode α :=
  match dir with
  | .left => node near x bf far
  | .right => node far x bf near

/-- The subtree in direction `dir`, the node itself, and the other subtree. -/
def follow (dir : Dir) : AvlNode α → Except Exc (AvlNode α × α × Int × AvlNode α)
  | null => .error .nullPointer
  | node l x bf r =>
      match dir with
      | .left => .ok (l, x, bf, r)
      | .right => .ok (r, x, bf, l)

def rotateOnce (dir : Dir) (root : AvlNode α) : Except Exc (AvlNode α × Int) := do
  let (a, x, _, other) ← follow dir root
  let (b, y, bf, c) ← follow dir other
  let bf' := match dir with
    | .left => bf - 1
    | .right => bf + 1
  return (join dir (join dir a x (-bf') b) y bf' c, if bf = 0 then 0 else 1)

def rotateTwice (dir : Dir) (root : AvlNode α) : Except Exc (AvlNode α × Int) := do
  let (a, x, _, other) ← follow dir root
  let (inner, y, _, d) ← follow dir other
  let (b, z, bf, c) ← follow dir inner
  let (bfx, bfy) := match dir with
    | .left => (-max bf 0, -min bf 0)
    | .right => (-min bf 0, -max bf 0)
  return (join dir (join dir a x bfx b) z 0 (join dir c y bfy d), 1)

def rebalance : AvlNode α → Except Exc (AvlNode α × Int)
  | null => .error .rootIsNull
  | node l x bf r =>
      if bf < -1 then
        match l with
        | null => .error .avlTree
        | node _ _ bfl _ =>
            if bfl = 1 then rotateTwice .right (node l x bf r)
            else rotateOnce .right (node l x bf r)
      else if 1 < bf then
        match r with
        | null => .error .avlTree
        | node _ _ bfr _ =>
            if bfr = -1 then rotateTwice .left (node l x bf r)
            else rotateOnce .left (node l x bf r)
      else .ok (node l x bf r, 0)

def insertChange (change : Int) (l : AvlNode α) (x : α) (bf : Int) (r : AvlNode α) :
    Except Exc (AvlNode α × Int) :=
  if change ≠ 0 ∧ bf ≠ 0 then do
    let (root, heightChange) ← rebalance (node l x bf r)
    return (root, 1 - heightChange)
  else return (node l x bf r, 0)

/-- `AVL_node::insert`: the new tree, and by how much it is higher. `new` is what the pointer to the node
`n` reaches: its links are not written. -/
def insertLinked (key : α → β) (n : α) (new : AvlNode α) : AvlNode α → Except Exc (AvlNode α × Int)
  | null => .ok (new, 1)
  | node l x bf r =>
      if key n < key x then do
        let (l', change) ← insertLinked key n new l
        insertChange change l' x (bf - change) r
      else if key x < key n then do
        let (r', change) ← insertLinked key n new r
        insertChange change l x (bf + change) r'
      else .error .conflictingRegion

def insert (key : α → β) (n : α) : AvlNode α → Except Exc (AvlNode α × Int) :=
  insertLinked key n (node null n 0 null)

/-- `AVL_node::compare(n, cmp)`: the comparison, or the way to the least or the greatest element. -/
def compare (key : α → β) (n : α) (cmp : Cmp) (l : AvlNode α) (x : α) (r : AvlNode α) : Cmp :=
  match cmp with
  | .eq => if key n < key x then .min else if key x < key n then .max else .eq
  | .min =>
      match l with
      | null => .eq
      | node .. => .min
  | .max =>
      match r with
      | null => .eq
      | node .. => .max

def removeChange (decrease : Int) (l : AvlNode α) (x : α) (bf : Int) (r : AvlNode α) :
    Except Exc (AvlNode α × Int) :=
  if decrease ≠ 0 then
    if bf ≠ 0 then rebalance (node l x bf r) else return (node l x bf r, 1)
  else return (node l x bf r, 0)

/-- `AVL_node::remove`: the removed node, the new tree, and by how much it is lower. -/
def remove (key : α → β) (n : α) (cmp : Cmp) :
    AvlNode α → Except Exc (Option α × AvlNode α × Int)
  | null => .ok (none, null, 0)
  | node l x bf r =>
      match compare key n cmp l x r with
      | .min => do
          match ← remove key n cmp l with
          | (none, _, _) => .error .nodeNotFound
          | (some y, l', change) =>
              let (root, change') ← removeChange change l' x (bf + change) r
              return (some y, root, change')
      | .max => do
          match ← remove key n cmp r with
          | (none, _, _) => .error .nodeNotFound
          | (some y, r', change) =>
              let (root, change') ← removeChange change l x (bf - change) r'
              return (some y, root, change')
      | .eq =>
          match l, r with
          | null, r => .ok (some x, r, 1)
          | l, null => .ok (some x, l, 1)
          | l, r => do
              -- the least node of the right subtree takes the place of this one
              match ← remove key n .min r with
              | (none, _, _) => .error .nullPointer
              | (some y, r', decrease) =>
                  let (root, change) ← removeChange decrease l y (bf - decrease) r'
                  return (some x, root, change)

def push : AvlNode α → List (AvlNode α) → List (AvlNode α)
  | null, stack => stack
  | node l x bf r, stack => node l x bf r :: stack

def searchFrom (p : α → Bool) : Nat → List (AvlNode α) → Option α
  | 0, _ => none
  | _ + 1, [] => none
  | n + 1, null :: stack => searchFrom p n stack
  | n + 1, node l x _ r :: stack =>
      if p x then some x else searchFrom p n (push r (push l stack))

/-- The first node that satisfies `p`. Each round takes one node off the stack. -/
def search (p : α → Bool) (root : AvlNode α) : Option α := searchFrom p root.size (push root [])

def height : AvlNode α → Nat
  | null => 0
  | node l _ _ r => max l.height r.height + 1

def Balanced : AvlNode α → Prop
  | null => True
  | node l _ bf r => l.Balanced ∧ r.Balanced ∧ bf = r.height - l.height ∧ -1 ≤ bf ∧ bf ≤ 1

@[simp] theorem toList_null : (null : AvlNode α).toList = [] := rfl

@[simp] theorem toList_node (l r : AvlNode α) (x : α) (bf : Int) :
    (node l x bf r).toList = l.toList ++ x :: r.toList := rfl

@[simp] theorem height_node (l r : AvlNode α) (x : α) (bf : Int) :
    (node l x bf r).height = max l.height r.height + 1 := rfl

variable {t l r : AvlNode α} {x n m : α} {bf : Int} {stack : List (AvlNode α)} {p : α → Bool}

theorem exists_node_of_height_pos (h : 0 < t.height) : ∃ l x bf r, t = node l x bf r := by
  cases t with
  | null => exact absurd h (Nat.lt_irrefl 0)
  | node l x bf r => exact ⟨l, x, bf, r, rfl⟩

/-- `t` comes of a tree with the elements `xs` and the height `n` by a rotation that takes `h` off its
height. -/
structure Rotated (xs : List α) (n : Nat) (t : AvlNode α) (h : Int) : Prop where
  balanced : t.Balanced
  toList : t.toList = xs
  height : (t.height : Int) = n - h
  change : h = 0 ∨ h = 1

section

variable (hl : l.Balanced) (hr : r.Balanced)
include hl hr

theorem rotateRight_spec (hheavy : l.height = r.height + 2) :
    ∃ t h, rebalance (node l x (-2) r) = .ok (t, h) ∧ Rotated (l.toList ++ x :: r.toList) (l.height + 1) t h := by
  obtain ⟨ll, y, bfl, lr, rfl⟩ := exists_node_of_height_pos (t := l) (by omega)
  obtain ⟨hll, hlr, hbfl, hlo, hhi⟩ := hl
  simp only [height_node] at hheavy
  by_cases htwice : bfl = 1
  · obtain ⟨a, z, bfz, b, rfl⟩ := exists_node_of_height_pos (t := lr) (by omega)
    obtain ⟨ha, hb, hbfz, hlo', hhi'⟩ := hlr
    simp only [height_node] at hheavy hbfl
    refine ⟨node (node ll y (-max bfz 0) a) z 0 (node b x (-min bfz 0) r), 1, ?_, ?_, ?_, ?_, Or.inr rfl⟩
    · simp [rebalance, htwice, rotateTwice, follow, join]
      rfl
    · refine ⟨⟨hll, ha, ?_, ?_, ?_⟩, ⟨hb, hr, ?_, ?_, ?_⟩, ?_, ?_, ?_⟩
      all_goals
        try simp only [height_node]
        omega
    · simp
    · simp only [height_node]
      omega
  · refine ⟨node ll y (bfl + 1) (node lr x (-(bfl + 1)) r), if bfl = 0 then 0 else 1, ?_, ?_, ?_,
      ?_, ?_⟩
    · simp [rebalance, htwice, rotateOnce, follow, join]
      rfl
    · refine ⟨hll, ⟨hlr, hr, ?_, ?_, ?_⟩, ?_, ?_, ?_⟩
      all_goals
        try simp only [height_node]
        omega
    · simp
    · simp only [height_node]
      split <;> omega
    · split <;> simp

theorem rotateLeft_spec (hheavy : r.height = l.height + 2) :
    ∃ t h, rebalance (node l x 2 r) = .ok (t, h) ∧ Rotated (l.toList ++ x :: r.toList) (r.height + 1) t h := by
  obtain ⟨rl, y, bfr, rr, rfl⟩ := exists_node_of_height_pos (t := r) (by omega)
  obtain ⟨hrl, hrr, hbfr, hlo, hhi⟩ := hr
  simp only [height_node] at hheavy
  by_cases htwice : bfr = -1
  · obtain ⟨a, z, bfz, b, rfl⟩ := exists_node_of_height_pos (t := rl) (by omega)
    obtain ⟨ha, hb, hbfz, hlo', hhi'⟩ := hrl
    simp only [height_node] at hheavy hbfr
    refine ⟨node (node l x (-max bfz 0) a) z 0 (node b y (-min bfz 0) rr), 1, ?_, ?_, ?_, ?_, Or.inr rfl⟩
    · simp [rebalance, htwice, rotateTwice, follow, join]
      rfl
    · refine ⟨⟨hl, ha, ?_, ?_, ?_⟩, ⟨hb, hrr, ?_, ?_, ?_⟩, ?_, ?_, ?_⟩
      all_goals
        try simp only [height_node]
        omega
    · simp
    · simp only [height_node]
      omega
  · refine ⟨node (node l x (-(bfr - 1)) rl) y (bfr - 1) rr, if bfr = 0 then 0 else 1, ?_, ?_, ?_,
      ?_, ?_⟩
    · simp [rebalance, htwice, rotateOnce, follow, join]
      rfl
    · refine ⟨⟨hl, hrl, ?_, ?_, ?_⟩, hrr, ?_, ?_, ?_⟩
      all_goals
        try simp only [height_node]
        omega
    · simp
    · simp only [height_node]
      split <;> omega
    · split <;> simp

theorem rebalance_spec
    (hbf : bf = r.height - l.height) (hlo : -2 ≤ bf) (hhi : bf ≤ 2) : ∃ t h, rebalance (node l x bf r) = .ok (t, h) ∧
      Rotated (l.toList ++ x :: r.toList) (max l.height r.height + 1) t h := by
  by_cases hleft : bf = -2
  · subst hleft
    have hmax : max l.height r.height = l.height := by omega
    rw [hmax]
    exact rotateRight_spec hl hr (by omega)
  · by_cases hright : bf = 2
    · subst hright
      have hmax : max l.height r.height = r.height := by omega
      rw [hmax]
      exact rotateLeft_spec hl hr (by omega)
    · refine ⟨node l x bf r, 0, ?_, ⟨hl, hr, hbf, by omega, by omega⟩, rfl, ?_, Or.inl rfl⟩
      · simp only [rebalance]
        rw [if_neg (by omega), if_neg (by omega)]
      · rw [height_node]
        omega

end

def pending (stack : List (AvlNode α)) : List α := stack.flatMap toList

theorem pending_push (t : AvlNode α) (stack : List (AvlNode α)) : pending (push t stack) = t.toList ++ pending stack := by
  cases t <;> rfl

theorem mem_pending_push : x ∈ pending (push t stack) ↔ x ∈ t.toList ∨ x ∈ pending stack := by
  rw [pending_push, List.mem_append]

theorem searchFrom_eq_some {n : Nat} (h : searchFrom p n stack = some x) : x ∈ pending stack ∧ p x = true := by
  induction n generalizing stack with
  | zero => cases h
  | succ n ih =>
    match stack with
    | [] => cases h
    | null :: stack =>
      have hrest : searchFrom p n stack = some x := h
      obtain ⟨hmem, hx⟩ := ih hrest
      exact ⟨hmem, hx⟩
    | node l y bf r :: stack =>
      unfold searchFrom at h
      split at h
      · rename_i hy
        cases h
        exact ⟨by simp [pending], hy⟩
      · obtain ⟨hmem, hx⟩ := ih h
        rw [mem_pending_push, mem_pending_push] at hmem
        refine ⟨?_, hx⟩
        simp only [pending, List.flatMap_cons, toList_node, List.mem_append, List.mem_cons] at *
        tauto

theorem length_pending_push (t : AvlNode α) (stack : List (AvlNode α)) :
    (pending (push t stack)).length = t.toList.length + (pending stack).length := by
  rw [pending_push, List.length_append]

/-- The nodes that `apply_topdown` comes to from this stack on, in its order. -/
def topdown : List (AvlNode α) → List α
  | [] => []
  | null :: stack => topdown stack
  | node l x _ r :: stack => x :: topdown (push r (push l stack))
termination_by stack => ((pending stack).length, stack.length)
decreasing_by
  · exact .right _ (Nat.lt_succ_self _)
  · refine .left _ _ ?_
    rw [length_pending_push, length_pending_push]
    simp +arith [pending]

theorem topdown_perm (stack : List (AvlNode α)) : (topdown stack).Perm (pending stack) := by
  fun_induction topdown with
  | case1 => rfl
  | case2 stack ih => exact ih
  | case3 l x bf r stack ih =>
    rw [pending_push, pending_push, ← List.append_assoc] at ih
    exact (ih.cons x).trans ((List.perm_append_comm.cons x).trans List.perm_middle.symm |>.append_right _)

theorem searchFrom_eq_none {n : Nat}
    (hnull : null ∉ stack) (hn : (pending stack).length ≤ n) (h : searchFrom p n stack = none) :
    ∀ x ∈ pending stack, p x = false := by
  induction n generalizing stack with
  | zero =>
    intro x hx
    rw [List.eq_nil_of_length_eq_zero (Nat.le_zero.mp hn)] at hx
    exact absurd hx List.not_mem_nil
  | succ n ih =>
    match stack with
    | [] =>
      intro x hx
      exact absurd hx List.not_mem_nil
    | null :: stack => exact absurd List.mem_cons_self hnull
    | node l y bf r :: stack =>
      unfold searchFrom at h
      split at h
      · cases h
      · rename_i hy
        have hpush : ∀ t (s : List (AvlNode α)), null ∉ s → null ∉ push t s := by
          intro t s hs
          cases t with
          | null => exact hs
          | node l y bf r => simpa [push] using hs
        have hrest := ih (hpush r _ (hpush l _ fun hmem => hnull (List.mem_cons_of_mem _ hmem))) (by
            rw [length_pending_push, length_pending_push]
            simp only [pending, List.flatMap_cons, toList_node, List.length_append, List.length_cons] at hn ⊢
            omega) h
        intro x hx
        simp only [pending, List.flatMap_cons, toList_node, List.mem_append, List.mem_cons] at hx
        rcases hx with (hx | rfl | hx) | hx
        · exact hrest x (mem_pending_push.mpr (Or.inr (mem_pending_push.mpr (Or.inl hx))))
        · simpa using hy
        · exact hrest x (mem_pending_push.mpr (Or.inl hx))
        · exact hrest x (mem_pending_push.mpr (Or.inr (mem_pending_push.mpr (Or.inr hx))))

theorem length_toList (t : AvlNode α) : t.toList.length = t.size := by
  induction t with
  | null => rfl
  | node l x bf r ihl ihr =>
    simp only [toList_node, List.length_append, List.length_cons, size, ihl, ihr]
    omega

theorem search_eq_some (h : search p t = some x) : x ∈ t.toList ∧ p x = true := by
  obtain ⟨hmem, hx⟩ := searchFrom_eq_some h
  rw [mem_pending_push] at hmem
  exact ⟨hmem.resolve_right (by simp [pending]), hx⟩

theorem search_eq_none (h : search p t = none) : ∀ x ∈ t.toList, p x = false := by
  intro x hx
  refine searchFrom_eq_none ?_ ?_ h x (mem_pending_push.mpr (Or.inl hx))
  · cases t <;> simp [push]
  · rw [length_pending_push, length_toList]
    simp [pending]

structure Grown (n : Nat) (t : AvlNode α) (change : Int) : Prop where
  balanced : t.Balanced
  height : (t.height : Int) = n + change
  change : change = 0 ∨ change = 1

structure Shrunk (n : Nat) (t : AvlNode α) (change : Int) : Prop where
  balanced : t.Balanced
  height : (t.height : Int) = n - change
  change : change = 0 ∨ change = 1

theorem insertChange_spec {change : Int} {n : Nat} (hl : l.Balanced)
    (hr : r.Balanced) (hchange : change = 0 ∨ change = 1) (hbf : bf = r.height - l.height)
    (hlo : -2 ≤ bf) (hhi : bf ≤ 2) (hsame : change = 0 → -1 ≤ bf ∧ bf ≤ 1)
    (hn : (max l.height r.height + 1 : Int) = n + if bf = 0 then 0 else change) :
    ∃ t c, insertChange change l x bf r = .ok (t, c) ∧ Grown n t c ∧ t.toList = l.toList ++ x :: r.toList := by
  unfold insertChange
  split
  · rename_i hgrown
    obtain ⟨t, h, heq, hrot⟩ := rebalance_spec (x := x) hl hr hbf hlo hhi
    have hheight := hrot.height
    have hone : change = 1 := hchange.resolve_left hgrown.1
    rw [if_neg hgrown.2, hone] at hn
    refine ⟨t, 1 - h, ?_, ⟨hrot.balanced, by omega, ?_⟩, hrot.toList⟩
    · rw [heq]
      rfl
    · rcases hrot.change with hzero | hone
      · exact Or.inr (by omega)
      · exact Or.inl (by omega)
  · rename_i hstill
    refine ⟨node l x bf r, 0, rfl, ⟨⟨hl, hr, hbf, ?_, ?_⟩, ?_, Or.inl rfl⟩, rfl⟩
    · omega
    · omega
    · rw [height_node]
      split at hn <;> omega

theorem removeChange_spec {decrease : Int} {n : Nat}
    (hl : l.Balanced) (hr : r.Balanced) (hdecrease : decrease = 0 ∨ decrease = 1)
    (hbf : bf = r.height - l.height) (hlo : -2 ≤ bf) (hhi : bf ≤ 2) (hsame : decrease = 0 → -1 ≤ bf ∧ bf ≤ 1)
    (hn : (max l.height r.height + 1 : Int) = n - if bf = 0 then decrease else 0) :
    ∃ t c, removeChange decrease l x bf r = .ok (t, c) ∧ Shrunk n t c ∧ t.toList = l.toList ++ x :: r.toList := by
  unfold removeChange
  by_cases hzero : decrease = 0
  · rw [if_neg (by omega)]
    obtain ⟨hlo', hhi'⟩ := hsame hzero
    refine ⟨node l x bf r, 0, rfl, ⟨⟨hl, hr, hbf, hlo', hhi'⟩, ?_, Or.inl rfl⟩, rfl⟩
    rw [height_node]
    split at hn <;> omega
  · rw [if_pos hzero]
    by_cases heven : bf = 0
    · rw [if_neg (by omega)]
      refine ⟨node l x bf r, 1, rfl, ⟨⟨hl, hr, hbf, by omega, by omega⟩, ?_, Or.inr rfl⟩, rfl⟩
      rw [if_pos heven] at hn
      rw [height_node]
      omega
    · rw [if_pos heven]
      rw [if_neg heven] at hn
      obtain ⟨t, h, heq, hrot⟩ := rebalance_spec (x := x) hl hr hbf hlo hhi
      have hheight := hrot.height
      exact ⟨t, h, heq, ⟨hrot.balanced, by omega, hrot.change⟩, hrot.toList⟩

def Sorted (key : α → β) (t : AvlNode α) : Prop :=
  t.toList.Pairwise fun x y => key x < key y

variable {key : α → β}

theorem Sorted.node (h : Sorted key (node l x bf r)) : Sorted key l ∧ Sorted key r ∧ (∀ y ∈ l.toList, key y < key x) ∧
      ∀ y ∈ r.toList, key x < key y := by
  unfold Sorted at *
  rw [toList_node, List.pairwise_append, List.pairwise_cons] at h
  obtain ⟨hl, ⟨hx, hr⟩, hlr⟩ := h
  exact ⟨hl, hr, fun y hy => hlr y hy x List.mem_cons_self, hx⟩

theorem Sorted.inj (h : Sorted key t) {y : α} (hx : x ∈ t.toList)
    (hy : y ∈ t.toList) (heq : key x = key y) : x = y := by
  have hnodup : (t.toList.map key).Nodup :=
    List.pairwise_map.mpr (h.imp fun hlt => ne_of_lt hlt)
  exact List.inj_on_of_nodup_map hnodup hx hy heq

theorem Sorted.congr {key' : α → β} (h : Sorted key t) (hkey : ∀ x ∈ t.toList, key' x = key x) : Sorted key' t := by
  refine List.Pairwise.imp_of_mem (fun {x y} hx hy hlt => ?_) h
  rwa [hkey x hx, hkey y hy]

section

variable (hbal : t.Balanced) (hsorted : Sorted key t) (hnew : ∀ y ∈ t.toList, key y ≠ key n)
include hbal hsorted hnew

theorem insert_spec : ∃ t' c, insert key n t = .ok (t', c) ∧ Grown t.height t' c ∧
      ∃ a b, t.toList = a ++ b ∧ t'.toList = a ++ n :: b ∧ (∀ y ∈ a, key y < key n) ∧ ∀ y ∈ b, key n < key y := by
  unfold insert
  induction t with
  | null =>
    exact ⟨node null n 0 null, 1, rfl, ⟨⟨trivial, trivial, rfl, by decide, by decide⟩, rfl, Or.inr rfl⟩,
      [], [], rfl, rfl, by simp, by simp⟩
  | node l x bf r ihl ihr =>
    obtain ⟨hl, hr, hbf, hlo, hhi⟩ := hbal
    obtain ⟨hsl, hsr, hlx, hxr⟩ := hsorted.node
    simp only [toList_node, List.mem_append, List.mem_cons] at hnew
    have hx := hnew x (Or.inr (Or.inl rfl))
    unfold insertLinked
    by_cases hlt : key n < key x
    · obtain ⟨l', c, heq, hgrown, a, b, hab, hab', ha, hb⟩ :=
        ihl hl hsl fun y hy => hnew y (Or.inl hy)
      obtain ⟨hbal', hheight, hchange⟩ := hgrown
      have hbf' : bf - c = r.height - l'.height := by omega
      obtain ⟨t', c', hcall, hgrown', hlist⟩ := insertChange_spec (x := x)
        (n := max l.height r.height + 1) hbal' hr hchange hbf' (by omega) (by omega)
        (by omega) (by split <;> omega)
      refine ⟨t', c', ?_, hgrown', a, b ++ x :: r.toList, ?_, ?_, ha, ?_⟩
      · rw [if_pos hlt, heq]
        exact hcall
      · rw [toList_node, hab, List.append_assoc]
      · rw [hlist, hab']
        simp
      · intro y hy
        simp only [List.mem_append, List.mem_cons] at hy
        rcases hy with hy | rfl | hy
        · exact hb y hy
        · exact hlt
        · exact hlt.trans (hxr y hy)
    · have hgt : key x < key n := lt_of_le_of_ne (not_lt.mp hlt) hx
      obtain ⟨r', c, heq, hgrown, a, b, hab, hab', ha, hb⟩ :=
        ihr hr hsr fun y hy => hnew y (Or.inr (Or.inr hy))
      obtain ⟨hbal', hheight, hchange⟩ := hgrown
      have hbf' : bf + c = r'.height - l.height := by omega
      obtain ⟨t', c', hcall, hgrown', hlist⟩ := insertChange_spec (x := x)
        (n := max l.height r.height + 1) hl hbal' hchange hbf' (by omega) (by omega)
        (by omega) (by split <;> omega)
      refine ⟨t', c', ?_, hgrown', l.toList ++ x :: a, b, ?_, ?_, ?_, hb⟩
      · rw [if_neg hlt, if_pos hgt, heq]
        exact hcall
      · rw [toList_node, hab]
        simp
      · rw [hlist, hab']
        simp
      · intro y hy
        simp only [List.mem_append, List.mem_cons] at hy
        rcases hy with hy | rfl | hy
        · exact (hlx y hy).trans hgt
        · exact hgt
        · exact ha y hy

theorem insert_perm :
    ∃ t' c, insert key n t = .ok (t', c) ∧ Grown t.height t' c ∧ Sorted key t' ∧ t'.toList.Perm (n :: t.toList) := by
  obtain ⟨t', c, heq, hgrown, a, b, hab, hab', ha, hb⟩ := insert_spec hbal hsorted hnew
  refine ⟨t', c, heq, hgrown, ?_, hab ▸ hab' ▸ List.perm_middle⟩
  unfold Sorted at *
  rw [hab, List.pairwise_append] at hsorted
  rw [hab', List.pairwise_append, List.pairwise_cons]
  obtain ⟨hsa, hsb, hcross⟩ := hsorted
  refine ⟨hsa, ⟨hb, hsb⟩, fun x hx y hy => ?_⟩
  rcases List.mem_cons.mp hy with rfl | hy
  · exact ha x hx
  · exact hcross x hx y hy

end

theorem insertLinked_conflict {new : AvlNode α} (hsorted : Sorted key t) (hmem : m ∈ t.toList)
    (hkey : key n = key m) : insertLinked key n new t = .error .conflictingRegion := by
  induction t with
  | null => exact absurd hmem List.not_mem_nil
  | node l x bf r ihl ihr =>
    obtain ⟨hsl, hsr, hlx, hxr⟩ := hsorted.node
    rw [toList_node, List.mem_append, List.mem_cons] at hmem
    unfold insertLinked
    rcases hmem with hin | rfl | hin
    · rw [if_pos (hkey ▸ hlx m hin), ihl hsl hin]
      rfl
    · rw [hkey, if_neg (lt_irrefl _), if_neg (lt_irrefl _)]
    · rw [hkey, if_neg (hxr m hin).le.not_gt, if_pos (hxr m hin), ihr hsr hin]
      rfl

theorem remove_absent (hne : t ≠ null) (hno : ∀ y ∈ t.toList, key y ≠ key n) :
    remove key n .eq t = .error .nodeNotFound := by
  have hend : ∀ s : AvlNode α, (s ≠ null → remove key n .eq s = .error .nodeNotFound) →
      remove key n .eq s = .ok (none, null, 0) ∨ remove key n .eq s = .error .nodeNotFound := by
    intro s ih
    cases s with
    | null => exact Or.inl rfl
    | node l x bf r => exact Or.inr (ih nofun)
  induction t with
  | null => exact absurd rfl hne
  | node l x bf r ihl ihr =>
    simp only [toList_node, List.mem_append, List.mem_cons] at hno
    unfold remove
    rcases lt_or_gt_of_ne (hno x (Or.inr (Or.inl rfl))).symm with hlt | hgt
    · simp only [compare, if_pos hlt]
      rcases hend l fun hl => ihl hl fun y hy => hno y (Or.inl hy) with h | h
      · rw [h]
        rfl
      · rw [h]
        rfl
    · simp only [compare, if_neg hgt.le.not_gt, if_pos hgt]
      rcases hend r fun hr => ihr hr fun y hy => hno y (Or.inr (Or.inr hy)) with h | h
      · rw [h]
        rfl
      · rw [h]
        rfl

theorem removeMin_spec (key : α → β) (n : α) (hbal : t.Balanced) (hne : t ≠ null) :
    ∃ y t' c, remove key n .min t = .ok (some y, t', c) ∧ Shrunk t.height t' c ∧ t.toList = y :: t'.toList := by
  induction t with
  | null => exact absurd rfl hne
  | node l x bf r ihl ihr =>
    obtain ⟨hl, hr, hbf, hlo, hhi⟩ := hbal
    cases l with
    | null =>
      refine ⟨x, r, 1, rfl, ⟨hr, ?_, Or.inr rfl⟩, rfl⟩
      rw [height_node]
      have hzero : (null : AvlNode α).height = 0 := rfl
      omega
    | node ll lx lbf lr =>
      obtain ⟨y, l', c, heq, ⟨hbal', hheight, hchange⟩, hlist⟩ := ihl hl nofun
      have hbf' : bf + c = r.height - l'.height := by omega
      obtain ⟨t', c', hcall, hshrunk, hlist'⟩ := removeChange_spec (x := x)
        (n := max (AvlNode.node ll lx lbf lr).height r.height + 1) hbal' hr hchange hbf' (by omega)
        (by omega) (by omega) (by split <;> omega)
      refine ⟨y, t', c', ?_, hshrunk, ?_⟩
      · unfold remove
        simp only [compare]
        rw [heq]
        simp only [bind, Except.bind]
        rw [hcall]
        rfl
      · rw [toList_node, hlist, hlist']
        rfl

section

variable (hbal : t.Balanced) (hsorted : Sorted key t) (hmem : m ∈ t.toList) (hkey : key n = key m)
include hbal hsorted hmem hkey

theorem remove_spec : ∃ t' c, remove key n .eq t = .ok (some m, t', c) ∧ Shrunk t.height t' c ∧
      ∃ a b, t.toList = a ++ m :: b ∧ t'.toList = a ++ b := by
  induction t with
  | null => exact absurd hmem List.not_mem_nil
  | node l x bf r ihl ihr =>
    obtain ⟨hl, hr, hbf, hlo, hhi⟩ := hbal
    obtain ⟨hsl, hsr, hlx, hxr⟩ := hsorted.node
    rw [toList_node, List.mem_append, List.mem_cons] at hmem
    rcases lt_trichotomy (key n) (key x) with hlt | heq | hgt
    · have hin : m ∈ l.toList := by
        rcases hmem with hin | rfl | hin
        · exact hin
        · exact absurd hkey hlt.ne
        · exact absurd hkey (hlt.trans (hxr m hin)).ne
      obtain ⟨l', c, hcall, ⟨hbal', hheight, hchange⟩, a, b, hab, hab'⟩ := ihl hl hsl hin
      have hbf' : bf + c = r.height - l'.height := by omega
      obtain ⟨t', c', hcall', hshrunk, hlist⟩ := removeChange_spec (x := x)
        (n := max l.height r.height + 1) hbal' hr hchange hbf' (by omega) (by omega) (by omega)
        (by split <;> omega)
      refine ⟨t', c', ?_, hshrunk, a, b ++ x :: r.toList, ?_, ?_⟩
      · unfold remove
        simp only [compare, if_pos hlt]
        rw [hcall]
        simp only [bind, Except.bind]
        rw [hcall']
        rfl
      · rw [toList_node, hab]
        simp
      · rw [hlist, hab']
        simp
    · have hself : m = x := by
        rcases hmem with hin | hself | hin
        · exact absurd (hkey.symm.trans heq) (hlx m hin).ne
        · exact hself
        · exact absurd (hkey.symm.trans heq) (hxr m hin).ne'
      subst hself
      have hcmp : compare key n .eq l m r = .eq := by simp [compare, hkey]
      cases l with
      | null =>
        refine ⟨r, 1, ?_, ⟨hr, ?_, Or.inr rfl⟩, [], r.toList, rfl, rfl⟩
        · unfold remove
          rw [hcmp]
        · have hzero : (null : AvlNode α).height = 0 := rfl
          rw [height_node]
          omega
      | node ll lx lbf lr =>
        cases r with
        | null =>
          refine ⟨AvlNode.node ll lx lbf lr, 1, ?_, ⟨hl, ?_, Or.inr rfl⟩, _, [], rfl, ?_⟩
          · unfold remove
            rw [hcmp]
          · have hzero : (null : AvlNode α).height = 0 := rfl
            rw [height_node (AvlNode.node ll lx lbf lr)]
            omega
          · rw [List.append_nil]
        | node rl rx rbf rr =>
          obtain ⟨y, r', c, hcall, ⟨hbal', hheight, hchange⟩, hlist⟩ :=
            removeMin_spec key n hr nofun
          have hbf' : bf - c = r'.height - (AvlNode.node ll lx lbf lr).height := by omega
          obtain ⟨t', c', hcall', hshrunk, hlist'⟩ := removeChange_spec (x := y)
            (n := max (AvlNode.node ll lx lbf lr).height (AvlNode.node rl rx rbf rr).height + 1)
            hl hbal' hchange hbf' (by omega) (by omega) (by omega) (by split <;> omega)
          refine ⟨t', c', ?_, hshrunk, (AvlNode.node ll lx lbf lr).toList, y :: r'.toList, ?_, ?_⟩
          · unfold remove
            rw [hcmp]
            simp only []
            rw [hcall]
            simp only [bind, Except.bind]
            rw [hcall']
            rfl
          · rw [toList_node, hlist]
          · rw [hlist']
    · have hin : m ∈ r.toList := by
        rcases hmem with hin | rfl | hin
        · exact absurd hkey ((hlx m hin).trans hgt).ne'
        · exact absurd hkey hgt.ne'
        · exact hin
      obtain ⟨r', c, hcall, ⟨hbal', hheight, hchange⟩, a, b, hab, hab'⟩ := ihr hr hsr hin
      have hbf' : bf - c = r'.height - l.height := by omega
      obtain ⟨t', c', hcall', hshrunk, hlist⟩ := removeChange_spec (x := x)
        (n := max l.height r.height + 1) hl hbal' hchange hbf' (by omega) (by omega) (by omega)
        (by split <;> omega)
      refine ⟨t', c', ?_, hshrunk, l.toList ++ x :: a, b, ?_, ?_⟩
      · unfold remove
        simp only [compare, if_neg hgt.le.not_gt, if_pos hgt]
        rw [hcall]
        simp only [bind, Except.bind]
        rw [hcall']
        rfl
      · rw [toList_node, hab]
        simp
      · rw [hlist, hab']
        simp

theorem remove_perm : ∃ t' c, remove key n .eq t = .ok (some m, t', c) ∧ Shrunk t.height t' c ∧ Sorted key t' ∧
      t.toList.Perm (m :: t'.toList) := by
  obtain ⟨t', c, heq, hshrunk, a, b, hab, hab'⟩ := remove_spec hbal hsorted hmem hkey
  refine ⟨t', c, heq, hshrunk, ?_, hab ▸ hab' ▸ List.perm_middle⟩
  unfold Sorted at *
  rw [hab] at hsorted
  rw [hab']
  exact hsorted.sublist (List.Sublist.append_left (List.sublist_cons_self m b) a)

end

theorem Sorted.notMem_of_perm {t' : AvlNode α} (h : Sorted key t)
    (hperm : t.toList.Perm (m :: t'.toList)) : m ∉ t'.toList := by
  have hnodup : t.toList.Nodup := List.Pairwise.imp (fun hlt heq => hlt.ne (congrArg key heq)) h
  exact (List.nodup_cons.mp (hperm.nodup_iff.mp hnodup)).1

end AvlNode

end Comanche.Core
