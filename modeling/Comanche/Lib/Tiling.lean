import Mathlib

/-!
# Tilings of an interval

`Tiles addr size base l stop` says that the intervals of the elements of `l`, of which each starts at
`addr` and is `size` long, follow one another from `base` to `stop` without a gap.
-/

namespace Comanche.Lib

variable {α : Type} {addr size addr' size' : α → Nat} {base mid stop : Nat} {l m : List α} {x y : α}

def Tiles (addr size : α → Nat) : Nat → List α → Nat → Prop
  | base, [], stop => base = stop
  | base, x :: l, stop => addr x = base ∧ 0 < size x ∧ Tiles addr size (base + size x) l stop

@[simp] theorem tiles_nil : Tiles addr size base [] stop ↔ base = stop := Iff.rfl

@[simp] theorem tiles_cons : Tiles addr size base (x :: l) stop ↔
      addr x = base ∧ 0 < size x ∧ Tiles addr size (base + size x) l stop := Iff.rfl

theorem tiles_append : Tiles addr size base (l ++ m) stop ↔
      ∃ mid, Tiles addr size base l mid ∧ Tiles addr size mid m stop := by
  induction l generalizing base with
  | nil => simp
  | cons x l ih => simp [ih, and_assoc]

theorem tiles_append_cons : Tiles addr size base (l ++ x :: m) stop ↔
      Tiles addr size base l (addr x) ∧ 0 < size x ∧ Tiles addr size (addr x + size x) m stop := by
  rw [tiles_append]
  constructor
  · rintro ⟨mid, hl, rfl, hpos, hm⟩
    exact ⟨hl, hpos, hm⟩
  · rintro ⟨hl, hpos, hm⟩
    exact ⟨addr x, hl, rfl, hpos, hm⟩

namespace Tiles

theorem congr (h : Tiles addr size base l stop) (haddr : ∀ x ∈ l, addr' x = addr x)
    (hsize : ∀ x ∈ l, size' x = size x) : Tiles addr' size' base l stop := by
  induction l generalizing base with
  | nil => exact h
  | cons x l ih =>
    obtain ⟨hx, hpos, hl⟩ := h
    rw [tiles_cons, haddr x List.mem_cons_self, hsize x List.mem_cons_self]
    exact ⟨hx, hpos, ih hl (fun y hy => haddr y (List.mem_cons_of_mem x hy))
      fun y hy => hsize y (List.mem_cons_of_mem x hy)⟩

theorem map {β : Type} {f : α → β} {addr' size' : β → Nat}
    (h : Tiles (fun x => addr' (f x)) (fun x => size' (f x)) base l stop) : Tiles addr' size' base (l.map f) stop := by
  induction l generalizing base with
  | nil => exact h
  | cons x l ih => exact ⟨h.1, h.2.1, ih h.2.2⟩

section

variable (h : Tiles addr size base l stop)
include h

theorem le : base ≤ stop := by
  induction l generalizing base with
  | nil => exact Nat.le_of_eq h
  | cons x l ih =>
    have := ih h.2.2
    omega

theorem stop_eq {stop' : Nat} (h' : Tiles addr size base l stop') : stop = stop' := by
  induction l generalizing base with
  | nil => exact h.symm.trans h'
  | cons x l ih => exact ih h.2.2 h'.2.2

theorem mem (hx : x ∈ l) : base ≤ addr x ∧ 0 < size x ∧ addr x + size x ≤ stop := by
  obtain ⟨a, b, rfl⟩ := List.append_of_mem hx
  obtain ⟨ha, hpos, hb⟩ := tiles_append_cons.mp h
  exact ⟨ha.le, hpos, hb.le⟩

theorem pairwise : l.Pairwise fun x y => addr x + size x ≤ addr y := by
  induction l generalizing base with
  | nil => exact List.Pairwise.nil
  | cons x l ih =>
    obtain ⟨hx, hpos, hl⟩ := h
    refine List.Pairwise.cons (fun y hy => ?_) (ih hl)
    have := (hl.mem hy).1
    omega

theorem exists_mem {n : Nat} (hlo : base ≤ n) (hhi : n < stop) : ∃ x ∈ l, addr x ≤ n ∧ n < addr x + size x := by
  induction l generalizing base with
  | nil =>
    rw [tiles_nil] at h
    omega
  | cons x l ih =>
    obtain ⟨hx, hpos, hl⟩ := h
    by_cases hin : n < base + size x
    · exact ⟨x, List.mem_cons_self, by omega, by omega⟩
    · obtain ⟨y, hy, hbounds⟩ := ih hl (by omega)
      exact ⟨y, List.mem_cons_of_mem x hy, hbounds⟩

theorem unique (hx : x ∈ l) (hy : y ∈ l) {n : Nat}
    (hxn : addr x ≤ n ∧ n < addr x + size x) (hyn : addr y ≤ n ∧ n < addr y + size y) : x = y := by
  induction l generalizing base with
  | nil => exact absurd hx List.not_mem_nil
  | cons z l ih =>
    obtain ⟨hz, hpos, hl⟩ := h
    rcases List.mem_cons.mp hx with rfl | hx'
    · rcases List.mem_cons.mp hy with rfl | hy'
      · rfl
      · have := (hl.mem hy').1
        omega
    · rcases List.mem_cons.mp hy with rfl | hy'
      · have := (hl.mem hx').1
        omega
      · exact ih hl hx' hy'

theorem nodup : l.Nodup := by
  have hpair := h.pairwise
  refine List.Pairwise.imp_of_mem (fun {x y} hx _ hxy => ?_) hpair
  rintro rfl
  have := (h.mem hx).2.1
  omega

theorem sum_size : base + (l.map size).sum = stop := by
  induction l generalizing base with
  | nil => exact h
  | cons x l ih =>
    rw [List.map_cons, List.sum_cons, ← Nat.add_assoc]
    exact ih h.2.2

theorem eq_of_inj (h' : Tiles addr size base m stop) (hinj : ∀ x ∈ l, ∀ y ∈ m, addr x = addr y → x = y) : l = m := by
  induction l generalizing base m with
  | nil =>
    cases m with
    | nil => rfl
    | cons y m =>
      have hle := h'.2.2.le
      have hpos := h'.2.1
      rw [tiles_nil] at h
      omega
  | cons x l ih =>
    cases m with
    | nil =>
      have hle := h.2.2.le
      have hpos := h.2.1
      rw [tiles_nil] at h'
      omega
    | cons y m =>
      obtain ⟨hx, -, hl⟩ := h
      obtain ⟨hy, -, hm⟩ := h'
      have hxy := hinj x List.mem_cons_self y List.mem_cons_self (hx.trans hy.symm)
      subst hxy
      rw [ih hl hm fun z hz w hw =>
        hinj z (List.mem_cons_of_mem x hz) w (List.mem_cons_of_mem x hw)]

end

theorem replace {old new : List α} {end_ : Nat} (h : Tiles addr size base (l ++ x :: (old ++ m)) stop)
    (hold : Tiles addr size (addr x) (x :: old) end_) (hnew : Tiles addr' size' (addr x) (x :: new) end_)
    (hl : ∀ y ∈ l ++ m, addr' y = addr y ∧ size' y = size y) : Tiles addr' size' base (l ++ x :: (new ++ m)) stop := by
  have hcut : l ++ x :: (old ++ m) = l ++ ((x :: old) ++ m) := by simp
  rw [hcut, tiles_append] at h
  obtain ⟨mid, hleft, hrest⟩ := h
  obtain ⟨mid', hx, hm⟩ := tiles_append.mp hrest
  have hmid : mid = addr x := hx.1.symm
  subst hmid
  have hend : mid' = end_ := hx.stop_eq hold
  subst hend
  have hcut' : l ++ x :: (new ++ m) = l ++ ((x :: new) ++ m) := by simp
  rw [hcut', tiles_append]
  refine ⟨addr x, hleft.congr (fun y hy => (hl y (List.mem_append_left m hy)).1)
    fun y hy => (hl y (List.mem_append_left m hy)).2, tiles_append.mpr ⟨mid', hnew, ?_⟩⟩
  exact hm.congr (fun y hy => (hl y (List.mem_append_right l hy)).1) fun y hy => (hl y (List.mem_append_right l hy)).2

end Tiles

end Comanche.Lib
