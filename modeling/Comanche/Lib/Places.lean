import Mathlib.Data.List.Nodup

/-!
# Things in places

Things are passed from place to place, and none is ever in two places or in none.
-/

namespace Comanche.Lib

structure Placed {π α : Type} (known : α → Prop) (held : π → List α) : Prop where
  nodup : ∀ p, (held p).Nodup
  sound : ∀ p, ∀ x ∈ held p, known x
  unique : ∀ p q x, x ∈ held p → x ∈ held q → p = q
  total : ∀ x, known x → ∃ p, x ∈ held p

namespace Placed

variable {π α : Type} {known known' : α → Prop} {held held' : π → List α} {p q : π} {x : α} {xs : List α}

theorem congr (h : Placed known held) (hheld : ∀ p, held' p = held p) : Placed known held' := by
  obtain rfl : held' = held := funext hheld
  exact h

structure Moves (p q : π) (xs : List α) (held held' : π → List α) : Prop where
  ne : p ≠ q
  source : (held p).Perm (xs ++ held' p)
  target : (held' q).Perm (xs ++ held q)
  other : ∀ r, r ≠ p → r ≠ q → held' r = held r

theorem Moves.mem_source (hm : Moves p q xs held held') (hx : x ∈ xs) : x ∈ held p :=
  hm.source.symm.subset (List.mem_append_left _ hx)

theorem Moves.mem_target (hm : Moves p q xs held held') (hx : x ∈ xs) : x ∈ held' q :=
  hm.target.symm.subset (List.mem_append_left _ hx)

theorem Moves.eq_target (h : Placed known held) (hm : Moves p q xs held held') (hx : x ∈ xs) {r : π}
    (hr : x ∈ held' r) : r = q := by
  by_contra hq
  by_cases hp : r = p
  · subst hp
    have hnodup := hm.source.nodup_iff.mp (h.nodup r)
    exact (List.disjoint_of_nodup_append hnodup) hx hr
  · rw [hm.other r hp hq] at hr
    exact hp (h.unique _ _ x hr (hm.mem_source hx))

theorem Moves.mem_iff (hm : Moves p q xs held held') (hx : x ∉ xs) (r : π) : x ∈ held' r ↔ x ∈ held r := by
  by_cases hp : r = p
  · subst hp
    rw [hm.source.mem_iff, List.mem_append]
    exact ⟨.inr, fun h => h.resolve_left hx⟩
  by_cases hq : r = q
  · subst hq
    rw [hm.target.mem_iff, List.mem_append]
    exact ⟨fun h => h.resolve_left hx, .inr⟩
  · rw [hm.other r hp hq]

theorem move (h : Placed known held) (hm : Moves p q xs held held') : Placed known held' where
  nodup r := by
    by_cases hp : r = p
    · subst hp
      exact (List.nodup_append.mp (hm.source.nodup_iff.mp (h.nodup r))).2.1
    by_cases hq : r = q
    · subst hq
      rw [hm.target.nodup_iff]
      have hxs := (List.nodup_append.mp (hm.source.nodup_iff.mp (h.nodup p))).1
      refine hxs.append (h.nodup r) fun x hx hr => ?_
      exact hm.ne (h.unique _ _ x (hm.mem_source hx) hr)
    · rw [hm.other r hp hq]
      exact h.nodup r
  sound r x hr := by
    by_cases hx : x ∈ xs
    · exact h.sound p x (hm.mem_source hx)
    · exact h.sound r x ((hm.mem_iff hx r).mp hr)
  unique r r' x hr hr' := by
    by_cases hx : x ∈ xs
    · rw [hm.eq_target h hx hr, hm.eq_target h hx hr']
    · exact h.unique _ _ x ((hm.mem_iff hx r).mp hr) ((hm.mem_iff hx r').mp hr')
  total x hknown := by
    by_cases hx : x ∈ xs
    · exact ⟨q, hm.mem_target hx⟩
    · obtain ⟨r, hr⟩ := h.total x hknown
      exact ⟨r, (hm.mem_iff hx r).mpr hr⟩

theorem add (h : Placed known held) (hx : ¬ known x) (hknown : ∀ y, known' y ↔ known y ∨ y = x)
    (hp : held' p = held p ++ [x]) (hother : ∀ r, r ≠ p → held' r = held r) : Placed known' held' := by
  have hmem (r : π) (y : α) : y ∈ held' r ↔ y ∈ held r ∨ (r = p ∧ y = x) := by
    by_cases hr : r = p
    · subst hr
      simp [hp]
    · simp [hother r hr, hr]
  have hfresh (r : π) : x ∉ held r := fun hr => hx (h.sound r x hr)
  refine ⟨fun r => ?_, fun r y hy => ?_, fun r r' y hy hy' => ?_, fun y hy => ?_⟩
  · by_cases hr : r = p
    · subst hr
      rw [hp]
      exact (h.nodup r).append (List.nodup_singleton x) (List.disjoint_singleton.mpr (hfresh r))
    · rw [hother r hr]
      exact h.nodup r
  · rw [hknown]
    exact ((hmem r y).mp hy).imp (h.sound r y) And.right
  · obtain hy | ⟨rfl, rfl⟩ := (hmem r y).mp hy
    · obtain hy' | ⟨rfl, rfl⟩ := (hmem r' y).mp hy'
      · exact h.unique _ _ y hy hy'
      · exact absurd hy (hfresh r)
    · obtain hy' | ⟨rfl, -⟩ := (hmem r' y).mp hy'
      · exact absurd hy' (hfresh r')
      · rfl
  · obtain hy | rfl := (hknown y).mp hy
    · obtain ⟨r, hr⟩ := h.total y hy
      exact ⟨r, (hmem r y).mpr (.inl hr)⟩
    · exact ⟨p, (hmem p y).mpr (.inr ⟨rfl, rfl⟩)⟩

end Placed

end Comanche.Lib
