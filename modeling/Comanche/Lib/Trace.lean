import Mathlib.Data.Nat.Order.Lemmas

/-!
# Runs without end

A machine that takes events for ever, and what happens to it some time.
-/

namespace Comanche.Lib

structure Trace {σ ε : Type} (step : σ → ε → Option σ) (start : σ) where
  state : Nat → σ
  event : Nat → ε
  state_zero : state 0 = start
  next : ∀ k, state (k + 1) ∈ step (state k) (event k)

namespace Trace

variable {σ ε : Type} {step : σ → ε → Option σ} {start : σ}

/-- The events all meet a condition in the states in which they come. -/
def Always (t : Trace step start) (P : σ → ε → Prop) : Prop := ∀ k, P (t.state k) (t.event k)

def Often (t : Trace step start) (P : σ → ε → Prop) : Prop := ∀ k, ∃ l, k ≤ l ∧ P (t.state l) (t.event l)

theorem invariant (t : Trace step start) {P : σ → ε → Prop} {I : σ → Prop} (hP : t.Always P) (hstart : I start)
    (hI : ∀ s e s', I s → P s e → s' ∈ step s e → I s') (k : Nat) : I (t.state k) := by
  induction k with
  | zero =>
    rw [t.state_zero]
    exact hstart
  | succ k ih => exact hI _ _ _ ih (hP k) (t.next k)

end Trace

theorem exists_switch {P : Nat → Prop} {a b : Nat} (hab : a ≤ b) (ha : ¬ P a) (hb : P b) :
    ∃ k, a ≤ k ∧ ¬ P k ∧ P (k + 1) := by
  obtain ⟨d, rfl⟩ := Nat.exists_eq_add_of_le hab
  obtain ⟨k, hk, hk'⟩ := Nat.exists_not_and_succ_of_not_zero_of_exists (p := fun k => P (a + k)) ha ⟨d, hb⟩
  exact ⟨a + k, Nat.le_add_right a k, hk, hk'⟩

theorem exists_until {P Q : Nat → Prop} {a b : Nat} (hab : a ≤ b) (ha : P a) (hkeep : ∀ k, P k → ¬ Q k → P (k + 1))
    (hb : Q b) : ∃ k, a ≤ k ∧ P k ∧ Q k := by
  obtain ⟨d, rfl⟩ := Nat.exists_eq_add_of_le hab
  induction d generalizing a with
  | zero => exact ⟨a, Nat.le_refl a, ha, hb⟩
  | succ d ih =>
    by_cases hQ : Q a
    · exact ⟨a, Nat.le_refl a, ha, hQ⟩
    · have hb' : Q (a + 1 + d) := by rwa [Nat.add_right_comm, Nat.add_assoc]
      obtain ⟨k, hk, hPQ⟩ := ih (hkeep a ha hQ) (Nat.le_add_right _ d) hb'
      exact ⟨k, Nat.le_of_succ_le hk, hPQ⟩

end Comanche.Lib
