import Mathlib.Data.Option.Basic

/-!
# Runs

A machine takes events one after the other until a step leaves no state.
-/

namespace Comanche.Lib

variable {σ ε : Type} {step : σ → ε → Option σ} {P Q : σ → ε → Prop} {s : σ} {es : List ε}

def runs (step : σ → ε → Option σ) : σ → List ε → Option σ
  | s, [] => some s
  | s, e :: es => (step s e).bind fun s' => runs step s' es

def Throughout (step : σ → ε → Option σ) (P : σ → ε → Prop) : σ → List ε → Prop
  | _, [] => True
  | s, e :: es => P s e ∧ ∀ s' ∈ step s e, Throughout step P s' es

instance Throughout.decidable (step : σ → ε → Option σ) (P : σ → ε → Prop) [∀ s e, Decidable (P s e)] :
    ∀ s es, Decidable (Throughout step P s es)
  | _, [] => isTrue trivial
  | s, e :: es =>
    have : ∀ s', Decidable (Throughout step P s' es) := fun s' => Throughout.decidable step P s' es
    inferInstanceAs (Decidable (P s e ∧ ∀ s' ∈ step s e, Throughout step P s' es))

namespace Throughout

theorem nth {s' : σ} {e : ε} (h : Throughout step P s es) (n : Nat) (hs' : s' ∈ runs step s (es.take n))
    (he : es[n]? = some e) : P s' e := by
  induction es generalizing s n with
  | nil => cases he
  | cons e' es ih =>
    cases n with
    | zero =>
      obtain rfl := Option.some.inj hs'
      obtain rfl := Option.some.inj he
      exact h.1
    | succ n =>
      obtain ⟨s₁, hs₁, hs'⟩ := Option.bind_eq_some_iff.mp hs'
      exact ih (h.2 s₁ hs₁) n hs' he

theorem reached {J : σ → Prop} {s' : σ} (h : Throughout step (fun s e => ∀ s' ∈ step s e, J s') s es) (hs : J s)
    (hs' : s' ∈ runs step s es) : J s' := by
  induction es generalizing s with
  | nil => exact Option.some.inj hs' ▸ hs
  | cons e es ih =>
    obtain ⟨s₁, hs₁, hs'⟩ := Option.bind_eq_some_iff.mp hs'
    exact ih (h.2 s₁ hs₁) (h.1 s₁ hs₁) hs'

theorem of_invariant {I : σ → Prop} (hP : ∀ s e, I s → P s e) (hI : ∀ s e s', I s → s' ∈ step s e → I s')
    (hs : I s) : Throughout step P s es := by
  induction es generalizing s with
  | nil => trivial
  | cons e es ih => exact ⟨hP s e hs, fun s' hs' => ih (hI s e s' hs hs')⟩

theorem imp {I : σ → Prop} (hP : ∀ s e, I s → P s e → Q s e)
    (hI : ∀ s e s', I s → P s e → s' ∈ step s e → I s') (hs : I s) (h : Throughout step P s es) :
    Throughout step Q s es := by
  induction es generalizing s with
  | nil => trivial
  | cons e es ih => exact ⟨hP s e hs h.1, fun s' hs' => ih (hI s e s' hs h.1 hs') (h.2 s' hs')⟩

theorem iff {I : σ → Prop} (hPQ : ∀ s e, I s → (P s e ↔ Q s e))
    (hI : ∀ s e s', I s → Q s e → s' ∈ step s e → I s') (hs : I s) : Throughout step P s es ↔ Throughout step Q s es :=
  ⟨imp (fun s e hs => (hPQ s e hs).mp) (fun s e s' hs hP => hI s e s' hs ((hPQ s e hs).mp hP)) hs,
    imp (fun s e hs => (hPQ s e hs).mpr) hI hs⟩

theorem iff_of {I : σ → Prop} {R : σ → ε → Prop} (hPQ : ∀ s e, I s → R s e → (P s e ↔ Q s e))
    (hI : ∀ s e s', I s → R s e → s' ∈ step s e → I s') (hs : I s) (hR : Throughout step R s es) :
    Throughout step P s es ↔ Throughout step Q s es := by
  induction es generalizing s with
  | nil => rfl
  | cons e es ih =>
    refine and_congr (hPQ s e hs hR.1) (forall₂_congr fun s' hs' => ?_)
    exact ih (hI s e s' hs hR.1 hs') (hR.2 s' hs')

end Throughout

end Comanche.Lib
