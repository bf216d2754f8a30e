import Mathlib

/-!
# Actions that change a state by single stores

An action reads the state it is started in and answers with the stores it makes, in program order, and
with its result.
-/

namespace Comanche.Lib

class Store (σ : Type) (ω : outParam Type) where
  apply : σ → ω → σ

def replay {σ ω : Type} [Store σ ω] (s : σ) (l : List ω) : σ :=
  l.foldl Store.apply s

section Replay

variable {σ ω : Type} [Store σ ω]

@[simp] theorem replay_nil (s : σ) : replay s ([] : List ω) = s := rfl

@[simp] theorem replay_cons (s : σ) (w : ω) (l : List ω) : replay s (w :: l) = replay (Store.apply s w) l := rfl

@[simp] theorem replay_append (s : σ) (l m : List ω) : replay s (l ++ m) = replay (replay s l) m := by
  unfold replay
  rw [List.foldl_append]

end Replay

/-- An action on `σ`: the stores it makes and its result, from the state it starts in. -/
def Action (σ ω ε α : Type) : Type := σ → List ω × Except ε α

namespace Action

variable {σ ω ε α β : Type}

def stores (m : Action σ ω ε α) (s : σ) : List ω := (m s).1

def result (m : Action σ ω ε α) (s : σ) : Except ε α := (m s).2

def final [Store σ ω] (m : Action σ ω ε α) (s : σ) : σ := replay s (m.stores s)

def exec [Store σ ω] (m : Action σ ω ε α) (s : σ) : Except ε α × σ := (m.result s, m.final s)

def cut [Store σ ω] (m : Action σ ω ε α) (n : Nat) (s : σ) : σ := replay s ((m.stores s).take n)

protected def pure (a : α) : Action σ ω ε α := fun _ => ([], .ok a)

protected def bind [Store σ ω] (m : Action σ ω ε α) (f : α → Action σ ω ε β) :
    Action σ ω ε β := fun s =>
  match m s with
  | (l, .ok a) => (l ++ (f a (replay s l)).1, (f a (replay s l)).2)
  | (l, .error e) => (l, .error e)

instance [Store σ ω] : Monad (Action σ ω ε) where
  pure := Action.pure
  bind := Action.bind

def emit (w : ω) : Action σ ω ε Unit := fun _ => ([w], .ok ())

def read (f : σ → α) : Action σ ω ε α := fun s => ([], .ok (f s))

def fail (e : ε) : Action σ ω ε α := fun _ => ([], .error e)

def handle [Store σ ω] (m : Action σ ω ε α) (h : ε → Action σ ω ε α) : Action σ ω ε α := fun s =>
  match m s with
  | (l, .ok a) => (l, .ok a)
  | (l, .error e) => (l ++ (h e (replay s l)).1, (h e (replay s l)).2)

def when [Store σ ω] (c : Prop) [Decidable c] (m : Action σ ω ε Unit) : Action σ ω ε Unit :=
  if c then m else pure ()

def emitAll [Store σ ω] : List ω → Action σ ω ε Unit
  | [] => pure ()
  | w :: l => do
      emit w
      emitAll l

/-- Run `f start`, `f (start + 1)`, ... for `n` rounds, passing a value along. -/
def foldFrom [Store σ ω] (f : Nat → β → Action σ ω ε β) : Nat → Nat → β → Action σ ω ε β
  | _, 0, b => pure b
  | start, n + 1, b => do
      let b' ← f start b
      foldFrom f (start + 1) n b'

def foldRange [Store σ ω] (n : Nat) (b : β) (f : Nat → β → Action σ ω ε β) : Action σ ω ε β :=
  foldFrom f 0 n b

def forRange [Store σ ω] (n : Nat) (f : Nat → Action σ ω ε Unit) : Action σ ω ε Unit :=
  foldRange n () fun i _ => f i

section Run

variable [Store σ ω] (s : σ)

theorem read_bind_apply (f : σ → α) (g : α → Action σ ω ε β) : (read f >>= g) s = g (f s) s := rfl

end Run

end Action

/-- Started in `s`, the action `m` keeps `C` at every store, gives a result and state in `Q`, or an
exception and state in `E`. -/
def Sat {σ ω ε α : Type} [Store σ ω] (m : Action σ ω ε α) (s : σ) (C : σ → Prop)
    (Q : α → σ → Prop) (E : ε → σ → Prop) : Prop :=
  (∀ l, l <+: m.stores s → C (replay s l)) ∧
    match m.result s with
    | .ok a => Q a (m.final s)
    | .error e => E e (m.final s)

namespace Sat

variable {σ ω ε α β : Type} [Store σ ω] {s : σ} {C : σ → Prop} {Q : α → σ → Prop}
  {E : ε → σ → Prop}

variable {m : Action σ ω ε α} {Q' : α → σ → Prop} {E' : ε → σ → Prop} {n : Nat}

theorem cut (h : Sat m s C Q E) (n : Nat) : C (m.cut n s) :=
  h.1 _ (List.take_prefix n _)

theorem start (h : Sat m s C Q E) : C s :=
  h.1 [] List.nil_prefix

theorem of_ok (h : Sat m s C Q E) {a : α} (hr : m.result s = .ok a) : Q a (m.final s) := by
  have hpost := h.2
  rwa [hr] at hpost

theorem of_error (h : Sat m s C Q E) {e : ε} (hr : m.result s = .error e) : E e (m.final s) := by
  have hpost := h.2
  rwa [hr] at hpost

theorem final (m : Action σ ω ε α) (s : σ) :
    Sat m s (fun _ => True) (fun _ s' => s' = m.final s) (fun _ s' => s' = m.final s) := by
  refine ⟨fun _ _ => trivial, ?_⟩
  cases m.result s <;> rfl

theorem pure {a : α} (hC : C s) (hQ : Q a s) : Sat (Pure.pure a : Action σ ω ε α) s C Q E := by
  refine ⟨fun l hl => ?_, hQ⟩
  have hnil : l = [] := List.prefix_nil.mp hl
  rwa [hnil]

theorem read {f : σ → α} (hC : C s) (hQ : Q (f s) s) : Sat (Action.read f : Action σ ω ε α) s C Q E := by
  refine ⟨fun l hl => ?_, hQ⟩
  have hnil : l = [] := List.prefix_nil.mp hl
  rwa [hnil]

theorem fail {e : ε} (hC : C s) (hE : E e s) : Sat (Action.fail e : Action σ ω ε α) s C Q E := by
  refine ⟨fun l hl => ?_, hE⟩
  have hnil : l = [] := List.prefix_nil.mp hl
  rwa [hnil]

theorem emit {w : ω} {Q : Unit → σ → Prop} (hC : C s) (hC' : C (Store.apply s w))
    (hQ : Q () (Store.apply s w)) : Sat (Action.emit w : Action σ ω ε Unit) s C Q E := by
  refine ⟨fun l hl => ?_, hQ⟩
  rcases List.prefix_cons_iff.mp hl with hnil | ⟨t, ht, htl⟩
  · rwa [hnil]
  · rw [ht, List.prefix_nil.mp htl]
    exact hC'

theorem bind {f : α → Action σ ω ε β} {Q : β → σ → Prop}
    (h : Sat m s C (fun a s' => Sat (f a) s' C Q E) E) : Sat (m >>= f) s C Q E := by
  obtain ⟨hC, hpost⟩ := h
  unfold Action.stores Action.result Action.final Action.stores at *
  unfold Sat Action.stores Action.result Action.final Action.stores
  change (∀ l, l <+: (Action.bind m f s).1 → C (replay s l)) ∧
    match (Action.bind m f s).2 with
    | .ok a => Q a (replay s (Action.bind m f s).1)
    | .error e => E e (replay s (Action.bind m f s).1)
  unfold Action.bind
  rcases hm : m s with ⟨l₁, e | a⟩
  · simp only [hm] at hC hpost ⊢
    exact ⟨hC, hpost⟩
  · simp only [hm] at hC hpost ⊢
    refine ⟨fun l hl => ?_, ?_⟩
    · -- a prefix of the joined stores ends in the first action or in the second
      rcases List.prefix_or_prefix_of_prefix hl (List.prefix_append l₁ _) with hfirst | ⟨t, rfl⟩
      · exact hC l hfirst
      · rw [replay_append]
        exact hpost.1 t ((List.prefix_append_right_inj l₁).mp hl)
    · rw [replay_append]
      exact hpost.2

theorem mono {C' : σ → Prop} (h : Sat m s C Q E) (hC : ∀ s, C s → C' s) (hQ : ∀ a s, Q a s → Q' a s)
    (hE : ∀ e s, E e s → E' e s) : Sat m s C' Q' E' := by
  refine ⟨fun l hl => hC _ (h.1 l hl), ?_⟩
  cases hr : m.result s with
  | ok a => exact hQ a _ (h.of_ok hr)
  | error e => exact hE e _ (h.of_error hr)

theorem imp (h : Sat m s C Q E) (hQ : ∀ a s, Q a s → Q' a s) (hE : ∀ e s, E e s → E' e s) : Sat m s C Q' E' :=
  h.mono (fun _ hC => hC) hQ hE

theorem post (h : Sat m s C Q E) (hQ : ∀ a s, Q a s → Q' a s) : Sat m s C Q' E :=
  h.imp hQ fun _ _ hE => hE

/-- The crash points are forgotten. -/
theorem ends (h : Sat m s C Q E) (hQ : ∀ a s, Q a s → Q' a s) (hE : ∀ e s, E e s → E' e s) :
    Sat m s (fun _ => True) Q' E' :=
  h.mono (fun _ _ => trivial) hQ hE

theorem and {C' : σ → Prop} (h : Sat m s C Q E) (h' : Sat m s C' Q' E') :
    Sat m s (fun s => C s ∧ C' s) (fun a s => Q a s ∧ Q' a s) (fun e s => E e s ∧ E' e s) := by
  refine ⟨fun l hl => ⟨h.1 l hl, h'.1 l hl⟩, ?_⟩
  cases hr : m.result s with
  | ok a => exact ⟨h.of_ok hr, h'.of_ok hr⟩
  | error e => exact ⟨h.of_error hr, h'.of_error hr⟩

theorem foldFrom {f : Nat → β → Action σ ω ε β} {I : Nat → β → σ → Prop} {start : Nat} {b : β}
    (h0 : I start b s) (hC : ∀ b s, I (start + n) b s → C s) (hstep : ∀ i b s, start ≤ i → i < start + n → I i b s →
      Sat (f i b) s C (fun b' s' => I (i + 1) b' s') E) :
    Sat (Action.foldFrom f start n b) s C (fun b' s' => I (start + n) b' s') E := by
  induction n generalizing start b s with
  | zero => exact Sat.pure (hC b s h0) h0
  | succ n ih =>
    have hshift : start + (n + 1) = start + 1 + n := by omega
    rw [hshift] at hC hstep ⊢
    refine Sat.bind ((hstep start b s le_rfl (by omega) h0).mono (fun _ h => h) (fun b' s' hI => ?_) (fun _ _ h => h))
    exact ih hI hC fun i b s hi hlt => hstep i b s (by omega) hlt

theorem foldRange {f : Nat → β → Action σ ω ε β} (I : Nat → β → σ → Prop) {b : β}
    (h0 : I 0 b s) (hC : ∀ b s, I n b s → C s)
    (hstep : ∀ i b s, i < n → I i b s → Sat (f i b) s C (fun b' s' => I (i + 1) b' s') E) :
    Sat (Action.foldRange n b f) s C (fun b' s' => I n b' s') E := by
  have h : Sat (Action.foldFrom f 0 n b) s C (fun b' s' => I (0 + n) b' s') E :=
    Sat.foldFrom h0 (by rwa [Nat.zero_add]) fun i b s _ hi hI => hstep i b s (by omega) hI
  rwa [Nat.zero_add] at h

theorem forRange {f : Nat → Action σ ω ε Unit} (I : Nat → σ → Prop) (h0 : I 0 s) (hC : ∀ s, I n s → C s)
    (hstep : ∀ i s, i < n → I i s → Sat (f i) s C (fun _ s' => I (i + 1) s') E) :
    Sat (Action.forRange n f) s C (fun _ s' => I n s') E :=
  Sat.foldRange (fun i _ s' => I i s') h0 (fun _ s' => hC s')
    fun i _ s' hi hI => hstep i s' hi hI

theorem when {c : Prop} [Decidable c] {m : Action σ ω ε Unit} {Q : Unit → σ → Prop}
    (hm : c → Sat m s C Q E) (hskip : ¬ c → C s ∧ Q () s) : Sat (Action.when c m) s C Q E := by
  unfold Action.when
  split
  · rename_i hc
    exact hm hc
  · rename_i hc
    exact Sat.pure (hskip hc).1 (hskip hc).2

theorem emitAll {l : List ω} {I : σ → Prop} (hI : I s) (hC : ∀ s, I s → C s)
    (hstep : ∀ w ∈ l, ∀ s, I s → I (Store.apply s w)) :
    Sat (Action.emitAll l : Action σ ω ε Unit) s C (fun _ s' => I s') E := by
  induction l generalizing s with
  | nil => exact Sat.pure (hC s hI) hI
  | cons w l ih =>
    have hw := hstep w List.mem_cons_self s hI
    refine Sat.bind (Sat.emit (hC s hI) (hC _ hw) ?_)
    exact ih hw fun v hv => hstep v (List.mem_cons_of_mem w hv)

theorem handle {h : ε → Action σ ω ε α}
    (hm : Sat m s C Q (fun e s' => Sat (h e) s' C Q E')) : Sat (m.handle h) s C Q E' := by
  obtain ⟨hC, hpost⟩ := hm
  unfold Action.stores Action.result Action.final Action.stores at *
  unfold Sat Action.stores Action.result Action.final Action.stores Action.handle
  rcases hms : m s with ⟨l₁, e | a⟩
  · simp only [hms] at hC hpost ⊢
    refine ⟨fun l hl => ?_, ?_⟩
    · rcases List.prefix_or_prefix_of_prefix hl (List.prefix_append l₁ _) with hfirst | ⟨t, rfl⟩
      · exact hC l hfirst
      · rw [replay_append]
        exact hpost.1 t ((List.prefix_append_right_inj l₁).mp hl)
    · rw [replay_append]
      exact hpost.2
  · simp only [hms] at hC hpost ⊢
    exact ⟨hC, hpost⟩

end Sat

/-- Every store of `m` keeps `I`, and the exceptions it may end in are among `T`. -/
def Keeps {σ ω ε α : Type} [Store σ ω] (I : σ → Prop) (T : ε → Prop) (m : Action σ ω ε α) : Prop :=
  ∀ s, I s → Sat m s I (fun _ s' => I s') (fun e s' => T e ∧ I s')

namespace Keeps

variable {σ ω ε α β : Type} [Store σ ω] {I : σ → Prop} {T : ε → Prop}

theorem pure (a : α) : Keeps I T (Pure.pure a : Action σ ω ε α) :=
  fun _ hs => Sat.pure hs hs

theorem read (f : σ → α) : Keeps I T (Action.read f : Action σ ω ε α) :=
  fun _ hs => Sat.read hs hs

theorem fail {e : ε} (he : T e) : Keeps I T (Action.fail e : Action σ ω ε α) :=
  fun _ hs => Sat.fail hs ⟨he, hs⟩

theorem emit {w : ω} (h : ∀ s, I s → I (Store.apply s w)) : Keeps I T (Action.emit w : Action σ ω ε Unit) :=
  fun s hs => Sat.emit hs (h s hs) (h s hs)

theorem sat {m : Action σ ω ε α} {Q : α → σ → Prop} {E : ε → σ → Prop} {s : σ} (h : Keeps I (fun _ => False) m) (hs : I s)
    (hQ : ∀ a s', I s' → Q a s') : Sat m s (fun _ => True) Q E :=
  (h s hs).ends hQ fun _ _ hE => hE.1.elim

theorem bind {m : Action σ ω ε α} {f : α → Action σ ω ε β} (hm : Keeps I T m)
    (hf : ∀ a, Keeps I T (f a)) : Keeps I T (m >>= f) :=
  fun s hs => Sat.bind ((hm s hs).mono (fun _ h => h) (fun a s' hs' => hf a s' hs') (fun _ _ h => h))

theorem when {c : Prop} [Decidable c] {m : Action σ ω ε Unit} (hm : Keeps I T m) : Keeps I T (Action.when c m) :=
  fun s hs => Sat.when (fun _ => hm s hs) fun _ => ⟨hs, hs⟩

theorem emitAll {l : List ω} (h : ∀ w ∈ l, ∀ s, I s → I (Store.apply s w)) :
    Keeps I T (Action.emitAll l : Action σ ω ε Unit) :=
  fun _ hs => Sat.emitAll hs (fun _ h => h) h

theorem foldRange {f : Nat → β → Action σ ω ε β} {n : Nat} {b : β}
    (hf : ∀ i b, Keeps I T (f i b)) : Keeps I T (Action.foldRange n b f) :=
  fun _ hs => Sat.foldRange (fun _ _ s => I s) hs (fun _ _ h => h) fun i b s _ => hf i b s

theorem forRange {f : Nat → Action σ ω ε Unit} {n : Nat} (hf : ∀ i, Keeps I T (f i)) :
    Keeps I T (Action.forRange n f) :=
  foldRange fun i _ => hf i

end Keeps

end Comanche.Lib
