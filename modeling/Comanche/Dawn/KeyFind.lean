import Mathlib.Data.List.Infix
import Mathlib.Order.Bounds.Basic

/-!
# Searching for keys

`Key_find_task`, which searches an index in slices, and `RamRBTree::find`.
-/

namespace Comanche.Dawn.KeyFind

abbrev Key := List Char

inductive FindType where
  | typeNext
  | typeRegex
  | typeExact
  | typePrefix

/-- How `find` ends, with the position in `out_matched_pos`. -/
inductive Outcome where
  | ok (pos : Nat) (key : Key)
  | maxReached (pos : Nat)
  | throws (pos : Nat)

/-- The loop of `find`, over the keys from `pos` on. Behind the last one `get` throws. -/
def search (test : Key → Bool) (maxComparisons : Option Nat) : List Key → Nat → Nat → Outcome
  | [], pos, _ => .throws pos
  | key :: keys, pos, attempts =>
    if test key then .ok pos key
    else if maxComparisons.any (· < attempts + 1) then .maxReached pos
    else search test maxComparisons keys (pos + 1) (attempts + 1)

/-- `RamRBTree::find`, over the keys in their order. The constructor of `std::regex` throws unless `regex`
has a value. -/
def find (regex : Key → Option (Key → Bool)) (keys : List Key) (expr : Key) (beginPosition : Nat)
    (type : FindType) (maxComparisons : Nat) : Outcome :=
  match regex expr with
  | none => .throws beginPosition
  | some r =>
    if keys.length ≤ beginPosition then .throws beginPosition
    else
      match type with
      | .typeRegex => search r (some maxComparisons) (keys.drop beginPosition) beginPosition 0
      | .typeExact => search (fun key => key = expr) (some maxComparisons) (keys.drop beginPosition) beginPosition 0
      | .typePrefix => search (fun key => expr <:+: key) none (keys.drop beginPosition) beginPosition 0
      | .typeNext => keys[beginPosition]?.elim (.throws beginPosition) (.ok beginPosition)

structure Task where
  expr : Key
  type : FindType
  offset : Nat
  outKey : Key

/-- The constructor, which throws for another expression. -/
def Task.new (expression : Key) (offset : Nat) : Option Task :=
  if expression = ['n', 'e', 'x', 't', ':'] then some ⟨expression.drop 5, .typeNext, offset, []⟩
  else if expression.take 6 = ['r', 'e', 'g', 'e', 'x', ':'] then some ⟨expression.drop 6, .typeRegex, offset, []⟩
  else if expression.take 6 = ['e', 'x', 'a', 'c', 't', ':'] then some ⟨expression.drop 6, .typeExact, offset, []⟩
  else if expression.take 7 = ['p', 'r', 'e', 'f', 'i', 'x', ':'] then some ⟨expression.drop 7, .typePrefix, offset, []⟩
  else none

inductive Status where
  | ok
  | more
  | fail

def maxComparesPerWork : Nat := 5

variable (regex : Key → Option (Key → Bool)) (keys : List Key)

def Task.doWork (t : Task) : Status × Task :=
  match find regex keys t.expr t.offset t.type maxComparesPerWork with
  | .maxReached pos => (.more, { t with offset := pos + 1 })
  | .ok pos key => (.ok, { t with offset := pos, outKey := key })
  | .throws pos => (.fail, { t with offset := pos })

/-- The task is run again while it answers `S_MORE`, up to `n` times. -/
def Task.run : Nat → Task → Option (Status × Task)
  | 0, _ => none
  | n + 1, t =>
    match t.doWork regex keys with
    | (.more, t') => run n t'
    | result => some result

inductive Expression where
  | next
  | exactly (s : Key)
  | startsWith (s : Key)
  | matching (r : Key)

def Expression.text : Expression → Key
  | next => ['n', 'e', 'x', 't', ':']
  | exactly s => ['e', 'x', 'a', 'c', 't', ':'] ++ s
  | startsWith s => ['p', 'r', 'e', 'f', 'i', 'x', ':'] ++ s
  | matching r => ['r', 'e', 'g', 'e', 'x', ':'] ++ r

def Expression.Matches (e : Expression) (key : Key) : Prop :=
  match e with
  | next => True
  | exactly s => key = s
  | startsWith s => s <+: key
  | matching r => ∃ f ∈ regex r, f key = true

/-- `P` holds of the key at position `p`, which is `offset` or later. -/
def At (P : Key → Prop) (offset p : Nat) : Prop := offset ≤ p ∧ ∃ key ∈ keys[p]?, P key

/-- The search from `offset` on ends with the first key of which `P` holds, or fails if there is none. -/
def EndsAt (P : Key → Prop) (t : Task) : Prop :=
  ∃ n t', (t.run regex keys n = some (.ok, t') ∧ IsLeast {p | At keys P t.offset p} t'.offset ∧
      t'.outKey ∈ keys[t'.offset]?) ∨
    (t.run regex keys n = some (.fail, t') ∧ ∀ p, ¬ At keys P t.offset p)

def Finds (e : Expression) (offset : Nat) : Prop :=
  ∃ t, Task.new e.text offset = some t ∧ EndsAt regex keys (e.Matches regex) t

/-- Strings are valid regular expressions where a key matches, and no key that contains the string comes
before the first one that starts with it. -/
def Plain (offset : Nat) : Expression → Prop
  | .exactly s => (regex s).isSome ∨ ∀ p, ¬ At keys (· = s) offset p
  | .startsWith s => ((regex s).isSome ∨ ∀ p, ¬ At keys (s <+: ·) offset p) ∧
      ((regex s).isSome → ∀ p, At keys (s <:+: ·) offset p → ∃ p' ≤ p, At keys (s <+: ·) offset p')
  | _ => True

variable {regex keys}

theorem search_spec (test : Key → Bool) (m : Option Nat) (l : List Key) (pos attempts : Nat) :
    match search test m l pos attempts with
    | .ok p key => ∃ i, p = pos + i ∧ key ∈ l[i]? ∧ test key = true ∧ ∀ j < i, ∀ k ∈ l[j]?, test k = false
    | .maxReached p => ∃ i < l.length, p = pos + i ∧ ∀ j ≤ i, ∀ k ∈ l[j]?, test k = false
    | .throws _ => ∀ k ∈ l, test k = false := by
  induction l generalizing pos attempts with
  | nil => exact fun _ h => absurd h List.not_mem_nil
  | cons key l ih =>
    unfold search
    split_ifs with htest hmax
    · exact ⟨0, rfl, rfl, htest, fun j hj => absurd hj (Nat.not_lt_zero j)⟩
    · refine ⟨0, Nat.succ_pos _, rfl, fun j hj k hk => ?_⟩
      obtain rfl := Nat.le_zero.mp hj
      cases hk
      exact Bool.eq_false_iff.mpr htest
    · have hhead : ∀ k ∈ (key :: l)[0]?, test k = false := by
        rintro k ⟨⟩
        exact Bool.eq_false_iff.mpr htest
      have ih := ih (pos + 1) (attempts + 1)
      split at ih
      · obtain ⟨i, rfl, hkey, hk, hfirst⟩ := ih
        refine ⟨i + 1, by omega, hkey, hk, fun j hj => ?_⟩
        cases j with
        | zero => exact hhead
        | succ j => exact hfirst j (Nat.lt_of_succ_lt_succ hj)
      · obtain ⟨i, hi, rfl, hall⟩ := ih
        refine ⟨i + 1, Nat.succ_lt_succ hi, by omega, fun j hj => ?_⟩
        cases j with
        | zero => exact hhead
        | succ j => exact hall j (Nat.le_of_succ_le_succ hj)
      · exact List.forall_mem_cons.mpr ⟨hhead key rfl, ih⟩

def testOf (r : Key → Bool) (expr : Key) : FindType → Key → Bool
  | .typeRegex => r
  | .typeExact => fun key => key = expr
  | .typePrefix => fun key => expr <:+: key
  | .typeNext => fun _ => true

theorem find_eq (keys : List Key) {expr : Key} {r : Key → Bool} (hr : regex expr = some r) (offset : Nat) (type : FindType) (n : Nat) :
    ∃ m, find regex keys expr offset type n = search (testOf r expr type) m (keys.drop offset) offset 0 := by
  unfold find
  rw [hr]
  dsimp only
  split_ifs with hend
  · rw [List.drop_eq_nil_of_le hend]
    exact ⟨none, rfl⟩
  · cases type with
    | typeNext =>
      have hlt := Nat.not_le.mp hend
      rw [List.drop_eq_getElem_cons hlt, List.getElem?_eq_getElem hlt]
      exact ⟨none, rfl⟩
    | _ => exact ⟨_, rfl⟩

theorem run_endsAt {t : Task} {r : Key → Bool} (hr : regex t.expr = some r) :
    EndsAt regex keys (fun key => testOf r t.expr t.type key = true) t := by
  generalize hk : keys.length - t.offset = k
  induction k using Nat.strong_induction_on generalizing t with
  | _ k ih =>
    obtain ⟨m, hfind⟩ := find_eq keys hr t.offset t.type maxComparesPerWork
    have hspec := search_spec (testOf r t.expr t.type) m (keys.drop t.offset) t.offset 0
    simp only [List.getElem?_drop] at hspec
    rw [← hfind] at hspec
    split at hspec
    case h_1 p key heq =>
      obtain ⟨i, rfl, hkey, htest, hfirst⟩ := hspec
      refine ⟨1, { t with offset := t.offset + i, outKey := key }, Or.inl ⟨by simp [Task.run, Task.doWork, heq], ?_, hkey⟩⟩
      refine ⟨⟨Nat.le_add_right _ _, key, hkey, htest⟩, ?_⟩
      rintro q ⟨hq, k, hk, hpass⟩
      by_contra hlt
      have hfail := hfirst (q - t.offset) (by dsimp only at hlt; omega) k (by rwa [Nat.add_sub_cancel' hq])
      exact absurd (hpass.symm.trans hfail) nofun
    case h_2 p heq =>
      obtain ⟨i, hi, rfl, hall⟩ := hspec
      rw [List.length_drop] at hi
      -- none of the keys before the next slice passes
      have hat (q : Nat) : At keys (testOf r t.expr t.type · = true) t.offset q ↔
          At keys (testOf r t.expr t.type · = true) (t.offset + i + 1) q := by
        refine ⟨fun h => ⟨?_, h.2⟩, fun h => ⟨by have := h.1; omega, h.2⟩⟩
        obtain ⟨hq, k, hk, hpass⟩ := h
        by_contra hlt
        have hfail := hall (q - t.offset) (by omega) k (by rwa [Nat.add_sub_cancel' hq])
        exact absurd (hpass.symm.trans hfail) nofun
      obtain ⟨n, t', hend⟩ := ih _ (by dsimp only; omega) (t := { t with offset := t.offset + i + 1 }) hr rfl
      refine ⟨n + 1, t', ?_⟩
      simpa only [EndsAt, Task.run, Task.doWork, heq, hat] using hend
    case h_3 p heq =>
      refine ⟨1, { t with offset := p }, Or.inr ⟨by simp [Task.run, Task.doWork, heq], ?_⟩⟩
      rintro p ⟨hp, k, hk, hpass⟩
      have hmem : k ∈ keys.drop t.offset := by
        refine List.mem_of_getElem? (i := p - t.offset) ?_
        rw [List.getElem?_drop, Nat.add_sub_cancel' hp]
        exact hk
      exact absurd (hpass.symm.trans (hspec k hmem)) nofun

theorem run_eq {t : Task} {n m : Nat} {a b : Status × Task} (ha : t.run regex keys n = some a)
    (hb : t.run regex keys m = some b) : a = b := by
  induction n generalizing t m with
  | zero => cases ha
  | succ n ih =>
    cases m with
    | zero => cases hb
    | succ m =>
      unfold Task.run at ha hb
      split at ha
      case h_1 heq =>
        rw [heq] at hb
        exact ih ha hb
      case h_2 hne =>
        split at hb
        case h_1 heq => exact absurd heq (hne _)
        case h_2 => exact Option.some.inj (ha.symm.trans hb)

/-- A search that ends at the first `Q` ends at the first `P` just if there is one of each before any of the
other. -/
theorem endsAt_iff {P Q : Key → Prop} {t : Task} (hQ : EndsAt regex keys Q t) :
    EndsAt regex keys P t ↔ (∀ p, At keys P t.offset p → ∃ p' ≤ p, At keys Q t.offset p') ∧
      ∀ p, At keys Q t.offset p → ∃ p' ≤ p, At keys P t.offset p' := by
  obtain ⟨n, t', hQ⟩ := hQ
  constructor
  · rintro ⟨m, t'', hP⟩
    rcases hQ with ⟨hrun, hleast, -⟩ | ⟨hrun, hnone⟩ <;> rcases hP with ⟨hrun', hleast', -⟩ | ⟨hrun', hnone'⟩ <;>
      cases run_eq hrun hrun'
    · exact ⟨fun p hp => ⟨_, hleast'.2 hp, hleast.1⟩, fun p hp => ⟨_, hleast.2 hp, hleast'.1⟩⟩
    · exact ⟨fun p hp => absurd hp (hnone' p), fun p hp => absurd hp (hnone p)⟩
  · rintro ⟨hPQ, hQP⟩
    refine ⟨n, t', hQ.imp (fun ⟨hrun, hleast, hkey⟩ => ⟨hrun, ⟨?_, fun p hp => ?_⟩, hkey⟩)
      fun ⟨hrun, hnone⟩ => ⟨hrun, fun p hp => ?_⟩⟩
    · obtain ⟨p, hp, hat⟩ := hQP _ hleast.1
      obtain ⟨p', hp', hat'⟩ := hPQ p hat
      obtain rfl : p = t'.offset := Nat.le_antisymm hp ((hleast.2 hat').trans hp')
      exact hat
    · obtain ⟨p', hp', hat⟩ := hPQ p hp
      exact (hleast.2 hat).trans hp'
    · obtain ⟨p', -, hat⟩ := hPQ p hp
      exact hnone p' hat

theorem run_fails {t : Task} (hr : regex t.expr = none) : EndsAt regex keys (fun _ => False) t :=
  ⟨1, t, Or.inr ⟨by simp [Task.run, Task.doWork, find, hr], fun _ ⟨_, _, _, h⟩ => h⟩⟩

theorem new_text (e : Expression) (offset : Nat) : Task.new e.text offset = some (match e with
    | .next => ⟨[], .typeNext, offset, []⟩
    | .exactly s => ⟨s, .typeExact, offset, []⟩
    | .startsWith s => ⟨s, .typePrefix, offset, []⟩
    | .matching r => ⟨r, .typeRegex, offset, []⟩) := by
  cases e <;> rfl

/-- Every search ends, and finds the first match just if the expression is plain. -/
theorem finds_iff (e : Expression) (offset : Nat) (hempty : (regex []).isSome)
    (hvalid : ∀ r, e = .matching r → (regex r).isSome) : Finds regex keys e offset ↔ Plain regex keys offset e := by
  unfold Finds
  simp only [new_text, Option.some.injEq, exists_eq_left']
  cases e with
  | next =>
    obtain ⟨r, hr⟩ := Option.isSome_iff_exists.mp hempty
    refine iff_of_true ((endsAt_iff (run_endsAt (t := ⟨[], .typeNext, offset, []⟩) hr)).mpr ?_) trivial
    exact ⟨fun p hp => ⟨p, le_rfl, hp.imp_right fun ⟨k, hk, _⟩ => ⟨k, hk, rfl⟩⟩,
      fun p hp => ⟨p, le_rfl, hp.imp_right fun ⟨k, hk, _⟩ => ⟨k, hk, trivial⟩⟩⟩
  | matching s =>
    obtain ⟨r, hr⟩ := Option.isSome_iff_exists.mp (hvalid s rfl)
    refine iff_of_true ((endsAt_iff (run_endsAt (t := ⟨s, .typeRegex, offset, []⟩) hr)).mpr ?_) trivial
    refine ⟨fun p hp => ⟨p, le_rfl, hp.imp_right fun ⟨k, hk, f, hf, hmatch⟩ => ⟨k, hk, ?_⟩⟩,
      fun p hp => ⟨p, le_rfl, hp.imp_right fun ⟨k, hk, hmatch⟩ => ⟨k, hk, r, hr, hmatch⟩⟩⟩
    rwa [show r = f from Option.some.inj (hr.symm.trans hf)]
  | exactly s =>
    cases hr : regex s with
    | none =>
      rw [endsAt_iff (run_fails (t := ⟨s, .typeExact, offset, []⟩) hr)]
      simp [Plain, hr, At, Expression.Matches]
    | some r =>
      rw [endsAt_iff (run_endsAt (t := ⟨s, .typeExact, offset, []⟩) hr)]
      refine iff_of_true ⟨fun p hp => ⟨p, le_rfl, ?_⟩, fun p hp => ⟨p, le_rfl, ?_⟩⟩ (Or.inl (by simp [hr]))
      · exact hp.imp_right fun ⟨k, hk, hs⟩ => ⟨k, hk, decide_eq_true (show k = s from hs)⟩
      · exact hp.imp_right fun ⟨k, hk, hs⟩ => ⟨k, hk, show k = s from of_decide_eq_true hs⟩
  | startsWith s =>
    cases hr : regex s with
    | none =>
      rw [endsAt_iff (run_fails (t := ⟨s, .typePrefix, offset, []⟩) hr)]
      simp [Plain, hr, At, Expression.Matches]
    | some r =>
      rw [endsAt_iff (run_endsAt (t := ⟨s, .typePrefix, offset, []⟩) hr)]
      simp only [Plain, hr, Option.isSome_some, true_or, true_and, true_implies, testOf, decide_eq_true_eq]
      refine and_iff_right fun p hp => ⟨p, le_rfl, hp.imp_right fun ⟨k, hk, hs⟩ => ⟨k, hk, ?_⟩⟩
      exact List.IsPrefix.isInfix hs

/-- Every string is valid, and matches itself only. -/
def literal (s : Key) : Option (Key → Bool) := some fun key => key = s

/-- The first call of `do_work` ends behind the sixth key. -/
theorem finds_eighth : Finds literal (List.replicate 7 ['a'] ++ [['b']]) (.exactly ['b']) 0 :=
  (finds_iff _ _ rfl fun _ _ => rfl).mpr (Or.inl rfl)

/-- The first key contains the string but does not start with it. -/
theorem not_finds_ab : ¬ Finds literal [['a', 'b'], ['b', 'a']] (.startsWith ['b']) 0 := by
  rintro ⟨t, ht, n, t', ⟨hrun, hleast, -⟩ | ⟨hrun, -⟩⟩ <;> cases ht <;>
    cases run_eq (m := 1) hrun rfl
  obtain ⟨-, key, hkey, hmatch⟩ := hleast.1
  cases hkey
  exact absurd (show ['b'] <+: ['a', 'b'] from hmatch) (by decide)

end Comanche.Dawn.KeyFind
