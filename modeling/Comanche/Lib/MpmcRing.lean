import Mathlib.Data.Nat.Bitwise

/-!
# Bounded rings for many producers and consumers

The items of a stream have positions.
-/

namespace Comanche.Lib.MpmcRing

open Function (forall_update_iff update update_of_ne update_self)

/-- `log` are the items at the positions that producers have claimed. -/
structure Queue (α : Type) where
  mask : Nat
  head : Nat
  tail : Nat
  seq : Nat → Nat
  data : Nat → α
  log : List α

inductive Pc (α : Type) where
  | enqLoad (x : α)
  | enqTest (x : α) (h : Nat)
  | enqCas (x : α) (h : Nat)
  | enqData (x : α) (h : Nat)
  | enqSeq (x : α) (h : Nat)
  | deqLoad
  | deqTest (t : Nat)
  | deqCas (t : Nat)
  | deqData (t : Nat)
  | deqSeq (t : Nat) (x : α)
  deriving DecidableEq

inductive Next (α : Type) where
  | go (pc : Pc α)
  | pushed
  | full
  | popped (t : Nat) (x : α)
  | empty

def Next.pc? {α : Type} : Next α → Option (Pc α)
  | .go pc => some pc
  | _ => none

variable {α ι : Type}

namespace Queue

def cell (r : Queue α) (p : Nat) : Nat := p &&& r.mask

def claim (r : Queue α) (x : α) : Queue α := { r with head := r.head + 1, log := r.log ++ [x] }

def take (r : Queue α) : Queue α := { r with tail := r.tail + 1 }

def setData (r : Queue α) (p : Nat) (x : α) : Queue α := { r with data := update r.data (r.cell p) x }

def setSeq (r : Queue α) (p n : Nat) : Queue α := { r with seq := update r.seq (r.cell p) n }

def step (r : Queue α) (fails : Bool) : Pc α → Queue α × Next α
  | .enqLoad x => (r, .go (.enqTest x r.head))
  | .enqTest x h =>
    if r.seq (r.cell h) = h then (r, .go (.enqCas x h))
    else if r.seq (r.cell h) < h then (r, .full)
    else (r, .go (.enqLoad x))
  | .enqCas x h =>
    if r.head = h ∧ fails = false then (r.claim x, .go (.enqData x h)) else (r, .go (.enqTest x r.head))
  | .enqData x h => (r.setData h x, .go (.enqSeq x h))
  | .enqSeq _ h => (r.setSeq h (h + 1), .pushed)
  | .deqLoad => (r, .go (.deqTest r.tail))
  | .deqTest t =>
    if r.seq (r.cell t) = t + 1 then (r, .go (.deqCas t))
    else if r.seq (r.cell t) < t + 1 then (r, .empty)
    else (r, .go .deqLoad)
  | .deqCas t =>
    if r.tail = t ∧ fails = false then (r.take, .go (.deqData t)) else (r, .go (.deqTest r.tail))
  | .deqData t => (r, .go (.deqSeq t (r.data (r.cell t))))
  | .deqSeq t x => (r.setSeq t (t + r.mask + 1), .popped t x)

def Masked (r : Queue α) : Prop := ∃ k, r.mask = 2 ^ (k + 1) - 1

theorem Masked.cell_eq {r : Queue α} (h : r.Masked) (p : Nat) : r.cell p = p % (r.mask + 1) ∧ 1 < r.mask + 1 := by
  obtain ⟨k, hk⟩ := h
  have hpos := Nat.two_pow_pos k
  have hsize : r.mask + 1 = 2 ^ (k + 1) := by omega
  refine ⟨?_, by omega⟩
  unfold cell
  rw [hsize, hk, Nat.and_two_pow_sub_one_eq_mod]

theorem Masked.cell_succ_ne {r : Queue α} (h : r.Masked) (p : Nat) : r.cell (p + 1) ≠ r.cell p := by
  obtain ⟨heq, hsize⟩ := h.cell_eq p
  rw [heq, (h.cell_eq (p + 1)).1]
  intro hmod
  have h₁ := Nat.div_add_mod p (r.mask + 1)
  have h₂ := Nat.div_add_mod (p + 1) (r.mask + 1)
  rw [hmod] at h₂
  have hdvd : (r.mask + 1) ∣ 1 := by
    refine ⟨(p + 1) / (r.mask + 1) - p / (r.mask + 1), ?_⟩
    rw [Nat.mul_sub]
    omega
  exact absurd (Nat.dvd_one.mp hdvd) (Nat.ne_of_gt hsize)

theorem Masked.cell_round {r : Queue α} (h : r.Masked) (p : Nat) : r.cell (p + r.mask + 1) = r.cell p := by
  rw [(h.cell_eq p).1, (h.cell_eq (p + r.mask + 1)).1, Nat.add_assoc, Nat.add_mod_right]

end Queue

def Pc.produces : Pc α → Option Nat
  | .enqData _ h | .enqSeq _ h => some h
  | _ => none

def Pc.consumes : Pc α → Option Nat
  | .deqData t | .deqSeq t _ => some t
  | _ => none

def Fits (r : Queue α) : Pc α → Prop
  | .enqLoad _ | .deqLoad => True
  | .enqTest _ h => h ≤ r.head
  | .enqCas _ h => h ≤ r.head ∧ (r.head = h → r.seq (r.cell h) = h)
  | .enqData x h => h < r.head ∧ r.seq (r.cell h) = h ∧ r.log[h]? = some x
  | .enqSeq x h => h < r.head ∧ r.seq (r.cell h) = h ∧ r.log[h]? = some x ∧ r.data (r.cell h) = x
  | .deqTest t => t ≤ r.tail
  | .deqCas t => t ≤ r.tail ∧ t < r.head ∧ (r.tail = t → r.seq (r.cell t) = t + 1)
  | .deqData t => t < r.tail ∧ r.seq (r.cell t) = t + 1
  | .deqSeq t x => t < r.tail ∧ r.seq (r.cell t) = t + 1 ∧ r.log[t]? = some x

def Once (claims : Pc α → Option Nat) (pc : ι → Option (Pc α)) : Prop :=
  ∀ i j p, ∀ q ∈ pc i, ∀ q' ∈ pc j, claims q = some p → claims q' = some p → i = j

structure Inv (r : Queue α) (pc : ι → Option (Pc α)) : Prop where
  masked : r.Masked
  length : r.log.length = r.head
  behind : r.tail ≤ r.head
  full : ∀ p, r.seq (r.cell p) = p + 1 → p < r.head ∧ r.log[p]? = some (r.data (r.cell p))
  fits : ∀ i, ∀ q ∈ pc i, Fits r q
  produced : Once Pc.produces pc
  consumed : Once Pc.consumes pc

variable {r r' : Queue α} {pc : ι → Option (Pc α)} {i : ι} {o : Option (Pc α)} {x : α} {h t : Nat} {q : Pc α}
  {claims : Pc α → Option Nat}

namespace Inv

theorem new (hmasked : r.Masked) (hhead : r.head = 0) (htail : r.tail = 0) (hlog : r.log = [])
    (hseq : ∀ c ≤ r.mask, r.seq c = c) (hpc : ∀ i, pc i = none) : Inv r pc := by
  refine ⟨hmasked, by rw [hlog, hhead]; rfl, by omega, fun p hp => ?_, fun i q hq => ?_, fun i j p q hq => ?_, fun i j p q hq => ?_⟩
  · rw [hseq (r.cell p) Nat.and_le_right] at hp
    have hle : r.cell p ≤ p := Nat.and_le_left
    omega
  · exact absurd ((hpc i).symm.trans hq) (Option.some_ne_none q).symm
  · exact absurd ((hpc i).symm.trans hq) (Option.some_ne_none q).symm
  · exact absurd ((hpc i).symm.trans hq) (Option.some_ne_none q).symm

end Inv

variable [DecidableEq ι]

theorem Once.update (honce : Once claims pc)
    (hnew : ∀ q ∈ o, ∀ p, claims q = some p → ∀ j, j ≠ i → ∀ q' ∈ pc j, claims q' ≠ some p) :
    Once claims (update pc i o) := by
  have hcases (j : ι) (q : Pc α) (hq : q ∈ Function.update pc i o j) : (j = i ∧ q ∈ o) ∨ (j ≠ i ∧ q ∈ pc j) := by
    by_cases hj : j = i
    · subst hj
      rw [update_self] at hq
      exact Or.inl ⟨rfl, hq⟩
    · rw [update_of_ne hj] at hq
      exact Or.inr ⟨hj, hq⟩
  intro j k p q hq q' hq' hp hp'
  obtain ⟨hj, hqo⟩ | ⟨hj, hqj⟩ := hcases j q hq
  · obtain ⟨hk, -⟩ | ⟨hk, hqk⟩ := hcases k q' hq'
    · exact hj.trans hk.symm
    · exact absurd hp' (hnew q hqo p hp k hk q' hqk)
  · obtain ⟨-, hqo⟩ | ⟨-, hqk⟩ := hcases k q' hq'
    · exact absurd hp (hnew q' hqo p hp' j hj q hqj)
    · exact honce j k p q hqj q' hqk hp hp'

theorem Once.keep (honce : Once claims pc) (hq : pc i = some q) (hkeep : ∀ q' ∈ o, claims q' = none ∨ claims q' = claims q) :
    Once claims (Function.update pc i o) := by
  refine honce.update fun q' hq' p hp j hj q'' hq'' hp'' => ?_
  obtain hnone | hsame := hkeep q' hq'
  · exact absurd (hnone.symm.trans hp) (Option.some_ne_none p).symm
  · exact hj (honce i j p q hq q'' hq'' (hsame.symm.trans hp) hp'').symm

theorem cell_ne_of_full {p : Nat} (hmasked : r.Masked) (hfree : r.seq (r.cell h) = h) (hfull : r.seq (r.cell p) = p + 1) :
    r.cell p ≠ r.cell h := by
  intro heq
  rw [heq, hfree] at hfull
  subst hfull
  exact hmasked.cell_succ_ne p heq.symm

namespace Inv

theorem of_update (hmasked : r'.Masked) (hlength : r'.log.length = r'.head) (hbehind : r'.tail ≤ r'.head)
    (hfull : ∀ p, r'.seq (r'.cell p) = p + 1 → p < r'.head ∧ r'.log[p]? = some (r'.data (r'.cell p)))
    (hothers : ∀ j, j ≠ i → ∀ q ∈ pc j, Fits r' q) (hself : ∀ q ∈ o, Fits r' q)
    (hproduced : Once Pc.produces (update pc i o)) (hconsumed : Once Pc.consumes (update pc i o)) :
    Inv r' (update pc i o) :=
  ⟨hmasked, hlength, hbehind, hfull,
    (forall_update_iff pc fun _ o => ∀ q ∈ o, Fits r' q).mpr ⟨hself, hothers⟩, hproduced, hconsumed⟩

section

variable (hinv : Inv r pc)
include hinv

theorem goOn (hself : ∀ q ∈ o, Fits r q) (hproduced : Once Pc.produces (update pc i o))
    (hconsumed : Once Pc.consumes (update pc i o)) : Inv r (update pc i o) :=
  of_update hinv.masked hinv.length hinv.behind hinv.full (fun j _ => hinv.fits j) hself hproduced hconsumed

theorem goTo (hself : Fits r q) (hp : q.produces = none) (hc : q.consumes = none) :
    Inv r (update pc i (some q)) := by
  refine hinv.goOn (fun q' hq' => Option.some.inj hq' ▸ hself) (hinv.produced.update fun q' hq' p h => ?_)
    (hinv.consumed.update fun q' hq' p h => ?_)
  · cases hq'
    exact absurd (hp.symm.trans h) (Option.some_ne_none p).symm
  · cases hq'
    exact absurd (hc.symm.trans h) (Option.some_ne_none p).symm

theorem ends : Inv r (update pc i none) :=
  hinv.goOn (fun _ hq => nomatch hq) (hinv.produced.update fun _ hq => nomatch hq) (hinv.consumed.update fun _ hq => nomatch hq)

theorem claim (hi : pc i = some (.enqCas x r.head)) :
    Inv (r.claim x) (update pc i (some (.enqData x r.head))) := by
  have hfits := hinv.fits i _ hi
  have hlog {p : Nat} {y : α} (hp : r.log[p]? = some y) : (r.log ++ [x])[p]? = some y := by
    rw [List.getElem?_append_left (List.getElem?_eq_some_iff.mp hp).1, hp]
  refine of_update hinv.masked ?_ (Nat.le_succ_of_le hinv.behind) (fun p hp => ?_) (fun j hj q hq => ?_) (fun q hq => ?_) ?_ ?_
  · change (r.log ++ [x]).length = r.head + 1
    rw [List.length_append, hinv.length]
    rfl
  · exact ⟨Nat.lt_succ_of_lt (hinv.full p hp).1, hlog (hinv.full p hp).2⟩
  · have hq := hinv.fits j q hq
    cases q with
    | enqLoad y | deqLoad => trivial
    | enqTest y h => exact Nat.le_succ_of_le hq
    | enqCas y h => exact ⟨Nat.le_succ_of_le hq.1, fun hhead => absurd (hhead ▸ hq.1) (Nat.not_succ_le_self _)⟩
    | enqData y h => exact ⟨Nat.lt_succ_of_lt hq.1, hq.2.1, hlog hq.2.2⟩
    | enqSeq y h => exact ⟨Nat.lt_succ_of_lt hq.1, hq.2.1, hlog hq.2.2.1, hq.2.2.2⟩
    | deqTest t => exact hq
    | deqCas t => exact ⟨hq.1, Nat.lt_succ_of_lt hq.2.1, hq.2.2⟩
    | deqData t => exact hq
    | deqSeq t y => exact ⟨hq.1, hq.2.1, hlog hq.2.2⟩
  · cases hq
    refine ⟨Nat.lt_succ_self _, hfits.2 rfl, ?_⟩
    change (r.log ++ [x])[r.head]? = some x
    rw [← hinv.length, List.getElem?_concat_length]
  · -- all other producers have claimed earlier positions
    refine hinv.produced.update fun q hq p hp j _ q' hq' hp' => ?_
    cases hq
    cases hp
    have hq' := hinv.fits j q' hq'
    cases q' with
    | enqData y h =>
      cases hp'
      exact Nat.lt_irrefl _ hq'.1
    | enqSeq y h =>
      cases hp'
      exact Nat.lt_irrefl _ hq'.1
    | enqLoad y | enqTest y h | enqCas y h | deqLoad | deqTest t | deqCas t | deqData t | deqSeq t y => cases hp'
  · exact hinv.consumed.keep hi fun q hq => Or.inl (Option.some.inj hq ▸ rfl)

theorem take (hi : pc i = some (.deqCas r.tail)) : Inv r.take (update pc i (some (.deqData r.tail))) := by
  have hfits := hinv.fits i _ hi
  refine of_update hinv.masked hinv.length hfits.2.1 hinv.full (fun j hj q hq => ?_) (fun q hq => ?_) ?_ ?_
  · have hq := hinv.fits j q hq
    cases q with
    | enqLoad y | deqLoad => trivial
    | enqTest y h | enqCas y h | enqData y h | enqSeq y h => exact hq
    | deqTest t => exact Nat.le_succ_of_le hq
    | deqCas t => exact ⟨Nat.le_succ_of_le hq.1, hq.2.1, fun htail => absurd (htail ▸ hq.1) (Nat.not_succ_le_self _)⟩
    | deqData t => exact ⟨Nat.lt_succ_of_lt hq.1, hq.2⟩
    | deqSeq t y => exact ⟨Nat.lt_succ_of_lt hq.1, hq.2⟩
  · cases hq
    exact ⟨Nat.lt_succ_self _, hfits.2.2 rfl⟩
  · exact hinv.produced.keep hi fun q hq => Or.inl (Option.some.inj hq ▸ rfl)
  · -- all other consumers have claimed earlier positions
    refine hinv.consumed.update fun q hq p hp j _ q' hq' hp' => ?_
    cases hq
    cases hp
    have hq' := hinv.fits j q' hq'
    cases q' with
    | deqData t =>
      cases hp'
      exact Nat.lt_irrefl _ hq'.1
    | deqSeq t y =>
      cases hp'
      exact Nat.lt_irrefl _ hq'.1
    | enqLoad y | enqTest y h | enqCas y h | enqData y h | enqSeq y h | deqLoad | deqTest t | deqCas t => cases hp'

theorem setData (hi : pc i = some (.enqData x h)) :
    Inv (r.setData h x) (update pc i (some (.enqSeq x h))) := by
  have hfits := hinv.fits i _ hi
  have hdata {p : Nat} (hp : r.cell p ≠ r.cell h) : (r.setData h x).data (r.cell p) = r.data (r.cell p) :=
    update_of_ne hp ..
  refine of_update hinv.masked hinv.length hinv.behind (fun p hp => ?_) (fun j hj q hq => ?_) (fun q hq => ?_) ?_ ?_
  · have hne := cell_ne_of_full hinv.masked hfits.2.1 hp
    refine ⟨(hinv.full p hp).1, ?_⟩
    change r.log[p]? = some ((r.setData h x).data (r.cell p))
    rw [hdata hne]
    exact (hinv.full p hp).2
  · have hq' := hinv.fits j q hq
    cases q with
    | enqSeq y h' =>
      refine ⟨hq'.1, hq'.2.1, hq'.2.2.1, ?_⟩
      have hne : r.cell h' ≠ r.cell h := by
        intro heq
        have hsame : h' = h := by rw [← hq'.2.1, heq, hfits.2.1]
        exact hj (hinv.produced j i h _ hq _ hi (congrArg some hsame) rfl)
      exact (hdata hne).trans hq'.2.2.2
    | enqLoad y | deqLoad => trivial
    | enqTest y h' | enqCas y h' | enqData y h' | deqTest t | deqCas t | deqData t | deqSeq t y => exact hq'
  · cases hq
    exact ⟨hfits.1, hfits.2.1, hfits.2.2, update_self ..⟩
  · exact hinv.produced.keep hi fun q hq => Or.inr (Option.some.inj hq ▸ rfl)
  · exact hinv.consumed.keep hi fun q hq => Or.inl (Option.some.inj hq ▸ rfl)

theorem setSeq_enq (hi : pc i = some (.enqSeq x h)) : Inv (r.setSeq h (h + 1)) (update pc i none) := by
  have hfits := hinv.fits i _ hi
  have hseq {p : Nat} (hp : r.cell p ≠ r.cell h) : (r.setSeq h (h + 1)).seq (r.cell p) = r.seq (r.cell p) :=
    update_of_ne hp ..
  refine of_update hinv.masked hinv.length hinv.behind (fun p hp => ?_) (fun j hj q hq => ?_) (fun q hq => nomatch hq) ?_ ?_
  · by_cases hne : r.cell p = r.cell h
    · have hph : p = h := by
        change (r.setSeq h (h + 1)).seq (r.cell p) = p + 1 at hp
        rw [hne] at hp
        have := (update_self ..).symm.trans hp
        omega
      subst hph
      exact ⟨hfits.1, hfits.2.2.1.trans (congrArg some hfits.2.2.2.symm)⟩
    · exact hinv.full p ((hseq hne).symm.trans hp)
  · have hq' := hinv.fits j q hq
    cases q with
    | enqLoad y | deqLoad => trivial
    | enqTest y h' | deqTest t => exact hq'
    | enqCas y h' =>
      refine ⟨hq'.1, fun hhead => (hseq fun heq => ?_).trans (hq'.2 hhead)⟩
      have hfree := hq'.2 hhead
      rw [heq, hfits.2.1] at hfree
      exact Nat.lt_irrefl _ (hfree ▸ hhead ▸ hfits.1)
    | enqData y h' =>
      refine ⟨hq'.1, (hseq fun heq => ?_).trans hq'.2.1, hq'.2.2⟩
      have hsame : h' = h := by rw [← hq'.2.1, heq, hfits.2.1]
      exact hj (hinv.produced j i h _ hq _ hi (congrArg some hsame) rfl)
    | enqSeq y h' =>
      refine ⟨hq'.1, (hseq fun heq => ?_).trans hq'.2.1, hq'.2.2⟩
      have hsame : h' = h := by rw [← hq'.2.1, heq, hfits.2.1]
      exact hj (hinv.produced j i h _ hq _ hi (congrArg some hsame) rfl)
    | deqCas t =>
      exact ⟨hq'.1, hq'.2.1, fun htail =>
        (hseq (cell_ne_of_full hinv.masked hfits.2.1 (hq'.2.2 htail))).trans (hq'.2.2 htail)⟩
    | deqData t => exact ⟨hq'.1, (hseq (cell_ne_of_full hinv.masked hfits.2.1 hq'.2)).trans hq'.2⟩
    | deqSeq t y => exact ⟨hq'.1, (hseq (cell_ne_of_full hinv.masked hfits.2.1 hq'.2.1)).trans hq'.2.1, hq'.2.2⟩
  · exact hinv.produced.keep hi fun q hq => nomatch hq
  · exact hinv.consumed.keep hi fun q hq => nomatch hq

theorem setSeq_deq (hi : pc i = some (.deqSeq t x)) :
    Inv (r.setSeq t (t + r.mask + 1)) (update pc i none) := by
  have hfits := hinv.fits i _ hi
  have hseq {p : Nat} (hp : r.cell p ≠ r.cell t) : (r.setSeq t (t + r.mask + 1)).seq (r.cell p) = r.seq (r.cell p) :=
    update_of_ne hp ..
  refine of_update hinv.masked hinv.length hinv.behind (fun p hp => ?_) (fun j hj q hq => ?_) (fun q hq => nomatch hq) ?_ ?_
  · by_cases hne : r.cell p = r.cell t
    · have hpt : p + 1 = t + r.mask + 1 := by
        change (r.setSeq t (t + r.mask + 1)).seq (r.cell p) = p + 1 at hp
        rw [hne] at hp
        exact ((update_self ..).symm.trans hp).symm
      have hround := hinv.masked.cell_round t
      rw [← hpt, ← hne] at hround
      exact absurd hround (hinv.masked.cell_succ_ne p)
    · exact hinv.full p ((hseq hne).symm.trans hp)
  · have hq' := hinv.fits j q hq
    cases q with
    | enqLoad y | deqLoad => trivial
    | enqTest y h' | deqTest t => exact hq'
    | enqCas y h' =>
      refine ⟨hq'.1, fun hhead => (hseq fun heq => ?_).trans (hq'.2 hhead)⟩
      exact cell_ne_of_full hinv.masked (hq'.2 hhead) hfits.2.1 heq.symm
    | enqData y h' =>
      exact ⟨hq'.1, (hseq fun heq => cell_ne_of_full hinv.masked hq'.2.1 hfits.2.1 heq.symm).trans hq'.2.1, hq'.2.2⟩
    | enqSeq y h' =>
      exact ⟨hq'.1, (hseq fun heq => cell_ne_of_full hinv.masked hq'.2.1 hfits.2.1 heq.symm).trans hq'.2.1, hq'.2.2⟩
    | deqCas t' =>
      refine ⟨hq'.1, hq'.2.1, fun htail => (hseq fun heq => ?_).trans (hq'.2.2 htail)⟩
      have hfull := hq'.2.2 htail
      rw [heq, hfits.2.1, ← show r.tail = t' from htail] at hfull
      have := hfits.1
      omega
    | deqData t' =>
      refine ⟨hq'.1, (hseq fun heq => ?_).trans hq'.2⟩
      have hsame : t' = t := by
        have hfull := hq'.2
        rw [heq, hfits.2.1] at hfull
        omega
      exact hj (hinv.consumed j i t _ hq _ hi (congrArg some hsame) rfl)
    | deqSeq t' y =>
      refine ⟨hq'.1, (hseq fun heq => ?_).trans hq'.2.1, hq'.2.2⟩
      have hsame : t' = t := by
        have hfull := hq'.2.1
        rw [heq, hfits.2.1] at hfull
        omega
      exact hj (hinv.consumed j i t _ hq _ hi (congrArg some hsame) rfl)
  · exact hinv.produced.keep hi fun q hq => nomatch hq
  · exact hinv.consumed.keep hi fun q hq => nomatch hq

theorem step {fails : Bool} (hi : pc i = some q) :
    Inv (r.step fails q).1 (update pc i (r.step fails q).2.pc?) := by
  have hfits := hinv.fits i q hi
  cases q with
  | enqLoad x => exact hinv.goTo (Nat.le_refl r.head) rfl rfl
  | enqTest x h =>
    rw [Queue.step]
    split
    · rename_i hfree
      exact hinv.goTo ⟨hfits, fun _ => hfree⟩ rfl rfl
    · split
      · exact hinv.ends
      · exact hinv.goTo trivial rfl rfl
  | enqCas x h =>
    rw [Queue.step]
    split
    · rename_i hhead
      obtain ⟨rfl, -⟩ := hhead
      exact hinv.claim hi
    · exact hinv.goTo (Nat.le_refl r.head) rfl rfl
  | enqData x h => exact hinv.setData hi
  | enqSeq x h => exact hinv.setSeq_enq hi
  | deqLoad => exact hinv.goTo (Nat.le_refl r.tail) rfl rfl
  | deqTest t =>
    rw [Queue.step]
    split
    · rename_i hfull
      exact hinv.goTo ⟨hfits, (hinv.full t hfull).1, fun _ => hfull⟩ rfl rfl
    · split
      · exact hinv.ends
      · exact hinv.goTo trivial rfl rfl
  | deqCas t =>
    rw [Queue.step]
    split
    · rename_i htail
      obtain ⟨rfl, -⟩ := htail
      exact hinv.take hi
    · exact hinv.goTo (Nat.le_refl r.tail) rfl rfl
  | deqData t =>
    refine hinv.goOn (fun q hq => ?_) ?_ ?_
    · cases hq
      exact ⟨hfits.1, hfits.2, (hinv.full t hfits.2).2⟩
    · exact hinv.produced.keep hi fun q hq => Or.inl (Option.some.inj hq ▸ rfl)
    · exact hinv.consumed.keep hi fun q hq => Or.inr (Option.some.inj hq ▸ rfl)
  | deqSeq t x => exact hinv.setSeq_deq hi

end

end Inv

end Comanche.Lib.MpmcRing
