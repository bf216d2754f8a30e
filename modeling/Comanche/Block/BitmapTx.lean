import Comanche.Block.BitmapIkv

/-!
# Regions of the transactional bitmap

`bitmap_tx_find_free_region` and `bitmap_tx_release_region`.
-/

namespace Comanche.Block.BitmapTx

open Lib.Bitmap

/-- `__reg_op`. -/
def regOp := BitmapIkv.regOp

/-- The loop over the offsets, with a bound on the number of rounds. -/
def scan (w : Words) (nbits order posOrigin : Nat) : Nat → Nat → Option Nat × Words
  | 0, _ => (none, w)
  | n + 1, offset =>
    if offset + 2 ^ order ≤ nbits then
      let pos := (offset + posOrigin) % nbits
      if (regOp w pos order .isFree).1 = 0 then scan w nbits order posOrigin n (offset + 2 ^ order)
      else (some pos, (regOp w pos order .alloc).2)
    else (none, w)

/-- The position is returned as an `int`. With an order of 31 `1 << order` is negative, and what is done
with it is not defined. -/
def findFreeRegion (w : Words) (nbits order random : Nat) : Option (Int × Words) :=
  if 31 ≤ order then none
  else
    let step := 2 ^ order
    let ntabs := nbits / step % 2 ^ 32
    let (found, w') := scan w nbits order (random % ntabs * step) nbits 0
    some (found.elim (-1) fun pos => if pos < 2 ^ 31 then (pos : Int) else pos - 2 ^ 32, w')

def releaseRegion (w : Words) (pos order : Nat) : Words := (regOp w pos order .release).2

def Clear (w : Words) (pos order : Nat) : Prop := ∀ b, pos ≤ b → b < pos + 2 ^ order → bit w b = false

/-- Every aligned region has a bit that is set. -/
def Full (w : Words) (nbits order : Nat) : Prop :=
  ∀ a < nbits / 2 ^ order, ¬ Clear w (a * 2 ^ order) order

structure Takes (w w' : Words) (nbits order pos : Nat) : Prop where
  inside : pos + 2 ^ order ≤ nbits
  clear : Clear w pos order
  set : ∀ b, bit w' b = true ↔ bit w b = true ∨ (pos ≤ b ∧ b < pos + 2 ^ order)
  restores : ∀ b, bit (releaseRegion w' pos order) b = bit w b

def Exact (w : Words) (nbits order random : Nat) : Prop :=
  match findFreeRegion w nbits order random with
  | none => False
  | some (ret, w') =>
    (ret = -1 ∧ w' = w ∧ Full w nbits order) ∨
      ∃ pos : Nat, ret = pos ∧ Takes w w' nbits order pos ∧ ¬ Full w nbits order

variable {w : Words} {nbits order random pos origin n t : Nat}

theorem busy_iff (haligned : 2 ^ order ∣ pos) : (regOp w pos order .isFree).1 = 0 ↔ ¬ Clear w pos order :=
  BitmapIkv.regOp_isFree_iff haligned

theorem takes_alloc (haligned : 2 ^ order ∣ pos) (hinside : pos + 2 ^ order ≤ nbits) (hclear : Clear w pos order) :
    Takes w (regOp w pos order .alloc).2 nbits order pos := by
  refine ⟨hinside, hclear, BitmapIkv.bit_regOp_alloc haligned, fun b => ?_⟩
  rw [Bool.eq_iff_iff]
  refine (BitmapIkv.bit_regOp_release haligned b).trans ?_
  change bit (BitmapIkv.regOp w pos order .alloc).2 b = true ∧ _ ↔ _
  rw [BitmapIkv.bit_regOp_alloc haligned]
  constructor
  · rintro ⟨hset, hout⟩
    exact hset.resolve_right hout
  · intro hset
    refine ⟨Or.inl hset, fun hin => ?_⟩
    rw [hclear b hin.1 hin.2] at hset
    cases hset

def place (nbits order origin t : Nat) : Nat := (t * 2 ^ order + origin) % nbits

def Busy (w : Words) (nbits order origin t : Nat) : Prop :=
  (regOp w (place nbits order origin t) order .isFree).1 = 0

/-- The first position that is free ends the scan. -/
theorem scan_cases (w : Words) (origin t : Nat) (hn : nbits ≤ t * 2 ^ order + n) :
    (∃ t₁ ≥ t, (t₁ + 1) * 2 ^ order ≤ nbits ∧ ¬ Busy w nbits order origin t₁ ∧
      (∀ t' ≥ t, t' < t₁ → Busy w nbits order origin t') ∧
      scan w nbits order origin n (t * 2 ^ order) = (some (place nbits order origin t₁),
        (regOp w (place nbits order origin t₁) order .alloc).2)) ∨
    (∀ t' ≥ t, (t' + 1) * 2 ^ order ≤ nbits → Busy w nbits order origin t') ∧
      scan w nbits order origin n (t * 2 ^ order) = (none, w) := by
  induction n generalizing t with
  | zero =>
    refine Or.inr ⟨fun t' ht' hin => ?_, rfl⟩
    have hstep := Nat.two_pow_pos order
    have hle := Nat.mul_le_mul_right (2 ^ order) ht'
    rw [Nat.succ_mul] at hin
    omega
  | succ n ih =>
    have hstep := Nat.two_pow_pos order
    unfold scan
    dsimp only
    rw [← Nat.succ_mul]
    split_ifs with hin hbusy
    · rcases ih (t := t + 1) (by rw [Nat.succ_mul]; omega) with ⟨t₁, ht₁, hend, hfree, hfirst, heq⟩ | ⟨hall, heq⟩
      · refine Or.inl ⟨t₁, by omega, hend, hfree, fun t' ht' hlt => ?_, heq⟩
        obtain rfl | ht' := Nat.eq_or_lt_of_le ht'
        · exact hbusy
        · exact hfirst t' ht' hlt
      · refine Or.inr ⟨fun t' ht' hend => ?_, heq⟩
        obtain rfl | ht' := Nat.eq_or_lt_of_le ht'
        · exact hbusy
        · exact hall t' ht' hend
    · exact Or.inl ⟨t, le_rfl, hin, hbusy, fun t' ht' hlt => absurd hlt (Nat.not_lt.mpr ht'), rfl⟩
    · refine Or.inr ⟨fun t' ht' hend => absurd ?_ hin, rfl⟩
      exact (Nat.mul_le_mul_right _ (Nat.succ_le_succ ht')).trans hend

theorem scan_first (hend : (t + 1) * 2 ^ order ≤ nbits) (hfree : ¬ Busy w nbits order origin t)
    (hfirst : ∀ t' < t, Busy w nbits order origin t') :
    scan w nbits order origin nbits 0 = (some (place nbits order origin t),
      (regOp w (place nbits order origin t) order .alloc).2) := by
  have hcases := scan_cases w origin 0 (show nbits ≤ 0 * 2 ^ order + nbits by omega)
  rw [Nat.zero_mul] at hcases
  rcases hcases with ⟨t₁, -, -, hfree₁, hfirst₁, heq⟩ | ⟨hall, -⟩
  · obtain hlt | rfl | hlt := Nat.lt_trichotomy t t₁
    · exact absurd (hfirst₁ t (Nat.zero_le t) hlt) hfree
    · exact heq
    · exact absurd (hfirst t₁ hlt) hfree₁
  · exact absurd (hall t (Nat.zero_le t) hend) hfree

theorem place_eq {k : Nat} (hfits : 2 ^ order ∣ nbits ∨ nbits / 2 ^ order = 1) (hk : k < nbits / 2 ^ order)
    (ht : t < nbits / 2 ^ order) : place nbits order (k * 2 ^ order) t = (t + k) % (nbits / 2 ^ order) * 2 ^ order := by
  unfold place
  rw [← Nat.add_mul]
  obtain hdvd | hone := hfits
  · rw [← Nat.mul_mod_mul_right, Nat.div_mul_cancel hdvd]
  · obtain rfl : t = 0 := by omega
    obtain rfl : k = 0 := by omega
    simp

theorem tabs_eq (hint : nbits / 2 ^ order * 2 ^ order < 2 ^ 32) : nbits / 2 ^ order % 2 ^ 32 = nbits / 2 ^ order :=
  Nat.mod_eq_of_lt ((Nat.le_mul_of_pos_right _ (Nat.two_pow_pos order)).trans_lt hint)

theorem exact_of_fits (horder : order < 31) (hpos : 2 ^ order ≤ nbits) (hint : nbits / 2 ^ order * 2 ^ order ≤ 2 ^ 31)
    (hfits : 2 ^ order ∣ nbits ∨ nbits / 2 ^ order = 1) : Exact w nbits order random := by
  have hstep := Nat.two_pow_pos order
  have htabs : 0 < nbits / 2 ^ order := Nat.div_pos hpos hstep
  have hk : random % (nbits / 2 ^ order) < nbits / 2 ^ order := Nat.mod_lt _ htabs
  have hlt {a : Nat} (ha : a < nbits / 2 ^ order) : (a + 1) * 2 ^ order ≤ nbits :=
    (Nat.le_div_iff_mul_le hstep).mp ha
  unfold Exact findFreeRegion
  dsimp only
  rw [if_neg (Nat.not_le.mpr horder), tabs_eq (hint.trans_lt (by decide))]
  generalize random % (nbits / 2 ^ order) = k at hk
  have hcases := scan_cases w (k * 2 ^ order) 0 (show nbits ≤ 0 * 2 ^ order + nbits by omega)
  rw [Nat.zero_mul] at hcases
  rcases hcases with ⟨t, -, hend, hfree, -, heq⟩ | ⟨hall, heq⟩
  · have ht : t < nbits / 2 ^ order := (Nat.le_div_iff_mul_le hstep).mpr hend
    have hplace := place_eq hfits hk ht
    have ha : (t + k) % (nbits / 2 ^ order) < nbits / 2 ^ order := Nat.mod_lt _ htabs
    unfold Busy at hfree
    rw [hplace] at hfree heq
    rw [heq]
    generalize (t + k) % (nbits / 2 ^ order) = a at ha hfree
    have hclear : Clear w (a * 2 ^ order) order :=
      not_not.mp (mt (busy_iff (Nat.dvd_mul_left _ _)).mpr hfree)
    have hin := hlt ha
    have hsmall : a * 2 ^ order < 2 ^ 31 := ((Nat.mul_lt_mul_right hstep).mpr ha).trans_le hint
    rw [Nat.succ_mul] at hin
    refine Or.inr ⟨a * 2 ^ order, if_pos hsmall, takes_alloc (Nat.dvd_mul_left _ _) hin hclear, ?_⟩
    exact fun hfull => hfull a ha hclear
  · rw [heq]
    refine Or.inl ⟨rfl, rfl, fun a ha => ?_⟩
    have ht : (a + (nbits / 2 ^ order - k)) % (nbits / 2 ^ order) < nbits / 2 ^ order := Nat.mod_lt _ htabs
    have hbusy := hall _ (Nat.zero_le _) (hlt ht)
    unfold Busy at hbusy
    rw [place_eq hfits hk ht, Nat.mod_add_mod, Nat.add_assoc, Nat.sub_add_cancel hk.le, Nat.add_mod_right,
      Nat.mod_eq_of_lt ha] at hbusy
    exact (busy_iff (Nat.dvd_mul_left _ _)).mp hbusy

theorem exact_found (random t : Nat) (horder : order < 31) (hn : nbits < 2 ^ 32) (hrandom : random < nbits / 2 ^ order)
    (hend : (t + 1) * 2 ^ order ≤ nbits) (hfree : ¬ Busy w nbits order (random * 2 ^ order) t)
    (hfirst : ∀ t' < t, Busy w nbits order (random * 2 ^ order) t') (h : Exact w nbits order random) :
    place nbits order (random * 2 ^ order) t < 2 ^ 31 ∧ place nbits order (random * 2 ^ order) t + 2 ^ order ≤ nbits := by
  have hplace : place nbits order (random * 2 ^ order) t < nbits :=
    Nat.mod_lt _ ((Nat.mul_pos (Nat.succ_pos t) (Nat.two_pow_pos order)).trans_le hend)
  unfold Exact findFreeRegion at h
  dsimp only at h
  rw [if_neg (Nat.not_le.mpr horder), tabs_eq ((Nat.div_mul_le_self _ _).trans_lt hn), Nat.mod_eq_of_lt hrandom,
    scan_first hend hfree hfirst] at h
  dsimp only [Option.elim_some] at h
  rcases h with ⟨hret, -⟩ | ⟨pos, hret, htakes, -⟩
  · split at hret <;> omega
  · have hinside := htakes.inside
    split at hret <;> omega

theorem bit_zero (b : Nat) : bit (fun _ => 0#64) b = false := by simp [bit]

/-- The search is exact for every bitmap and every origin just if the bitmap is a number of whole regions, or
less than two, and all positions are positive as an `int`. -/
theorem exact_iff_fits (hn : nbits < 2 ^ 32) (hpos : 2 ^ order ≤ nbits) :
    (∀ w random, Exact w nbits order random) ↔ order < 31 ∧ nbits / 2 ^ order * 2 ^ order ≤ 2 ^ 31 ∧
      (2 ^ order ∣ nbits ∨ nbits / 2 ^ order = 1) := by
  have hstep := Nat.two_pow_pos order
  have htabs : 0 < nbits / 2 ^ order := Nat.div_pos hpos hstep
  have hdiv := Nat.div_mul_le_self nbits (2 ^ order)
  refine ⟨fun h => ?_, fun h w random => exact_of_fits h.1 hpos h.2.1 h.2.2⟩
  have horder : order < 31 := by
    by_contra hlarge
    have hzero := h (fun _ => 0#64) 0
    rwa [Exact, findFreeRegion, if_pos (Nat.not_lt.mp hlarge)] at hzero
  refine ⟨horder, ?_, ?_⟩
  · by_contra hlarge
    -- from the tab at `2 ^ 31` on, in an empty bitmap
    have htab : 2 ^ (31 - order) * 2 ^ order = 2 ^ 31 := by
      rw [← Nat.pow_add]
      congr 1
      omega
    have htab' : 2 ^ (31 - order) < nbits / 2 ^ order :=
      Nat.lt_of_mul_lt_mul_right (htab.symm ▸ Nat.not_le.mp hlarge : _ * 2 ^ order < _)
    have hplace : place nbits order (2 ^ (31 - order) * 2 ^ order) 0 = 2 ^ 31 := by
      unfold place
      rw [Nat.zero_mul, Nat.zero_add, htab]
      exact Nat.mod_eq_of_lt (by omega)
    refine absurd (exact_found _ 0 horder hn htab' (by omega) ?_ nofun (h (fun _ => 0#64) _)).1 (by omega)
    unfold Busy
    rw [hplace, busy_iff (htab ▸ Nat.dvd_mul_left _ _)]
    exact not_not.mpr fun b _ _ => bit_zero b
  · by_contra hodd
    obtain ⟨hdvd, hone⟩ := not_or.mp hodd
    -- the last tab is taken, and the next position is that behind all tabs
    obtain ⟨k, hk⟩ : ∃ k, nbits / 2 ^ order = k + 2 := Nat.exists_eq_add_of_le' (by omega)
    have hrest : nbits / 2 ^ order * 2 ^ order < nbits :=
      lt_of_le_of_ne hdiv fun heq => hdvd ⟨_, (Nat.mul_comm _ _).trans heq |>.symm⟩
    rw [hk] at hrest hdiv
    have hsplit : (k + 2) * 2 ^ order = (k + 1) * 2 ^ order + 2 ^ order := Nat.succ_mul _ _
    have hplace : place nbits order ((k + 1) * 2 ^ order) 0 = (k + 1) * 2 ^ order := by
      unfold place
      rw [Nat.zero_mul, Nat.zero_add]
      exact Nat.mod_eq_of_lt (by omega)
    have hplace' : place nbits order ((k + 1) * 2 ^ order) 1 = (k + 2) * 2 ^ order := by
      unfold place
      rw [Nat.one_mul, Nat.add_comm, ← hsplit]
      exact Nat.mod_eq_of_lt hrest
    have hbits (b : Nat) : bit (regOp (fun _ => 0#64) ((k + 1) * 2 ^ order) order .alloc).2 b = true ↔ _ :=
      BitmapIkv.bit_regOp_alloc (Nat.dvd_mul_left _ _) b
    refine absurd (exact_found (k + 1) 1 horder hn (by omega) ?_ ?_ ?_
      (h (regOp (fun _ => 0#64) ((k + 1) * 2 ^ order) order .alloc).2 _)).2 ?_
    · have := Nat.zero_le (k * 2 ^ order)
      rw [Nat.add_mul] at hsplit hrest
      omega
    · unfold Busy
      rw [hplace', busy_iff (Nat.dvd_mul_left _ _)]
      refine not_not.mpr fun b hb _ => Bool.eq_false_iff.mpr fun hset => ?_
      rcases (hbits b).mp hset with hset | hin
      · exact absurd (hset.symm.trans (bit_zero b)) nofun
      · omega
    · intro t' ht'
      obtain rfl : t' = 0 := by omega
      unfold Busy
      rw [hplace, busy_iff (Nat.dvd_mul_left _ _)]
      intro hclear
      have hset := hclear _ le_rfl (Nat.lt_add_of_pos_right hstep)
      rw [Bool.eq_false_iff] at hset
      exact hset ((hbits _).mpr (Or.inr ⟨le_rfl, Nat.lt_add_of_pos_right hstep⟩))
    · rw [hplace']
      have hlt := Nat.lt_succ_self (nbits / 2 ^ order)
      have hend := (Nat.div_lt_iff_lt_mul hstep).mp hlt
      rw [Nat.succ_mul, hk] at hend
      omega

theorem exact_sixteen : Exact (fun _ => 0#64) 16 2 7 :=
  (exact_iff_fits (by decide) (by decide)).mpr (by decide) _ _

/-- Five bits, of which the second region of two is taken: the position 4 is returned. -/
theorem not_exact_five : ¬ Exact (regOp (fun _ => 0#64) 2 1 .alloc).2 5 1 1 := by
  rintro (⟨hret, -⟩ | ⟨pos, hret, htakes, -⟩)
  · exact absurd hret (by decide +kernel)
  · obtain rfl : pos = 4 := Int.ofNat.inj (hret.symm.trans (by decide +kernel))
    exact absurd htakes.inside (by decide)

end Comanche.Block.BitmapTx
