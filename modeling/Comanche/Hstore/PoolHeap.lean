import Mathlib.Data.Nat.Factorization.Basic

/-!
# The heap of a new pool

`hstore_nupm::pool_create` and `heap_rc_shared::best_aligned`: how much of the memory of a region the heap
gets.
-/

namespace Comanche.Hstore.PoolHeap

/-- The first loop of `best_aligned`, with a bound on the number of rounds. -/
def removeOnes (begin : Nat) : Nat → Nat → Nat
  | 0, cursor => cursor
  | n + 1, cursor =>
    if begin ≤ cursor &&& (cursor - 1) then removeOnes begin n (cursor &&& (cursor - 1)) else cursor

/-- The second loop, for at most `n` rounds. -/
def moveBack (begin limit need : Nat) : Nat → Nat → Nat → Option Nat
  | 0, _, _ => none
  | n + 1, bit, cursor =>
    if limit - cursor < need then
      moveBack begin limit need n (bit / 2) (if begin ≤ cursor - bit then cursor - bit else cursor)
    else some cursor

def bestAligned (begin sz : Nat) : Option Nat :=
  let cursor := removeOnes begin (begin + sz - 1) (begin + sz - 1)
  moveBack begin (begin + sz) (sz * 3 % 2 ^ 64 / 4) 65 ((cursor &&& (2 ^ 64 - cursor)) / 2) cursor

/-- The size that is asked of `create_region`. That with the header and the four thirds is overwritten. -/
def poolSize (size : Nat) : Nat := ((size - 1) / 2 ^ 30 + 1) * 2 ^ 30

/-- The length of `_pool0`, for a region at `pop` with a header of this size. -/
def heapSize (pop header size : Nat) : Option Nat :=
  (bestAligned (pop + header) (size - header)).map (pop + size - ·)

variable {begin limit need sz c n k : Nat}

theorem testBit_two_mul_add_one (m i : Nat) : (2 * m + 1).testBit i = (decide (i = 0) || (2 * m).testBit i) := by
  cases i with
  | zero => simp
  | succ i => simp [Nat.testBit_succ, Nat.mul_add_div]

theorem exists_lowBit (hc : c ≠ 0) (hlt : c < 2 ^ 64) : ∃ k m, c = 2 ^ k * (2 * m + 1) ∧
    c &&& (c - 1) = 2 ^ k * (2 * m) ∧ c &&& (2 ^ 64 - c) = 2 ^ k := by
  obtain ⟨k, _, ⟨m, rfl⟩, rfl⟩ := Nat.exists_eq_two_pow_mul_odd hc
  refine ⟨k, m, rfl, Nat.eq_of_testBit_eq fun i => ?_, Nat.eq_of_testBit_eq fun i => ?_⟩
  · have hpred : 2 ^ k * (2 * m + 1) - 1 = 2 ^ k * (2 * m) + (2 ^ k - 1) := by
      have := Nat.two_pow_pos k
      rw [Nat.mul_add]
      omega
    rw [hpred, Nat.testBit_and, Nat.testBit_two_pow_mul, Nat.testBit_two_pow_mul, Nat.testBit_two_pow_mul_add _ (by
      have := Nat.two_pow_pos k
      omega), testBit_two_mul_add_one]
    by_cases hi : i < k
    · simp [hi, Nat.not_le.mpr hi]
    · cases (2 * m).testBit (i - k) <;> simp [hi, Nat.not_lt.mp hi]
  · have hk : k < 64 := (Nat.pow_lt_pow_iff_right (by decide)).mp
      (Nat.lt_of_le_of_lt (Nat.le_mul_of_pos_right _ (Nat.succ_pos _)) hlt)
    have hsplit : 2 ^ 64 = 2 ^ k * 2 ^ (64 - k) := by rw [← Nat.pow_add, Nat.add_sub_cancel' hk.le]
    have hm : 2 * m + 1 < 2 ^ (64 - k) := Nat.lt_of_mul_lt_mul_left (hsplit ▸ hlt)
    rw [hsplit, ← Nat.mul_sub, Nat.testBit_and, Nat.testBit_two_pow_mul, Nat.testBit_two_pow_mul,
      Nat.testBit_two_pow_sub_succ (by omega), testBit_two_mul_add_one, Nat.testBit_two_pow]
    rcases Nat.lt_trichotomy i k with hi | rfl | hi
    · simp [Nat.not_le.mpr hi, hi.ne']
    · simp [hk]
    · have hi' : i - k ≠ 0 := by omega
      cases (2 * m).testBit (i - k) <;> simp [hi.ne, hi']

theorem two_pow_dvd {a m : Nat} (h : 2 ^ a ∣ 2 ^ k * (2 * m + 1)) : 2 ^ a ∣ 2 ^ k :=
  Nat.Coprime.dvd_of_dvd_mul_right (Nat.Coprime.pow_left a (Nat.coprime_two_left.mpr ⟨m, rfl⟩)) h

/-- The cursor that is left has the largest power of two of all addresses in the range. -/
theorem removeOnes_spec {cursor a : Nat} (last : Nat) (hbegin : 0 < begin) (hlast : last < 2 ^ 64) (hlo : begin ≤ cursor)
    (hhi : cursor ≤ last) (hn : cursor ≤ n) (ha : 2 ^ a ∣ cursor) (hnext : last < cursor + 2 ^ a) :
    ∃ k, begin ≤ removeOnes begin n cursor ∧ 2 ^ k ∣ removeOnes begin n cursor ∧ removeOnes begin n cursor < begin + 2 ^ k ∧
      removeOnes begin n cursor &&& (2 ^ 64 - removeOnes begin n cursor) = 2 ^ k ∧ k < 64 ∧
      removeOnes begin n cursor ≤ last ∧ removeOnes begin n cursor &&& (removeOnes begin n cursor - 1) < begin ∧
      ∀ j q, 2 ^ j ∣ q → begin ≤ q → q ≤ last → 2 ^ j ∣ removeOnes begin n cursor := by
  induction n generalizing cursor a with
  | zero => omega
  | succ n ih =>
    obtain ⟨k, m, hc, hand, hlow⟩ := exists_lowBit (c := cursor) (by omega) (by omega)
    have hak := Nat.le_of_dvd (Nat.two_pow_pos k) (two_pow_dvd (hc ▸ ha))
    have hsum : cursor = 2 ^ k * (2 * m) + 2 ^ k := by rw [hc, Nat.mul_add, Nat.mul_one]
    have hdvd : 2 ^ (k + 1) ∣ 2 ^ k * (2 * m) := ⟨m, by rw [Nat.pow_succ, Nat.mul_assoc]⟩
    have hpos := Nat.two_pow_pos k
    unfold removeOnes
    rw [hand]
    split
    case isTrue hbefore =>
      refine ih hbefore (by omega) (by omega) hdvd ?_
      rw [Nat.pow_succ]
      omega
    case isFalse hbefore =>
      have hk : k < 64 := (Nat.pow_lt_pow_iff_right (by decide)).mp (show 2 ^ k < 2 ^ 64 by omega)
      refine ⟨k, hlo, ⟨2 * m + 1, hc⟩, by omega, hlow, hk, hhi, by omega, fun j q hq hlo' hhi' => ?_⟩
      by_cases hj : j ≤ k
      · exact (Nat.pow_dvd_pow 2 hj).trans ⟨2 * m + 1, hc⟩
      · have hlt : q < 2 ^ k * (2 * m) + 2 ^ (k + 1) := by
          rw [Nat.pow_succ]
          omega
        have := Nat.le_of_lt_add_of_dvd hlt ((Nat.pow_dvd_pow 2 (by omega)).trans hq) hdvd
        omega

/-- The cursor moves back to the least multiple of the largest power of two that leaves enough. -/
theorem moveBack_spec (hbegin : 0 < begin) (hneed : need ≤ limit - begin) {cursor : Nat} (hn : k < n)
    (hdvd : 2 ^ k ∣ cursor) (hlo : begin ≤ cursor) (hhi : cursor < begin + 2 ^ k)
    (hall : ∀ j q, 2 ^ j ∣ q → begin ≤ q → need ≤ limit - q → 2 ^ j ∣ cursor) :
    ∃ c, moveBack begin limit need n (2 ^ k / 2) cursor = some c ∧ begin ≤ c ∧ need ≤ limit - c ∧
      ∀ j q, 2 ^ j ∣ q → begin ≤ q → need ≤ limit - q → 2 ^ j ∣ c := by
  induction k generalizing n cursor with
  | zero =>
    obtain ⟨n, rfl⟩ := Nat.exists_eq_add_of_lt hn
    unfold moveBack
    rw [if_neg (by omega)]
    exact ⟨cursor, rfl, hlo, by omega, hall⟩
  | succ k ih =>
    obtain ⟨n, rfl⟩ : ∃ n', n = n' + 1 := ⟨n - 1, by omega⟩
    have hhalf : 2 ^ (k + 1) / 2 = 2 ^ k := by rw [Nat.pow_succ, Nat.mul_div_cancel _ (by decide)]
    unfold moveBack
    rw [hhalf]
    by_cases hshort : limit - cursor < need
    · rw [if_pos hshort]
      have hk : 2 ^ k ∣ cursor := (Nat.pow_dvd_pow 2 (Nat.le_succ k)).trans hdvd
      have hk' : 2 ^ k ∣ if begin ≤ cursor - 2 ^ k then cursor - 2 ^ k else cursor := by
        split
        · exact Nat.dvd_sub hk dvd_rfl
        · exact hk
      rw [Nat.pow_succ] at hhi
      refine ih (by omega) hk' (by split <;> omega) (by split <;> omega) fun j q hq hlo' hq' => ?_
      by_cases hj : j ≤ k
      · exact (Nat.pow_dvd_pow 2 hj).trans hk'
      · -- the cursor is the least multiple, so that all larger ones leave less
        have hlt : cursor < q + 2 ^ (k + 1) := by
          rw [Nat.pow_succ]
          omega
        have := Nat.le_of_lt_add_of_dvd hlt hdvd ((Nat.pow_dvd_pow 2 (by omega)).trans hq)
        omega
    · rw [if_neg hshort]
      exact ⟨cursor, rfl, hlo, by omega, hall⟩

theorem bestAligned_spec (begin sz : Nat) (hbegin : 0 < begin) (hsz : 2 ≤ sz) (hlt : begin + sz ≤ 2 ^ 64)
    (hthree : sz * 3 < 2 ^ 64) : ∃ c, bestAligned begin sz = some c ∧ begin ≤ c ∧ sz * 3 / 4 ≤ begin + sz - c ∧
      ∀ j q, 2 ^ j ∣ q → begin ≤ q → sz * 3 / 4 ≤ begin + sz - q → 2 ^ j ∣ c := by
  obtain ⟨k, hlo, hdvd, hhi, hlow, hk, -, -, hall⟩ := removeOnes_spec (n := begin + sz - 1) (a := 0)
    (begin + sz - 1) hbegin (by omega) (show begin ≤ begin + sz - 1 by omega) le_rfl le_rfl (one_dvd _)
    (Nat.lt_succ_self _)
  unfold bestAligned
  dsimp only
  rw [hlow, Nat.mod_eq_of_lt hthree]
  exact moveBack_spec hbegin (by omega) (by omega) hdvd hlo hhi fun j q hq hq' hneed => hall j q hq hq' (by omega)

theorem moveBack_le {bit cursor : Nat} (hc : moveBack begin limit need n bit cursor = some c) : c ≤ cursor := by
  induction n generalizing bit cursor with
  | zero => cases hc
  | succ n ih =>
    unfold moveBack at hc
    split at hc
    · have hle := ih hc
      split at hle <;> omega
    · exact (Option.some.inj hc).ge

/-- An address in the range that is divisible by every power of two that divides one of them. -/
def IsBestAligned (begin sz q : Nat) : Prop :=
  begin ≤ q ∧ q < begin + sz ∧ ∀ j q', begin ≤ q' → q' < begin + sz → 2 ^ j ∣ q' → 2 ^ j ∣ q

/-- Both loops end, the first since the next cursor would precede the range. -/
theorem bestAligned_usable (begin sz : Nat) (hbegin : 0 < begin) (hsz : 0 < sz) (hend : begin + sz < 2 ^ 64)
    (hthree : 3 * sz < 2 ^ 64) :
    (∃ q, q = removeOnes begin (begin + sz - 1) (begin + sz - 1) ∧ q &&& (q - 1) < begin) ∧
      ∃ p, bestAligned begin sz = some p ∧ begin ≤ p ∧ p < begin + sz ∧ 3 * sz / 4 ≤ begin + sz - p ∧
        (∃ q, IsBestAligned begin sz q) ∧ ∀ q, IsBestAligned begin sz q → p ≤ q := by
  obtain ⟨k, hlo, hdvd, hhi, hlow, hk, hlast, hexit, hall⟩ := removeOnes_spec (n := begin + sz - 1) (a := 0)
    (begin + sz - 1) hbegin (by omega) (show begin ≤ begin + sz - 1 by omega) le_rfl le_rfl (one_dvd _)
    (Nat.lt_succ_self _)
  refine ⟨⟨_, rfl, hexit⟩, ?_⟩
  unfold bestAligned
  dsimp only
  rw [hlow, Nat.mod_eq_of_lt (by omega)]
  generalize removeOnes begin (begin + sz - 1) (begin + sz - 1) = cursor at hlo hdvd hhi hlast hall
  have hall' (j q : Nat) (hlo' : begin ≤ q) (hhi' : q < begin + sz) (hq : 2 ^ j ∣ q) : 2 ^ j ∣ cursor :=
    hall j q hq hlo' (by omega)
  by_cases hone : sz = 1
  · subst hone
    exact ⟨cursor, rfl, hlo, by omega, by omega, ⟨cursor, hlo, by omega, hall'⟩, fun q hq => by have := hq.1; omega⟩
  obtain ⟨p, hp, hbegin, hneed, -⟩ := moveBack_spec hbegin
    (show sz * 3 / 4 ≤ begin + sz - begin by omega) (show k < 65 by omega) hdvd hlo hhi fun j q hq hq' hneed => hall j q hq hq' (by omega)
  have hle := moveBack_le hp
  refine ⟨p, hp, hbegin, by omega, by omega, ⟨cursor, hlo, by omega, hall'⟩, fun q hq => hle.trans ?_⟩
  -- both are multiples of the largest power of two, and the cursor is the first
  exact Nat.le_of_lt_add_of_dvd (by have := hq.1; omega) hdvd (hq.2.2 k cursor hlo (by omega) hdvd)

theorem bestAligned_usable_page : ∃ p, bestAligned 4097 10000 = some p ∧ 4097 ≤ p ∧ p < 14097 ∧ 7500 ≤ 14097 - p := by
  obtain ⟨-, p, hp, hlo, hhi, hneed, -⟩ := bestAligned_usable 4097 10000 (by decide) (by decide) (by decide) (by decide)
  exact ⟨p, hp, hlo, hhi, hneed⟩

/-- For a region on a boundary of 1 GiB, as `_devdax_manager` gives it. -/
theorem heap_holds_iff {pop header size : Nat} (hpop : 2 ^ 30 ∣ pop) (hheader : 0 < header) (hsmall : header ≤ 2 ^ 28)
    (hsize : 0 < size) (hspace : pop + poolSize size ≤ 2 ^ 62) :
    (∃ n ∈ heapSize pop header (poolSize size), size ≤ n) ↔
      size ≤ 3 * 2 ^ 28 ∨ 2 ^ 30 < size ∧ size ≤ 3 * 2 ^ 29 ∨ 2 ^ 31 < size ∧ size ≤ 5 * 2 ^ 29 := by
  obtain ⟨p, rfl⟩ := hpop
  unfold poolSize at hspace ⊢
  have hlo : (size - 1) / 2 ^ 30 * 2 ^ 30 < size := by omega
  have hhi : size ≤ ((size - 1) / 2 ^ 30 + 1) * 2 ^ 30 := by omega
  generalize (size - 1) / 2 ^ 30 = gb at hspace hlo hhi ⊢
  obtain ⟨c, hc, hbegin, hneed, hall⟩ := bestAligned_spec (2 ^ 30 * p + header)
    ((gb + 1) * 2 ^ 30 - header) (by omega) (by omega) (by omega) (by omega)
  simp only [heapSize, hc, Option.map_some, Option.mem_some_iff, exists_eq_left']
  -- the boundary that the cursor is on at least, and what that leaves
  obtain rfl | rfl | rfl | hgb : gb = 0 ∨ gb = 1 ∨ gb = 2 ∨ 3 ≤ gb := by omega
  · obtain ⟨x, rfl⟩ := hall 28 (2 ^ 30 * p + 2 ^ 28) ⟨4 * p + 1, by omega⟩ (by omega) (by omega)
    omega
  · obtain ⟨x, rfl⟩ := hall 29 (2 ^ 30 * p + 2 ^ 29) ⟨2 * p + 1, by omega⟩ (by omega) (by omega)
    omega
  · obtain ⟨x, rfl⟩ := hall 29 (2 ^ 30 * p + 2 ^ 29) ⟨2 * p + 1, by omega⟩ (by omega) (by omega)
    omega
  · obtain ⟨x, rfl⟩ := hall 30 (2 ^ 30 * p + 2 ^ 30) ⟨p + 1, by omega⟩ (by omega) (by omega)
    omega

theorem heap_holds_half : ∃ n ∈ heapSize 0x900000000 8192 (poolSize (2 ^ 29)), 2 ^ 29 ≤ n :=
  (heap_holds_iff (by decide) (by decide) (by decide) (by decide) (by decide)).mpr (Or.inl (by decide))

/-- A pool of 1 GiB gets a heap of 768 MiB. -/
theorem not_heap_holds_gigabyte : ¬ ∃ n ∈ heapSize 0x900000000 8192 (poolSize (2 ^ 30)), 2 ^ 30 ≤ n := by
  rintro ⟨n, hn, hle⟩
  rw [show heapSize 0x900000000 8192 (poolSize (2 ^ 30)) = some (3 * 2 ^ 28) by decide +kernel] at hn
  cases hn
  exact absurd hle (by decide)

end Comanche.Hstore.PoolHeap
