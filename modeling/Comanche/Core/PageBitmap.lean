import Mathlib

/-!
# Dirty page bitmaps

The two scanners of `core/page_bitmap.h`.
-/

namespace Comanche.Core.PageBitmap

def pageSize : Nat := 4096

def littleEndian : List UInt8 → Nat
  | [] => 0
  | b :: bs => b.toNat + 2 ^ 8 * littleEndian bs

/-- The words that are scanned, each with its number of bits: those of 64 bits, and the remaining bytes. -/
def words (data : List UInt8) : List (Nat × Nat) :=
  let qwords := data.length / 8
  ((List.range qwords).map fun i => (64, littleEndian ((data.drop (8 * i)).take 8))) ++
    (data.drop (8 * qwords)).map fun b => (8, b.toNat)

variable {σ : Type}

/-- The loop over the bits of a word, of which `n` are left, with `curr_bit`. -/
def scanWord (visit : Nat → Bool → σ → σ) : Nat → Nat → Nat × σ → Nat × σ
  | 0, _, s => s
  | n + 1, v, (currBit, s) =>
    let s := visit currBit (v % 2 == 1) s
    if v / 2 = 0 then (currBit + 1 + n, s) else scanWord visit n (v / 2) (currBit + 1, s)

def scan (visit : Nat → Bool → σ → σ) (ws : List (Nat × Nat)) (s : σ) : σ :=
  (ws.foldl (fun s w => scanWord visit w.1 w.2 s) (0, s)).2

def pageAddr (base currBit : Nat) : Nat := (base + currBit % 2 ^ 32 * pageSize) % 2 ^ 64

/-- The variables of `parse_bitmap`. There is no segment if `segmentBase` is zero. -/
structure Ranges where
  segmentBase : Nat
  segmentLen : Nat
  rangeMap : List (Nat × Nat)

def Ranges.visit (base currBit : Nat) (bit : Bool) (s : Ranges) : Ranges :=
  if bit then
    if s.segmentBase = 0 then { s with segmentBase := pageAddr base currBit, segmentLen := 1 }
    else { s with segmentLen := (s.segmentLen + 1) % 2 ^ 32 }
  else if s.segmentBase = 0 then s
  else ⟨0, 0, s.rangeMap ++ [(s.segmentBase, s.segmentLen)]⟩

def Ranges.finish (s : Ranges) : List (Nat × Nat) :=
  if s.segmentBase = 0 then s.rangeMap else s.rangeMap ++ [(s.segmentBase, s.segmentLen)]

def parseBitmap (base : Nat) (data : List UInt8) : List (Nat × Nat) :=
  (scan (Ranges.visit base) (words data) ⟨0, 0, []⟩).finish

def parseBitmapIndividual (base : Nat) (data : List UInt8) : List Nat :=
  scan (fun currBit bit dirty => if bit then dirty ++ [pageAddr base currBit] else dirty) (words data) []

def pages (ranges : List (Nat × Nat)) : List Nat :=
  ranges.flatMap fun r => (List.range r.2).map fun k => r.1 + k * pageSize

/-- Both scanners find the same pages, in increasing order, and between two ranges there is a page. -/
structure Agrees (base : Nat) (data : List UInt8) : Prop where
  same : pages (parseBitmap base data) = parseBitmapIndividual base data
  increasing : (parseBitmapIndividual base data).Pairwise (· < ·)
  separated : (parseBitmap base data).Pairwise fun r r' => r.1 + (r.2 + 1) * pageSize ≤ r'.1

/-- After a word that is left early the next one does not begin with a dirty page. -/
def Gapped (w w' : Nat × Nat) : Prop := w.2 ≠ 0 → w.2 < 2 ^ (w.1 - 1) → w'.2 % 2 = 0

instance (w w' : Nat × Nat) : Decidable (Gapped w w') := inferInstanceAs (Decidable (_ → _ → _))

def bitsOf : Nat → Nat → Nat → List (Nat × Bool)
  | 0, _, _ => []
  | n + 1, v, c => (c, v % 2 == 1) :: if v / 2 = 0 then [] else bitsOf n (v / 2) (c + 1)

def visits : Nat → List (Nat × Nat) → List (Nat × Bool)
  | _, [] => []
  | c, w :: ws => bitsOf w.1 w.2 c ++ visits (c + w.1) ws

def Ordered (c stop : Nat) (bits : List (Nat × Bool)) : Prop :=
  bits.Pairwise (fun x y => x.1 < y.1) ∧ ∀ x ∈ bits, c ≤ x.1 ∧ x.1 < stop

variable {base c n v stop : Nat} {bits : List (Nat × Bool)} {ws : List (Nat × Nat)}

theorem scanWord_eq (visit : Nat → Bool → σ → σ) (n v c : Nat) (s : σ) :
    scanWord visit n v (c, s) = (c + n, (bitsOf n v c).foldl (fun s x => visit x.1 x.2 s) s) := by
  induction n generalizing v c s with
  | zero => rfl
  | succ n ih =>
    unfold scanWord bitsOf
    dsimp only
    split
    · rw [Nat.add_assoc, Nat.add_comm 1 n]
      rfl
    · rw [ih, Nat.add_assoc, Nat.add_comm 1 n]
      rfl

theorem scan_eq (visit : Nat → Bool → σ → σ) (ws : List (Nat × Nat)) (s : σ) :
    scan visit ws s = (visits 0 ws).foldl (fun s x => visit x.1 x.2 s) s := by
  unfold scan
  generalize 0 = c
  induction ws generalizing c s with
  | nil => rfl
  | cons w ws ih => rw [List.foldl_cons, scanWord_eq, ih, visits, List.foldl_append]

theorem ordered_cons {x : Nat × Bool} :
    Ordered c stop (x :: bits) ↔ c ≤ x.1 ∧ x.1 < stop ∧ Ordered (x.1 + 1) stop bits := by
  simp only [Ordered, List.pairwise_cons, List.forall_mem_cons]
  constructor
  · rintro ⟨⟨hx, hbits⟩, ⟨hlo, hhi⟩, hall⟩
    exact ⟨hlo, hhi, hbits, fun y hy => ⟨hx y hy, (hall y hy).2⟩⟩
  · rintro ⟨hlo, hhi, hbits, hall⟩
    exact ⟨⟨fun y hy => (hall y hy).1, hbits⟩, ⟨hlo, hhi⟩, fun y hy => ⟨by have := hall y hy; omega, (hall y hy).2⟩⟩

theorem bitsOf_ordered (n v c : Nat) : Ordered c (c + n) (bitsOf n v c) := by
  induction n generalizing v c with
  | zero => exact ⟨.nil, by simp [bitsOf]⟩
  | succ n ih =>
    unfold bitsOf
    refine ordered_cons.mpr ⟨le_rfl, by omega, ?_⟩
    split
    · exact ⟨.nil, by simp⟩
    · rw [show c + (n + 1) = c + 1 + n by omega]
      exact ih (v / 2) (c + 1)

theorem visits_ordered (c : Nat) (ws : List (Nat × Nat)) : Ordered c (c + (ws.map Prod.fst).sum) (visits c ws) := by
  induction ws generalizing c with
  | nil => exact ⟨.nil, by simp [visits]⟩
  | cons w ws ih =>
    obtain ⟨hword, hbits⟩ := bitsOf_ordered w.1 w.2 c
    obtain ⟨hrest, hlater⟩ := ih (c + w.1)
    rw [List.map_cons, List.sum_cons, ← Nat.add_assoc]
    refine ⟨List.pairwise_append.mpr ⟨hword, hrest, fun x hx y hy => ?_⟩, fun x hx => ?_⟩
    · exact (hbits x hx).2.trans_le (hlater y hy).1
    · rcases List.mem_append.mp hx with hx | hx
      · have hx := hbits x hx
        omega
      · have hx := hlater x hx
        omega

def dirty (bits : List (Nat × Bool)) : List Nat := (bits.filter Prod.snd).map Prod.fst

def added : Option Nat → List (Nat × Bool) → List Nat
  | _, [] => []
  | none, (c, true) :: bits => c :: added (some (c + 1)) bits
  | some e, (_, true) :: bits => e :: added (some (e + 1)) bits
  | _, (_, false) :: bits => added none bits

def Extends : Option Nat → List (Nat × Bool) → Prop
  | _, [] => True
  | none, (c, true) :: bits => Extends (some (c + 1)) bits
  | some e, (c, true) :: bits => e = c ∧ Extends (some (e + 1)) bits
  | _, (_, false) :: bits => Extends none bits

theorem added_eq_dirty_iff (e : Option Nat) (bits : List (Nat × Bool)) :
    added e bits = dirty bits ↔ Extends e bits := by
  induction bits generalizing e with
  | nil => cases e <;> simp [added, dirty, Extends]
  | cons x bits ih =>
    obtain ⟨c, bit⟩ := x
    cases bit <;> cases e <;> simp [added, dirty, Extends, ← ih]

structure Ranges.At (base c : Nat) (s : Ranges) (e : Option Nat) : Prop where
  segment : match e with
    | none => s.segmentBase = 0
    | some e => ∃ b, s.segmentBase = base + b * pageSize ∧ b + s.segmentLen = e ∧ e ≤ c
  before : ∀ r ∈ s.rangeMap, r.1 + (r.2 + 1) * pageSize ≤
    if s.segmentBase = 0 then base + c * pageSize else s.segmentBase
  separated : s.rangeMap.Pairwise fun r r' => r.1 + (r.2 + 1) * pageSize ≤ r'.1

theorem pages_concat (l : List (Nat × Nat)) (a n : Nat) :
    pages (l ++ [(a, n)]) = pages l ++ (List.range n).map fun k => a + k * pageSize := by
  simp [pages]

section Scan

variable {s : Ranges} {e : Option Nat} {i : Nat}

theorem Ranges.At.finish (h : s.At base c e) : s.finish.Pairwise fun r r' => r.1 + (r.2 + 1) * pageSize ≤ r'.1 := by
  unfold Ranges.finish
  split
  · exact h.separated
  · rename_i hopen
    refine List.pairwise_append.mpr ⟨h.separated, List.pairwise_singleton _ _, fun r hr r' hr' => ?_⟩
    rw [List.mem_singleton.mp hr']
    have hbefore := h.before r hr
    rwa [if_neg hopen] at hbefore

theorem Ranges.At.clean (h : s.At base c e) (hi : c ≤ i) :
    (s.visit base i false).At base (i + 1) none ∧ (s.visit base i false).finish = s.finish := by
  unfold Ranges.visit Ranges.finish
  simp only [Bool.false_eq_true, if_false]
  by_cases hclosed : s.segmentBase = 0
  · rw [if_pos hclosed]
    refine ⟨⟨hclosed, fun r hr => ?_, h.separated⟩, rfl⟩
    have hbefore := h.before r hr
    rw [if_pos hclosed] at hbefore ⊢
    exact hbefore.trans (Nat.add_le_add_left (Nat.mul_le_mul_right _ (by omega)) _)
  · rw [if_neg hclosed]
    cases e with
    | none => exact absurd h.segment hclosed
    | some e =>
      obtain ⟨b, hb, hlen, hle⟩ := h.segment
      have hpairs := h.finish
      rw [Ranges.finish, if_neg hclosed] at hpairs
      refine ⟨⟨rfl, fun r hr => ?_, hpairs⟩, by simp [hclosed]⟩
      rw [if_pos rfl]
      rcases List.mem_append.mp hr with hr | hr
      · have hbefore := h.before r hr
        rw [if_neg hclosed, hb] at hbefore
        exact hbefore.trans (Nat.add_le_add_left (Nat.mul_le_mul_right _ (by omega)) _)
      · rw [List.mem_singleton.mp hr, hb, Nat.add_assoc, ← Nat.add_mul]
        exact Nat.add_le_add_left (Nat.mul_le_mul_right _ (by omega)) _

variable (hbase : 0 < base) (hstop : stop < 2 ^ 32) (hend : base + stop * pageSize ≤ 2 ^ 64)

include hstop hend in
theorem pageAddr_eq (hi : i < stop) : pageAddr base i = base + i * pageSize := by
  unfold pageAddr pageSize at *
  rw [Nat.mod_eq_of_lt (hi.trans hstop), Nat.mod_eq_of_lt (by omega)]

include hbase hstop hend in
theorem Ranges.At.open (h : s.At base c none) (hi : c ≤ i) (hlt : i < stop) :
    (s.visit base i true).At base (i + 1) (some (i + 1)) ∧
      pages (s.visit base i true).finish = pages s.finish ++ [base + i * pageSize] := by
  have hclosed : s.segmentBase = 0 := h.segment
  have hopen : base + i * pageSize ≠ 0 := by omega
  unfold Ranges.visit Ranges.finish
  simp only [if_true, hclosed, pageAddr_eq hstop hend hlt, hopen, if_false]
  refine ⟨⟨⟨i, rfl, rfl, le_rfl⟩, fun r hr => ?_, h.separated⟩, by simp [pages_concat]⟩
  have hbefore := h.before r hr
  rw [if_pos hclosed] at hbefore
  rw [if_neg hopen]
  exact hbefore.trans (Nat.add_le_add_left (Nat.mul_le_mul_right _ hi) _)

include hbase hstop in
theorem Ranges.At.extend {e : Nat} (h : s.At base c (some e)) (hi : c ≤ i) (hlt : i < stop) :
    (s.visit base i true).At base (i + 1) (some (e + 1)) ∧
      pages (s.visit base i true).finish = pages s.finish ++ [base + e * pageSize] := by
  obtain ⟨b, hb, hlen, hle⟩ := h.segment
  have hopen : s.segmentBase ≠ 0 := by omega
  have hsmall : (s.segmentLen + 1) % 2 ^ 32 = s.segmentLen + 1 := Nat.mod_eq_of_lt (by omega)
  unfold Ranges.visit Ranges.finish
  simp only [if_true, hopen, if_false, hsmall]
  refine ⟨⟨⟨b, hb, by simp only; omega, by omega⟩, fun r hr => ?_, h.separated⟩, ?_⟩
  · rw [if_neg hopen]
    have hbefore := h.before r hr
    rwa [if_neg hopen] at hbefore
  · rw [pages_concat, pages_concat, List.range_succ, List.map_append, List.append_assoc, List.map_singleton, hb, ← hlen]
    unfold pageSize
    rw [Nat.add_assoc, ← Nat.add_mul]

include hbase hstop hend in
theorem Ranges.At.scan (h : s.At base c e) (hbits : Ordered c stop bits) :
    pages (bits.foldl (fun s x => s.visit base x.1 x.2) s).finish =
        pages s.finish ++ (added e bits).map (base + · * pageSize) ∧
      (bits.foldl (fun s x => s.visit base x.1 x.2) s).finish.Pairwise
        fun r r' => r.1 + (r.2 + 1) * pageSize ≤ r'.1 := by
  induction bits generalizing c s e with
  | nil => exact ⟨by cases e <;> simp [added], h.finish⟩
  | cons x bits ih =>
    obtain ⟨i, bit⟩ := x
    obtain ⟨hi, hlt, hbits⟩ := ordered_cons.mp hbits
    rw [List.foldl_cons]
    match bit, e with
    | false, e =>
      obtain ⟨h', hsame⟩ := h.clean hi
      obtain ⟨hpages, hpairs⟩ := ih h' hbits
      exact ⟨by cases e <;> simpa [added, hsame] using hpages, hpairs⟩
    | true, none =>
      obtain ⟨h', hone⟩ := h.open hbase hstop hend hi hlt
      obtain ⟨hpages, hpairs⟩ := ih h' hbits
      exact ⟨by simpa [added, hone] using hpages, hpairs⟩
    | true, some e =>
      obtain ⟨h', hone⟩ := h.extend hbase hstop hi hlt
      obtain ⟨hpages, hpairs⟩ := ih h' hbits
      exact ⟨by simpa [added, hone] using hpages, hpairs⟩

include hstop hend in
theorem individual_scan (dirtyVector : List Nat) (hbits : Ordered c stop bits) :
    bits.foldl (fun dirty x => if x.2 then dirty ++ [pageAddr base x.1] else dirty) dirtyVector =
      dirtyVector ++ (dirty bits).map (base + · * pageSize) := by
  induction bits generalizing c dirtyVector with
  | nil => simp [dirty]
  | cons x bits ih =>
    obtain ⟨i, bit⟩ := x
    obtain ⟨-, hlt, hbits⟩ := ordered_cons.mp hbits
    rw [List.foldl_cons, ih _ hbits]
    cases bit <;> simp [dirty, pageAddr_eq hstop hend hlt]

end Scan

def openAfter (v c : Nat) : Option Nat := if v = 0 then none else some (c + v.log2 + 1)

theorem extends_bitsOf {e : Option Nat} (he : e = none ∨ e = some c) (hn : 0 < n) (hv : v < 2 ^ n) :
    Extends e (bitsOf n v c ++ bits) ↔ Extends (openAfter v c) bits := by
  induction n generalizing v c e with
  | zero => exact absurd hn (Nat.lt_irrefl 0)
  | succ n ih =>
    have hfirst : ∀ rest, Extends e ((c, v % 2 == 1) :: rest) ↔
        Extends (if v % 2 = 1 then some (c + 1) else none) rest := by
      intro rest
      rcases Nat.mod_two_eq_zero_or_one v with h | h <;> rcases he with rfl | rfl <;> simp [h, Extends]
    unfold bitsOf openAfter
    rw [List.cons_append, hfirst]
    by_cases hzero : v / 2 = 0
    · obtain rfl | rfl : v = 0 ∨ v = 1 := by omega
      · simp
      · simp [Nat.log2_def]
    · have hpos : 0 < n := by
        rcases Nat.eq_zero_or_pos n with rfl | hpos
        · omega
        · exact hpos
      rw [if_neg hzero, ih (by split <;> simp) hpos (by omega), openAfter, if_neg hzero, if_neg (by omega),
        Nat.log2_def v, if_pos (by omega), show c + 1 + (v / 2).log2 + 1 = c + ((v / 2).log2 + 1) + 1 by omega]

theorem extends_dangling {e : Nat} (he : e < c) (hn : 0 < n) :
    Extends (some e) (bitsOf n v c ++ bits) ↔ v % 2 = 0 ∧ Extends none (bitsOf n v c ++ bits) := by
  obtain ⟨n, rfl⟩ := Nat.exists_eq_succ_of_ne_zero hn.ne'
  unfold bitsOf
  rcases Nat.mod_two_eq_zero_or_one v with h | h <;> simp [h, Extends, he.ne]

theorem extends_visits {w : Nat × Nat} (hw : 0 < w.1 ∧ w.2 < 2 ^ w.1) (hws : ∀ w ∈ ws, 0 < w.1 ∧ w.2 < 2 ^ w.1) :
    Extends (openAfter w.2 c) (visits (c + w.1) ws) ↔ (w :: ws).IsChain Gapped := by
  induction ws generalizing w c with
  | nil => cases openAfter w.2 c <;> simp [visits, Extends]
  | cons w' ws ih =>
    obtain ⟨hw', hws⟩ := List.forall_mem_cons.mp hws
    rw [List.isChain_cons_cons, ← ih hw' hws (c := c + w.1), visits]
    by_cases hzero : w.2 = 0
    · rw [openAfter, if_pos hzero, extends_bitsOf (Or.inl rfl) hw'.1 hw'.2]
      simp [Gapped, hzero]
    · rw [openAfter, if_neg hzero]
      have hlog : w.2.log2 < w.1 := (Nat.log2_lt hzero).mpr hw.2
      by_cases hfull : w.2 < 2 ^ (w.1 - 1)
      · have hlt : w.2.log2 < w.1 - 1 := (Nat.log2_lt hzero).mpr hfull
        rw [extends_dangling (by omega) hw'.1, extends_bitsOf (Or.inl rfl) hw'.1 hw'.2]
        simp [Gapped, hzero, hfull]
      · have hlt : ¬ w.2.log2 < w.1 - 1 := mt (Nat.log2_lt hzero).mp hfull
        rw [show c + w.2.log2 + 1 = c + w.1 by omega, extends_bitsOf (Or.inr rfl) hw'.1 hw'.2]
        simp [Gapped, hfull]

theorem littleEndian_lt (bs : List UInt8) : littleEndian bs < 2 ^ (8 * bs.length) := by
  induction bs with
  | nil => simp [littleEndian]
  | cons b bs ih =>
    have hb := b.toNat_lt
    rw [littleEndian, List.length_cons, Nat.mul_succ, Nat.pow_add]
    omega

theorem words_spec (data : List UInt8) :
    (∀ w ∈ words data, 0 < w.1 ∧ w.2 < 2 ^ w.1) ∧ ((words data).map Prod.fst).sum = 8 * data.length := by
  unfold words
  constructor
  · intro w hw
    rcases List.mem_append.mp hw with hw | hw
    · obtain ⟨i, -, rfl⟩ := List.mem_map.mp hw
      refine ⟨Nat.succ_pos 63, (littleEndian_lt _).trans_le (Nat.pow_le_pow_right (by decide) ?_)⟩
      have hlen := List.length_take_le 8 (data.drop (8 * i))
      omega
    · obtain ⟨b, -, rfl⟩ := List.mem_map.mp hw
      exact ⟨Nat.succ_pos 7, b.toNat_lt⟩
  · simp [Function.comp_def]
    omega

/-- The compacted scan agrees with the individual one just when no word that is left early is followed by one
that begins with a dirty page. -/
theorem parseBitmap_agrees_iff (base : Nat) (data : List UInt8) (hbase : 0 < base)
    (hlen : 8 * data.length < 2 ^ 32) (hend : base + 8 * data.length * pageSize ≤ 2 ^ 64) :
    Agrees base data ↔ (words data).IsChain Gapped := by
  obtain ⟨hwords, hsum⟩ := words_spec data
  have hordered := visits_ordered 0 (words data)
  rw [hsum, Nat.zero_add] at hordered
  obtain ⟨hpages, hpairs⟩ := Ranges.At.scan (s := ⟨0, 0, []⟩) (e := none) hbase hlen hend ⟨rfl, by simp, .nil⟩ hordered
  have hchain : Extends none (visits 0 (words data)) ↔ (words data).IsChain Gapped := by
    cases hws : words data with
    | nil => simp [visits, Extends]
    | cons w ws =>
      rw [hws] at hwords
      obtain ⟨hw, hws⟩ := List.forall_mem_cons.mp hwords
      rw [visits, extends_bitsOf (Or.inl rfl) hw.1 hw.2, extends_visits hw hws]
  have hindividual : parseBitmapIndividual base data =
      (dirty (visits 0 (words data))).map (base + · * pageSize) := by
    rw [parseBitmapIndividual, scan_eq, individual_scan hlen hend [] hordered, List.nil_append]
  have hinj : Function.Injective (base + · * pageSize) := by
    intro i j hij
    simp only [pageSize] at hij
    omega
  have hsame : pages (parseBitmap base data) = parseBitmapIndividual base data ↔ (words data).IsChain Gapped := by
    rw [parseBitmap, scan_eq, hpages, hindividual, ← hchain, ← added_eq_dirty_iff]
    exact hinj.list_map.eq_iff
  refine ⟨fun h => hsame.mp h.same, fun h => ⟨hsame.mpr h, ?_, ?_⟩⟩
  · rw [hindividual]
    refine List.pairwise_map.mpr (List.pairwise_map.mpr ((hordered.1.filter _).imp fun hlt => ?_))
    unfold pageSize
    omega
  · rw [parseBitmap, scan_eq]
    exact hpairs

theorem parseBitmap_agrees_runOn : Agrees 0x1000 [0xF0, 0, 0, 0, 0, 0, 0, 0x80, 1] :=
  (parseBitmap_agrees_iff 0x1000 _ (by decide) (by decide) (by decide)).mpr (by decide +kernel)

/-- The first page of each of two words is dirty: the range is that of the first page and the second. -/
theorem not_agrees_twoWords : ¬ Agrees 0x1000 [1, 0, 0, 0, 0, 0, 0, 0, 1, 0, 0, 0, 0, 0, 0, 0] :=
  fun h => absurd h.same (by decide +kernel)

end Comanche.Core.PageBitmap
