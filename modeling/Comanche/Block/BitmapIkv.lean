import Comanche.Lib.Bitmap
import Comanche.Lib.Run

/-!
# The block allocator over a bitmap

`BlockAlloc_ikv` and its `bitmap_ikv`, which is one object of a key-value store.
-/

namespace Comanche.Block.BitmapIkv

open Lib Lib.Bitmap

def capacity : Nat := 4 * 2 ^ 20 * 8

inductive RegOp where
  | isFree
  | alloc
  | release

def regOp (w : Words) (pos order : Nat) (op : RegOp) : Nat × Words :=
  let nbitsReg := 2 ^ order
  let index := pos / 64
  let mask := regionMask pos nbitsReg
  match op with
  | .isFree => (if clearRange w index (longs nbitsReg) mask then 1 else 0, w)
  | .alloc => (0, updateRange w index (longs nbitsReg) (· ||| mask))
  | .release => (0, updateRange w index (longs nbitsReg) (· &&& ~~~ mask))

def scan (w : Words) (order posOrigin : Nat) : Nat → Nat → Option Nat × Words
  | 0, _ => (none, w)
  | n + 1, offset =>
    let pos := (offset + posOrigin) % capacity
    if (regOp w pos order .isFree).1 = 0 then scan w order posOrigin n (offset + 2 ^ order)
    else (some pos, (regOp w pos order .alloc).2)

/-- A region larger than the bitmap makes the number of tabs zero, and the thread dies
in the division by it. -/
def findFreeRegion (w : Words) (order random : Nat) : Option (Option Nat × Words) :=
  let step := 2 ^ order
  let ntabs := capacity / step
  if ntabs = 0 then none else some (scan w order (random % ntabs * step) ntabs 0)

inductive AllocResult where
  | returns (lba handle : Nat) (words : Words)
  | throws
  | crashes

def orderOf (count : Nat) : Nat := Nat.log2 count

def pack (pos order : Nat) : Nat := pos <<< 32 % 2 ^ 64 ||| order

def alloc (w : Words) (count random : Nat) : AllocResult :=
  let order := orderOf count
  match findFreeRegion w order random with
  | none => .crashes
  | some (found, w) =>
    let retPos := found.getD (2 ^ 64 - 1)
    .returns retPos (pack retPos order) w

/-- `BlockAlloc_ikv::free`; nothing if it throws. -/
def free (w : Words) (addr handle : Nat) : Option Words :=
  let lbaStart := handle >>> 32 % 2 ^ 32
  let order := handle &&& 0xffffffff
  if handle = 0 ∨ lbaStart ≠ addr then none else some (regOp w lbaStart order .release).2

structure Live where
  lba : Nat
  count : Nat
  handle : Nat
  deriving DecidableEq

def Live.Covers (l : Live) (b : Nat) : Prop := l.lba ≤ b ∧ b < l.lba + l.count

def Live.Apart (l l' : Live) : Prop := l.lba + l.count ≤ l'.lba ∨ l'.lba + l'.count ≤ l.lba

structure State where
  maxLba : Nat
  words : Words
  live : List Live

/-- An allocation with what the random source gives, or a free of one of the live allocations. -/
inductive Event where
  | alloc (count random : Nat)
  | free (i : Nat)

namespace State

def init (maxLba : Nat) : State := ⟨maxLba, fun _ => 0#64, []⟩

variable (s : State)

def step (s : State) : Event → Option State
  | .alloc count random =>
    match BitmapIkv.alloc s.words count random with
    | .returns lba handle words => some { s with words, live := ⟨lba, count, handle⟩ :: s.live }
    | .throws => some s
    | .crashes => none
  | .free i =>
    match s.live[i]? with
    | none => some s
    | some l =>
      match BitmapIkv.free s.words l.lba l.handle with
      | none => some s
      | some words => some { s with words, live := s.live.eraseIdx i }

/-- A range that is returned is below `max_lba` and apart from all live ones, only a call that finds no region throws,
and a freed range, and nothing else, is available again. -/
def Holds (s : State) : Event → Prop
  | .alloc count random =>
    match BitmapIkv.alloc s.words count random with
    | .returns lba handle _ =>
      lba + count ≤ s.maxLba ∧ ∀ l ∈ s.live, Live.Apart ⟨lba, count, handle⟩ l
    | .throws => True
    | .crashes => False
  | .free i => ∀ l ∈ s.live[i]?, ∃ words, BitmapIkv.free s.words l.lba l.handle = some words ∧
      ∀ b, bit words b = true ↔ bit s.words b = true ∧ ¬ l.Covers b

def Available (pos count : Nat) : Prop := ∀ b, pos ≤ b → b < pos + count → bit s.words b = false

/-- The position of the `t`-th region of this order, counted from the random origin. -/
def tab (order random t : Nat) : Nat :=
  (t * 2 ^ order + random % (capacity / 2 ^ order) * 2 ^ order) % capacity

/-- The number of blocks is a power of two not above the bitmap, and the first region of that size available from the
random origin on is below `max_lba`; a freed allocation is not block 0 alone, whose handle is the null pointer. -/
def Safe (s : State) : Event → Prop
  | .alloc count random => ∃ order t, count = 2 ^ order ∧ t < capacity / 2 ^ order ∧
      s.Available (tab order random t) count ∧ (∀ t' < t, ¬ s.Available (tab order random t') count) ∧
      tab order random t + count ≤ s.maxLba
  | .free i => ∀ l ∈ s.live[i]?, ¬ (l.lba = 0 ∧ l.count = 1)

end State

section Bits

variable {w : Words} {order pos random t : Nat}

theorem capacity_eq : capacity = 2 ^ 25 := rfl

theorem regOp_isFree_iff (haligned : 2 ^ order ∣ pos) :
    (regOp w pos order .isFree).1 = 0 ↔ ¬ ∀ b, pos ≤ b → b < pos + 2 ^ order → bit w b = false := by
  have hclear := (Region.mk order pos haligned).clearRange_iff w
  have hcovers : (∀ b, (Region.mk order pos haligned).Covers b → bit w b = false) ↔
      ∀ b, pos ≤ b → b < pos + 2 ^ order → bit w b = false :=
    forall_congr' fun b => and_imp
  rw [← hcovers, ← hclear]
  change (if clearRange w (pos / 64) (longs (2 ^ order)) (regionMask pos (2 ^ order)) then 1 else 0) = 0 ↔
    ¬ clearRange w (pos / 64) (longs (2 ^ order)) (regionMask pos (2 ^ order)) = true
  split
  · next h => simp [h]
  · next h => simp [h]

theorem bit_regOp_alloc (haligned : 2 ^ order ∣ pos) (b : Nat) :
    bit (regOp w pos order .alloc).2 b = true ↔ bit w b = true ∨ (pos ≤ b ∧ b < pos + 2 ^ order) := by
  have hset := (Region.mk order pos haligned).bit_set w b
  change bit (regOp w pos order .alloc).2 b = _ at hset
  rw [hset, Bool.or_eq_true, decide_eq_true_eq]
  rfl

theorem bit_regOp_release (haligned : 2 ^ order ∣ pos) (b : Nat) : bit (regOp w pos order .release).2 b = true ↔
      bit w b = true ∧ ¬ (pos ≤ b ∧ b < pos + 2 ^ order) := by
  have hclear := (Region.mk order pos haligned).bit_clear w b
  change bit (regOp w pos order .release).2 b = _ at hclear
  rw [hclear, Bool.and_eq_true, Bool.not_eq_true', decide_eq_false_iff_not]
  rfl

theorem tab_aligned (horder : order ≤ 25) : 2 ^ order ∣ State.tab order random t := by
  have hcap : 2 ^ order ∣ capacity := by
    rw [capacity_eq]
    exact Nat.pow_dvd_pow 2 horder
  refine (Nat.dvd_mod_iff hcap).mpr ?_
  exact Nat.dvd_add (Nat.dvd_mul_left _ _) (Nat.dvd_mul_left _ _)

theorem tab_le (horder : order ≤ 25) : State.tab order random t + 2 ^ order ≤ capacity := by
  obtain ⟨c, hc⟩ : 2 ^ order ∣ capacity := by
    rw [capacity_eq]
    exact Nat.pow_dvd_pow 2 horder
  obtain ⟨d, hd⟩ : 2 ^ order ∣ State.tab order random t := tab_aligned horder
  have hlt : State.tab order random t < capacity := Nat.mod_lt _ (by decide)
  rw [hd, hc] at hlt ⊢
  have hdc : d < c := Nat.lt_of_mul_lt_mul_left hlt
  calc 2 ^ order * d + 2 ^ order = 2 ^ order * (d + 1) := (Nat.mul_succ _ _).symm
    _ ≤ 2 ^ order * c := Nat.mul_le_mul_left _ hdc

theorem scan_first {origin n offset : Nat} (ht : t < n)
    (hfree : (regOp w ((offset + t * 2 ^ order + origin) % capacity) order .isFree).1 ≠ 0)
    (hfirst : ∀ t' < t, (regOp w ((offset + t' * 2 ^ order + origin) % capacity) order .isFree).1 = 0) :
    scan w order origin n offset = (some ((offset + t * 2 ^ order + origin) % capacity),
        (regOp w ((offset + t * 2 ^ order + origin) % capacity) order .alloc).2) := by
  induction t generalizing n offset with
  | zero =>
    obtain ⟨n, rfl⟩ := Nat.exists_eq_succ_of_ne_zero ht.ne'
    rw [Nat.zero_mul, Nat.add_zero] at hfree ⊢
    unfold scan
    exact if_neg hfree
  | succ t ih =>
    obtain ⟨n, rfl⟩ := Nat.exists_eq_succ_of_ne_zero (Nat.ne_of_gt (Nat.zero_lt_of_lt ht))
    have hshift (t' : Nat) : offset + (t' + 1) * 2 ^ order = offset + 2 ^ order + t' * 2 ^ order := by
      rw [Nat.succ_mul]
      omega
    have hbusy := hfirst 0 (Nat.succ_pos t)
    rw [Nat.zero_mul, Nat.add_zero] at hbusy
    rw [hshift] at hfree ⊢
    unfold scan
    dsimp only
    rw [if_pos hbusy]
    refine ih (Nat.lt_of_succ_lt_succ ht) hfree fun t' ht' => ?_
    rw [← hshift]
    exact hfirst (t' + 1) (Nat.succ_lt_succ ht')

theorem pack_eq (hpos : pos < 2 ^ 32) (horder : order < 2 ^ 32) : pack pos order = pos * 2 ^ 32 + order := by
  have hlt : pos <<< 32 < 2 ^ 64 := by
    rw [Nat.shiftLeft_eq]
    omega
  unfold pack
  rw [Nat.mod_eq_of_lt hlt, ← Nat.shiftLeft_add_eq_or_of_lt horder, Nat.shiftLeft_eq]

theorem free_pack (hpos : pos < 2 ^ 32) (horder : order < 2 ^ 32) (hnull : ¬ (pos = 0 ∧ order = 0)) :
    free w pos (pack pos order) = some (regOp w pos order .release).2 := by
  have hhigh : pack pos order >>> 32 % 2 ^ 32 = pos := by
    rw [pack_eq hpos horder, Nat.shiftRight_eq_div_pow]
    omega
  have hlow : pack pos order &&& 0xffffffff = order := by
    have hmask : (0xffffffff : Nat) = 2 ^ 32 - 1 := rfl
    rw [pack_eq hpos horder, hmask, Nat.and_two_pow_sub_one_eq_mod]
    omega
  have hne : pack pos order ≠ 0 := by
    rw [pack_eq hpos horder]
    omega
  unfold free
  dsimp only
  rw [hhigh, hlow, if_neg (by simp [hne])]

end Bits

/-- The bits that are set are those of the live allocations, which are aligned powers of two of blocks, apart
from each other, and whose handles say so. -/
structure Inv (s : State) : Prop where
  bits : ∀ b, bit s.words b = true ↔ ∃ l ∈ s.live, l.Covers b
  shape : ∀ l ∈ s.live, ∃ order ≤ 25, l.count = 2 ^ order ∧ 2 ^ order ∣ l.lba ∧
    l.handle = pack l.lba order ∧ l.lba + l.count ≤ capacity
  apart : s.live.Pairwise Live.Apart

section Invariant

variable {s s' : State} {count random i : Nat} {l l' : Live}

theorem Live.Apart.symm (h : Live.Apart l l') : Live.Apart l' l := Or.symm h

theorem Live.Apart.not_covers (h : Live.Apart l l') {b : Nat} (hb : l.Covers b) : ¬ l'.Covers b := by
  unfold Live.Apart at h
  unfold Live.Covers at *
  omega

theorem order_le {order t : Nat} (ht : t < capacity / 2 ^ order) : order ≤ 25 := by
  by_contra hlt
  have hpow : 2 ^ 26 ≤ 2 ^ order := Nat.pow_le_pow_right (by omega) (by omega)
  have hzero : capacity / 2 ^ order = 0 := by
    rw [capacity_eq]
    exact Nat.div_eq_of_lt (by omega)
  omega

theorem alloc_first {w : Words} {t : Nat} (ht : t < capacity / 2 ^ orderOf count)
    (hfree : ∀ b, State.tab (orderOf count) random t ≤ b →
      b < State.tab (orderOf count) random t + 2 ^ orderOf count → bit w b = false)
    (hfirst : ∀ t' < t, ¬ ∀ b, State.tab (orderOf count) random t' ≤ b →
      b < State.tab (orderOf count) random t' + 2 ^ orderOf count → bit w b = false) :
    alloc w count random = .returns (State.tab (orderOf count) random t)
      (pack (State.tab (orderOf count) random t) (orderOf count))
      (regOp w (State.tab (orderOf count) random t) (orderOf count) .alloc).2 := by
  unfold alloc findFreeRegion
  generalize orderOf count = order at *
  have horder := order_le ht
  have htab (t' : Nat) : (0 + t' * 2 ^ order + random % (capacity / 2 ^ order) * 2 ^ order) % capacity =
      State.tab order random t' := by
    rw [Nat.zero_add]
    rfl
  have hscan : scan w order (random % (capacity / 2 ^ order) * 2 ^ order) (capacity / 2 ^ order) 0 =
      _ := scan_first ht
    (by rw [htab]; exact fun h => (regOp_isFree_iff (tab_aligned horder)).mp h hfree)
    (fun t' ht' => by rw [htab]; exact (regOp_isFree_iff (tab_aligned horder)).mpr (hfirst t' ht'))
  rw [htab] at hscan
  dsimp only
  rw [if_neg (by omega), hscan]
  rfl

theorem alloc_of_safe (hsafe : s.Safe (.alloc count random)) :
    ∃ order t, order ≤ 25 ∧ count = 2 ^ order ∧ s.Available (State.tab order random t) count ∧
      State.tab order random t + count ≤ s.maxLba ∧ alloc s.words count random = .returns (State.tab order random t)
        (pack (State.tab order random t) order) (regOp s.words (State.tab order random t) order .alloc).2 := by
  obtain ⟨order, t, rfl, ht, hfree, hfirst, hmax⟩ := hsafe
  have horder : orderOf (2 ^ order) = order := Nat.log2_two_pow
  have halloc : alloc s.words (2 ^ order) random = _ :=
    alloc_first (horder.symm ▸ ht) (horder.symm ▸ hfree) (horder.symm ▸ hfirst)
  rw [horder] at halloc
  exact ⟨order, t, order_le ht, rfl, hfree, hmax, halloc⟩

theorem Inv.apart_of_available (h : Inv s) {pos handle : Nat} (hcount : 0 < count)
    (hfree : s.Available pos count) (hl : l ∈ s.live) : Live.Apart ⟨pos, count, handle⟩ l := by
  obtain ⟨order, -, hlcount, -⟩ := h.shape l hl
  have hpos : 0 < l.count := hlcount ▸ Nat.two_pow_pos _
  -- Otherwise the larger of the two first blocks is in both ranges.
  by_contra hnot
  unfold Live.Apart at hnot
  dsimp only at hnot
  have hset : bit s.words (max pos l.lba) = true :=
    (h.bits _).mpr ⟨l, hl, by unfold Live.Covers; omega⟩
  rw [hfree (max pos l.lba) (by omega) (by omega)] at hset
  cases hset

theorem Inv.alloc (h : Inv s) (hsafe : s.Safe (.alloc count random)) :
    s.Holds (.alloc count random) ∧ ∀ s' ∈ s.step (.alloc count random), Inv s' := by
  obtain ⟨order, t, horder, hcount, hfree, hmax, halloc⟩ := alloc_of_safe hsafe
  have hpos : 0 < count := hcount ▸ Nat.two_pow_pos _
  have haligned : 2 ^ order ∣ State.tab order random t := tab_aligned horder
  unfold State.Holds State.step
  dsimp only
  rw [halloc]
  refine ⟨⟨hmax, fun l hl => h.apart_of_available hpos hfree hl⟩, ?_⟩
  rintro s' ⟨⟩
  refine ⟨fun b => ?_, fun l hl => ?_, ?_⟩
  · rw [bit_regOp_alloc haligned, h.bits b, ← hcount]
    simp only [List.exists_mem_cons_iff]
    exact or_comm
  · obtain rfl | hl := List.mem_cons.mp hl
    · exact ⟨order, horder, hcount, haligned, rfl, hcount ▸ tab_le horder⟩
    · exact h.shape l hl
  · exact List.pairwise_cons.mpr ⟨fun l hl => h.apart_of_available hpos hfree hl, h.apart⟩

theorem Inv.apart_of_ne (h : Inv s) {j : Nat} (hi : s.live[i]? = some l) (hj : s.live[j]? = some l')
    (hne : i ≠ j) : Live.Apart l l' := by
  obtain ⟨hilt, rfl⟩ := List.getElem?_eq_some_iff.mp hi
  obtain ⟨hjlt, rfl⟩ := List.getElem?_eq_some_iff.mp hj
  have hpairs := List.pairwise_iff_getElem.mp h.apart
  obtain hlt | hlt := Nat.lt_or_gt_of_ne hne
  · exact hpairs i j hilt hjlt hlt
  · exact (hpairs j i hjlt hilt hlt).symm

theorem Inv.free (h : Inv s) (hsafe : s.Safe (.free i)) : s.Holds (.free i) ∧ ∀ s' ∈ s.step (.free i), Inv s' := by
  unfold State.Holds State.step
  dsimp only
  cases hl : s.live[i]? with
  | none =>
    refine ⟨fun l hl => (by cases hl), ?_⟩
    rintro s' ⟨⟩
    exact h
  | some l =>
    obtain ⟨order, horder, hcount, haligned, hhandle, hcap⟩ := h.shape l (List.mem_of_getElem? hl)
    have hnull : ¬ (l.lba = 0 ∧ order = 0) := by
      rintro ⟨hlba, rfl⟩
      exact hsafe l hl ⟨hlba, hcount⟩
    have hlba : l.lba < 2 ^ 32 := by
      rw [capacity_eq] at hcap
      have hpos : 0 < l.count := hcount ▸ Nat.two_pow_pos _
      omega
    have hfree : BitmapIkv.free s.words l.lba l.handle = some (regOp s.words l.lba order .release).2 := by
      rw [hhandle]
      exact free_pack hlba (by omega) hnull
    have hbits (b : Nat) : bit (regOp s.words l.lba order .release).2 b = true ↔ bit s.words b = true ∧ ¬ l.Covers b := by
      rw [bit_regOp_release haligned, ← hcount]
      rfl
    dsimp only
    rw [hfree]
    refine ⟨?_, ?_⟩
    · rintro l ⟨⟩
      exact ⟨_, hfree, hbits⟩
    · rintro s' ⟨⟩
      refine ⟨fun b => ?_, fun l' hl' => h.shape l' (List.mem_of_mem_eraseIdx hl'),
        h.apart.sublist (List.eraseIdx_sublist ..)⟩
      rw [hbits, h.bits]
      constructor
      · rintro ⟨⟨l', hmem, hcovers⟩, hnot⟩
        obtain ⟨j, hj⟩ := List.getElem?_of_mem hmem
        refine ⟨l', List.mem_eraseIdx_iff_getElem?.mpr ⟨j, ?_, hj⟩, hcovers⟩
        rintro rfl
        rw [hl] at hj
        cases hj
        exact hnot hcovers
      · rintro ⟨l', hmem, hcovers⟩
        obtain ⟨j, hji, hj⟩ := List.mem_eraseIdx_iff_getElem?.mp hmem
        exact ⟨⟨l', List.mem_of_getElem? hj, hcovers⟩, (h.apart_of_ne hj hl hji).not_covers hcovers⟩

theorem inv_init (maxLba : Nat) : Inv (.init maxLba) where
  bits b := by simp [State.init, bit]
  shape l hl := absurd hl List.not_mem_nil
  apart := List.Pairwise.nil

end Invariant

/-- The bits that are set are those of the live ranges, so a safe run hands out disjoint ranges and takes back just what
it is given. -/
theorem holds_of_safe (maxLba : Nat) (es : List Event) (h : Throughout State.step State.Safe (.init maxLba) es) :
    Throughout State.step State.Holds (.init maxLba) es := by
  refine h.imp (I := Inv) (fun s e hinv hsafe => ?_) (fun s e s' hinv hsafe hs' => ?_)
    (inv_init maxLba)
  · cases e with
    | alloc count random => exact (hinv.alloc hsafe).1
    | free i => exact (hinv.free hsafe).1
  · cases e with
    | alloc count random => exact (hinv.alloc hsafe).2 s' hs'
    | free i => exact (hinv.free hsafe).2 s' hs'

theorem holds_sixBlocks : Throughout State.step State.Holds (.init 16) [.alloc 4 0, .alloc 2 2, .free 1] := by
  refine holds_of_safe 16 _ ⟨⟨2, 0, rfl, by decide, fun b _ _ => ?_, fun t ht => ?_, by decide⟩, ?_⟩
  · simp [State.init, bit]
  · cases ht
  · rintro s ⟨⟩
    have htab : State.tab 1 2 0 = 4 := by decide
    refine ⟨⟨1, 0, rfl, by decide, fun b hlo hhi => ?_, fun t ht => ?_, by decide⟩, ?_⟩
    · obtain rfl | rfl : b = 4 ∨ b = 5 := by omega
      all_goals decide +kernel
    · cases ht
    · rintro s ⟨⟩
      refine ⟨?_, fun _ _ => trivial⟩
      rintro l ⟨⟩
      exact fun hnull => absurd hnull.2 (by decide)

/-- Of three blocks only two are marked, and the third one is given away again. -/
theorem not_holds_threeBlocks : ¬ Throughout State.step State.Holds (.init 16) [.alloc 3 0, .alloc 1 2] := by
  rintro ⟨-, hrest⟩
  obtain ⟨⟨-, hapart⟩, -⟩ := hrest _ rfl
  have h := hapart ⟨0, 3, 1⟩ (by decide +kernel)
  revert h
  unfold Live.Apart
  decide +kernel

end Comanche.Block.BitmapIkv
