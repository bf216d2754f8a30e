import Mathlib.Algebra.Group.Nat.Defs
import Mathlib.Logic.Function.Basic

/-!
# The pages that were written

`build_bitmap` of `page_walk.c`, in the module `xms`.
-/

namespace Comanche.Kernel.PageWalk

structure Pte where
  present : Bool
  dirty : Bool
  accessed : Bool
  rest : Nat

/-- Page `p` has the entry `p % 512` of the table `p / 512`. `upper` are the tables above, and the mappings end before
the page `mapEnd`. -/
structure Tables where
  mapEnd : Nat
  upper : Nat → Bool
  table : Nat → Bool
  pte : Nat → Pte

variable {t : Tables} {start n k : Nat} {memory : Bool}

/-- There is no result when the null pointer of `find_vma` is followed. -/
def walkPageTable (t : Tables) (page : Nat) : Option (Option Nat) :=
  if t.upper (page / 2 ^ 18) = false then some none
  else if t.mapEnd ≤ page then none
  else some (if t.table (page / 512) then some page else none)

/-- It is true of every entry but the first of a table. -/
def isLastIn4KPage (entry : Nat) : Bool := entry % 512 ≠ 0

def nextEntry (t : Tables) (page : Nat) : Option Nat → Option (Option Nat)
  | none => walkPageTable t page
  | some entry => if isLastIn4KPage entry then walkPageTable t page else some (some (entry + 1))

def Pte.clearFlags (e : Pte) : Pte := { e with dirty := false, accessed := false }

structure Harvest where
  entry : Option Nat
  bitmap : Nat → Bool
  pte : Nat → Pte

/-- The flags are cleared whether the page is present or not. -/
def Harvest.take (h : Harvest) (i : Nat) : Option Nat → Harvest
  | none => { h with entry := none }
  | some entry =>
    ⟨some entry, if (h.pte entry).present ∧ (h.pte entry).dirty then Function.update h.bitmap i true else h.bitmap,
      Function.update h.pte entry (h.pte entry).clearFlags⟩

def Harvest.round (t : Tables) (start : Nat) (h : Harvest) (i : Nat) : Option Harvest :=
  (nextEntry t (start + i) h.entry).map (h.take i)

/-- `memory` tells whether `kmalloc` has some, which is not checked. The size is that of the header. -/
def buildBitmap (t : Tables) (start n : Nat) (memory : Bool) : Option (Option (Nat × Harvest)) :=
  if t.mapEnd ≤ start then some none
  else if memory = false then none
  else ((List.range n).foldlM (Harvest.round t start) ⟨none, fun _ => false, t.pte⟩).map fun h =>
    some (n / 8 + if n % 8 = 0 then 0 else 1, h)

def Tables.mapped (t : Tables) (page : Nat) : Bool := t.upper (page / 2 ^ 18) && t.table (page / 512)

def Exact (t : Tables) (start n : Nat) (memory : Bool) : Prop :=
  ∃ h, buildBitmap t start n memory = some (some ((n + 7) / 8, h)) ∧
    (∀ i < n, h.bitmap i = true ↔ t.mapped (start + i) ∧ (t.pte (start + i)).present ∧ (t.pte (start + i)).dirty) ∧
    ∀ page, h.pte page =
      if (start ≤ page ∧ page < start + n) ∧ t.mapped page ∧ (t.pte page).present then (t.pte page).clearFlags
      else t.pte page

/-- A mapping ends behind the page, there are no tables, or the entry is reached from the one before. -/
def Reached (t : Tables) (start i : Nat) : Prop :=
  t.upper ((start + i) / 2 ^ 18) = true →
    start + i < t.mapEnd ∨ 0 < i ∧ (start + i) % 512 = 1 ∧ t.table ((start + i) / 512) = true

instance (t : Tables) (start i : Nat) : Decidable (Reached t start i) := inferInstanceAs (Decidable (_ → _))

def Clean (e : Pte) : Prop := e.present = true ∨ e.dirty = false ∧ e.accessed = false

/-- What `k` rounds have done. -/
def after (t : Tables) (start k : Nat) : Harvest :=
  ⟨if 0 < k ∧ t.mapped (start + k - 1) then some (start + k - 1) else none,
    fun i => i < k ∧ t.mapped (start + i) ∧ (t.pte (start + i)).present ∧ (t.pte (start + i)).dirty,
    fun p => if (start ≤ p ∧ p < start + k) ∧ t.mapped p then (t.pte p).clearFlags else t.pte p⟩

theorem nextEntry_after : nextEntry t (start + k) (after t start k).entry =
    if Reached t start k then some (if t.mapped (start + k) then some (start + k) else none) else none := by
  -- within one table the pages have the same tables above them
  have hsame (hfirst : (start + k) % 512 = 1) : t.mapped (start + k - 1) = t.mapped (start + k) := by
    rw [Tables.mapped, Tables.mapped, show (start + k - 1) / 512 = (start + k) / 512 by omega,
      show (start + k - 1) / 2 ^ 18 = (start + k) / 2 ^ 18 by omega]
  by_cases hshort : 0 < k ∧ t.mapped (start + k - 1) ∧ (start + k) % 512 = 1
  · obtain ⟨hk, hprev, hfirst⟩ := hshort
    have hmapped := hsame hfirst ▸ hprev
    have hreached : Reached t start k := fun _ => .inr ⟨hk, hfirst, (Bool.and_eq_true_iff.mp hmapped).2⟩
    simp [after, hk, hprev, hreached, hmapped, nextEntry, isLastIn4KPage, show (start + k - 1) % 512 = 0 by omega]
    omega
  · have hwalk : nextEntry t (start + k) (after t start k).entry = walkPageTable t (start + k) := by
      simp only [after]
      split
      · next hsome =>
        have hlast : (start + k - 1) % 512 ≠ 0 := fun h => hshort ⟨hsome.1, hsome.2, by omega⟩
        simp [nextEntry, isLastIn4KPage, hlast]
      · rfl
    have hreached : Reached t start k ↔ t.upper ((start + k) / 2 ^ 18) = true → start + k < t.mapEnd := by
      refine forall_congr' fun hupper => or_iff_left ?_
      rintro ⟨hk, hfirst, htable⟩
      exact hshort ⟨hk, hsame hfirst ▸ Bool.and_eq_true_iff.mpr ⟨hupper, htable⟩, hfirst⟩
    rw [hwalk, walkPageTable, if_congr hreached rfl rfl]
    cases hupper : t.upper ((start + k) / 2 ^ 18) with
    | false =>
      simp only [Tables.mapped, hupper]
      simp
    | true =>
      simp only [Tables.mapped, hupper]
      by_cases hend : start + k < t.mapEnd
      · simp [hend]
      · simp [hend, Nat.not_lt.mp hend]

theorem take_after :
    (after t start k).take k (if t.mapped (start + k) then some (start + k) else none) = after t start (k + 1) := by
  have hpte : (after t start k).pte (start + k) = t.pte (start + k) := by simp [after]
  by_cases hmapped : t.mapped (start + k)
  · simp only [hmapped, if_true, Harvest.take, hpte]
    simp only [after, Harvest.mk.injEq]
    refine ⟨by simp [hmapped], funext fun i => ?_, funext fun p => ?_⟩
    · split <;> grind
    · grind
  · rw [if_neg hmapped]
    simp only [Harvest.take, after, Harvest.mk.injEq]
    refine ⟨by simp [hmapped], funext fun i => ?_, funext fun p => ?_⟩ <;> grind

theorem foldlM_round : (List.range n).foldlM (Harvest.round t start) (after t start 0) =
    if ∀ i < n, Reached t start i then some (after t start n) else none := by
  induction n with
  | zero => simp
  | succ n ih =>
    rw [List.range_succ, List.foldlM_append, ih, if_congr Nat.forall_lt_succ_right rfl rfl, ite_and]
    split
    · simp only [Option.bind_eq_bind, Option.bind_some, List.foldlM_cons, List.foldlM_nil, Harvest.round, nextEntry_after]
      split <;> simp [take_after]
    · rfl

theorem Pte.clearFlags_eq {e : Pte} : e.clearFlags = e ↔ e.dirty = false ∧ e.accessed = false := by
  obtain ⟨present, dirty, accessed, rest⟩ := e
  simp [Pte.clearFlags, eq_comm]

theorem buildBitmap_eq (hstart : start < t.mapEnd) : buildBitmap t start n memory =
    if memory = true ∧ ∀ i < n, Reached t start i then some (some ((n + 7) / 8, after t start n)) else none := by
  have hzero : (⟨none, fun _ => false, t.pte⟩ : Harvest) = after t start 0 := by
    simp only [after, Harvest.mk.injEq]
    refine ⟨by simp, funext fun i => by simp, funext fun p => ?_⟩
    rw [if_neg (by omega)]
  have hsize : n / 8 + (if n % 8 = 0 then 0 else 1) = (n + 7) / 8 := by
    split <;> omega
  rw [buildBitmap, if_neg (Nat.not_le.mpr hstart), hzero, foldlM_round, hsize, ite_and]
  cases memory
  · rfl
  · simp only [if_true, Bool.true_eq_false, if_false]
    split <;> rfl

/-- The bitmap and the flags are right iff no page is looked up above the mappings and no page that is not present
has a flag. -/
theorem harvest_exact_iff (hstart : start < t.mapEnd) : Exact t start n memory ↔
    (memory = true ∧ ∀ i < n, Reached t start i) ∧ ∀ i < n, t.mapped (start + i) → Clean (t.pte (start + i)) := by
  unfold Exact
  rw [buildBitmap_eq hstart]
  constructor
  · rintro ⟨h, hbuild, -, hpte⟩
    obtain ⟨hruns, hbuild⟩ := Option.ite_none_right_eq_some.mp hbuild
    cases hbuild
    refine ⟨hruns, fun i hi hmapped => ?_⟩
    have hpage := hpte (start + i)
    by_cases hpresent : (t.pte (start + i)).present = true
    · exact .inl hpresent
    · simp only [after, hmapped, hpresent] at hpage
      rw [if_pos ⟨by omega, trivial⟩, if_neg (by simp)] at hpage
      exact .inr (Pte.clearFlags_eq.mp hpage)
  · rintro ⟨hruns, hclean⟩
    refine ⟨_, if_pos hruns, fun i hi => by simp [after, hi], fun page => ?_⟩
    simp only [after]
    split
    · next hin =>
      obtain ⟨hrange, hmapped⟩ := hin
      obtain hpresent | hflags := show Clean (t.pte page) by
        have := hclean (page - start) (by omega)
        rw [Nat.add_sub_cancel' hrange.1] at this
        exact this hmapped
      · rw [if_pos ⟨hrange, hmapped, hpresent⟩]
      · rw [Pte.clearFlags_eq.mpr hflags, ite_self]
    · next hout => rw [if_neg fun h => hout ⟨h.1, h.2.1⟩]

/-- One page, with both flags set. -/
def onePage (present : Bool) : Tables := ⟨1, fun _ => true, fun _ => true, fun _ => ⟨present, true, true, 0⟩⟩

/-- Three tables, of which the one in the middle does not exist. -/
def gap : Tables := ⟨1536, fun _ => true, fun i => i ≠ 1, fun _ => ⟨true, true, true, 0⟩⟩

/-- A range that begins at the end of the first table and ends in the third. -/
theorem harvest_exact_gap : Exact gap 510 600 true := by
  refine (harvest_exact_iff (by decide)).mpr ⟨⟨rfl, fun i hi _ => .inl ?_⟩, fun _ _ _ => .inl rfl⟩
  change 510 + i < 1536
  omega

theorem not_harvest_exact_swapped : ¬ Exact (onePage false) 0 1 true := by
  rintro ⟨h, hbuild, -, hpte⟩
  obtain rfl : _ = h := congrArg Prod.snd (Option.some.inj (Option.some.inj hbuild))
  exact Bool.false_ne_true (congrArg Pte.dirty (hpte 0))

/-- A write of the process to a page: its fault, if there is one, makes the tables that are missing, with no entry
present, and `rest` is the rest of a new entry. -/
def Tables.write (t : Tables) (page rest : Nat) : Tables where
  mapEnd := t.mapEnd
  upper := Function.update t.upper (page / 2 ^ 18) true
  table i := i = page / 512 || t.table i && (t.upper (page / 2 ^ 18) || i / 512 ≠ page / 2 ^ 18)
  pte q :=
    if q = page then ⟨true, true, true, if t.mapped page ∧ (t.pte page).present then (t.pte page).rest else rest⟩
    else if q / 512 = page / 512 ∧ t.mapped page = false then ⟨false, false, false, 0⟩
    else t.pte q

def Tables.Dirty (t : Tables) (page : Nat) : Prop := t.mapped page ∧ (t.pte page).present ∧ (t.pte page).dirty

theorem Tables.mapped_write {page rest q : Nat} (htable : q / 512 ≠ page / 512) :
    (t.write page rest).mapped q = t.mapped q := by
  have hupper : q / 512 / 512 = q / 2 ^ 18 := by omega
  simp only [Tables.mapped, Tables.write, hupper, decide_eq_false htable, Bool.false_or]
  by_cases hsame : q / 2 ^ 18 = page / 2 ^ 18
  · rw [hsame, Function.update_self]
    cases t.upper (page / 2 ^ 18) <;> simp
  · rw [Function.update_of_ne hsame, decide_eq_true hsame, Bool.or_true, Bool.and_true]

theorem Tables.dirty_write {page rest q : Nat} : (t.write page rest).Dirty q ↔ q = page ∨ t.Dirty q := by
  by_cases hpage : q = page
  · subst hpage
    simp [Tables.Dirty, Tables.mapped, Tables.write]
  by_cases htable : q / 512 = page / 512
  · -- an entry of the same table, which may be new
    have hsame : q / 2 ^ 18 = page / 2 ^ 18 := by omega
    cases hmapped : t.mapped page <;>
      simp_all [Tables.Dirty, Tables.mapped, Tables.write]
  · rw [Tables.Dirty, Tables.mapped_write htable]
    simp [Tables.Dirty, Tables.write, hpage, htable]

/-- The writes of a list of pages, each with what a new entry has. -/
def Tables.writes (t : Tables) (ws : List (Nat × Nat)) : Tables := ws.foldl (fun t w => t.write w.1 w.2) t

theorem Tables.dirty_writes (ws : List (Nat × Nat)) {q : Nat} : (t.writes ws).Dirty q ↔ q ∈ ws.map Prod.fst ∨ t.Dirty q := by
  induction ws generalizing t with
  | nil => simp [Tables.writes]
  | cons w ws ih =>
    rw [Tables.writes, List.foldl_cons, ← Tables.writes, ih, Tables.dirty_write, List.map_cons, List.mem_cons, or_left_comm,
      or_assoc]

theorem Tables.mapEnd_writes {ws : List (Nat × Nat)} : (t.writes ws).mapEnd = t.mapEnd := by
  induction ws generalizing t with
  | nil => rfl
  | cons w ws ih => exact ih (t := t.write w.1 w.2)

end Comanche.Kernel.PageWalk
