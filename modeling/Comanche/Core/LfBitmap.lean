import Comanche.Lib.Run
import Comanche.Lib.Bitmap

/-!
# The lock-free bitmap

`Relocatable_LF_bitmap` keeps one bit for each slot, set while the slot is free.
-/

namespace Comanche.Core.LfBitmap

open Lib Lib.Bitmap

def ffsll (w : BitVec 64) : Nat := ((List.range 64).find? fun i => w.getLsbD i).elim 0 (· + 1)

/-- Where `allocate` is: in the loop from `start` to the last word, or `again` in the one from 0 to `start`. -/
structure Cursor where
  start : Nat
  curr : Nat
  again : Bool
  deriving DecidableEq

inductive Pc where
  | idle
  | test (c : Cursor)
  | scan (c : Cursor)
  | read (c : Cursor) (offset : Nat)
  | swap (c : Cursor) (offset : Nat) (old : BitVec 64)
  | check (slot : Nat)
  | load (slot : Nat)
  | exchange (slot : Nat) (old : BitVec 64)
  | threw
  /-- `assert(_n_qwords > 0)` has failed. -/
  | aborted
  deriving DecidableEq

/-- `held` are the slots that were returned and not freed, with the thread that holds them. -/
structure State where
  n : Nat
  bitmap : Words
  pc : Nat → Pc
  held : List (Nat × Nat)

def State.nElements (s : State) : Nat := s.n % 2 ^ 32

def State.nQwords (s : State) : Nat := (s.nElements + 63) % 2 ^ 32 / 64

def State.new (n : Nat) : State := ⟨n, fun _ => BitVec.allOnes 64, fun _ => .idle, []⟩

def State.slots (s : State) : List Nat := s.held.map Prod.snd

def Cursor.stop (c : Cursor) (nQwords : Nat) : Nat := if c.again then c.start else nQwords

def State.to (s : State) (t : Nat) (pc : Pc) : State := { s with pc := Function.update s.pc t pc }

def State.setWord (s : State) (q : Nat) (w : BitVec 64) : State := { s with bitmap := Function.update s.bitmap q w }

def State.taken (s : State) (t q : Nat) (w : BitVec 64) (slot : Nat) : State :=
  { (s.setWord q w).to t .idle with held := s.held ++ [(t, slot)] }

def State.given (s : State) (t q : Nat) (w : BitVec 64) (slot : Nat) : State :=
  { (s.setWord q w).to t .idle with held := s.held.erase (t, slot) }

def Cursor.leave (c : Cursor) : Pc := if c.again then .threw else .test ⟨c.start, 0, true⟩

def State.allocStep (s : State) (t : Nat) : Pc → State
  | .test c =>
    if c.curr = c.stop s.nQwords then s.to t c.leave
    else if s.bitmap c.curr = 0#64 then s.to t (.test { c with curr := c.curr + 1 })
    else s.to t (.scan c)
  | .scan c =>
    match ffsll (s.bitmap c.curr) with
    | 0 => s.to t (.test c)
    | offset + 1 => s.to t (.read c offset)
  | .read c offset => s.to t (.swap c offset (s.bitmap c.curr))
  | .swap c offset old =>
    if s.bitmap c.curr = old then s.taken t c.curr (old &&& ~~~(1#64 <<< offset)) (c.curr * 64 + offset)
    else s.to t (.test c)
  | _ => s

def State.freeStep (s : State) (t : Nat) : Pc → State
  | .check slot => if bit s.bitmap slot then s.to t .threw else s.to t (.load slot)
  | .load slot => s.to t (.exchange slot (s.bitmap (slot / 64)))
  | .exchange slot old =>
    if s.bitmap (slot / 64) = old then s.given t (slot / 64) (old ||| (1#64 <<< (slot % 64))) slot
    else s.to t (.load slot)
  | _ => s

def State.go (s : State) (t : Nat) : Option State :=
  match s.pc t with
  | .idle | .threw | .aborted => none
  | .check slot => some (s.freeStep t (.check slot))
  | .load slot => some (s.freeStep t (.load slot))
  | .exchange slot old => some (s.freeStep t (.exchange slot old))
  | pc => some (s.allocStep t pc)

def Pc.Ended (pc : Pc) : Prop := pc = .idle ∨ pc = .threw

instance (pc : Pc) : Decidable pc.Ended := inferInstanceAs (Decidable (_ ∨ _))

inductive Event where
  | alloc (t r : Nat)
  | free (t slot : Nat)
  | go (t : Nat)

def State.start (s : State) (t r : Nat) : State :=
  s.to t (if s.nQwords = 0 then .aborted else .test ⟨r % s.nQwords, r % s.nQwords, false⟩)

/-- A thread makes one call after the other and frees only what it holds. -/
def step (s : State) : Event → Option State
  | .alloc t r => if (s.pc t).Ended then some (s.start t r) else none
  | .free t slot => if (s.pc t).Ended ∧ (t, slot) ∈ s.held then some (s.to t (.check slot)) else none
  | .go t => s.go t

/-- The state after at most `k` steps of thread `t` and of no other. -/
def State.alone (t : Nat) : Nat → State → State
  | 0, s => s
  | k + 1, s =>
    match s.go t with
    | none => s
    | some s' => State.alone t k s'

/-- No slot is held twice, the slots are below `n`, the set bits are those of the slots not held, and `allocate`, run
alone, returns and throws only if all slots are held. -/
structure State.Fine (s : State) : Prop where
  once : s.slots.Nodup
  below : ∀ slot ∈ s.slots, slot < s.n
  bits : ∀ slot < s.n, bit s.bitmap slot = true ↔ slot ∉ s.slots
  ends : ∀ t r, (s.pc t).Ended → ∃ k, (((s.start t r).alone t k).pc t).Ended
  throws : ∀ t r, (s.pc t).Ended → ∀ k, ((s.start t r).alone t k).pc t = .threw → ∀ slot < s.n, slot ∈ s.slots

def Holds (s : State) (e : Event) : Prop := ∀ s' ∈ step s e, s'.Fine

/-- An exchange of `allocate` that succeeds finds the chosen bit set. -/
def Safe (s : State) : Event → Prop
  | .go t =>
    match s.pc t with
    | .swap c offset old => s.bitmap c.curr = old → old.getLsbD offset = true
    | _ => True
  | _ => True

instance (s : State) (e : Event) : Decidable (Safe s e) := by
  unfold Safe
  repeat' split
  all_goals infer_instance

section Alone

variable {s s' : State} {t : Nat} {Z : Prop}

/-- Thread `t` comes to the end of its call when it runs alone, and throws only under `Z`. -/
def Outcome (t : Nat) (Z : Prop) (s : State) : Prop :=
  (∃ k, ((s.alone t k).pc t).Ended) ∧ ∀ k, (s.alone t k).pc t = .threw → Z

theorem Outcome.back (h : Outcome t Z s') (hgo : s.go t = some s') (hpc : s.pc t ≠ .threw) : Outcome t Z s := by
  have hsucc : ∀ k, s.alone t (k + 1) = s'.alone t k := fun k => by
    rw [State.alone, hgo]
  obtain ⟨⟨k, hk⟩, hthrew⟩ := h
  refine ⟨⟨k + 1, by rwa [hsucc]⟩, fun k hk => ?_⟩
  cases k with
  | zero => exact absurd hk hpc
  | succ k => exact hthrew k (by rwa [← hsucc])

theorem alone_of_ended (h : (s.pc t).Ended) (k : Nat) : s.alone t k = s := by
  cases k with
  | zero => rfl
  | succ k =>
    have hgo : s.go t = none := by
      unfold State.go
      obtain h | h := h
      · rw [h]
      · rw [h]
    rw [State.alone, hgo]

theorem Outcome.of_ended (h : (s.pc t).Ended) (hZ : s.pc t = .threw → Z) : Outcome t Z s := by
  refine ⟨⟨0, h⟩, fun k hk => hZ ?_⟩
  rwa [alone_of_ended h] at hk

@[simp] theorem to_pc (pc : Pc) : (s.to t pc).pc t = pc := Function.update_self ..

@[simp] theorem to_bitmap (pc : Pc) : (s.to t pc).bitmap = s.bitmap := rfl

@[simp] theorem to_nQwords (pc : Pc) : (s.to t pc).nQwords = s.nQwords := rfl

structure Passed (s : State) (c : Cursor) : Prop where
  start : c.start < s.nQwords
  curr : c.curr ≤ c.stop s.nQwords
  first : ∀ q, c.start ≤ q → q < (if c.again then s.nQwords else c.curr) → s.bitmap q = 0#64
  second : c.again = true → ∀ q, q < c.curr → s.bitmap q = 0#64

theorem ffsll_of_ne_zero {w : BitVec 64} (hw : w ≠ 0#64) : ∃ off, ffsll w = off + 1 ∧ off < 64 ∧ w.getLsbD off = true := by
  unfold ffsll
  cases hfind : (List.range 64).find? fun i => w.getLsbD i with
  | none =>
    refine absurd (BitVec.eq_of_getLsbD_eq fun i hi => ?_) hw
    have := List.find?_eq_none.mp hfind i (List.mem_range.mpr hi)
    rw [BitVec.getLsbD_zero]
    simpa using this
  | some off => exact ⟨off, rfl, List.mem_range.mp (List.mem_of_find?_eq_some hfind), List.find?_some hfind⟩

theorem outcome_scan {c : Cursor} (hpc : s.pc t = .scan c) (hw : s.bitmap c.curr ≠ 0#64) : Outcome t Z s := by
  obtain ⟨off, hoff, -, -⟩ := ffsll_of_ne_zero hw
  let s₁ := s.to t (.read c off)
  let s₂ := s₁.to t (.swap c off (s.bitmap c.curr))
  let s₃ := s₂.taken t c.curr (s.bitmap c.curr &&& ~~~(1#64 <<< off)) (c.curr * 64 + off)
  have hscan : s.go t = some s₁ := by simp only [State.go, hpc, State.allocStep, hoff, s₁]
  have hread : s₁.go t = some s₂ := by simp only [State.go, to_pc, State.allocStep, to_bitmap, s₁, s₂]
  have hswap : s₂.go t = some s₃ := by simp only [State.go, to_pc, State.allocStep, to_bitmap, if_true, s₁, s₂, s₃]
  have hidle : s₃.pc t = .idle := to_pc (s := s₂.setWord c.curr _) _
  have hend : Outcome t Z s₃ := Outcome.of_ended (Or.inl hidle) (by simp [hidle])
  exact ((hend.back hswap (by simp [s₂])).back hread (by simp [s₁])).back hscan (by simp [hpc])

def Cursor.left (c : Cursor) (nQwords : Nat) : Nat :=
  if c.again then c.start - c.curr else nQwords - c.curr + 1 + c.start

theorem Passed.next {c : Cursor} (h : Passed s c) (hcurr : c.curr ≠ c.stop s.nQwords) (hw : s.bitmap c.curr = 0#64) :
    Passed s { c with curr := c.curr + 1 } := by
  refine ⟨h.start, Nat.lt_of_le_of_ne h.curr hcurr, fun q hq hlt => ?_, fun hagain q hq => ?_⟩
  · by_cases hsame : q = c.curr
    · rw [hsame, hw]
    · refine h.first q hq ?_
      split
      · rwa [if_pos ‹_›] at hlt
      · rw [if_neg ‹_›] at hlt
        change q < c.curr + 1 at hlt
        omega
  · by_cases hsame : q = c.curr
    · rw [hsame, hw]
    · change q < c.curr + 1 at hq
      exact h.second hagain q (by omega)

theorem Passed.wrap {start : Nat} (h : Passed s ⟨start, s.nQwords, false⟩) : Passed s ⟨start, 0, true⟩ :=
  ⟨h.start, Nat.zero_le _, h.first, fun _ q hq => absurd hq (Nat.not_lt_zero q)⟩

theorem Passed.all {start : Nat} (h : Passed s ⟨start, start, true⟩) (q : Nat) (hq : q < s.nQwords) :
    s.bitmap q = 0#64 := by
  by_cases hlt : q < start
  · exact h.second rfl q hlt
  · exact h.first q (Nat.le_of_not_lt hlt) hq

theorem Passed.to {c : Cursor} (h : Passed s c) (pc : Pc) : Passed (s.to t pc) c := ⟨h.start, h.curr, h.first, h.second⟩

theorem outcome_test {c : Cursor} (hpc : s.pc t = .test c) (h : Passed s c) :
    Outcome t (∀ q < s.nQwords, s.bitmap q = 0#64) s := by
  -- on the words that are still to be passed in the two loops
  induction hn : c.left s.nQwords using Nat.strong_induction_on generalizing s c with
  | _ n ih =>
    subst hn
    have hne : s.pc t ≠ .threw := by simp [hpc]
    by_cases hstop : c.curr = c.stop s.nQwords
    · have hgo : s.go t = some (s.to t c.leave) := by simp only [State.go, hpc, State.allocStep, if_pos hstop]
      obtain ⟨start, curr, again⟩ := c
      cases again with
      | true =>
        obtain rfl : curr = start := hstop
        exact (Outcome.of_ended (Or.inr (to_pc _)) fun _ => h.all).back hgo hne
      | false =>
        obtain rfl : curr = s.nQwords := hstop
        refine (ih _ ?_ (to_pc _) (h.wrap.to _) rfl).back hgo hne
        simp only [Cursor.left, to_nQwords, if_true]
        rw [if_neg (by decide)]
        omega
    · have hlt := Nat.lt_of_le_of_ne h.curr hstop
      by_cases hw : s.bitmap c.curr = 0#64
      · have hgo : s.go t = some (s.to t (.test { c with curr := c.curr + 1 })) := by
          simp only [State.go, hpc, State.allocStep, if_neg hstop, if_pos hw]
        refine (ih _ ?_ (to_pc _) ((h.next hstop hw).to _) rfl).back hgo hne
        simp only [Cursor.left, to_nQwords]
        unfold Cursor.stop at hlt
        split at hlt
        · rw [if_pos ‹_›, if_pos ‹_›]
          omega
        · rw [if_neg ‹_›, if_neg ‹_›]
          omega
      · have hgo : s.go t = some (s.to t (.scan c)) := by
          simp only [State.go, hpc, State.allocStep, if_neg hstop, if_neg hw]
        exact (outcome_scan (to_pc _) hw).back hgo hne

end Alone

section Runs

variable {s s' : State} {t : Nat}

structure State.Kept (s : State) : Prop where
  words : s.nQwords * 64 = s.n
  pos : 0 < s.nQwords
  once : s.slots.Nodup
  below : ∀ slot ∈ s.slots, slot < s.n
  bits : ∀ slot < s.n, bit s.bitmap slot = true ↔ slot ∉ s.slots

def Fits (s : State) (t : Nat) : Pc → Prop
  | .idle | .threw => True
  | .test c => c.start < s.nQwords ∧ c.curr ≤ c.stop s.nQwords
  | .scan c => c.start < s.nQwords ∧ c.curr < c.stop s.nQwords
  | .read c offset | .swap c offset _ => c.start < s.nQwords ∧ c.curr < c.stop s.nQwords ∧ offset < 64
  | .check slot | .load slot | .exchange slot _ => (t, slot) ∈ s.held
  | .aborted => False

structure State.Inv (s : State) : Prop extends s.Kept where
  fits : ∀ t, Fits s t (s.pc t)

theorem Fits.congr {pc : Pc} (h : Fits s t pc) (hn : s'.n = s.n) (hheld : ∀ slot, (t, slot) ∈ s.held → (t, slot) ∈ s'.held) :
    Fits s' t pc := by
  have hq : s'.nQwords = s.nQwords := by rw [State.nQwords, State.nElements, hn, ← State.nElements, ← State.nQwords]
  cases pc with
  | check slot => exact hheld slot h
  | load slot => exact hheld slot h
  | exchange slot old => exact hheld slot h
  | idle => trivial
  | threw => trivial
  | aborted => exact h
  | test c | scan c | read c offset | swap c offset old =>
    unfold Fits
    rw [hq]
    exact h

theorem State.Inv.to (h : s.Inv) {pc : Pc} (hpc : Fits s t pc) : (s.to t pc).Inv := by
  refine ⟨⟨h.words, h.pos, h.once, h.below, h.bits⟩, ?_⟩
  refine (Function.forall_update_iff s.pc fun t' pc' => Fits (s.to t pc) t' pc').mpr ⟨hpc, fun t' _ => ?_⟩
  exact (h.fits t').congr rfl fun _ hslot => hslot

theorem Cursor.curr_lt {c : Cursor} {nQwords : Nat} (hstart : c.start < nQwords) (hcurr : c.curr < c.stop nQwords) :
    c.curr < nQwords := by
  unfold Cursor.stop at hcurr
  split at hcurr
  · omega
  · exact hcurr

theorem State.Inv.taken (h : s.Inv) {q off : Nat} (hq : q < s.nQwords) (hoff : off < 64)
    (hbit : (s.bitmap q).getLsbD off = true) : (s.taken t q (s.bitmap q &&& ~~~(1#64 <<< off)) (q * 64 + off)).Inv := by
  have hlt : q * 64 + off < s.n := by
    have := h.words
    omega
  have hfree : q * 64 + off ∉ s.slots := by
    refine (h.bits _ hlt).mp ?_
    unfold bit
    rwa [show (q * 64 + off) / 64 = q by omega, show (q * 64 + off) % 64 = off by omega]
  have hslots : (s.taken t q (s.bitmap q &&& ~~~(1#64 <<< off)) (q * 64 + off)).slots = s.slots ++ [q * 64 + off] :=
    List.map_append
  refine ⟨⟨h.words, h.pos, ?_, ?_, ?_⟩, ?_⟩
  · rw [hslots]
    exact List.nodup_append.mpr ⟨h.once, List.nodup_singleton _, fun a ha b hb => by
      rintro rfl
      exact hfree (List.mem_singleton.mp hb ▸ ha)⟩
  · rw [hslots]
    intro slot hslot
    obtain hslot | hslot := List.mem_append.mp hslot
    · exact h.below slot hslot
    · exact List.mem_singleton.mp hslot ▸ hlt
  · rw [hslots]
    intro slot hslot
    change bit (Function.update s.bitmap q _) slot = true ↔ _
    rw [bit_update_clear _ _ hoff, Bool.and_eq_true, h.bits slot hslot, decide_eq_true_iff, List.mem_append,
      List.mem_singleton, not_or]
  · refine (Function.forall_update_iff s.pc fun t' pc' => Fits _ t' pc').mpr ⟨trivial, fun t' _ => ?_⟩
    exact (h.fits t').congr rfl fun _ hslot => List.mem_append_left _ hslot

theorem State.Inv.given (h : s.Inv) {slot : Nat} (hheld : (t, slot) ∈ s.held) :
    (s.given t (slot / 64) (s.bitmap (slot / 64) ||| (1#64 <<< (slot % 64))) slot).Inv := by
  have hperm : s.slots.Perm (slot :: (s.held.erase (t, slot)).map Prod.snd) := (List.perm_cons_erase hheld).map Prod.snd
  have hnodup := List.nodup_cons.mp (hperm.nodup_iff.mp h.once)
  refine ⟨⟨h.words, h.pos, hnodup.2, fun x hx => ?_, fun x hx => ?_⟩, ?_⟩
  · exact h.below x (hperm.mem_iff.mpr (List.mem_cons_of_mem _ hx))
  · change bit (Function.update s.bitmap (slot / 64) _) x = true ↔ x ∉ (s.held.erase (t, slot)).map Prod.snd
    rw [bit_update_set _ _ (Nat.mod_lt _ (by decide)), Bool.or_eq_true, h.bits x hx, decide_eq_true_iff,
      Nat.div_add_mod' slot 64, hperm.mem_iff, List.mem_cons, not_or]
    by_cases hsame : x = slot
    · simp only [hsame, or_true, true_iff]
      exact hnodup.1
    · simp only [hsame, not_false_iff, true_and, or_false]
  · refine (Function.forall_update_iff s.pc fun t' pc' => Fits _ t' pc').mpr ⟨trivial, fun t' ht' => ?_⟩
    refine (h.fits t').congr rfl fun x hx => ?_
    exact (List.mem_erase_of_ne fun heq => ht' (congrArg Prod.fst heq)).mpr hx

theorem State.Inv.allocStep (h : s.Inv) {pc : Pc} (hpc : Fits s t pc)
    (hsafe : ∀ c offset old, pc = .swap c offset old → s.bitmap c.curr = old → old.getLsbD offset = true) :
    (s.allocStep t pc).Inv := by
  cases pc with
  | test c =>
    obtain ⟨hstart, hcurr⟩ := hpc
    rw [State.allocStep]
    split
    · refine h.to ?_
      unfold Cursor.leave
      split
      · trivial
      · exact ⟨hstart, Nat.zero_le _⟩
    · rename_i hstop
      have hlt := Nat.lt_of_le_of_ne hcurr hstop
      split
      · exact h.to ⟨hstart, hlt⟩
      · exact h.to ⟨hstart, hlt⟩
  | scan c =>
    obtain ⟨hstart, hcurr⟩ := hpc
    rw [State.allocStep]
    by_cases hw : s.bitmap c.curr = 0#64
    · rw [hw]
      exact h.to ⟨hstart, hcurr.le⟩
    · obtain ⟨off, hoff, hlt, -⟩ := ffsll_of_ne_zero hw
      rw [hoff]
      exact h.to ⟨hstart, hcurr, hlt⟩
  | read c offset => exact h.to hpc
  | swap c offset old =>
    obtain ⟨hstart, hcurr, hoff⟩ := hpc
    rw [State.allocStep]
    split
    · rename_i hsame
      subst hsame
      exact h.taken (Cursor.curr_lt hstart hcurr) hoff (hsafe c offset _ rfl rfl)
    · exact h.to ⟨hstart, hcurr.le⟩
  | _ => exact h

theorem State.Inv.freeStep (h : s.Inv) {pc : Pc} (hpc : Fits s t pc) : (s.freeStep t pc).Inv := by
  cases pc with
  | check slot =>
    rw [State.freeStep]
    split
    · exact h.to trivial
    · exact h.to hpc
  | load slot => exact h.to hpc
  | exchange slot old =>
    rw [State.freeStep]
    split
    · rename_i hsame
      subst hsame
      exact h.given hpc
    · exact h.to hpc
  | _ => exact h

theorem State.Inv.start (h : s.Inv) (r : Nat) : (s.start t r).Inv := by
  refine h.to ?_
  rw [if_neg h.pos.ne']
  have hlt := Nat.mod_lt r h.pos
  exact ⟨hlt, hlt.le⟩

theorem State.Inv.step (h : s.Inv) {e : Event} (hsafe : Safe s e) (hs' : s' ∈ step s e) : s'.Inv := by
  cases e with
  | alloc t r =>
    obtain ⟨-, hs'⟩ := Option.ite_none_right_eq_some.mp hs'
    exact Option.some.inj hs' ▸ h.start r
  | free t slot =>
    obtain ⟨⟨-, hheld⟩, hs'⟩ := Option.ite_none_right_eq_some.mp hs'
    exact Option.some.inj hs' ▸ h.to hheld
  | go t =>
    have hfits := h.fits t
    change s.go t = some s' at hs'
    unfold State.go at hs'
    rw [Safe] at hsafe
    generalize s.pc t = pc at hfits hs' hsafe
    cases pc with
    | idle | threw | aborted => cases hs'
    | check slot | load slot | exchange slot old => exact Option.some.inj hs' ▸ h.freeStep hfits
    | test c | scan c | read c offset => exact Option.some.inj hs' ▸ h.allocStep hfits nofun
    | swap c offset old =>
      refine Option.some.inj hs' ▸ h.allocStep hfits fun c' offset' old' heq => ?_
      cases heq
      exact hsafe

theorem State.Kept.all_held (h : s.Kept) (hzero : ∀ q < s.nQwords, s.bitmap q = 0#64) (slot : Nat) (hslot : slot < s.n) :
    slot ∈ s.slots := by
  by_contra hfree
  have hbit := (h.bits slot hslot).mpr hfree
  unfold bit at hbit
  rw [hzero (slot / 64) (by have := h.words; omega), BitVec.getLsbD_zero] at hbit
  cases hbit

theorem State.Inv.fine (h : s.Inv) : s.Fine := by
  have hout : ∀ t r, Outcome t (∀ q < s.nQwords, s.bitmap q = 0#64) (s.start t r) := by
    intro t r
    have hlt := Nat.mod_lt r h.pos
    have hstart : s.start t r = s.to t (.test ⟨r % s.nQwords, r % s.nQwords, false⟩) := by
      rw [State.start, if_neg h.pos.ne']
    rw [hstart]
    refine outcome_test (to_pc _) ⟨hlt, hlt.le, fun q hq hq' => ?_, nofun⟩
    exact absurd hq' (Nat.not_lt.mpr hq)
  exact ⟨h.once, h.below, h.bits, fun t r _ => (hout t r).1, fun t r _ k hk => h.all_held ((hout t r).2 k hk)⟩

theorem new_inv {n : Nat} (hdvd : 64 ∣ n) (hpos : 0 < n) (hlt : n < 2 ^ 32) : (State.new n).Inv := by
  obtain ⟨m, rfl⟩ := hdvd
  have hwords : (State.new (64 * m)).nQwords = m := by
    unfold State.nQwords State.nElements State.new
    dsimp only
    omega
  refine ⟨⟨?_, ?_, List.nodup_nil, nofun, fun slot _ => ?_⟩, fun _ => trivial⟩
  · rw [hwords]
    exact Nat.mul_comm m 64
  · rw [hwords]
    omega
  · change (BitVec.allOnes 64).getLsbD (slot % 64) = true ↔ slot ∉ []
    rw [BitVec.getLsbD_allOnes, decide_eq_true_iff]
    exact iff_of_true (Nat.mod_lt slot (by decide)) List.not_mem_nil

/-- In every run in which the exchanges of `allocate` that succeed find the chosen bit set, each slot is handed out
once. -/
theorem slots_once_of_safe (n : Nat) (hdvd : 64 ∣ n) (hpos : 0 < n) (hlt : n < 2 ^ 32) (es : List Event)
    (hsafe : Throughout step Safe (State.new n) es) : Throughout step Holds (State.new n) es :=
  hsafe.imp (I := State.Inv) (fun _ _ h hs _ hs' => (h.step hs hs').fine) (fun _ _ _ h hs hs' => h.step hs hs')
    (new_inv hdvd hpos hlt)

/-- A call of `allocate` from its start to its return, alone and without words that are zero. -/
def allocation (t : Nat) : List Event := [.alloc t 0, .go t, .go t, .go t, .go t]

theorem slots_once_threads : Throughout step Holds (State.new 64)
    (allocation 0 ++ allocation 1 ++ [.free 0 0, .go 0, .go 0, .go 0]) :=
  slots_once_of_safe 64 (by decide) (by decide) (by decide) _ (by decide +kernel)

/-- Thread 0 has chosen bit 0 when thread 1 takes it. The word that thread 0 then loads is exchanged for itself. -/
theorem not_slots_once : ¬ Throughout step Holds (State.new 64)
    ([.alloc 0 0, .go 0, .go 0] ++ allocation 1 ++ [.go 0, .go 0]) := by
  intro h
  have hfine := h.nth 9 (Option.get_mem (by decide +kernel)) rfl _ (Option.get_mem (by decide +kernel))
  exact absurd hfine.once (by decide +kernel)

end Runs

end Comanche.Core.LfBitmap
