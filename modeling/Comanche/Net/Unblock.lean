import Comanche.Lib.Run
import Mathlib.Data.Nat.Basic

/-!
# Waiting for completions and unblocking

`wait_for_next_completion` blocks in `pselect` on a pipe of its own and on the completion queues.
-/

namespace Comanche.Net.Unblock

open Lib
open Function (forall_update_iff update update_of_ne update_self)

/-- What a thread does next. `began` is the time at which a call of `unblock_completions` began. -/
inductive Pc where
  | idle
  /-- `lock_guard k{_m_cnxn}` of the grouped connection. -/
  | waitLock
  | waitInsert
  | waitErase
  | waitTest
  /-- `trywait`, and what is prepared for `pselect`. -/
  | waitTry
  | blocked
  | waitLeave
  | unblockLock (began : Nat)
  | unblockSet (began : Nat)
  | unblockWrite (began : Nat)
  | shutSet
  | shutWrite
  deriving DecidableEq

/-- One endpoint. The pipe of a thread has its number and holds `bytes`, and `unwritten` are the descriptors that the
holder of the set's mutex has still to write. `now` counts the steps; a thread entered `pselect` at `entered`, the last
call of `unblock_completions` began at `begun`, and the latest that returned at `latest`. `found` are the threads that
had entered their descriptors and not taken them out when somebody began to go through the set. -/
structure State where
  grouped : Bool
  threads : Nat
  shutDown : Bool
  fdUnblockSet : List Nat
  setMutex : Option Nat
  unwritten : List Nat
  cnxnMutex : Option Nat
  bytes : Nat → Nat
  pc : Nat → Pc
  now : Nat
  entered : Nat → Nat
  begun : Nat
  latest : Nat
  shutReturned : Bool
  found : Nat → Bool

def State.new (grouped : Bool) (threads : Nat) : State :=
  { grouped := grouped
    threads := threads
    shutDown := false
    fdUnblockSet := []
    setMutex := none
    unwritten := []
    cnxnMutex := none
    bytes := fun _ => 0
    pc := fun _ => .idle
    now := 1
    entered := fun _ => 0
    begun := 0
    latest := 0
    shutReturned := false
    found := fun _ => false }

def State.to (s : State) (t : Nat) (pc : Pc) : State := { s with pc := update s.pc t pc, now := s.now + 1 }

def State.setCnxn (s : State) (m : Option Nat) : State := { s with cnxnMutex := m }

/-- The lock of the set is taken, and the loop over the set begins. -/
def State.lockSet (s : State) (t : Nat) : State :=
  { s with
    setMutex := some t
    unwritten := s.fdUnblockSet
    found := fun w => s.found w || decide (s.pc w = .waitErase) }

def State.unlockSet (s : State) : State := { s with setMutex := none }

def State.setFds (s : State) (fds : List Nat) : State := { s with fdUnblockSet := fds }

def State.write (s : State) (fd : Nat) (fds : List Nat) : State :=
  { s with bytes := update s.bytes fd (s.bytes fd + 1), unwritten := fds }

def State.pipe (s : State) (t : Nat) : State :=
  { s with bytes := update s.bytes t 0, found := update s.found t false }

def State.enter (s : State) (t : Nat) : State := { s with entered := update s.entered t s.now }

def State.release (s : State) : State := if s.grouped then s.setCnxn none else s

/-- The next step of a thread in `wait_for_next_completion`. `ok` is what `trywait` answers; `pselect` ends when a
descriptor is ready, at the timeout or with a signal. -/
def State.waitStep (s : State) (t : Nat) (ok : Bool) : Pc → Option State
  | .waitLock => if s.cnxnMutex = none then some ((s.setCnxn (some t)).to t .waitInsert) else none
  | .waitInsert => if s.setMutex = none then some ((s.setFds (s.fdUnblockSet.insert t)).to t .waitErase) else none
  | .waitErase => if s.setMutex = none then some ((s.setFds (s.fdUnblockSet.erase t)).to t .waitTest) else none
  | .waitTest => some (s.to t (if s.shutDown then .waitLeave else .waitTry))
  | .waitTry => some (if ok then (s.enter t).to t .blocked else s.to t .waitLeave)
  | .blocked => some (s.to t .waitLeave)
  | .waitLeave => some (s.release.to t .idle)
  | _ => none

def State.unblockStep (s : State) (t : Nat) : Pc → Option State
  | .unblockLock began => if s.cnxnMutex = none then some ((s.setCnxn (some t)).to t (.unblockSet began)) else none
  | .unblockSet began => if s.setMutex = none then some ((s.lockSet t).to t (.unblockWrite began)) else none
  | .unblockWrite began =>
    match s.unwritten with
    | fd :: fds => some ((s.write fd fds).to t (.unblockWrite began))
    | [] => some { s.unlockSet.release.to t .idle with latest := max s.latest began }
  | .shutSet => if s.setMutex = none then some ((s.lockSet t).to t .shutWrite) else none
  | .shutWrite =>
    match s.unwritten with
    | fd :: fds => some ((s.write fd fds).to t .shutWrite)
    | [] => some { s.unlockSet.to t .idle with shutReturned := true }
  | _ => none

inductive Event where
  | wait (t : Nat)
  | unblock (t : Nat)
  /-- `Fabric_op_control::cb` with FI_SHUTDOWN. -/
  | shutdown (t : Nat)
  | go (t : Nat) (ok : Bool)

def step (s : State) : Event → Option State
  | .wait t =>
    if t < s.threads ∧ s.pc t = .idle then some ((s.pipe t).to t (if s.grouped then .waitLock else .waitInsert)) else none
  | .unblock t =>
    if t < s.threads ∧ s.pc t = .idle then
      some { s.to t (if s.grouped then .unblockLock s.now else .unblockSet s.now) with begun := s.now }
    else none
  | .shutdown t => if t < s.threads ∧ s.pc t = .idle then some { s.to t .shutSet with shutDown := true } else none
  | .go t ok => (s.waitStep t ok (s.pc t)).or (s.unblockStep t (s.pc t))

/-- A thread in `pselect` has a byte to read when the callback, or a call of `unblock_completions` begun after the
thread entered, has returned; and it does not hold the lock that `unblock_completions` takes. -/
structure State.Fine (s : State) : Prop where
  byte : ∀ w < s.threads, s.pc w = .blocked → s.entered w < s.latest ∨ s.shutReturned = true → 0 < s.bytes w
  lock : ∀ w < s.threads, s.pc w = .blocked → s.cnxnMutex ≠ some w

def Holds (s : State) (e : Event) : Prop := ∀ s' ∈ step s e, s'.Fine

def Pc.tested (pc : Pc) : Bool := pc = .waitTry ∨ pc = .blocked

/-- The schedule. When a call of `unblock_completions` begins, each thread in `pselect` had its descriptor in the set
when somebody began to go through it; when the shutdown comes, so had each thread between the test for it and the end
of `pselect`; and no thread comes to `pselect` on a grouped connection. -/
def Safe (s : State) : Event → Prop
  | .wait _ => True
  | .unblock _ => ∀ w < s.threads, s.pc w = .blocked → s.found w = true
  | .shutdown _ => ∀ w < s.threads, (s.pc w).tested = true → s.found w = true
  | .go t ok => s.grouped = true → s.pc t = .waitTry → ok = false

instance (s : State) (e : Event) : Decidable (Safe s e) := by
  unfold Safe
  split <;> infer_instance

section Runs

variable {s s₁ s' : State} {t : Nat} {pc : Pc}

/-- A thread that was found has been written to, at the latest when it takes its descriptor out of the set. -/
def Good (s : State) (t : Nat) : Pc → Prop
  | .waitLock => s.grouped = true ∧ s.found t = false
  | .waitInsert => s.found t = false
  | .waitErase => t ∈ s.fdUnblockSet ∧ (s.found t = true → 0 < s.bytes t ∨ t ∈ s.unwritten)
  | .waitTest => s.found t = true → 0 < s.bytes t
  | .waitTry => (s.shutDown = true → s.found t = true) ∧ (s.found t = true → 0 < s.bytes t)
  | .blocked => (s.shutDown = true → s.found t = true) ∧ (s.entered t < s.begun → s.found t = true) ∧
    (s.found t = true → 0 < s.bytes t) ∧ s.grouped = false
  | .unblockLock began => s.grouped = true ∧ began ≤ s.begun
  | .unblockSet began => began ≤ s.begun
  | .unblockWrite began => began ≤ s.begun ∧ s.setMutex = some t
  | .shutSet => s.shutDown = true
  | .shutWrite => s.shutDown = true ∧ s.setMutex = some t
  | .idle | .waitLeave => True

structure State.Inv (s : State) : Prop where
  outside : ∀ t, ¬ t < s.threads → s.pc t = .idle
  time : s.begun < s.now
  latest : s.latest ≤ s.begun
  shut : s.shutReturned = true → s.shutDown = true
  lock : s.grouped = false → s.cnxnMutex = none
  written : s.setMutex = none → s.unwritten = []
  good : ∀ t, Good s t (s.pc t)

theorem State.Inv.fine (h : s.Inv) : s.Fine := by
  refine ⟨fun w _ hw hreturned => ?_, fun w _ hw => ?_⟩
  · have hgood := h.good w
    rw [hw] at hgood
    obtain ⟨hshutDown, hbegun, hbyte, -⟩ := hgood
    rcases hreturned with hlate | hshut
    · exact hbyte (hbegun (Nat.lt_of_lt_of_le hlate h.latest))
    · exact hbyte (hshutDown (h.shut hshut))
  · have hgood := h.good w
    rw [hw] at hgood
    rw [h.lock hgood.2.2.2]
    exact nofun

theorem State.Inv.outside_update (h : s.Inv) (ht : t < s.threads) (t' : Nat) (ht' : ¬ t' < s.threads) :
    update s.pc t pc t' = .idle := by
  have hne : t' ≠ t := fun heq => ht' (heq ▸ ht)
  rw [update_of_ne hne, h.outside t' ht']

theorem State.Inv.inside (h : s.Inv) (hpc : s.pc t ≠ .idle) : t < s.threads := by
  by_contra ht
  exact hpc (h.outside t ht)

/-- What a step of `t` does to the state and to the other threads. -/
structure Changes (t : Nat) (s s₁ : State) : Prop where
  grouped : s₁.grouped = s.grouped
  threads : s₁.threads = s.threads
  shutDown : s₁.shutDown = s.shutDown
  begun : s₁.begun = s.begun
  now : s₁.now = s.now
  pc : s₁.pc = s.pc
  latest : s₁.latest ≤ s.begun
  shut : s₁.shutReturned = true → s.shutDown = true
  lock : s.grouped = false → s₁.cnxnMutex = none
  written : s₁.setMutex = none → s₁.unwritten = []
  entered : ∀ w, w ≠ t → s₁.entered w = s.entered w
  bytes : ∀ w, w ≠ t → s.bytes w ≤ s₁.bytes w
  found : ∀ w, w ≠ t → s.pc w ≠ .waitErase → s₁.found w = s.found w
  holder : ∀ w, w ≠ t → s.setMutex = some w → s₁.setMutex = some w
  member : ∀ w, w ≠ t → w ∈ s.fdUnblockSet → w ∈ s₁.fdUnblockSet
  owed : ∀ w, w ≠ t → w ∈ s.fdUnblockSet → (s.found w = true → 0 < s.bytes w ∨ w ∈ s.unwritten) →
    s₁.found w = true → 0 < s₁.bytes w ∨ w ∈ s₁.unwritten

theorem State.Inv.changes_self (h : s.Inv) : Changes t s s :=
  { grouped := rfl, threads := rfl, shutDown := rfl, begun := rfl, now := rfl, pc := rfl, latest := h.latest,
    shut := h.shut, lock := h.lock, written := h.written, entered := fun _ _ => rfl, bytes := fun _ _ => Nat.le_refl _,
    found := fun _ _ _ => rfl, holder := fun _ _ hw => hw, member := fun _ _ hw => hw, owed := fun _ _ _ hw => hw }

theorem Changes.good (hc : Changes t s s₁) {w : Nat} (hw : w ≠ t) (h : Good s w (s.pc w)) : Good s₁ w (s.pc w) := by
  have hfound := hc.found w hw
  have hbyte : (s.found w = true → 0 < s.bytes w) → s.found w = true → 0 < s₁.bytes w :=
    fun h hp => Nat.lt_of_lt_of_le (h hp) (hc.bytes w hw)
  generalize s.pc w = pc' at h hfound
  cases pc' with
  | waitLock => exact ⟨hc.grouped.trans h.1, (hfound nofun).trans h.2⟩
  | waitInsert => exact (hfound nofun).trans h
  | waitErase => exact ⟨hc.member w hw h.1, hc.owed w hw h.1 h.2⟩
  | waitTest =>
    unfold Good
    rw [hfound nofun]
    exact hbyte h
  | waitTry =>
    unfold Good
    rw [hc.shutDown, hfound nofun]
    exact ⟨h.1, hbyte h.2⟩
  | blocked =>
    unfold Good
    rw [hc.shutDown, hc.begun, hc.entered w hw, hc.grouped, hfound nofun]
    exact ⟨h.1, h.2.1, hbyte h.2.2.1, h.2.2.2⟩
  | unblockLock began =>
    unfold Good
    rw [hc.grouped, hc.begun]
    exact h
  | unblockSet began =>
    unfold Good
    rw [hc.begun]
    exact h
  | unblockWrite began =>
    unfold Good
    rw [hc.begun]
    exact ⟨h.1, hc.holder w hw h.2⟩
  | shutSet => exact hc.shutDown.trans h
  | shutWrite => exact ⟨hc.shutDown.trans h.1, hc.holder w hw h.2⟩
  | idle | waitLeave => trivial

theorem State.Inv.move (h : s.Inv) (hc : Changes t s s₁) (ht : t < s.threads) (hpc : Good s₁ t pc) : (s₁.to t pc).Inv := by
  refine ⟨fun t' ht' => ?_, ?_, ?_, ?_, ?_, hc.written, ?_⟩
  · change update s₁.pc t pc t' = .idle
    rw [hc.pc]
    exact h.outside_update ht t' (hc.threads ▸ ht')
  · have := h.time
    change s₁.begun < s₁.now + 1
    rw [hc.begun, hc.now]
    omega
  · exact hc.begun ▸ hc.latest
  · exact fun hshut => hc.shutDown.trans (hc.shut hshut)
  · exact fun hgrouped => hc.lock (hc.grouped ▸ hgrouped)
  · refine (forall_update_iff s₁.pc fun t' pc' => Good s₁ t' pc').mpr ⟨hpc, fun t' ht' => ?_⟩
    rw [hc.pc]
    exact hc.good ht' (h.good t')

section

variable (hc : Changes t s s₁)
include hc

theorem Changes.setCnxn (hgrouped : s.grouped = true) (m : Option Nat) : Changes t s (s₁.setCnxn m) :=
  { hc with lock := fun h => absurd (h.symm.trans hgrouped) (by decide) }

theorem Changes.release : Changes t s s₁.release := by
  unfold State.release
  split
  · rename_i hgrouped
    exact hc.setCnxn (hc.grouped.symm.trans hgrouped) none
  · exact hc

theorem Changes.setFds {fds : List Nat} (hfds : ∀ w, w ≠ t → w ∈ s₁.fdUnblockSet → w ∈ fds) :
    Changes t s (s₁.setFds fds) :=
  { hc with member := fun w hw hmem => hfds w hw (hc.member w hw hmem) }

theorem Changes.pipe : Changes t s (s₁.pipe t) := by
  have hbytes (w : Nat) (hw : w ≠ t) : (s₁.pipe t).bytes w = s₁.bytes w := update_of_ne hw _ _
  have hfound (w : Nat) (hw : w ≠ t) : (s₁.pipe t).found w = s₁.found w := update_of_ne hw _ _
  refine { hc with
    bytes := fun w hw => (hbytes w hw).symm ▸ hc.bytes w hw
    found := fun w hw hpc => (hfound w hw).trans (hc.found w hw hpc)
    owed := fun w hw hmem howed => ?_ }
  rw [hfound w hw, hbytes w hw]
  exact hc.owed w hw hmem howed

theorem Changes.enter : Changes t s (s₁.enter t) :=
  { hc with entered := fun w hw => (update_of_ne hw _ _).trans (hc.entered w hw) }

end

/-- Those who are found are in the set that is gone through. -/
theorem State.Inv.changes_lockSet (h : s.Inv) (hset : s.setMutex = none) : Changes t s (s.lockSet t) := by
  refine { h.changes_self (t := t) with
    written := nofun
    found := fun w _ hpc => ?_
    holder := fun w _ hw => absurd (hset.symm.trans hw) nofun
    owed := fun w _ hmem _ _ => Or.inr hmem }
  change (s.found w || decide (s.pc w = .waitErase)) = s.found w
  rw [decide_eq_false hpc, Bool.or_false]

theorem State.Inv.changes_write (h : s.Inv) {fd : Nat} {fds : List Nat} (hfds : s.unwritten = fd :: fds)
    (hset : s.setMutex = some t) : Changes t s (s.write fd fds) := by
  have hself : (s.write fd fds).bytes fd = s.bytes fd + 1 := update_self ..
  have hbytes (w : Nat) : s.bytes w ≤ (s.write fd fds).bytes w := by
    by_cases hfd : w = fd
    · rw [hfd, hself]
      exact Nat.le_succ _
    · exact Nat.le_of_eq (update_of_ne hfd _ _).symm
  refine { h.changes_self (t := t) with
    written := fun hnone => absurd (hset.symm.trans hnone) nofun
    bytes := fun w _ => hbytes w
    owed := fun w _ _ howed hw => ?_ }
  rcases howed hw with hpos | hmem
  · exact Or.inl (Nat.lt_of_lt_of_le hpos (hbytes w))
  · rw [hfds] at hmem
    rcases List.mem_cons.mp hmem with rfl | hmem
    · exact Or.inl (hself ▸ Nat.succ_pos _)
    · exact Or.inr hmem

theorem State.Inv.changes_unlockSet (h : s.Inv) (hfds : s.unwritten = []) (hset : s.setMutex = some t) :
    Changes t s s.unlockSet :=
  { h.changes_self (t := t) with
    written := fun _ => hfds
    holder := fun _ hw hother => absurd (Option.some.inj (hother.symm.trans hset)) hw }

theorem State.Inv.waitStep (h : s.Inv) (ht : t < s.threads) {ok : Bool} (hpc : Good s t pc)
    (hsafe : s.grouped = true → pc = .waitTry → ok = false) (hs' : s' ∈ s.waitStep t ok pc) : s'.Inv := by
  have hc := h.changes_self (t := t)
  cases pc with
  | waitLock =>
    obtain ⟨-, hs'⟩ := Option.ite_none_right_eq_some.mp hs'
    exact Option.some.inj hs' ▸ h.move (hc.setCnxn hpc.1 _) ht hpc.2
  | waitInsert =>
    obtain ⟨-, hs'⟩ := Option.ite_none_right_eq_some.mp hs'
    have hnew : s.found t = false := hpc
    refine Option.some.inj hs' ▸ h.move (hc.setFds fun w _ hw => List.mem_insert_of_mem hw) ht ⟨List.mem_insert_self, ?_⟩
    exact fun hfound => absurd (hnew.symm.trans hfound) nofun
  | waitErase =>
    -- nobody is in the loop over the set
    obtain ⟨hset, hs'⟩ := Option.ite_none_right_eq_some.mp hs'
    refine Option.some.inj hs' ▸ h.move (hc.setFds fun w hw hmem => (List.mem_erase_of_ne hw).mpr hmem) ht fun hfound => ?_
    rcases hpc.2 hfound with hpos | hmem
    · exact hpos
    · rw [h.written hset] at hmem
      cases hmem
  | waitTest =>
    refine Option.some.inj hs' ▸ h.move hc ht ?_
    split
    · trivial
    · exact ⟨fun hshut => absurd hshut ‹_›, hpc⟩
  | waitTry =>
    cases ok with
    | false => exact Option.some.inj hs' ▸ h.move hc ht trivial
    | true =>
      -- the call that began last did so before this step
      have hgrouped : s.grouped = false := by
        rw [← Bool.not_eq_true]
        exact fun hgrouped => absurd (hsafe hgrouped rfl) (by decide)
      refine Option.some.inj hs' ▸ h.move hc.enter ht ⟨hpc.1, fun hlate => ?_, hpc.2, hgrouped⟩
      have htime := h.time
      change update s.entered t s.now t < s.begun at hlate
      rw [update_self] at hlate
      omega
  | blocked => exact Option.some.inj hs' ▸ h.move hc ht trivial
  | waitLeave => exact Option.some.inj hs' ▸ h.move hc.release ht trivial
  | idle | unblockLock | unblockSet | unblockWrite | shutSet | shutWrite => cases hs'

theorem State.Inv.unblockStep (h : s.Inv) (ht : t < s.threads) (hpc : Good s t pc) (hs' : s' ∈ s.unblockStep t pc) :
    s'.Inv := by
  cases pc with
  | unblockLock began =>
    obtain ⟨-, hs'⟩ := Option.ite_none_right_eq_some.mp hs'
    exact Option.some.inj hs' ▸ h.move (h.changes_self.setCnxn hpc.1 _) ht hpc.2
  | unblockSet began =>
    obtain ⟨hset, hs'⟩ := Option.ite_none_right_eq_some.mp hs'
    exact Option.some.inj hs' ▸ h.move (h.changes_lockSet hset) ht ⟨hpc, rfl⟩
  | unblockWrite began =>
    obtain ⟨hbegan, hset⟩ := hpc
    unfold State.unblockStep at hs'
    dsimp only at hs'
    split at hs'
    · exact Option.some.inj hs' ▸ h.move (h.changes_write ‹_› hset) ht ⟨hbegan, hset⟩
    · have hend := (h.changes_unlockSet ‹_› hset).release
      have hreturn : Changes t s { s.unlockSet.release with latest := max s.latest began } :=
        { hend with latest := Nat.max_le.mpr ⟨h.latest, hbegan⟩ }
      exact Option.some.inj hs' ▸ h.move hreturn ht trivial
  | shutSet =>
    obtain ⟨hset, hs'⟩ := Option.ite_none_right_eq_some.mp hs'
    exact Option.some.inj hs' ▸ h.move (h.changes_lockSet hset) ht ⟨hpc, rfl⟩
  | shutWrite =>
    obtain ⟨hshut, hset⟩ := hpc
    unfold State.unblockStep at hs'
    dsimp only at hs'
    split at hs'
    · exact Option.some.inj hs' ▸ h.move (h.changes_write ‹_› hset) ht ⟨hshut, hset⟩
    · have hend := h.changes_unlockSet ‹_› hset
      have hreturn : Changes t s { s.unlockSet with shutReturned := true } := { hend with shut := fun _ => hshut }
      exact Option.some.inj hs' ▸ h.move hreturn ht trivial
  | idle | waitLock | waitInsert | waitErase | waitTest | waitTry | blocked | waitLeave => cases hs'

theorem State.Inv.unblock (h : s.Inv) (ht : t < s.threads) (hsafe : Safe s (.unblock t))
    (hpc : pc = if s.grouped then .unblockLock s.now else .unblockSet s.now) :
    State.Inv { s.to t pc with begun := s.now } := by
  have htime := Nat.le_of_lt h.time
  refine ⟨h.outside_update ht, Nat.lt_succ_self _, Nat.le_trans h.latest htime, h.shut, h.lock, h.written, ?_⟩
  refine (forall_update_iff s.pc fun t' pc' => Good _ t' pc').mpr ⟨?_, fun t' _ => ?_⟩
  · subst hpc
    split
    · exact ⟨‹_›, Nat.le_refl _⟩
    · exact Nat.le_refl _
  · have hgood := h.good t'
    have hinside := h.inside (t := t')
    generalize hpc' : s.pc t' = pc' at hgood hinside
    cases pc' with
    | blocked => exact ⟨hgood.1, fun _ => hsafe t' (hinside nofun) hpc', hgood.2.2⟩
    | unblockLock began => exact ⟨hgood.1, Nat.le_trans hgood.2 htime⟩
    | unblockSet began => exact Nat.le_trans hgood htime
    | unblockWrite began => exact ⟨Nat.le_trans hgood.1 htime, hgood.2⟩
    | _ => exact hgood

theorem State.Inv.shutdown (h : s.Inv) (ht : t < s.threads) (hsafe : Safe s (.shutdown t)) :
    State.Inv { s.to t .shutSet with shutDown := true } := by
  refine ⟨h.outside_update ht, Nat.lt_succ_of_lt h.time, h.latest, fun _ => rfl, h.lock, h.written, ?_⟩
  refine (forall_update_iff s.pc fun t' pc' => Good _ t' pc').mpr ⟨rfl, fun t' _ => ?_⟩
  have hgood := h.good t'
  have hinside := h.inside (t := t')
  have hfound := hsafe t'
  generalize s.pc t' = pc' at hgood hinside hfound
  cases pc' with
  | waitTry => exact ⟨fun _ => hfound (hinside nofun) rfl, hgood.2⟩
  | blocked => exact ⟨fun _ => hfound (hinside nofun) rfl, hgood.2⟩
  | shutSet => rfl
  | shutWrite => exact ⟨rfl, hgood.2⟩
  | _ => exact hgood

theorem State.Inv.step (h : s.Inv) {e : Event} (hsafe : Safe s e) (hs' : s' ∈ step s e) : s'.Inv := by
  cases e with
  | wait t =>
    obtain ⟨⟨ht, -⟩, hs'⟩ := Option.ite_none_right_eq_some.mp hs'
    have hnew : (s.pipe t).found t = false := update_self ..
    refine Option.some.inj hs' ▸ h.move h.changes_self.pipe ht ?_
    split
    · exact ⟨‹_›, hnew⟩
    · exact hnew
  | unblock t =>
    obtain ⟨⟨ht, -⟩, hs'⟩ := Option.ite_none_right_eq_some.mp hs'
    exact Option.some.inj hs' ▸ h.unblock ht hsafe rfl
  | shutdown t =>
    obtain ⟨⟨ht, -⟩, hs'⟩ := Option.ite_none_right_eq_some.mp hs'
    exact Option.some.inj hs' ▸ h.shutdown ht hsafe
  | go t ok =>
    have ht : t < s.threads := h.inside fun hidle => by
      change (s.waitStep t ok (s.pc t)).or (s.unblockStep t (s.pc t)) = some s' at hs'
      rw [hidle] at hs'
      cases hs'
    obtain hs' | ⟨-, hs'⟩ := Option.or_eq_some_iff.mp hs'
    · exact h.waitStep ht (h.good t) hsafe hs'
    · exact h.unblockStep ht (h.good t) hs'

theorem new_inv (grouped : Bool) (threads : Nat) : (State.new grouped threads).Inv :=
  ⟨fun _ _ => rfl, Nat.zero_lt_one, Nat.le_refl _, nofun, fun _ => rfl, fun _ => rfl, fun _ => trivial⟩

/-- In every run with a safe schedule a waiting thread that ought to have been reached has a byte to read, and does not
hold the lock that `unblock_completions` takes. -/
theorem reached_of_safe (grouped : Bool) (threads : Nat) (es : List Event)
    (hsafe : Throughout step Safe (State.new grouped threads) es) :
    Throughout step Holds (State.new grouped threads) es :=
  hsafe.imp (I := State.Inv) (fun _ _ h hs _ hs' => (h.step hs hs').fine) (fun _ _ _ h hs hs' => h.step hs hs')
    (new_inv grouped threads)

theorem reached_registered : Throughout step Holds (State.new false 2)
    [.wait 0, .go 0 true, .unblock 1, .go 1 true, .go 1 true, .go 1 true, .go 0 true, .go 0 true, .go 0 true,
      .unblock 1, .go 1 true, .go 1 true] :=
  reached_of_safe false 2 _ (by decide +kernel)

/-- Thread 0 is in `pselect`, its descriptor has left the set, and an unblock that begins then writes to nobody. -/
theorem not_reached : ¬ Throughout step Holds (State.new false 2)
    [.wait 0, .go 0 true, .go 0 true, .go 0 true, .go 0 true, .unblock 1, .go 1 true, .go 1 true] := by
  intro h
  have hfine := h.nth 7 (Option.get_mem (by decide +kernel)) rfl _ (Option.get_mem (by decide +kernel))
  exact absurd (hfine.byte 0 (by decide +kernel) (by decide +kernel) (by decide +kernel)) (by decide +kernel)

/-- On a grouped connection the thread in `pselect` holds the lock that `unblock_completions` takes. -/
example : ¬ Throughout step Holds (State.new true 2) [.wait 0, .go 0 true, .go 0 true, .go 0 true, .go 0 true, .go 0 true] := by
  intro h
  have hfine := h.nth 5 (Option.get_mem (by decide +kernel)) rfl _ (Option.get_mem (by decide +kernel))
  exact absurd (hfine.lock 0 (by decide +kernel) (by decide +kernel)) (by decide +kernel)

end Runs

end Comanche.Net.Unblock
