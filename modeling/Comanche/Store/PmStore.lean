import Comanche.Lib.Run

/-!
# Errors of the persistent memory store

`PM_store` keeps a hash map in each pool and changes it in transactions of libpmemobj.
-/

namespace Comanche.Store.PmStore

open Lib
open Function (update update_eq_self update_of_ne update_self)

abbrev Contents : Type := Nat → Option (List UInt8)

inductive RwLock where
  | unlocked
  | readers (n : Nat)
  | writer

inductive LockType where
  | read
  | write

def RwLock.tryLock : LockType → RwLock → Option RwLock
  | .read, .unlocked => some (.readers 1)
  | .read, .readers n => some (.readers (n + 1))
  | .read, .writer => none
  | .write, .unlocked => some .writer
  | .write, .readers _ => none
  | .write, .writer => none

/-- `pthread_rwlock_unlock`, which is not defined for a lock that is not held. -/
def RwLock.unlock : RwLock → Option RwLock
  | .unlocked => none
  | .readers n => some (if n ≤ 1 then .unlocked else .readers (n - 1))
  | .writer => some .unlocked

structure Tx where
  pool : Nat
  depth : Nat
  before : Contents

/-- `locks` are the entries of `State_map`. -/
structure State where
  contents : Nat → Contents
  locks : Nat → Nat → Option RwLock
  tx : Option Tx

def State.opened (contents : Nat → Contents) : State := ⟨contents, fun _ _ => none, none⟩

namespace State

def durable (s : State) (pool : Nat) : Contents :=
  match s.tx with
  | none => s.contents pool
  | some tx => if tx.pool = pool then tx.before else s.contents pool

def nesting (s : State) : Nat := s.tx.elim 0 Tx.depth

def setTx (s : State) (tx : Option Tx) : State := { s with tx := tx }

def setValue (s : State) (pool key : Nat) (value : Option (List UInt8)) : State :=
  { s with contents := update s.contents pool (update (s.contents pool) key value) }

def setLock (s : State) (pool key : Nat) (lock : Option RwLock) : State :=
  { s with locks := update s.locks pool (update (s.locks pool) key lock) }

def txBegin (s : State) (pool : Nat) : Option State :=
  match s.tx with
  | none => some (s.setTx (some ⟨pool, 1, s.contents pool⟩))
  | some tx => if tx.pool = pool then some (s.setTx (some { tx with depth := tx.depth + 1 })) else none

def txEnd (s : State) : State :=
  match s.tx with
  | none => s
  | some tx => if tx.depth ≤ 1 then s.setTx none else s.setTx (some { tx with depth := tx.depth - 1 })

def txAbort (s : State) : State :=
  match s.tx with
  | none => s
  | some tx => { s with contents := update s.contents tx.pool tx.before, tx := none }

end State

inductive Result where
  | ok
  | alreadyExists
  | fail
  | keyNotFound
  | threw
  deriving DecidableEq

def stateGetLock (s : State) (pool key : Nat) (type : LockType) : Option State :=
  (((s.locks pool key).getD .unlocked).tryLock type).map fun lock => s.setLock pool key (some lock)

/-- The body of the transaction of `put`. `room` tells whether libpmemobj finds the memory it needs. -/
def putBody (s : State) (pool key : Nat) (value : List UInt8) (room : Bool) : Option (List UInt8) → Result × State
  | some old =>
    if old.length ≠ value.length then (.threw, s)
    else if room then (.ok, (s.setValue pool key (some value)).txEnd)
    else (.threw, s.txAbort)
  | none => if room then (.ok, (s.setValue pool key (some value)).txEnd) else (.threw, s.txAbort)

def put (s : State) (pool key : Nat) (value : List UInt8) (dontStomp room : Bool) : Option (Result × State) :=
  if (s.contents pool key).isSome ∧ dontStomp = true then some (.alreadyExists, s)
  else (s.txBegin pool).map fun s => putBody s pool key value room (s.contents pool key)

def lockValue (s : State) (pool key : Nat) (type : LockType) : Result × State :=
  match stateGetLock s pool key type with
  | none => (.threw, s)
  | some s => (.ok, s.txEnd)

/-- The body of the transaction of `lock`. The value of a new key is what was in the memory, `fill`. -/
def lockBody (s : State) (pool key : Nat) (type : LockType) (fill : List UInt8) (room : Bool) :
    Option (List UInt8) → Result × State
  | some _ => lockValue s pool key type
  | none =>
    if fill.length = 0 then (.fail, s)
    else if room then lockValue (s.setValue pool key (some fill)) pool key type
    else (.threw, s.txAbort)

def lock (s : State) (pool key : Nat) (type : LockType) (fill : List UInt8) (room : Bool) : Option (Result × State) :=
  (s.txBegin pool).map fun s => lockBody s pool key type fill room (s.contents pool key)

def unlock (s : State) (pool key : Nat) : Option (Result × State) :=
  match s.contents pool key with
  | none => some (.keyNotFound, s)
  | some _ =>
    match s.locks pool key with
    | none => some (.threw, s)
    | some lock => lock.unlock.map fun lock => (.ok, s.setLock pool key (some lock))

def remove (s : State) (pool key : Nat) (room : Bool) : Option (Result × State) :=
  (s.txBegin pool).map fun s =>
    if room then (.ok, ((s.setValue pool key none).txEnd).setLock pool key none) else (.threw, s.txAbort)

def erase (s : State) (pool key : Nat) (room : Bool) : Option (Result × State) :=
  match s.contents pool key with
  | none => some (.keyNotFound, s)
  | some _ =>
    match stateGetLock s pool key .write with
    | none => some (.threw, s)
    | some s => remove s pool key room

inductive Event where
  | put (pool key : Nat) (value : List UInt8) (dontStomp room : Bool)
  | lock (pool key : Nat) (type : LockType) (fill : List UInt8) (room : Bool)
  | unlock (pool key : Nat)
  | erase (pool key : Nat) (room : Bool)

def Event.pool : Event → Nat
  | .put pool _ _ _ _ | .lock pool _ _ _ _ | .unlock pool _ | .erase pool _ _ => pool

def Event.key : Event → Nat
  | .put _ key _ _ _ | .lock _ key _ _ _ | .unlock _ key | .erase _ key _ => key

def exec (s : State) : Event → Option (Result × State)
  | .put pool key value dontStomp room => put s pool key value dontStomp room
  | .lock pool key type fill room => lock s pool key type fill room
  | .unlock pool key => unlock s pool key
  | .erase pool key room => erase s pool key room

def step (s : State) (e : Event) : Option State := (exec s e).map Prod.snd

structure Unchanged (e : Event) (s s' : State) : Prop where
  contents : s'.contents = s.contents
  locks : ∀ pool key, pool ≠ e.pool ∨ key ≠ e.key → s'.locks pool key = s.locks pool key
  nesting : s'.nesting = s.nesting

/-- An operation that fails changes nothing, and what one that succeeds has done is durable. -/
def Holds (s : State) (e : Event) : Prop :=
  ∀ r ∈ exec s e, (r.1 ≠ .ok → Unchanged e s r.2) ∧ (r.1 = .ok → r.2.durable e.pool = r.2.contents e.pool)

/-- No value is replaced by one of another size, no key is to be made for a value of size zero, and no lock is asked
for that cannot be had. -/
def Safe (s : State) : Event → Prop
  | .put pool key value dontStomp _ =>
    dontStomp = true ∨ ∀ old ∈ s.contents pool key, old.length = value.length
  | .lock pool key type fill _ =>
    match s.contents pool key with
    | some _ => ((s.locks pool key).getD .unlocked).tryLock type ≠ none
    | none => fill.length ≠ 0
  | .unlock _ _ | .erase _ _ _ => True

variable {s s' : State} {e : Event} {pool key : Nat}

structure State.Ready (s : State) : Prop where
  tx : s.tx = none
  locks : ∀ pool key, s.contents pool key = none → s.locks pool key = none

def State.inTx (s : State) (pool : Nat) : State := s.setTx (some ⟨pool, 1, s.contents pool⟩)

theorem State.Ready.txBegin (h : s.Ready) (pool : Nat) : s.txBegin pool = some (s.inTx pool) := by
  unfold State.txBegin
  rw [h.tx]
  rfl

theorem State.Ready.nesting (h : s.Ready) : s.nesting = 0 := by
  unfold State.nesting
  rw [h.tx]
  rfl

theorem State.Ready.txAbort (h : s.Ready) (pool : Nat) : (s.inTx pool).txAbort = s := by
  change { s with contents := update s.contents pool (s.contents pool), tx := none } = s
  rw [update_eq_self, ← h.tx]

theorem State.Ready.txEnd_setValue (h : s.Ready) (value : Option (List UInt8)) :
    ((s.inTx pool).setValue pool key value).txEnd = s.setValue pool key value := by
  change { s.setValue pool key value with tx := none } = s.setValue pool key value
  rw [← h.tx]
  rfl

section Entries

variable {α : Type}

theorem update_entry_self (pool key : Nat) (f : Nat → Nat → α) (x : α) :
    update f pool (update (f pool) key x) pool key = x := by
  rw [update_self, update_self]

theorem update_entry_of_ne (f : Nat → Nat → α) (x : α) {pool' key' : Nat} (hne : pool' ≠ pool ∨ key' ≠ key) :
    update f pool (update (f pool) key x) pool' key' = f pool' key' := by
  by_cases hpool : pool' = pool
  · subst hpool
    rw [update_self, update_of_ne (hne.resolve_left fun h => h rfl)]
  · rw [update_of_ne hpool]

end Entries

theorem State.Ready.setLock (h : s.Ready) (lock : Option RwLock) (hkey : (s.contents pool key).isSome) :
    (s.setLock pool key lock).Ready := by
  refine ⟨h.tx, fun pool' key' hnone => ?_⟩
  by_cases hne : pool' ≠ pool ∨ key' ≠ key
  · exact (update_entry_of_ne s.locks lock hne).trans (h.locks pool' key' hnone)
  · obtain ⟨rfl, rfl⟩ : pool' = pool ∧ key' = key := by omega
    rw [show s.contents pool' key' = none from hnone] at hkey
    cases hkey

theorem State.Ready.setValue (h : s.Ready) (value : List UInt8) : (s.setValue pool key (some value)).Ready := by
  refine ⟨h.tx, fun pool' key' hnone => ?_⟩
  by_cases hne : pool' ≠ pool ∨ key' ≠ key
  · exact h.locks pool' key' ((update_entry_of_ne s.contents (some value) hne).symm.trans hnone)
  · obtain ⟨rfl, rfl⟩ : pool' = pool ∧ key' = key := by omega
    exact absurd ((update_entry_self _ _ s.contents (some value)).symm.trans hnone) (Option.some_ne_none value)

theorem State.Ready.erased (h : s.Ready) : ((s.setValue pool key none).setLock pool key none).Ready := by
  refine ⟨h.tx, fun pool' key' hnone => ?_⟩
  by_cases hne : pool' ≠ pool ∨ key' ≠ key
  · have hkey := h.locks pool' key' ((update_entry_of_ne s.contents none hne).symm.trans hnone)
    exact (update_entry_of_ne s.locks none hne).trans hkey
  · obtain ⟨rfl, rfl⟩ : pool' = pool ∧ key' = key := by omega
    exact update_entry_self _ _ s.locks none

structure Clean (e : Event) (s : State) (r : Result × State) : Prop where
  unchanged : r.1 ≠ .ok → Unchanged e s r.2
  ready : r.2.Ready

theorem State.Ready.clean (h : s.Ready) (result : Result) : Clean e s (result, s) :=
  ⟨fun _ => ⟨rfl, fun _ _ _ => rfl, rfl⟩, h⟩

theorem State.Ready.clean_ok (h : s'.Ready) : Clean e s (.ok, s') := ⟨fun hok => absurd rfl hok, h⟩

structure Left (r : Result × State) : Prop where
  failed : r.1 ≠ .ok
  nesting : r.2.nesting = 1

theorem setValue_clean (h : s.Ready) (value : List UInt8) (room : Bool) :
    Clean e s (if room = true then (.ok, ((s.inTx pool).setValue pool key (some value)).txEnd)
      else (.threw, (s.inTx pool).txAbort)) := by
  split
  · rw [h.txEnd_setValue]
    exact (h.setValue value).clean_ok
  · rw [h.txAbort]
    exact h.clean .threw

theorem putBody_clean (h : s.Ready) {value : List UInt8} {room : Bool} {found : Option (List UInt8)}
    (hlen : ∀ old ∈ found, old.length = value.length) : Clean e s (putBody (s.inTx pool) pool key value room found) := by
  cases found with
  | none => exact setValue_clean h value room
  | some old =>
    rw [putBody, if_neg (not_not.mpr (hlen old rfl))]
    exact setValue_clean h value room

theorem lockValue_of_some (s₁ : State) {type : LockType} {lock : RwLock} {before : Contents}
    (htx : s₁.tx = some ⟨pool, 1, before⟩) (hlock : ((s₁.locks pool key).getD .unlocked).tryLock type = some lock) :
    lockValue s₁ pool key type = (.ok, (s₁.setLock pool key (some lock)).setTx none) := by
  have hend : (s₁.setLock pool key (some lock)).txEnd = (s₁.setLock pool key (some lock)).setTx none := by
    unfold State.txEnd
    rw [show (s₁.setLock pool key (some lock)).tx = some ⟨pool, 1, before⟩ from htx]
    rfl
  unfold lockValue stateGetLock
  rw [hlock]
  exact congrArg (Prod.mk Result.ok) hend

section

variable (h : s.Ready)
include h

theorem State.Ready.setTx : s.setTx none = s := by
  unfold State.setTx
  rw [← h.tx]

theorem lockBody_clean {type : LockType} {fill : List UInt8} {room : Bool}
    (hsafe : Safe s (.lock pool key type fill room)) :
    Clean e s (lockBody (s.inTx pool) pool key type fill room (s.contents pool key)) := by
  rw [Safe] at hsafe
  cases hfound : s.contents pool key with
  | some old =>
    rw [hfound] at hsafe
    obtain ⟨lock, hlock⟩ := Option.ne_none_iff_exists'.mp hsafe
    have hready := h.setLock (some lock) (Option.isSome_iff_exists.mpr ⟨old, hfound⟩)
    rw [lockBody, lockValue_of_some (s.inTx pool) rfl hlock]
    exact hready.setTx ▸ hready.clean_ok
  | none =>
    rw [hfound] at hsafe
    rw [lockBody, if_neg hsafe]
    cases room with
    | false =>
      rw [if_neg Bool.false_ne_true, h.txAbort]
      exact h.clean .threw
    | true =>
      -- a value that has just been made has no lock
      obtain ⟨lock, hlock⟩ : ∃ lock, ((s.locks pool key).getD .unlocked).tryLock type = some lock := by
        rw [h.locks pool key hfound]
        cases type <;> exact ⟨_, rfl⟩
      have hkey := update_entry_self pool key s.contents (some fill)
      have hready := (h.setValue fill).setLock (some lock) (Option.isSome_iff_exists.mpr ⟨fill, hkey⟩)
      rw [if_pos rfl, lockValue_of_some ((s.inTx pool).setValue pool key (some fill)) rfl hlock]
      exact hready.setTx ▸ hready.clean_ok

theorem unlock_clean {r : Result × State} (hr : r ∈ unlock s pool key) : Clean e s r := by
  unfold unlock at hr
  cases hfound : s.contents pool key with
  | none =>
    rw [hfound] at hr
    exact Option.some.inj hr ▸ h.clean .keyNotFound
  | some old =>
    rw [hfound] at hr
    cases hlock : s.locks pool key with
    | none =>
      rw [hlock] at hr
      exact Option.some.inj hr ▸ h.clean .threw
    | some lock =>
      rw [hlock] at hr
      obtain ⟨lock', -, rfl⟩ := Option.map_eq_some_iff.mp hr
      exact (h.setLock (some lock') (Option.isSome_iff_exists.mpr ⟨old, hfound⟩)).clean_ok

theorem erase_clean {room : Bool} {r : Result × State} (hr : r ∈ erase s pool key room) :
    Clean (.erase pool key room) s r := by
  unfold erase at hr
  cases hfound : s.contents pool key with
  | none =>
    rw [hfound] at hr
    exact Option.some.inj hr ▸ h.clean .keyNotFound
  | some old =>
    rw [hfound] at hr
    cases hlock : ((s.locks pool key).getD .unlocked).tryLock .write with
    | none =>
      rw [stateGetLock, hlock] at hr
      exact Option.some.inj hr ▸ h.clean .threw
    | some lock =>
      rw [stateGetLock, hlock] at hr
      have hready := h.setLock (some lock) (Option.isSome_iff_exists.mpr ⟨old, hfound⟩)
      obtain ⟨_, hbegin, rfl⟩ := Option.map_eq_some_iff.mp hr
      obtain rfl := Option.some.inj ((hready.txBegin pool).symm.trans hbegin)
      cases room with
      | true =>
        rw [if_pos rfl, hready.txEnd_setValue]
        exact hready.erased.clean_ok
      | false =>
        -- the key keeps the lock that was to protect its removal
        rw [if_neg Bool.false_ne_true, hready.txAbort]
        exact ⟨fun _ => ⟨rfl, fun _ _ hne => update_entry_of_ne s.locks (some lock) hne, rfl⟩, hready⟩

theorem exec_clean (hsafe : Safe s e) {r : Result × State} (hr : r ∈ exec s e) : Clean e s r := by
  cases e with
  | put pool key value dontStomp room =>
    change r ∈ ite _ _ _ at hr
    split at hr
    · exact Option.some.inj hr ▸ h.clean .alreadyExists
    · rename_i hstomp
      rw [h.txBegin] at hr
      refine Option.some.inj hr ▸ putBody_clean h fun old hold => ?_
      exact hsafe.elim (fun hdont => absurd ⟨Option.isSome_iff_exists.mpr ⟨old, hold⟩, hdont⟩ hstomp) fun hlen => hlen old hold
  | lock pool key type fill room =>
    rw [exec, lock, h.txBegin] at hr
    exact Option.some.inj hr ▸ lockBody_clean h hsafe
  | unlock pool key => exact unlock_clean h hr
  | erase pool key room => exact erase_clean h hr

theorem exec_left (hsafe : ¬ Safe s e) : ∃ r ∈ exec s e, Left r := by
  cases e with
  | put pool key value dontStomp room =>
    obtain ⟨hdont, hlen⟩ := not_or.mp hsafe
    obtain ⟨old, hfound, hlen⟩ : ∃ old ∈ s.contents pool key, old.length ≠ value.length := by
      simpa only [not_forall, exists_prop] using hlen
    refine ⟨(.threw, s.inTx pool), ?_, Result.noConfusion, rfl⟩
    rw [exec, put, if_neg fun h => hdont h.2, h.txBegin, Option.map_some,
      show (s.inTx pool).contents pool key = some old from hfound, putBody, if_pos hlen]
    rfl
  | lock pool key type fill room =>
    rw [exec, lock, h.txBegin]
    rw [Safe] at hsafe
    refine ⟨_, rfl, ?_⟩
    change Left (lockBody (s.inTx pool) pool key type fill room (s.contents pool key))
    cases hfound : s.contents pool key with
    | some old =>
      rw [hfound] at hsafe
      rw [lockBody, lockValue, stateGetLock,
        show ((s.inTx pool).locks pool key) = s.locks pool key from rfl, not_not.mp hsafe]
      exact ⟨Result.noConfusion, rfl⟩
    | none =>
      rw [hfound] at hsafe
      rw [lockBody, if_pos (not_not.mp hsafe)]
      exact ⟨Result.noConfusion, rfl⟩
  | unlock pool key | erase pool key room => exact absurd trivial hsafe

end

theorem State.Ready.durable (h : s.Ready) (pool : Nat) : s.durable pool = s.contents pool := by
  unfold State.durable
  rw [h.tx]

theorem holds_iff (h : s.Ready) : Holds s e ↔ Safe s e := by
  constructor
  · intro hholds
    by_contra hsafe
    obtain ⟨r, hr, hleft⟩ := exec_left h hsafe
    have hnesting := ((hholds r hr).1 hleft.failed).nesting
    rw [hleft.nesting, h.nesting] at hnesting
    cases hnesting
  · intro hsafe r hr
    have hclean := exec_clean h hsafe hr
    exact ⟨hclean.unchanged, fun _ => hclean.ready.durable e.pool⟩

theorem State.Ready.step (h : s.Ready) (hsafe : Safe s e) (hs' : s' ∈ step s e) : s'.Ready := by
  obtain ⟨r, hr, rfl⟩ := Option.map_eq_some_iff.mp hs'
  exact (exec_clean h hsafe hr).ready

theorem opened_ready (contents : Nat → Contents) : (State.opened contents).Ready := ⟨rfl, fun _ _ _ => rfl⟩

/-- Failing operations change nothing, and others are durable, exactly in the runs in which all operations are safe. -/
theorem failures_clean_iff (contents : Nat → Contents) (es : List Event) :
    Throughout step Holds (.opened contents) es ↔ Throughout step Safe (.opened contents) es :=
  Throughout.iff (I := State.Ready) (fun _ _ h => holds_iff h) (fun _ _ _ h hsafe hs' => h.step hsafe hs')
    (opened_ready contents)

def lostEvents : List Event := [.lock 0 1 .read [] true, .put 0 2 [7] false true]

/-- The call that fails leaves a transaction open, and the value of the other one is not durable when it returns. -/
theorem not_failures_clean : ¬ Throughout step Holds (.opened fun _ _ => none) lostEvents ∧
      ∃ s ∈ runs step (.opened fun _ _ => none) lostEvents, s.contents 0 2 = some [7] ∧ s.durable 0 2 = none := by
  refine ⟨fun h => ?_, _, rfl, rfl, rfl⟩
  have hnesting := ((h.1 _ rfl).1 (by decide)).nesting
  cases hnesting

end Comanche.Store.PmStore
