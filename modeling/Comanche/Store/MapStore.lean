import Comanche.Lib.Bytes
import Comanche.Lib.Run
import Mathlib.Data.Finmap

/-!
# The map store

The volatile store of `map_store.cpp`.
-/

namespace Comanche.Store

open Lib
open Function (update_eq_self update_of_ne update_self)

inductive Status where
  | ok
  | fail
  | inval
  | insufficientBuffer
  | keyExists
  | keyNotFound
  | poolNotFound
  | alreadyOpen

structure Flags where
  readOnly : Bool
  createOnly : Bool
  dontStomp : Bool
  deriving Inhabited

inductive LockType where
  | read
  | write
  | invalid

namespace MapStore

structure Value where
  buffer : Bytes
  length : Nat

structure RWLock where
  readers : Nat
  writer : Bool

structure Pool where
  name : Bytes
  map : Finmap fun _ : Bytes => Value
  lock : RWLock

inductive Result where
  | status (s : Status)
  | pool (pid : Nat)
  | value (bytes : Bytes)
  | locked (v : Value)
  /-- `S_OK` with `KEY_NONE`. -/
  | keyNone
  | count (n : Nat)
  | throws
  | blocks
  | undefined

def Value.copy (v : Value) : Result :=
  if v.length ≤ v.buffer.length then .value (v.buffer.take v.length) else .undefined

namespace Pool

variable (p : Pool)

def put (key value : Bytes) (flags : Flags) : Result × Pool :=
  if value = [] then (.status .inval, p)
  else
    match p.map.lookup key with
    | some v =>
      if flags.dontStomp then (.status .keyExists, p)
      else if v.length = value.length then
        if v.buffer.length < value.length then (.undefined, p)
        else
          let v := { v with buffer := value ++ v.buffer.drop value.length }
          (.status .ok, { p with map := p.map.insert key v })
      else (.status .ok, { p with map := p.map.insert key { v with buffer := value } })
    | none => (.status .ok, { p with map := p.map.insert key ⟨value, value.length⟩ })

def get (key : Bytes) : Result :=
  match p.map.lookup key with
  | none => .status .keyNotFound
  | some v => v.copy

def getDirect (key : Bytes) (room : Nat) : Result :=
  if room = 0 then .throws
  else
    match p.map.lookup key with
    | none => .status .keyNotFound
    | some v =>
      if room < v.length then .status .insufficientBuffer
      else v.copy

/-- A failed lock of a reader is ignored. A writer enters a missing key, with memory that holds `fresh`; the guard
throws if the thread is the writer already, and waits for readers. -/
def lockKey (key : Bytes) (type : LockType) (len : Nat) (fresh : Bytes) : Result × Pool :=
  match type with
  | .read =>
    let lock := if p.lock.writer then p.lock else { p.lock with readers := p.lock.readers + 1 }
    match p.map.lookup key with
    | none => (.undefined, { p with lock })
    | some v => (.locked v, { p with lock })
  | .write =>
    if p.lock.writer then (.keyNone, p)
    else if p.lock.readers ≠ 0 then (.blocks, p)
    else
      let lock := { p.lock with writer := true }
      match p.map.lookup key with
      | none =>
        if len = 0 then (.keyNone, p)
        else (.locked ⟨fresh, len⟩, { p with lock, map := p.map.insert key ⟨fresh, len⟩ })
      | some v => (.locked v, { p with lock })
  | .invalid => (.throws, p)

def unlock : Result × Pool :=
  if p.lock.writer then (.status .ok, { p with lock := { p.lock with writer := false } })
  else if p.lock.readers = 0 then (.undefined, p)
  else (.status .ok, { p with lock := { p.lock with readers := p.lock.readers - 1 } })

/-- The memory is freed through the iterator that was erased; what the iterator points to is taken to be
there still. -/
def erase (key : Bytes) : Result × Pool :=
  match p.map.lookup key with
  | none => (.status .keyNotFound, p)
  | some _ => (.status .ok, { p with map := p.map.erase key })

def count : Nat := p.map.keys.card

end Pool

/-- The tables of the store, and the session that the thread has in its cache. -/
structure State where
  handles : Nat → Option Pool
  next : Nat
  pools : Bytes → Option Nat
  /-- `_pool_sessions`: the sessions with their pools. -/
  sessions : Finmap fun _ : Nat => Nat
  /-- `tls_cache.session`; zero is the null pointer. -/
  cache : Nat

inductive Op where
  | createPool (name : Bytes) (flags : Flags) (addr : Nat)
  | openPool (name : Bytes) (addr : Nat)
  | closePool (pid : Nat)
  | deletePool (name : Bytes)
  | put (pid : Nat) (key value : Bytes) (flags : Flags)
  | get (pid : Nat) (key : Bytes)
  | getDirect (pid : Nat) (key : Bytes) (room : Nat)
  | erase (pid : Nat) (key : Bytes)
  | lock (pid : Nat) (key : Bytes) (type : LockType) (len : Nat) (fresh : Bytes)
  | unlock (pid : Nat)
  | count (pid : Nat)

namespace State

variable (s : State)

/-- Without assertions: handle 0 fails `assert(session)` when no session is cached, and is an unknown one otherwise. -/
def getSession (pid : Nat) : Option Nat × State :=
  if pid ≠ s.cache then
    if (s.sessions.lookup pid).isSome then (some pid, { s with cache := pid }) else (none, s)
  else if pid = 0 then (none, s)
  else (some pid, s)

def onPool (pid : Nat) (missing : Result) (f : Pool → Result × Pool) : Result × State :=
  match s.getSession pid with
  | (none, s) => (missing, s)
  | (some pid, s) =>
    match s.sessions.lookup pid with
    | none => (.undefined, s)
    | some h =>
      match s.handles h with
      | none => (.undefined, s)
      | some p => ((f p).1, { s with handles := Function.update s.handles h (some (f p).2) })

/-- A new pool is put under the name, whether there is one or not. -/
def createPool (name : Bytes) (flags : Flags) (addr : Nat) : Result × State :=
  if flags.readOnly then (.throws, s)
  else if flags.createOnly && (s.pools name).isSome then (.pool 0, s)
  else
    (.pool addr,
      { s with
        handles := Function.update s.handles s.next (some ⟨name, ∅, ⟨0, false⟩⟩)
        next := s.next + 1
        pools := Function.update s.pools name (some s.next)
        sessions := s.sessions.insert addr s.next })

def openPool (name : Bytes) (addr : Nat) : Result × State :=
  match s.pools name with
  | none => (.pool 0, s)
  | some h => (.pool addr, { s with sessions := s.sessions.insert addr h })

def closePool (pid : Nat) : Result × State :=
  match s.getSession pid with
  | (none, s) => (.status .poolNotFound, s)
  | (some pid, s) =>
    (.status .ok, { s with cache := 0, sessions := s.sessions.erase pid })

def poolOf (pid : Nat) : Option Pool := (s.sessions.lookup pid).bind s.handles

def deletePool (name : Bytes) : Result × State :=
  match s.pools name with
  | none => (.status .poolNotFound, s)
  | some h =>
    if ∃ pid ∈ s.sessions.keys, (s.poolOf pid).map Pool.name = some name then (.status .alreadyOpen, s)
    else
      (.status .ok,
        { s with pools := Function.update s.pools name none, handles := Function.update s.handles h none })

def perform (s : State) : Op → Result × State
  | .createPool name flags addr => s.createPool name flags addr
  | .openPool name addr => s.openPool name addr
  | .closePool pid => s.closePool pid
  | .deletePool name => s.deletePool name
  | .put pid key value flags => s.onPool pid (.status .poolNotFound) fun p => p.put key value flags
  | .get pid key => s.onPool pid (.status .poolNotFound) fun p => (p.get key, p)
  | .getDirect pid key room => s.onPool pid (.status .poolNotFound) fun p => (p.getDirect key room, p)
  | .erase pid key => s.onPool pid (.status .poolNotFound) fun p => p.erase key
  | .lock pid key type len fresh => s.onPool pid (.status .fail) fun p => p.lockKey key type len fresh
  | .unlock pid => s.onPool pid (.status .poolNotFound) fun p => p.unlock
  | .count pid => s.onPool pid (.status .poolNotFound) fun p => (.count p.count, p)

def init : State := ⟨fun _ => none, 0, fun _ => none, ∅, 0⟩

/-- A call that does not return, or accesses memory that is not there, ends the run. -/
def step (s : State) (op : Op) : Option State :=
  match s.perform op with
  | (.blocks, _) | (.undefined, _) => none
  | (_, s') => some s'

end State

structure Abs where
  pools : Bytes → Option (Finmap fun _ : Bytes => Bytes)
  sessions : Nat → Option Bytes

namespace Abs

def empty : Abs := ⟨fun _ => none, fun _ => none⟩

variable (a : Abs)

def opened (pid : Nat) (name : Bytes) : Abs :=
  { a with sessions := Function.update a.sessions pid (some name) }

def holding (name : Bytes) (m : Finmap fun _ : Bytes => Bytes) : Abs :=
  { a with pools := Function.update a.pools name (some m) }

@[simp] theorem holding_pools (name : Bytes) (m : Finmap fun _ : Bytes => Bytes) :
    (a.holding name m).pools name = some m := update_self ..

/-- The handle is open on the pool of this name, which holds `m`. -/
def Has (pid : Nat) (name : Bytes) (m : Finmap fun _ : Bytes => Bytes) : Prop :=
  a.sessions pid = some name ∧ a.pools name = some m

inductive Step (a : Abs) : Op → Result → Abs → Prop
  | createThrows {name flags addr} (hflags : flags.readOnly = true) :
      Step a (.createPool name flags addr) .throws a
  | createNew {name flags addr} (hflags : flags.readOnly = false) (hnew : a.pools name = none) :
      Step a (.createPool name flags addr) (.pool addr) ((a.holding name ∅).opened addr name)
  | createExisting {name flags addr} (hflags : flags.createOnly = false) (hold : a.pools name ≠ none) :
      Step a (.createPool name flags addr) (.pool addr) (a.opened addr name)
  | createRefused {name flags addr} (hflags : flags.createOnly = true) (hold : a.pools name ≠ none) :
      Step a (.createPool name flags addr) (.pool 0) a
  | open {name addr} (hold : a.pools name ≠ none) :
      Step a (.openPool name addr) (.pool addr) (a.opened addr name)
  | openMissing {name addr} (hnew : a.pools name = none) : Step a (.openPool name addr) (.pool 0) a
  | close {pid name} (hpid : a.sessions pid = some name) :
      Step a (.closePool pid) (.status .ok) { a with sessions := Function.update a.sessions pid none }
  | closeMissing {pid} (hpid : a.sessions pid = none) : Step a (.closePool pid) (.status .poolNotFound) a
  | delete {name} (hold : a.pools name ≠ none) (hclosed : ∀ pid, a.sessions pid ≠ some name) :
      Step a (.deletePool name) (.status .ok) { a with pools := Function.update a.pools name none }
  | deleteOpen {name pid} (hold : a.pools name ≠ none) (hopen : a.sessions pid = some name) :
      Step a (.deletePool name) (.status .alreadyOpen) a
  | deleteMissing {name} (hnew : a.pools name = none) :
      Step a (.deletePool name) (.status .poolNotFound) a
  | put {pid key value flags name m} (hpid : a.Has pid name m) (hvalue : value ≠ [])
      (hflags : flags.dontStomp = true → key ∉ m) :
      Step a (.put pid key value flags) (.status .ok) (a.holding name (m.insert key value))
  | putInval {pid key flags name m} (hpid : a.Has pid name m) :
      Step a (.put pid key [] flags) (.status .inval) a
  | putExists {pid key value flags name m} (hpid : a.Has pid name m) (hflags : flags.dontStomp = true)
      (hkey : key ∈ m) : Step a (.put pid key value flags) (.status .keyExists) a
  | putMissing {pid key value flags} (hpid : a.sessions pid = none) :
      Step a (.put pid key value flags) (.status .poolNotFound) a
  | get {pid key name m v} (hpid : a.Has pid name m) (hkey : m.lookup key = some v) :
      Step a (.get pid key) (.value v) a
  | getNotFound {pid key name m} (hpid : a.Has pid name m) (hkey : key ∉ m) :
      Step a (.get pid key) (.status .keyNotFound) a
  | getMissing {pid key} (hpid : a.sessions pid = none) : Step a (.get pid key) (.status .poolNotFound) a
  | getDirect {pid key room name m v} (hpid : a.Has pid name m) (hkey : m.lookup key = some v)
      (hroom : v.length ≤ room) : Step a (.getDirect pid key room) (.value v) a
  | getDirectSmall {pid key room name m v} (hpid : a.Has pid name m) (hkey : m.lookup key = some v)
      (hroom : room < v.length) : Step a (.getDirect pid key room) (.status .insufficientBuffer) a
  | getDirectThrows {pid key name m} (hpid : a.Has pid name m) : Step a (.getDirect pid key 0) .throws a
  | getDirectNotFound {pid key room name m} (hpid : a.Has pid name m) (hkey : key ∉ m) :
      Step a (.getDirect pid key room) (.status .keyNotFound) a
  | getDirectMissing {pid key room} (hpid : a.sessions pid = none) :
      Step a (.getDirect pid key room) (.status .poolNotFound) a
  | erase {pid key name m} (hpid : a.Has pid name m) (hkey : key ∈ m) :
      Step a (.erase pid key) (.status .ok) (a.holding name (m.erase key))
  | eraseNotFound {pid key name m} (hpid : a.Has pid name m) (hkey : key ∉ m) :
      Step a (.erase pid key) (.status .keyNotFound) a
  | eraseMissing {pid key} (hpid : a.sessions pid = none) :
      Step a (.erase pid key) (.status .poolNotFound) a
  | lock {pid key type len fresh name m v} (hpid : a.Has pid name m) (hkey : m.lookup key = some v) :
      Step a (.lock pid key type len fresh) (.locked ⟨v, v.length⟩) a
  | lockCreates {pid key len fresh name m} (hpid : a.Has pid name m) (hkey : key ∉ m) (hlen : 0 < len) :
      Step a (.lock pid key .write len fresh) (.locked ⟨fresh, fresh.length⟩)
        (a.holding name (m.insert key fresh))
  | lockRefused {pid key type len fresh name m} (hpid : a.Has pid name m) :
      Step a (.lock pid key type len fresh) .keyNone a
  | lockBlocks {pid key type len fresh name m} (hpid : a.Has pid name m) :
      Step a (.lock pid key type len fresh) .blocks a
  | lockThrows {pid key len fresh name m} (hpid : a.Has pid name m) :
      Step a (.lock pid key .invalid len fresh) .throws a
  | lockMissing {pid key type len fresh} (hpid : a.sessions pid = none) :
      Step a (.lock pid key type len fresh) (.status .fail) a
  | unlock {pid name m} (hpid : a.Has pid name m) : Step a (.unlock pid) (.status .ok) a
  | unlockMissing {pid} (hpid : a.sessions pid = none) : Step a (.unlock pid) (.status .poolNotFound) a
  | count {pid name m} (hpid : a.Has pid name m) : Step a (.count pid) (.count m.keys.card) a
  | countMissing {pid} (hpid : a.sessions pid = none) : Step a (.count pid) (.status .poolNotFound) a

end Abs

/-- Every call of a run gives back what the contents say, and one that yields `KEY_NONE` leaves the pools
and their locks as they were. -/
def Conforms : State → Abs → List Op → Prop
  | _, _, [] => True
  | s, a, op :: ops => ∃ a', a.Step op (s.perform op).1 a' ∧
      ((s.perform op).1 = .keyNone → (s.perform op).2.handles = s.handles) ∧
      ∀ s' ∈ s.step op, Conforms s' a' ops

/-- A new session has an address that no session has, new memory has the length asked for, and only a lock
that is held is given back. -/
def Possible (s : State) : Op → Prop
  | .createPool _ _ addr | .openPool _ addr => addr ≠ 0 ∧ addr ∉ s.sessions
  | .lock _ _ _ len fresh => fresh.length = len
  | .unlock pid => ∀ p ∈ s.poolOf pid, p.lock.writer = true ∨ p.lock.readers ≠ 0
  | _ => True

/-- A pool is not created over an existing one, a value is not replaced by one of another length, and a key
that is locked for reading is there. -/
def Safe (s : State) : Op → Prop
  | .createPool name flags _ =>
    s.pools name = none ∨ flags.createOnly = true ∨ flags.readOnly = true
  | .put pid key value flags => ∀ p ∈ s.poolOf pid, ∀ v ∈ p.map.lookup key,
    flags.dontStomp = true ∨ value = [] ∨ v.length = value.length
  | .lock pid key .read _ _ => ∀ p ∈ s.poolOf pid, key ∈ p.map
  | _ => True

instance (s : State) (op : Op) : Decidable (Possible s op) := by
  unfold Possible
  split <;> infer_instance

instance (s : State) (op : Op) : Decidable (Safe s op) := by
  unfold Safe
  split <;> infer_instance

def Holds (map : Finmap fun _ : Bytes => Value) (m : Finmap fun _ : Bytes => Bytes) : Prop :=
  ∀ k, map.lookup k = (m.lookup k).map fun v => ⟨v, v.length⟩

structure Rel (s : State) (a : Abs) : Prop where
  newName : ∀ name, s.pools name = none → a.pools name = none
  name : ∀ name h, s.pools name = some h →
    ∃ p m, s.handles h = some p ∧ p.name = name ∧ a.pools name = some m ∧ Holds p.map m
  closed : ∀ pid, s.sessions.lookup pid = none → a.sessions pid = none
  session : ∀ pid h, s.sessions.lookup pid = some h →
    ∃ p, s.handles h = some p ∧ s.pools p.name = some h ∧ a.sessions pid = some p.name
  cache : s.cache = 0 ∨ s.cache ∈ s.sessions
  zero : (0 : Nat) ∉ s.sessions
  next : ∀ h, s.next ≤ h → s.handles h = none

section Rel

variable {s s' : State} {a : Abs} {pid h : Nat} {p p' : Pool} {name key : Bytes}
  {map : Finmap fun _ : Bytes => Value} {m m' : Finmap fun _ : Bytes => Bytes} {v : Bytes}

section

variable (hholds : Holds map m)
include hholds

theorem Holds.mem_iff : key ∈ map ↔ key ∈ m := by
  rw [← Finmap.lookup_isSome, ← Finmap.lookup_isSome, hholds, Option.isSome_map]

theorem Holds.card : map.keys.card = m.keys.card := by
  congr 1
  ext k
  rw [Finmap.mem_keys, Finmap.mem_keys, hholds.mem_iff]

theorem Holds.insert (key v : Bytes) : Holds (map.insert key ⟨v, v.length⟩) (m.insert key v) := by
  intro k
  by_cases hk : k = key
  · rw [hk, Finmap.lookup_insert, Finmap.lookup_insert, Option.map_some]
  · rw [Finmap.lookup_insert_of_ne _ hk, Finmap.lookup_insert_of_ne _ hk, hholds]

theorem Holds.erase (key : Bytes) : Holds (map.erase key) (m.erase key) := by
  intro k
  by_cases hk : k = key
  · rw [hk, Finmap.lookup_erase, Finmap.lookup_erase, Option.map_none]
  · rw [Finmap.lookup_erase_ne hk, Finmap.lookup_erase_ne hk, hholds]

end

theorem Abs.holding_self (hname : a.pools name = some m) : a.holding name m = a := by
  unfold Abs.holding
  rw [← hname, update_eq_self]

theorem Rel.update (hrel : Rel s a) (hsession : s.sessions.lookup pid = some h)
    (hhandle : s.handles h = some p) (hname : p'.name = p.name) (hholds : Holds p'.map m') :
    Rel { s with cache := pid, handles := Function.update s.handles h (some p') }
      (a.holding p.name m') := by
  obtain ⟨q, hq, hpool, hpid⟩ := hrel.session pid h hsession
  obtain rfl : q = p := Option.some.inj (hq.symm.trans hhandle)
  refine ⟨fun n hn => ?_, fun n j hn => ?_, hrel.closed, fun j i hj => ?_, Or.inr ?_, hrel.zero, fun j hj => ?_⟩
  · have hne : n ≠ q.name := fun heq => by
      rw [heq] at hn
      exact absurd (hn.symm.trans hpool) (by simp)
    exact (update_of_ne hne _ _).trans (hrel.newName n hn)
  · by_cases hj : j = h
    · subst hj
      obtain ⟨r, -, hr, hrname, -⟩ := hrel.name n j hn
      obtain rfl : r = q := Option.some.inj (hr.symm.trans hhandle)
      exact ⟨p', m', update_self .., hname.trans hrname, by rw [← hrname]; exact update_self .., hholds⟩
    · obtain ⟨r, mr, hr, hrname, hmr, hrholds⟩ := hrel.name n j hn
      have hne : n ≠ q.name := fun heq => by
        rw [heq] at hn
        exact hj (Option.some.inj (hn.symm.trans hpool))
      exact ⟨r, mr, (update_of_ne hj _ _).trans hr, hrname, (update_of_ne hne _ _).trans hmr, hrholds⟩
  · obtain ⟨r, hr, hrpool, hrpid⟩ := hrel.session j i hj
    by_cases hi : i = h
    · subst hi
      obtain rfl : r = q := Option.some.inj (hr.symm.trans hhandle)
      exact ⟨p', update_self .., by rw [hname]; exact hrpool, by rw [hname]; exact hrpid⟩
    · exact ⟨r, (update_of_ne hi _ _).trans hr, hrpool, hrpid⟩
  · exact Finmap.mem_of_lookup_eq_some hsession
  · have hne : j ≠ h := fun heq => by
      have hnone := hrel.next j hj
      rw [heq] at hnone
      exact absurd (hnone.symm.trans hhandle) (by simp)
    exact (update_of_ne hne _ _).trans (hrel.next j hj)

theorem Rel.lookup_eq_none (hrel : Rel s a) (hpid : a.sessions pid = none) : s.sessions.lookup pid = none := by
  cases hlookup : s.sessions.lookup pid with
  | none => rfl
  | some h =>
    obtain ⟨p, -, -, hsession⟩ := hrel.session pid h hlookup
    exact absurd (hpid.symm.trans hsession) (by simp)

theorem Rel.getSession_closed (hrel : Rel s a) (hpid : a.sessions pid = none) : s.getSession pid = (none, s) := by
  have hlookup := hrel.lookup_eq_none hpid
  unfold State.getSession
  split
  · rw [hlookup]
    rfl
  · next hcache =>
    have hzero : pid = 0 := by
      rw [not_not.mp hcache] at hlookup ⊢
      exact hrel.cache.resolve_right (Finmap.lookup_eq_none.mp hlookup)
    rw [if_pos hzero]

theorem Rel.getSession_open (hrel : Rel s a) (hlookup : s.sessions.lookup pid = some h) :
    s.getSession pid = (some pid, { s with cache := pid }) := by
  unfold State.getSession
  split
  · rw [hlookup]
    rfl
  · next hcache =>
    have hzero : pid ≠ 0 := by
      rintro rfl
      exact hrel.zero (Finmap.mem_of_lookup_eq_some hlookup)
    rw [if_neg hzero, not_not.mp hcache]

def Meets (s : State) (a : Abs) (op : Op) : Prop :=
  ∃ a', a.Step op (s.perform op).1 a' ∧
    ((s.perform op).1 = .keyNone → (s.perform op).2.handles = s.handles) ∧ Rel (s.perform op).2 a'

theorem meets_of {op : Op} {r : Result} {a' : Abs} (hperform : s.perform op = (r, s'))
    (hstep : a.Step op r a') (hne : r ≠ .keyNone) (hrel : Rel s' a') : Meets s a op := by
  unfold Meets
  rw [hperform]
  exact ⟨a', hstep, fun hr => absurd hr hne, hrel⟩

theorem Rel.meets_onPool (hrel : Rel s a) {op : Op} {missing : Result} {f : Pool → Result × Pool}
    (hperform : s.perform op = s.onPool pid missing f) (hne : missing ≠ .keyNone)
    (hmissing : a.sessions pid = none → a.Step op missing a)
    (hpool : ∀ p m, s.poolOf pid = some p → a.Has pid p.name m → Holds p.map m →
      ∃ m', (f p).2.name = p.name ∧ Holds (f p).2.map m' ∧ a.Step op (f p).1 (a.holding p.name m') ∧
        ((f p).1 = .keyNone → (f p).2 = p)) : Meets s a op := by
  unfold Meets
  rw [hperform]
  cases hlookup : s.sessions.lookup pid with
  | none =>
    have hpid := hrel.closed pid hlookup
    have heq : s.onPool pid missing f = (missing, s) := by
      unfold State.onPool
      rw [hrel.getSession_closed hpid]
    rw [heq]
    exact ⟨a, hmissing hpid, fun hkey => absurd hkey hne, hrel⟩
  | some h =>
    obtain ⟨p, hhandle, hname, hpid⟩ := hrel.session pid h hlookup
    obtain ⟨q, m, hq, -, hm, hholds⟩ := hrel.name p.name h hname
    obtain rfl : q = p := Option.some.inj (hq.symm.trans hhandle)
    have heq : s.onPool pid missing f = ((f q).1,
        { s with cache := pid, handles := Function.update s.handles h (some (f q).2) }) := by
      unfold State.onPool
      rw [hrel.getSession_open hlookup]
      dsimp only
      rw [hlookup]
      dsimp only
      rw [hhandle]
    have hof : s.poolOf pid = some q := by
      unfold State.poolOf
      rw [hlookup]
      exact hhandle
    obtain ⟨m', hname', hholds', hstep, hnone⟩ := hpool q m hof ⟨hpid, hm⟩ hholds
    rw [heq]
    refine ⟨_, hstep, fun hkey => ?_, hrel.update hlookup hhandle hname' hholds'⟩
    dsimp only at hkey ⊢
    rw [hnone hkey, ← hhandle, update_eq_self]

theorem Rel.meets_read (hrel : Rel s a) {op : Op} {missing : Result} {f : Pool → Result}
    (hperform : s.perform op = s.onPool pid missing fun p => (f p, p)) (hne : missing ≠ .keyNone)
    (hmissing : a.sessions pid = none → a.Step op missing a)
    (hread : ∀ p m, a.Has pid p.name m → Holds p.map m → a.Step op (f p) a) : Meets s a op := by
  refine hrel.meets_onPool hperform hne hmissing fun p m _ hhas hholds => ?_
  refine ⟨m, rfl, hholds, ?_, fun _ => rfl⟩
  rw [Abs.holding_self hhas.2]
  exact hread p m hhas hholds

theorem copy_whole (v : Bytes) : (Value.mk v v.length).copy = .value v := by
  unfold Value.copy
  rw [if_pos (Nat.le_refl _), List.take_length]

section

variable (hrel : Rel s a)
include hrel

theorem get_meets : Meets s a (.get pid key) := by
  refine hrel.meets_read rfl (by simp) .getMissing fun p m hhas hholds => ?_
  unfold Pool.get
  rw [hholds]
  cases hkey : m.lookup key with
  | none => exact .getNotFound hhas (Finmap.lookup_eq_none.mp hkey)
  | some v =>
    dsimp only [Option.map_some]
    rw [copy_whole]
    exact .get hhas hkey

theorem getDirect_meets {room : Nat} : Meets s a (.getDirect pid key room) := by
  refine hrel.meets_read rfl (by simp) .getDirectMissing fun p m hhas hholds => ?_
  unfold Pool.getDirect
  split
  · next hroom =>
    subst hroom
    exact .getDirectThrows hhas
  · rw [hholds]
    cases hkey : m.lookup key with
    | none => exact .getDirectNotFound hhas (Finmap.lookup_eq_none.mp hkey)
    | some v =>
      dsimp only [Option.map_some]
      split
      · next hroom => exact .getDirectSmall hhas hkey hroom
      · next hroom =>
        rw [copy_whole]
        exact .getDirect hhas hkey (Nat.not_lt.mp hroom)

theorem count_meets : Meets s a (.count pid) := by
  refine hrel.meets_read rfl (by simp) .countMissing fun p m hhas hholds => ?_
  unfold Pool.count
  rw [hholds.card]
  exact .count hhas

theorem put_meets {value : Bytes} {flags : Flags}
    (hsafe : Safe s (.put pid key value flags)) : Meets s a (.put pid key value flags) := by
  refine hrel.meets_onPool rfl (by simp) .putMissing fun p m hof hhas hholds => ?_
  unfold Pool.put
  split
  · next hvalue =>
    subst hvalue
    refine ⟨m, rfl, hholds, ?_, fun _ => rfl⟩
    rw [Abs.holding_self hhas.2]
    exact .putInval hhas
  · next hvalue =>
    have hlookup := hholds key
    rw [hlookup]
    cases hkey : m.lookup key with
    | none =>
      exact ⟨m.insert key value, rfl, hholds.insert key value,
        .put hhas hvalue fun _ => Finmap.lookup_eq_none.mp hkey, nofun⟩
    | some v =>
      rw [hkey] at hlookup
      dsimp only [Option.map_some]
      split
      · next hflags =>
        refine ⟨m, rfl, hholds, ?_, fun _ => rfl⟩
        rw [Abs.holding_self hhas.2]
        exact .putExists hhas hflags (Finmap.mem_of_lookup_eq_some hkey)
      · next hflags =>
        -- A value of the same length overwrites all of the old one.
        have hlength : v.length = value.length :=
          ((hsafe p hof _ hlookup).resolve_left hflags).resolve_left hvalue
        rw [if_pos hlength, if_neg (by omega)]
        refine ⟨m.insert key value, rfl, ?_, .put hhas hvalue fun h => absurd h hflags, nofun⟩
        have hwhole : value ++ v.drop value.length = value := by
          rw [← hlength, List.drop_length, List.append_nil]
        dsimp only
        rw [hwhole, hlength]
        exact hholds.insert key value

theorem erase_meets : Meets s a (.erase pid key) := by
  refine hrel.meets_onPool rfl (by simp) .eraseMissing fun p m _ hhas hholds => ?_
  unfold Pool.erase
  rw [hholds]
  cases hkey : m.lookup key with
  | none =>
    refine ⟨m, rfl, hholds, ?_, fun _ => rfl⟩
    rw [Abs.holding_self hhas.2]
    exact .eraseNotFound hhas (Finmap.lookup_eq_none.mp hkey)
  | some v =>
    exact ⟨m.erase key, rfl, hholds.erase key, .erase hhas (Finmap.mem_of_lookup_eq_some hkey), nofun⟩

theorem unlock_meets (hpossible : Possible s (.unlock pid)) : Meets s a (.unlock pid) := by
  refine hrel.meets_onPool rfl (by simp) .unlockMissing fun p m hof hhas hholds => ?_
  have hheld := hpossible p hof
  refine ⟨m, ?_⟩
  rw [Abs.holding_self hhas.2]
  unfold Pool.unlock
  split
  · exact ⟨rfl, hholds, .unlock hhas, nofun⟩
  · next hwriter =>
    rw [if_neg (hheld.resolve_left hwriter)]
    exact ⟨rfl, hholds, .unlock hhas, nofun⟩

theorem lock_meets {type : LockType} {len : Nat} {fresh : Bytes} (hpossible : Possible s (.lock pid key type len fresh))
    (hsafe : Safe s (.lock pid key type len fresh)) : Meets s a (.lock pid key type len fresh) := by
  refine hrel.meets_onPool rfl (by simp) .lockMissing fun p m hof hhas hholds => ?_
  have hself := Abs.holding_self hhas.2
  unfold Pool.lockKey
  rw [hholds]
  cases type with
  | invalid => exact ⟨m, rfl, hholds, hself.symm ▸ .lockThrows hhas, nofun⟩
  | read =>
    obtain ⟨v, hkey⟩ := Finmap.mem_iff.mp (hholds.mem_iff.mp (hsafe p hof))
    rw [hkey]
    exact ⟨m, rfl, hholds, hself.symm ▸ .lock hhas hkey, nofun⟩
  | write =>
    dsimp only
    split
    · exact ⟨m, rfl, hholds, hself.symm ▸ .lockRefused hhas, fun _ => rfl⟩
    · split
      · exact ⟨m, rfl, hholds, hself.symm ▸ .lockBlocks hhas, nofun⟩
      · cases hkey : m.lookup key with
        | some v => exact ⟨m, rfl, hholds, hself.symm ▸ .lock hhas hkey, nofun⟩
        | none =>
          dsimp only [Option.map_none]
          split
          · exact ⟨m, rfl, hholds, hself.symm ▸ .lockRefused hhas, fun _ => rfl⟩
          · next hlen =>
            have hfresh : fresh.length = len := hpossible
            rw [← hfresh]
            exact ⟨m.insert key fresh, rfl, hholds.insert key fresh,
              .lockCreates hhas (Finmap.lookup_eq_none.mp hkey) (by omega), nofun⟩

theorem Rel.opened (hhandle : s.handles h = some p) (hname : s.pools p.name = some h) (hzero : pid ≠ 0) :
    Rel { s with sessions := s.sessions.insert pid h } (a.opened pid p.name) := by
  refine ⟨hrel.newName, hrel.name, fun j hj => ?_, fun j i hj => ?_, ?_, ?_, hrel.next⟩
  · have hne : j ≠ pid := fun heq => by
      rw [heq, Finmap.lookup_insert] at hj
      cases hj
    rw [Finmap.lookup_insert_of_ne _ hne] at hj
    exact (update_of_ne hne _ _).trans (hrel.closed j hj)
  · by_cases hjp : j = pid
    · subst hjp
      rw [Finmap.lookup_insert] at hj
      cases hj
      exact ⟨p, hhandle, hname, update_self ..⟩
    · rw [Finmap.lookup_insert_of_ne _ hjp] at hj
      obtain ⟨q, hq, hqname, hqpid⟩ := hrel.session j i hj
      exact ⟨q, hq, hqname, (update_of_ne hjp _ _).trans hqpid⟩
  · exact hrel.cache.imp_right fun hmem => Finmap.mem_insert.mpr (Or.inr hmem)
  · rw [Finmap.mem_insert]
    exact fun hor => hor.elim (fun heq => hzero heq.symm) hrel.zero

theorem openPool_meets (hpossible : Possible s (.openPool name pid)) : Meets s a (.openPool name pid) := by
  cases hname : s.pools name with
  | none =>
    exact meets_of (by simp only [State.perform, State.openPool, hname])
      (.openMissing (hrel.newName name hname)) (by simp) hrel
  | some h =>
    obtain ⟨p, m, hhandle, rfl, hm, -⟩ := hrel.name name h hname
    exact meets_of (by simp only [State.perform, State.openPool, hname]) (.open (by simp [hm]))
      (by simp) (hrel.opened hhandle hname hpossible.1)

theorem Rel.created (hname : s.pools name = none) :
    Rel { s with
        handles := Function.update s.handles s.next (some ⟨name, ∅, ⟨0, false⟩⟩)
        next := s.next + 1
        pools := Function.update s.pools name (some s.next) } (a.holding name ∅) := by
  have hfree := hrel.next s.next (Nat.le_refl _)
  have hused {j : Nat} {q : Pool} (hq : s.handles j = some q) : j ≠ s.next := fun heq => by
    rw [heq, hfree] at hq
    cases hq
  refine ⟨fun n hn => ?_, fun n j hn => ?_, hrel.closed, fun j i hj => ?_, hrel.cache, hrel.zero, fun j hj => ?_⟩
  · have hne : n ≠ name := fun heq => by
      rw [heq] at hn
      exact absurd ((update_self ..).symm.trans hn) (by simp)
    exact (update_of_ne hne _ _).trans (hrel.newName n ((update_of_ne hne _ _).symm.trans hn))
  · by_cases hne : n = name
    · subst hne
      dsimp only at hn
      rw [update_self] at hn
      cases hn
      exact ⟨_, ∅, update_self .., rfl, update_self .., fun k => rfl⟩
    · have hn' := (update_of_ne hne _ _).symm.trans hn
      obtain ⟨q, mq, hq, hqname, hmq, hholds⟩ := hrel.name n j hn'
      exact ⟨q, mq, (update_of_ne (hused hq) _ _).trans hq, hqname, (update_of_ne hne _ _).trans hmq, hholds⟩
  · obtain ⟨q, hq, hqname, hqpid⟩ := hrel.session j i hj
    have hne : q.name ≠ name := fun heq => by
      rw [heq, hname] at hqname
      cases hqname
    exact ⟨q, (update_of_ne (hused hq) _ _).trans hq, (update_of_ne hne _ _).trans hqname, hqpid⟩
  · have hlt : s.next < j := hj
    exact (update_of_ne hlt.ne' _ _).trans (hrel.next j hlt.le)

theorem createPool_meets {flags : Flags}
    (hpossible : Possible s (.createPool name flags pid)) (hsafe : Safe s (.createPool name flags pid)) :
    Meets s a (.createPool name flags pid) := by
  by_cases hreadOnly : flags.readOnly = true
  · exact meets_of (by simp [State.perform, State.createPool, hreadOnly]) (.createThrows hreadOnly) (by simp) hrel
  cases hname : s.pools name with
  | some h =>
    have hcreate : flags.createOnly = true :=
      (hsafe.resolve_left (by simp [hname])).resolve_right hreadOnly
    obtain ⟨p, m, -, -, hm, -⟩ := hrel.name name h hname
    exact meets_of (by simp [State.perform, State.createPool, hreadOnly, hname, hcreate])
      (.createRefused hcreate (by simp [hm])) (by simp) hrel
  | none =>
    refine meets_of (by simp [State.perform, State.createPool, hreadOnly, hname]; rfl)
      (.createNew (by simpa using hreadOnly) (hrel.newName name hname)) (by simp) ?_
    exact (hrel.created hname).opened (update_self ..) (update_self ..) hpossible.1

theorem closePool_meets : Meets s a (.closePool pid) := by
  cases hlookup : s.sessions.lookup pid with
  | none =>
    have hpid := hrel.closed pid hlookup
    exact meets_of (by simp only [State.perform, State.closePool, hrel.getSession_closed hpid])
      (.closeMissing hpid) (by simp) hrel
  | some h =>
    obtain ⟨p, -, -, hpid⟩ := hrel.session pid h hlookup
    have hperform : s.perform (.closePool pid) =
        (.status .ok, { s with cache := 0, sessions := s.sessions.erase pid }) := by
      simp only [State.perform, State.closePool, hrel.getSession_open hlookup]
    refine meets_of hperform (.close hpid) (by simp) ⟨hrel.newName, hrel.name, fun j hj => ?_, fun j i hj => ?_, Or.inl rfl,
        fun hmem => hrel.zero (Finmap.mem_erase.mp hmem).2, hrel.next⟩
    · by_cases hjp : j = pid
      · rw [hjp]
        exact update_self ..
      · rw [Finmap.lookup_erase_ne hjp] at hj
        exact (update_of_ne hjp _ _).trans (hrel.closed j hj)
    · have hjp : j ≠ pid := fun heq => by
        rw [heq, Finmap.lookup_erase] at hj
        cases hj
      rw [Finmap.lookup_erase_ne hjp] at hj
      obtain ⟨q, hq, hqname, hqpid⟩ := hrel.session j i hj
      exact ⟨q, hq, hqname, (update_of_ne hjp _ _).trans hqpid⟩

theorem Rel.open_iff : (∃ pid ∈ s.sessions.keys, (s.poolOf pid).map Pool.name = some name) ↔
      ∃ pid, a.sessions pid = some name := by
  have hnameOf {pid h : Nat} (hlookup : s.sessions.lookup pid = some h) :
      (s.poolOf pid).map Pool.name = a.sessions pid := by
    obtain ⟨p, hp, -, hpid⟩ := hrel.session pid h hlookup
    unfold State.poolOf
    rw [hlookup, Option.bind_some, hp, hpid]
    rfl
  constructor
  · rintro ⟨pid, hmem, hpid⟩
    obtain ⟨h, hlookup⟩ := Finmap.mem_iff.mp (Finmap.mem_keys.mp hmem)
    exact ⟨pid, (hnameOf hlookup).symm.trans hpid⟩
  · rintro ⟨pid, hpid⟩
    cases hlookup : s.sessions.lookup pid with
    | none => exact absurd ((hrel.closed pid hlookup).symm.trans hpid) (by simp)
    | some h =>
      exact ⟨pid, Finmap.mem_keys.mpr (Finmap.mem_of_lookup_eq_some hlookup), (hnameOf hlookup).trans hpid⟩

theorem deletePool_meets : Meets s a (.deletePool name) := by
  cases hname : s.pools name with
  | none =>
    exact meets_of (by simp only [State.perform, State.deletePool, hname])
      (.deleteMissing (hrel.newName name hname)) (by simp) hrel
  | some h =>
    obtain ⟨p, m, hhandle, rfl, hm, -⟩ := hrel.name name h hname
    have hold : a.pools p.name ≠ none := by simp [hm]
    by_cases hopen : ∃ pid ∈ s.sessions.keys, (s.poolOf pid).map Pool.name = some p.name
    · obtain ⟨pid, hpid⟩ := hrel.open_iff.mp hopen
      exact meets_of (by simp only [State.perform, State.deletePool, hname, if_pos hopen])
        (.deleteOpen hold hpid) (by simp) hrel
    · have hclosed : ∀ pid, a.sessions pid ≠ some p.name :=
        fun pid hpid => hopen (hrel.open_iff.mpr ⟨pid, hpid⟩)
      have hperform : s.perform (.deletePool p.name) =
          (.status .ok, { s with
            pools := Function.update s.pools p.name none
            handles := Function.update s.handles h none }) := by
        simp only [State.perform, State.deletePool, hname, if_neg hopen]
      refine meets_of hperform (.delete hold hclosed) (by simp) ⟨fun n hn => ?_, fun n j hn => ?_, hrel.closed,
          fun j i hj => ?_, hrel.cache, hrel.zero, fun j hj => ?_⟩
      · by_cases hne : n = p.name
        · rw [hne]
          exact update_self ..
        · exact (update_of_ne hne _ _).trans (hrel.newName n ((update_of_ne hne _ _).symm.trans hn))
      · have hne : n ≠ p.name := fun heq => by
          rw [heq] at hn
          exact absurd ((update_self ..).symm.trans hn) (by simp)
        have hn' := (update_of_ne hne _ _).symm.trans hn
        obtain ⟨q, mq, hq, hqname, hmq, hholds⟩ := hrel.name n j hn'
        have hjh : j ≠ h := fun heq => by
          rw [heq, hhandle] at hq
          rw [← Option.some.inj hq] at hqname
          exact hne hqname.symm
        exact ⟨q, mq, (update_of_ne hjh _ _).trans hq, hqname, (update_of_ne hne _ _).trans hmq, hholds⟩
      · obtain ⟨q, hq, hqname, hqpid⟩ := hrel.session j i hj
        have hne : q.name ≠ p.name := fun heq => hclosed j (heq ▸ hqpid)
        have hih : i ≠ h := fun heq => by
          rw [heq, hhandle] at hq
          exact hne (congrArg Pool.name (Option.some.inj hq)).symm
        exact ⟨q, (update_of_ne hih _ _).trans hq, (update_of_ne hne _ _).trans hqname, hqpid⟩
      · by_cases hjh : j = h
        · rw [hjh]
          exact update_self ..
        · exact (update_of_ne hjh _ _).trans (hrel.next j hj)

theorem Rel.meets {op : Op} (hpossible : Possible s op) (hsafe : Safe s op) : Meets s a op := by
  cases op with
  | createPool name flags addr => exact createPool_meets hrel hpossible hsafe
  | openPool name addr => exact openPool_meets hrel hpossible
  | closePool pid => exact closePool_meets hrel
  | deletePool name => exact deletePool_meets hrel
  | put pid key value flags => exact put_meets hrel hsafe
  | get pid key => exact get_meets hrel
  | getDirect pid key room => exact getDirect_meets hrel
  | erase pid key => exact erase_meets hrel
  | lock pid key type len fresh => exact lock_meets hrel hpossible hsafe
  | unlock pid => exact unlock_meets hrel hpossible
  | count pid => exact count_meets hrel

end

theorem rel_init : Rel .init .empty where
  newName _ _ := rfl
  name _ _ hn := by cases hn
  closed _ _ := rfl
  session _ _ hj := by cases hj
  cache := Or.inl rfl
  zero := Finmap.notMem_empty
  next _ _ := rfl

theorem Rel.conforms {ops : List Op} (hrel : Rel s a)
    (h : Throughout State.step (fun s op => Possible s op ∧ Safe s op) s ops) : Conforms s a ops := by
  induction ops generalizing s a with
  | nil => trivial
  | cons op ops ih =>
    obtain ⟨⟨hpossible, hsafe⟩, hrest⟩ := h
    obtain ⟨a', hstep, hnone, hrel'⟩ := hrel.meets hpossible hsafe
    refine ⟨a', hstep, hnone, fun s' hs' => ih ?_ (hrest s' hs')⟩
    unfold State.step at hs'
    split at hs'
    · cases hs'
    · cases hs'
    · next hperform =>
      cases hs'
      rw [hperform] at hrel'
      exact hrel'

end Rel

/-- In every safe run the store answers each call as named pools do that map keys to values. -/
theorem conforms_of_safe (ops : List Op)
    (h : Throughout State.step (fun s op => Possible s op ∧ Safe s op) .init ops) : Conforms .init .empty ops :=
  rel_init.conforms h

theorem conforms_reopened : Conforms .init .empty
      [.createPool [112] default 8, .put 8 [107] [1, 2, 3] default, .put 8 [107] [4, 5, 6] default,
        .get 8 [107], .lock 8 [108] .write 2 [0, 0], .lock 8 [107] .write 0 [], .unlock 8,
        .erase 8 [108], .closePool 8, .get 8 [107], .openPool [112] 16, .getDirect 16 [107] 5, .count 16] :=
  conforms_of_safe _ (by decide +kernel)

/-- A value is replaced by a longer one, and is then read with the length of the old one. -/
theorem not_conforms_longer : ¬ Conforms .init .empty
      [.createPool [112] default 8, .put 8 [107] [1] default, .put 8 [107] [2, 3] default, .get 8 [107]] := by
  rintro ⟨a₁, hcreate, -, hrest⟩
  obtain ⟨a₂, hput, -, hrest⟩ := hrest _ rfl
  obtain ⟨a₃, hput', -, hrest⟩ := hrest _ rfl
  obtain ⟨a₄, hget, -, -⟩ := hrest _ rfl
  change Abs.empty.Step _ (.pool 8) a₁ at hcreate
  change a₁.Step _ (.status .ok) a₂ at hput
  change a₂.Step _ (.status .ok) a₃ at hput'
  change a₃.Step _ (.value [2]) a₄ at hget
  cases hcreate with
  | createExisting _ hold => exact hold rfl
  | createNew =>
    cases hput with
    | put hpid =>
      cases hput' with
      | put hpid' =>
        cases hget with
        | get hpid'' hkey =>
          obtain ⟨hname, -⟩ := hpid
          obtain ⟨hname', -⟩ := hpid'
          obtain ⟨hname'', hm⟩ := hpid''
          cases hname
          cases hname'
          cases hname''
          rw [Abs.holding_pools] at hm
          cases hm
          rw [Finmap.lookup_insert] at hkey
          cases hkey

end MapStore

end Comanche.Store
