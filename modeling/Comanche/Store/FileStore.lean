import Comanche.Lib.Bytes
import Mathlib.Algebra.Group.Nat.Defs

/-!
# The file store

A pool of `file_store.cpp` is a directory with one file for each key.
-/

namespace Comanche.Store.FileStore

open Lib

def maxRwCount : Nat := 0x7ffff000

/-- A directory: its entries in the order in which they are enumerated, and the content of the files. -/
structure Dir where
  entries : List Bytes
  files : Bytes → Option Bytes
  nodup : entries.Nodup
  mem_entries : ∀ k, k ∈ entries ↔ files k ≠ none

structure Item where
  file : Bytes
  buffer : Bytes

/-- How `lock` ends. The length it gives back is the one that was passed in. -/
inductive LockResult where
  | locked (item : Item) (len : Nat)
  | keyNone
  | throws

def resized (file : Bytes) (len : Nat) : Bytes := file.take len ++ List.replicate (len - file.length) 0

abbrev Files : Type := Bytes → Option Bytes

def reload (files : Files) (key file : Bytes) (len : Nat) : LockResult × Files :=
  if len ≤ maxRwCount then (.locked ⟨key, file⟩ len, files) else (.throws, files)

/-- A file that is not there is created, and its buffer holds `fresh`; one of another
length is resized. A length of `2 ^ 63` or more is not one of a file. -/
def lock (files : Files) (key : Bytes) (len : Nat) (fresh : Bytes) : LockResult × Files :=
  match files key with
  | none =>
    if len = 0 then (.keyNone, files)
    else if 2 ^ 63 ≤ len then (.throws, Function.update files key (some []))
    else (.locked ⟨key, fresh⟩ len, Function.update files key (some (List.replicate len 0)))
  | some file =>
    if file.length = len then reload files key file len
    else if 2 ^ 63 ≤ len then (.throws, files)
    else reload (Function.update files key (some (resized file len))) key (resized file len) len

/-- `Pool_handle::unlock`; false if it throws. It ends without a return statement. -/
def unlock (files : Files) (item : Item) : Bool × Files :=
  match files item.file with
  | none => (true, files)
  | some file =>
    let written := item.buffer.take maxRwCount
    (decide (item.buffer.length ≤ maxRwCount),
      Function.update files item.file (some (writeAt file 0 written)))

/-- How `map` ends: with `S_OK`, in a failing assertion, or in an exception. -/
inductive MapEnd where
  | ok
  | aborts
  | throws
  deriving DecidableEq

/-- The loop of `Pool_handle::map`, with the calls of the function. -/
def mapFrom (fresh : Bytes) : List Bytes → Files → MapEnd × List (Bytes × Bytes) × Files
  | [], files => (.ok, [], files)
  | key :: keys, files =>
    match lock files key 0 fresh with
    | (.locked item valueLen, files) =>
      -- assert(value_len > 0): the length is still the 0 that was passed in
      if valueLen = 0 then (.aborts, [], files)
      else
        match unlock files item with
        | (true, files) =>
          let (ending, calls, files) := mapFrom fresh keys files
          (ending, (key, item.buffer) :: calls, files)
        | (false, files) => (.throws, [(key, item.buffer)], files)
    -- assert(value)
    | (.keyNone, files) => (.aborts, [], files)
    | (.throws, files) => (.throws, [], files)

inductive Access where
  | lockUnlock (key : Bytes) (len : Nat) (fresh : Bytes)
  | map (fresh : Bytes)

/-- A lock of an existing key delivers its value, and `unlock` leaves all files as they were; `map` calls the
function once for each key, with its value, and leaves all files as they were. -/
def Access.Frames (d : Dir) : Access → Prop
  | .lockUnlock key len fresh => ∀ v, d.files key = some v →
    ∃ files, lock d.files key len fresh = (.locked ⟨key, v⟩ v.length, files) ∧
      unlock files ⟨key, v⟩ = (true, d.files)
  | .map fresh => mapFrom fresh d.entries d.files =
    (.ok, d.entries.map fun k => (k, (d.files k).getD []), d.files)

/-- The length that is passed in is the one of the value, which one transfer can move; and `map` finds no key. -/
def Access.Sound (d : Dir) : Access → Prop
  | .lockUnlock key len _ => ∀ v, d.files key = some v → v.length = len ∧ len ≤ maxRwCount
  | .map _ => d.entries = []

section Frame

variable {files : Files} {key v fresh : Bytes} {len : Nat}

theorem writeAt_self (v : Bytes) : writeAt v 0 v = v := by
  rw [writeAt_zero, List.drop_length, List.append_nil]

theorem unlock_read (hfile : files key = some v) (hlen : v.length ≤ maxRwCount) :
    unlock files ⟨key, v⟩ = (true, files) := by
  unfold unlock
  rw [hfile]
  dsimp only
  rw [List.take_of_length_le hlen, writeAt_self, ← hfile, Function.update_eq_self, decide_eq_true hlen]

theorem resized_length : (resized v len).length = len := by
  unfold resized
  rw [List.length_append, List.length_take, List.length_replicate]
  omega

theorem lock_length {item : Item} {n : Nat} {files' : Files} (hfile : files key = some v)
    (hlock : lock files key len fresh = (.locked item n, files')) :
    n = len ∧ item.buffer.length = len ∧ len ≤ maxRwCount := by
  unfold lock at hlock
  rw [hfile] at hlock
  dsimp only at hlock
  have hreload {fs : Files} {w : Bytes} (hw : w.length = len) (h : reload fs key w len = (.locked item n, files')) :
      n = len ∧ item.buffer.length = len ∧ len ≤ maxRwCount := by
    unfold reload at h
    split at h
    · next hle =>
      cases h
      exact ⟨rfl, hw, hle⟩
    · cases h
  split at hlock
  · next hlen => exact hreload hlen hlock
  · split at hlock
    · cases hlock
    · exact hreload resized_length hlock

theorem lock_same (hfile : files key = some v) (hlen : v.length = len) (hmax : len ≤ maxRwCount) :
    lock files key len fresh = (.locked ⟨key, v⟩ v.length, files) := by
  unfold lock reload
  rw [hfile]
  dsimp only
  rw [if_pos hlen, if_pos hmax, hlen]

theorem lock_zero (hfile : files key = some v) :
    lock files key 0 fresh = (.locked ⟨key, []⟩ 0, Function.update files key (some [])) := by
  unfold lock
  rw [hfile]
  dsimp only
  split
  · next hlen =>
    have hnil := List.length_eq_zero_iff.mp hlen
    subst hnil
    rw [← hfile, Function.update_eq_self]
    rfl
  · have hnil : resized v 0 = [] := List.length_eq_zero_iff.mp resized_length
    rw [if_neg (by decide), hnil]
    rfl

/-- `map` fails its assertion at the first key, whose file `lock` has truncated. -/
theorem mapFrom_cons (keys : List Bytes) (hfile : files key = some v) :
    mapFrom fresh (key :: keys) files = (.aborts, [], Function.update files key (some [])) := by
  unfold mapFrom
  rw [lock_zero hfile]
  rfl

end Frame

/-- Locking and mapping leave a pool as it is exactly if the length passed to `lock` is the one of the value,
and `map` finds no key. -/
theorem frames_iff_sound (d : Dir) (a : Access) : a.Frames d ↔ a.Sound d := by
  cases a with
  | lockUnlock key len fresh =>
    refine forall₂_congr fun v hfile => ?_
    constructor
    · rintro ⟨files, hlock, -⟩
      obtain ⟨-, hlen, hmax⟩ := lock_length hfile hlock
      exact ⟨hlen, hmax⟩
    · rintro ⟨hlen, hmax⟩
      exact ⟨d.files, lock_same hfile hlen hmax, unlock_read hfile (hlen ▸ hmax)⟩
  | map fresh =>
    change mapFrom fresh d.entries d.files = _ ↔ d.entries = []
    cases hentries : d.entries with
    | nil => exact iff_of_true rfl rfl
    | cons key keys =>
      have hmem : key ∈ d.entries := by rw [hentries]; exact List.mem_cons_self
      obtain ⟨v, hfile⟩ := Option.ne_none_iff_exists'.mp ((d.mem_entries key).mp hmem)
      rw [mapFrom_cons keys hfile]
      exact iff_of_false (by simp) (by simp)

def oneKey : Dir where
  entries := [[107]]
  files k := if k = [107] then some [1, 2, 3] else none
  nodup := by decide
  mem_entries k := by
    by_cases hk : k = [107]
    · simp [hk]
    · simp [hk]

/-- `map` does not come to the call of the function. -/
theorem not_frames_map : ¬ Access.Frames oneKey (.map []) := by
  intro h
  exact absurd (congrArg Prod.fst h) (by decide)

end Comanche.Store.FileStore
