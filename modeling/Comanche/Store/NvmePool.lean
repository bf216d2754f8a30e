import Comanche.Store.MapStore

/-!
# Sessions on one pool of the NVMe store

The sessions on a pool share its objects. The state map is keyed by the address of the session and the block
region of the object, and `_num_objs` belongs to the session.
-/

namespace Comanche.Store.NvmePool

open Lib
open Function (update update_self)

inductive ObjLock where
  | free
  | shared (readers : Nat)
  | exclusive

/-- The metadata pool, and by the address of a session `_num_objs`, the entry of `_locked_regions` for the fixed
address, and the locks of the state map. -/
structure State where
  keys : Finset String
  region : String → Nat
  sessions : Finset Nat
  numObjs : Nat → Nat
  lockedRegion : Nat → Option String
  locks : Nat → Nat → ObjLock

namespace State

def init : State := ⟨∅, fun _ => 0, ∅, fun _ => 0, fun _ => none, fun _ _ => .free⟩

def setLock (s : State) (a r : Nat) (l : ObjLock) : State :=
  { s with locks := update s.locks a (update (s.locks a) r l) }

def addObjs (s : State) (a n : Nat) : State :=
  { s with numObjs := update s.numObjs a ((s.numObjs a + n) % 2 ^ 64) }

/-- `state_get_read_lock` and `state_get_write_lock`. -/
def getLock (s : State) (a r : Nat) (type : LockType) : Option ObjLock :=
  match type, s.locks a r with
  | _, .exclusive => none
  | .read, .free => some (.shared 1)
  | .read, .shared n => some (.shared (n + 1))
  | _, .free => some .exclusive
  | _, .shared _ => none

def stateUnlock (s : State) (a r : Nat) : Option State :=
  match s.locks a r with
  | .free => none
  | .shared n => some (s.setLock a r (if n ≤ 1 then .free else .shared (n - 1)))
  | .exclusive => some (s.setLock a r .free)

/-- The block allocator gives the region `r`. -/
def allocNewObject (s : State) (a : Nat) (key : String) (r : Nat) : State :=
  { s with keys := insert key s.keys, region := update s.region key r }.addObjs a 1

/-- Nothing if the lock is not obtained. `freed` is false if `free_blk_region` throws. -/
def erase (s : State) (a : Nat) (key : String) (freed : Bool) : Option State :=
  if key ∈ s.keys then
    (s.getLock a (s.region key) .write).map fun l =>
      let s' := { s with keys := s.keys.erase key }
      if freed then (s'.setLock a (s.region key) .free).addObjs a (2 ^ 64 - 1)
      else s'.setLock a (s.region key) l
  else some s

def putNew (s : State) (a : Nat) (key : String) (region : Option Nat) : State :=
  region.elim s (s.allocNewObject a key)

def put (s : State) (a : Nat) (key : String) (freed : Bool) (region : Option Nat) : State :=
  if key ∈ s.keys then
    (s.erase a key freed).elim s fun s' => if freed then s'.putNew a key region else s'
  else s.putNew a key region

/-- `mapped` is false if the memory cannot be registered or the transfer throws. -/
def lockRegion (s : State) (a : Nat) (key : String) (type : LockType) (mapped : Bool) : Bool × State :=
  match s.getLock a (s.region key) type with
  | none => (false, s)
  | some l =>
    let s' := s.setLock a (s.region key) l
    (true, if mapped then { s' with lockedRegion := update s.lockedRegion a (some ((s.lockedRegion a).getD key)) }
      else s')

/-- Whether the lock was obtained. A key that is not there is entered first. -/
def lock (s : State) (a : Nat) (key : String) (type : LockType) (valueLen : Nat) (region : Option Nat)
    (mapped : Bool) : Bool × State :=
  if key ∈ s.keys then s.lockRegion a key type mapped
  else if valueLen = 0 then (false, s)
  else region.elim (false, s) fun r => (s.allocNewObject a key r).lockRegion a key type mapped

def unlock (s : State) (a : Nat) (written : Bool) : State :=
  match s.lockedRegion a with
  | none => s
  | some key =>
    if key ∈ s.keys ∧ written then
      (s.stateUnlock a (s.region key)).elim s fun s' => { s' with lockedRegion := update s.lockedRegion a none }
    else s

end State

/-- `openPool` stands for `create_pool` and `open_pool`, where they return a session at address `a`. -/
inductive Event where
  | openPool (a : Nat)
  | closePool (a : Nat)
  | put (a : Nat) (key : String) (freed : Bool) (region : Option Nat)
  | erase (a : Nat) (key : String) (freed : Bool)
  | lock (a : Nat) (key : String) (type : LockType) (valueLen : Nat) (region : Option Nat) (mapped : Bool)
  | unlock (a : Nat) (written : Bool)

def Event.addr : Event → Nat
  | .openPool a | .closePool a | .put a _ _ _ | .erase a _ _ | .lock a _ _ _ _ _ | .unlock a _ => a

def call (s : State) : Event → State
  | .openPool _ => s
  | .closePool a => { s with sessions := s.sessions.erase a }
  | .put a key freed region => s.put a key freed region
  | .erase a key freed => (s.erase a key freed).getD s
  | .lock a key type valueLen region mapped => (s.lock a key type valueLen region mapped).2
  | .unlock a written => s.unlock a written

/-- A call without a session throws, or returns `E_INVAL`. -/
def step (s : State) : Event → Option State
  | .openPool a =>
    if a ∈ s.sessions then none
    else some { s with
      sessions := insert a s.sessions, numObjs := update s.numObjs a 0
      lockedRegion := update s.lockedRegion a none }
  | e => some (if e.addr ∈ s.sessions then call s e else s)

/-- A key that is write-locked through one session can be locked and erased through none. -/
def State.Excludes (s : State) : Prop :=
  ∀ a ∈ s.sessions, ∀ b ∈ s.sessions, ∀ key ∈ s.keys, s.locks a (s.region key) = .exclusive →
    (∀ freed, s.erase b key freed = none) ∧
      ∀ type valueLen region mapped, (s.lock b key type valueLen region mapped).1 = false

def State.Counts (s : State) : Prop := ∀ a ∈ s.sessions, s.numObjs a = s.keys.card

def Holds (s : State) (e : Event) : Prop := ∀ s' ∈ step s e, s'.Excludes ∧ s'.Counts

def State.Alone (s : State) (a : Nat) : Prop := ∀ b ∈ s.sessions, b = a

/-- A session is opened on a pool without keys. Objects are entered through the only session, and erased where
their blocks can be freed. -/
def Safe (s : State) : Event → Prop
  | .openPool _ => s.keys = ∅
  | .put a key freed _ => s.Alone a ∧ s.keys.card + 1 < 2 ^ 64 ∧ (key ∈ s.keys → freed = true)
  | .erase _ key freed => key ∈ s.keys → freed = true
  | .lock a key _ _ _ _ => key ∈ s.keys ∨ s.Alone a ∧ s.keys.card + 1 < 2 ^ 64
  | .closePool _ | .unlock _ _ => True

instance (s : State) (a : Nat) : Decidable (s.Alone a) := inferInstanceAs (Decidable (∀ b ∈ s.sessions, b = a))

instance (s : State) (e : Event) : Decidable (Safe s e) := by
  cases e <;> unfold Safe <;> infer_instance

structure Inv (s : State) : Prop where
  counts : s.Counts
  single : s.keys.Nonempty → ∀ a ∈ s.sessions, s.Alone a
  card : s.keys.card < 2 ^ 64

section Invariant

variable {s s' : State} {a : Nat} {key : String} {region : Option Nat} {freed : Bool}

theorem Inv.excludes (h : Inv s) : s.Excludes := by
  intro a ha b hb key hkey hlock
  obtain rfl := h.single ⟨key, hkey⟩ a ha b hb
  have hnone (type : LockType) : s.getLock b (s.region key) type = none := by
    unfold State.getLock
    rw [hlock]
  refine ⟨fun freed => ?_, fun type valueLen region mapped => ?_⟩
  · rw [State.erase, if_pos hkey, hnone, Option.map_none]
  · rw [State.lock, if_pos hkey, State.lockRegion, hnone]

theorem Inv.allocNewObject (h : Inv s) (ha : a ∈ s.sessions) (halone : s.Alone a) (hroom : s.keys.card + 1 < 2 ^ 64)
    (hkey : key ∉ s.keys) (r : Nat) : Inv (s.allocNewObject a key r) := by
  have hcard : (insert key s.keys).card = s.keys.card + 1 := Finset.card_insert_of_notMem hkey
  refine ⟨fun b hb => ?_, fun _ b hb c hc => (halone c hc).trans (halone b hb).symm, hcard.trans_lt hroom⟩
  obtain rfl := halone b hb
  refine (update_self ..).trans ?_
  rw [h.counts b ha, Nat.mod_eq_of_lt hroom]
  exact hcard.symm

theorem Inv.erase (h : Inv s) (ha : a ∈ s.sessions) (hsafe : key ∈ s.keys → freed = true)
    (hs' : s.erase a key freed = some s') : Inv s' ∧ s'.keys = s.keys.erase key ∧ s'.sessions = s.sessions := by
  by_cases hkey : key ∈ s.keys
  · obtain rfl := hsafe hkey
    rw [State.erase, if_pos hkey] at hs'
    obtain ⟨l, -, rfl⟩ := Option.map_eq_some_iff.mp hs'
    have halone := h.single ⟨key, hkey⟩ a ha
    have hcard := Finset.card_erase_add_one hkey
    have hlt := h.card
    refine ⟨⟨fun b hb => ?_, fun _ b hb c hc => (halone c hc).trans (halone b hb).symm, ?_⟩, rfl, rfl⟩
    · obtain rfl := halone b hb
      refine (update_self ..).trans ?_
      change (s.numObjs b + _) % _ = (s.keys.erase key).card
      rw [h.counts b ha]
      omega
    · change (s.keys.erase key).card < _
      omega
  · rw [State.erase, if_neg hkey] at hs'
    cases hs'
    exact ⟨h, (Finset.erase_eq_of_notMem hkey).symm, rfl⟩

theorem Inv.putNew (h : Inv s) (ha : a ∈ s.sessions) (halone : s.Alone a) (hroom : s.keys.card + 1 < 2 ^ 64)
    (hkey : key ∉ s.keys) : Inv (s.putNew a key region) := by
  cases region with
  | none => exact h
  | some r => exact h.allocNewObject ha halone hroom hkey r

theorem Inv.put (h : Inv s) (ha : a ∈ s.sessions) (hsafe : Safe s (.put a key freed region)) :
    Inv (s.put a key freed region) := by
  obtain ⟨halone, hroom, hfreed⟩ := hsafe
  unfold State.put
  split
  · next hkey =>
    cases hs' : s.erase a key freed with
    | none => exact h
    | some s' =>
      obtain ⟨hinv, hkeys, hsessions⟩ := h.erase ha hfreed hs'
      have hle := Finset.card_erase_le (s := s.keys) (a := key)
      rw [hfreed hkey]
      refine hinv.putNew (hsessions ▸ ha) (fun b hb => halone b (hsessions ▸ hb)) ?_ ?_
      · rw [hkeys]
        omega
      · rw [hkeys]
        exact Finset.notMem_erase key s.keys
  · next hkey => exact h.putNew ha halone hroom hkey

theorem Inv.lockRegion (h : Inv s) (type : LockType) (mapped : Bool) : Inv (s.lockRegion a key type mapped).2 := by
  unfold State.lockRegion
  split
  · exact h
  · dsimp only
    split <;> exact ⟨h.counts, h.single, h.card⟩

theorem Inv.unlock (h : Inv s) (written : Bool) : Inv (s.unlock a written) := by
  unfold State.unlock
  split
  · exact h
  · split
    · unfold State.stateUnlock
      split
      · exact h
      · exact ⟨h.counts, h.single, h.card⟩
      · exact ⟨h.counts, h.single, h.card⟩
    · exact h

theorem Inv.call {e : Event} (h : Inv s) (ha : e.addr ∈ s.sessions) (hsafe : Safe s e) : Inv (call s e) := by
  cases e with
  | openPool a => exact h
  | closePool a =>
    have hsub {b : Nat} (hb : b ∈ s.sessions.erase a) : b ∈ s.sessions := Finset.mem_of_mem_erase hb
    exact ⟨fun b hb => h.counts b (hsub hb), fun hne b hb c hc => h.single hne b (hsub hb) c (hsub hc), h.card⟩
  | put a key freed region => exact h.put ha hsafe
  | erase a key freed =>
    change Inv ((s.erase a key freed).getD s)
    cases hs' : s.erase a key freed with
    | none => exact h
    | some s' => exact (h.erase ha hsafe hs').1
  | lock a key type valueLen region mapped =>
    change Inv (s.lock a key type valueLen region mapped).2
    unfold State.lock
    split
    · exact h.lockRegion type mapped
    · next hkey =>
      obtain ⟨halone, hroom⟩ := hsafe.resolve_left hkey
      split
      · exact h
      · cases region with
        | none => exact h
        | some r => exact (h.allocNewObject ha halone hroom hkey r).lockRegion type mapped
  | unlock a written => exact h.unlock written

theorem Inv.step {e : Event} (h : Inv s) (hsafe : Safe s e) (hs' : s' ∈ step s e) : Inv s' := by
  have hcall (hs' : some (if e.addr ∈ s.sessions then NvmePool.call s e else s) = some s') : Inv s' := by
    cases hs'
    split
    · next ha => exact h.call ha hsafe
    · exact h
  cases e with
  | openPool a =>
    obtain ⟨-, hs'⟩ := Option.ite_none_left_eq_some.mp hs'
    cases hs'
    have hempty : s.keys = ∅ := hsafe
    refine ⟨fun b hb => ?_, fun hne => absurd hempty hne.ne_empty, h.card⟩
    change update s.numObjs a 0 b = s.keys.card
    by_cases hba : b = a
    · rw [hba, update_self, hempty, Finset.card_empty]
    · rw [Function.update_of_ne hba]
      exact h.counts b (Finset.mem_of_mem_insert_of_ne hb hba)
  | _ => exact hcall hs'

end Invariant

/-- In every safe run a write lock excludes all sessions of the pool, and each session counts the keys of the pool. -/
theorem pooled_of_safe (es : List Event) (hsafe : Throughout step Safe .init es) : Throughout step Holds .init es :=
  hsafe.imp (I := Inv) (fun _ _ h he _ hs' => ⟨(h.step he hs').excludes, (h.step he hs').counts⟩)
    (fun _ _ _ h he hs' => h.step he hs') ⟨nofun, nofun, by decide⟩

def lockedEvents (a b : Nat) : List Event :=
  [.openPool a, .put a "k" true (some 3), .lock a "k" .write 0 none true, .openPool b]

theorem pooled_unlocked : Throughout step Holds .init ((lockedEvents 1 2).take 3 ++ [.unlock 1 true, .erase 1 "k" true]) :=
  pooled_of_safe _ (by decide +kernel)

/-- The second session counts no key, and can erase the one that is locked through the first. -/
theorem not_pooled_second : ¬ Throughout step Holds .init (lockedEvents 1 2) ∧
    ((runs step .init (lockedEvents 1 2)).bind fun s => s.erase 2 "k" true).isSome = true := by
  refine ⟨fun h => ?_, by decide +kernel⟩
  obtain ⟨-, h⟩ := h
  obtain ⟨-, h⟩ := h _ rfl
  obtain ⟨-, h⟩ := h _ rfl
  obtain ⟨h, -⟩ := h _ rfl
  exact absurd ((h _ rfl).2 2 (by decide +kernel)) (by decide +kernel)

end Comanche.Store.NvmePool
