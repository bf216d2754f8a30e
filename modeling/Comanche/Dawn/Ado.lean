import Comanche.Dawn.Shard
import Comanche.Lib.Run
import Mathlib.Data.Finset.Basic

/-!
# Active data objects

`Shard::process_ado_request` and `Shard::process_messages_from_ado`.
-/

namespace Comanche.Dawn

open Lib

structure AdoRequest where
  requestId : Nat
  poolId : Nat
  keyLen : Nat
  ondemandValLen : Nat
  invocationDataLen : Nat
  data : List UInt8

def AdoRequest.key (m : AdoRequest) : List UInt8 := cString m.data

def AdoRequest.request (m : AdoRequest) : List UInt8 :=
  (m.data.drop (m.keyLen + 1)).take m.invocationDataLen

structure AdoResponse where
  requestId : Nat
  status : Status
  responseLen : Nat
  data : List UInt8

def adoResponseSize : Nat := 32

def adoResponseLen (bytes : List UInt8) : Nat := bytes.length % 2 ^ 32

def AdoFits (bytes : List UInt8) : Prop := adoResponseSize + adoResponseLen bytes + 1 ≤ bufferLen

instance (bytes : List UInt8) : Decidable (AdoFits bytes) := inferInstanceAs (Decidable (_ ≤ _))

def AdoResponse.construct (requestId : Nat) (status : Status) (bytes : List UInt8) : AdoResponse :=
  ⟨requestId, toInt8 status, adoResponseLen bytes, bytes.take (adoResponseLen bytes)⟩

/-- `work_request_t`. Records are not deleted, so that their addresses are not used again. -/
structure WorkRequest where
  pool : Nat
  keyHandle : Nat
  requestId : Nat

structure Submission where
  record : WorkRequest
  handler : Nat

structure AdoLock where
  work : Nat
  pool : Nat
  handle : Nat

def AdoLock.place (l : AdoLock) : Nat × Nat := (l.pool, l.handle)

inductive AdoCall where
  | create (pool : Nat)
  | bootstrapAdo (pool : Nat)
  | getPoolRegions (pool : Nat)
  | sendMemoryMap (pool base len : Nat)
  | lock (pool : Nat) (key : List UInt8) (len : Nat)
  | unlock (pool : Nat) (handle : Option Nat)
  | erase (pool : Nat) (key : List UInt8)
  | sendWorkRequest (pool work : Nat) (key : List UInt8) (base len : Nat) (request : List UInt8)
  | sendTableOpResponse (pool : Nat) (status : Status) (base len : Nat)

inductive AdoExc where
  | noBuffersRemaining
  | insufficientBuffer
  | lockGaveKeyNone
  | badRecordKey
  | unlockFailed
  | deferredUnlockFailed
  | tableOpFailed
  | unknownTableOp
  | danglingHandler

structure AdoShard where
  enabled : Bool
  /-- `_ado_map`: the session that launched the process of a pool. -/
  adoMap : Nat → Option Nat
  /-- What the proxy of a pool keeps for a piece of work until it is complete. -/
  deferred : Nat → Nat → List (Option Nat)
  work : List Submission
  outstanding : Finset Nat
  closed : List Nat
  held : List AdoLock
  calls : List AdoCall
  posted : List (Nat × AdoResponse)

/-- What the store and the ADO manager answer to the calls of a request, and whether the session has a free
buffer. -/
structure AdoAnswer where
  iobFree : Bool
  bootstrap : Status
  mcas : Bool
  regionsStatus : Status
  /-- Base and length of each region, and whether it could be exposed. -/
  regions : List (Nat × Nat × Bool)
  lock : LockAnswer
  deriving Inhabited

structure Completion where
  key : Nat
  response : List UInt8
  unlock : Option Nat → Status
  iobFree : Bool

/-- `OP_CREATE` is 0, `OP_OPEN` is 1 and `OP_ERASE` is 2. -/
structure TableOp where
  work : Nat
  op : Int
  key : List UInt8
  valueLen : Nat
  lock : LockAnswer
  erase : Status

inductive AdoEvent where
  | request (handler : Nat) (m : AdoRequest) (a : AdoAnswer)
  | completion (pool : Nat) (c : Completion)
  | tableOp (pool : Nat) (t : TableOp)
  | close (handler : Nat)

namespace AdoShard

variable (s : AdoShard)

def call (c : AdoCall) : AdoShard := { s with calls := s.calls ++ [c] }

def post (handler : Nat) (r : AdoResponse) : AdoShard := { s with posted := s.posted ++ [(handler, r)] }

def postError (handler : Nat) (m : AdoRequest) (message : String) : AdoShard :=
  s.post handler (.construct m.requestId eInval (Work.bytesOf message))

def unlock (pool : Nat) (handle : Option Nat) : AdoShard :=
  { s.call (.unlock pool handle) with
    held := s.held.filter fun l => ¬ (l.pool = pool ∧ some l.handle = handle) }

def sendMemoryMaps (pool : Nat) (regions : List (Nat × Nat × Bool)) : AdoShard :=
  { s with calls := s.calls ++ regions.filterMap fun
      | (base, len, true) => some (.sendMemoryMap pool base len)
      | (_, _, false) => none }

def bootstrap (pool : Nat) (a : AdoAnswer) : AdoShard × Option String :=
  let s := s.call (.bootstrapAdo pool)
  if a.bootstrap ≠ sOk then (s, some "ADO!BOOTSTRAP=FAILED")
  else if a.mcas then
    let s := s.call (.getPoolRegions pool)
    if a.regionsStatus ≠ sOk then (s, some "ADO!GET_POOL_REGIONS=FAILED")
    else (s.sendMemoryMaps pool a.regions, none)
  else (s, none)

def launch (handler pool : Nat) (a : AdoAnswer) : AdoShard × Option String :=
  match s.adoMap pool with
  | some _ => (s, none)
  | none =>
    { s.call (.create pool) with adoMap := Function.update s.adoMap pool (some handler) }.bootstrap pool a

def sendWork (handler : Nat) (m : AdoRequest) (keyHandle base len : Nat) : AdoShard :=
  let key := s.work.length
  { s.call (.sendWorkRequest m.poolId key m.key base len m.request) with
    work := s.work ++ [⟨⟨m.poolId, keyHandle, m.requestId⟩, handler⟩]
    outstanding := insert key s.outstanding
    held := s.held ++ [⟨key, m.poolId, keyHandle⟩] }

def processAdoRequest (handler : Nat) (m : AdoRequest) (a : AdoAnswer) : AdoShard × Option AdoExc :=
  if !a.iobFree then (s, some .noBuffersRemaining)
  else if !s.enabled then (s.postError handler m "ADO!NOT_ENABLED", none)
  else
    match s.launch handler m.poolId a with
    | (s, some message) => (s.postError handler m message, none)
    | (s, none) =>
      let s := s.call (.lock m.poolId m.key m.ondemandValLen)
      if a.lock.rc ≠ sOk then (s.postError handler m "ADO!ALREADY_LOCKED", none)
      else
        match a.lock.handle with
        | none => (s, some .lockGaveKeyNone)
        | some keyHandle => (s.sendWork handler m keyHandle a.lock.base a.lock.bytes.length, none)

def unlockAll (pool : Nat) (status : Option Nat → Status) : List (Option Nat) → AdoShard →
    AdoShard × Option AdoExc
  | [], s => (s, none)
  | k :: keys, s =>
    if status k ≠ sOk then (s.unlock pool k, some .deferredUnlockFailed)
    else unlockAll pool status keys (s.unlock pool k)

def sendResponse (handler : Nat) (r : WorkRequest) (c : Completion) : AdoShard × Option AdoExc :=
  if handler ∈ s.closed then (s, some .danglingHandler)
  else if !c.iobFree then (s, some .noBuffersRemaining)
  else if AdoFits c.response then (s.post handler (.construct r.requestId sOk c.response), none)
  else (s, some .insufficientBuffer)

def workCompletion (pool handler : Nat) (c : Completion) : AdoShard × Option AdoExc :=
  if c.key ∉ s.outstanding then (s, some .badRecordKey)
  else
    match s.work[c.key]? with
    | none => (s, some .badRecordKey)
    | some ⟨r, _⟩ =>
      let s := { s with outstanding := s.outstanding.erase c.key }.unlock r.pool (some r.keyHandle)
      if c.unlock (some r.keyHandle) ≠ sOk then (s, some .unlockFailed)
      else
        let keys := s.deferred pool c.key
        let s := { s with
          deferred := Function.update s.deferred pool (Function.update (s.deferred pool) c.key []) }
        match unlockAll r.pool c.unlock keys s with
        | (s, some e) => (s, some e)
        | (s, none) => s.sendResponse handler r c

def addDeferredUnlock (pool work : Nat) (handle : Option Nat) : AdoShard :=
  { s with
    deferred := Function.update s.deferred pool
      (Function.update (s.deferred pool) work (s.deferred pool work ++ [handle]))
    held := s.held ++ (handle.map (AdoLock.mk work pool)).toList }

def tableOp (pool : Nat) (t : TableOp) : AdoShard × Option AdoExc :=
  if t.op = 0 ∨ t.op = 1 then
    let s := s.call (.lock pool t.key t.valueLen)
    if t.lock.rc ≠ sOk then (s, some .tableOpFailed)
    else
      let s := s.addDeferredUnlock pool t.work t.lock.handle
      (s.call (.sendTableOpResponse pool sOk t.lock.base t.lock.bytes.length), none)
  else if t.op = 2 then
    ((s.call (.erase pool t.key)).call (.sendTableOpResponse pool t.erase 0 0), none)
  else (s, some .unknownTableOp)

def handle (s : AdoShard) : AdoEvent → AdoShard × Option AdoExc
  | .request handler m a => s.processAdoRequest handler m a
  | .completion pool c =>
    match s.adoMap pool with
    | none => (s, none)
    | some handler => s.workCompletion pool handler c
  | .tableOp pool t => if (s.adoMap pool).isSome then s.tableOp pool t else (s, none)
  | .close handler => ({ s with closed := handler :: s.closed }, none)

def step (s : AdoShard) (e : AdoEvent) : Option AdoShard :=
  match s.handle e with
  | (s', none) => some s'
  | (_, some _) => none

def new (enabled : Bool) : AdoShard :=
  ⟨enabled, fun _ => none, fun _ _ => [], [], ∅, [], [], [], []⟩

def unlocks : List (Nat × Nat) :=
  s.calls.filterMap fun
    | .unlock pool (some handle) => some (pool, handle)
    | _ => none

def answers : List (Nat × AdoResponse) := s.posted.filter fun p => p.2.status = sOk

def locksOf (k : Nat) : List (Nat × Nat) := (s.held.filter fun l => l.work = k).map AdoLock.place

/-- Completed work is answered to the session that submitted it, once and with the identifier of the
request, and the locks held for it, and no others, are given back once. -/
def AnswersCompletion (pool : Nat) (c : Completion) : Prop :=
  ∃ s' submission r given, s.step (.completion pool c) = some s' ∧
    s.work[c.key]? = some submission ∧ r.requestId = submission.record.requestId ∧ r.status = sOk ∧
    s'.posted = s.posted ++ [(submission.handler, r)] ∧ c.key ∉ s'.outstanding ∧
    s'.unlocks = s.unlocks ++ given ∧ given.Perm (s.locksOf c.key) ∧ s'.locksOf c.key = [] ∧
    ∀ k ≠ c.key, s'.locksOf k = s.locksOf k

/-- Only completed work is answered, and only then are locks given back. -/
def Answers (s : AdoShard) : AdoEvent → Prop
  | .completion pool c => s.AnswersCompletion pool c
  | e => ∀ s' ∈ s.step e, s'.unlocks = s.unlocks ∧ s'.answers = s.answers

def Fresh (pool : Nat) (handle : Option Nat) : Prop :=
  ∀ h ∈ handle, (pool, h) ∉ s.held.map AdoLock.place

/-- What can happen: a deleted session sends nothing, a proxy reports work that was sent to it, as complete
only if it is outstanding, and the store grants handles that are not held. -/
def Possible (s : AdoShard) : AdoEvent → Prop
  | .request handler m a => handler ∉ s.closed ∧ s.Fresh m.poolId a.lock.handle
  | .completion pool c => c.key ∈ s.outstanding ∧ (s.work[c.key]?.map (·.record.pool)) = some pool
  | .tableOp pool t =>
    (s.work[t.work]?.map (·.record.pool)) = some pool ∧ s.Fresh pool t.lock.handle
  | .close _ => True

/-- The work was submitted by the session that launched the process of the pool, which has not been closed
and has a free buffer; the response fits a buffer; and the store gives the locks back. -/
def Safe (s : AdoShard) : AdoEvent → Prop
  | .completion pool c =>
    ∃ submission ∈ s.work[c.key]?, s.adoMap pool = some submission.handler ∧
      submission.handler ∉ s.closed ∧ c.iobFree = true ∧ AdoFits c.response ∧
      ∀ h ∈ some submission.record.keyHandle :: s.deferred pool c.key, c.unlock h = sOk
  | _ => True

instance (s : AdoShard) (pool : Nat) (handle : Option Nat) : Decidable (s.Fresh pool handle) :=
  inferInstanceAs (Decidable (∀ h ∈ handle, _))

instance (s : AdoShard) (e : AdoEvent) : Decidable (s.Possible e) := by
  unfold AdoShard.Possible
  split <;> infer_instance

instance (s : AdoShard) (e : AdoEvent) : Decidable (s.Safe e) := by
  unfold AdoShard.Safe
  split <;> infer_instance

section Completion

variable {s s' : AdoShard} {pool handler : Nat} {c : Completion} {status : Option Nat → Status}
  {keys : List (Option Nat)} {submission : Submission}

def unlocked (pool : Nat) (keys : List (Option Nat)) (s : AdoShard) : AdoShard :=
  { s with
    calls := s.calls ++ keys.map (AdoCall.unlock pool)
    held := s.held.filter fun l => ¬ (l.pool = pool ∧ some l.handle ∈ keys) }

theorem unlocked_cons (k : Option Nat) : unlocked pool (k :: keys) s = unlocked pool keys (s.unlock pool k) := by
  have hheld : (s.held.filter fun l => ¬ (l.pool = pool ∧ some l.handle ∈ k :: keys)) =
      (s.held.filter fun l => ¬ (l.pool = pool ∧ some l.handle = k)).filter
        fun l => ¬ (l.pool = pool ∧ some l.handle ∈ keys) := by
    rw [List.filter_filter]
    refine List.filter_congr fun l _ => ?_
    rw [← Bool.decide_and]
    refine decide_eq_decide.mpr ?_
    rw [List.mem_cons]
    tauto
  simp only [unlocked, unlock, call, hheld, List.map_cons, List.append_assoc, List.singleton_append]

theorem unlockAll_of_ok (h : ∀ k ∈ keys, status k = sOk) :
    unlockAll pool status keys s = (unlocked pool keys s, none) := by
  induction keys generalizing s with
  | nil => simp [unlockAll, unlocked]
  | cons k keys ih =>
    unfold unlockAll
    rw [if_neg (not_not.mpr (h k List.mem_cons_self)), ih fun k hk => h k (List.mem_cons_of_mem _ hk), unlocked_cons]

theorem unlockAll_of_not_ok (h : ¬ ∀ k ∈ keys, status k = sOk) :
    ∃ s', unlockAll pool status keys s = (s', some .deferredUnlockFailed) := by
  induction keys generalizing s with
  | nil => exact absurd (fun k hk => absurd hk List.not_mem_nil) h
  | cons k keys ih =>
    unfold unlockAll
    by_cases hk : status k = sOk
    · rw [if_neg (not_not.mpr hk)]
      refine ih fun hkeys => h fun k' hk' => ?_
      obtain rfl | hk' := List.mem_cons.mp hk'
      · exact hk
      · exact hkeys k' hk'
    · rw [if_pos hk]
      exact ⟨_, rfl⟩

def completed (s : AdoShard) (pool handler : Nat) (r : WorkRequest) (c : Completion) : AdoShard :=
  (unlocked r.pool (some r.keyHandle :: s.deferred pool c.key)
    { s with
      outstanding := s.outstanding.erase c.key
      deferred := Function.update s.deferred pool (Function.update (s.deferred pool) c.key []) }).post
    handler (.construct r.requestId sOk c.response)

structure Passes (s : AdoShard) (pool handler : Nat) (r : WorkRequest) (c : Completion) : Prop where
  unlock : ∀ h ∈ some r.keyHandle :: s.deferred pool c.key, c.unlock h = sOk
  notClosed : handler ∉ s.closed
  iobFree : c.iobFree = true
  fits : AdoFits c.response

theorem Passes.sendResponse {r : WorkRequest} {t : AdoShard} (h : s.Passes pool handler r c)
    (hclosed : t.closed = s.closed) :
    t.sendResponse handler r c = (t.post handler (.construct r.requestId sOk c.response), none) := by
  unfold AdoShard.sendResponse
  rw [hclosed, if_neg h.notClosed, if_neg (by simp [h.iobFree]), if_pos h.fits]

theorem passes_of_sendResponse {r : WorkRequest} {t t' : AdoShard}
    (hunlock : ∀ h ∈ some r.keyHandle :: s.deferred pool c.key, c.unlock h = sOk)
    (hclosed : t.closed = s.closed) (hsend : t.sendResponse handler r c = (t', none)) : s.Passes pool handler r c := by
  unfold AdoShard.sendResponse at hsend
  rw [hclosed] at hsend
  split at hsend
  · cases hsend
  · next hopen =>
    split at hsend
    · cases hsend
    · next hfree =>
      split at hsend
      · next hfits => exact ⟨hunlock, hopen, by simpa using hfree, hfits⟩
      · cases hsend

theorem step_completion_iff (hout : c.key ∈ s.outstanding) (hwork : s.work[c.key]? = some submission)
    (hmap : s.adoMap pool = some handler) : s.step (.completion pool c) = some s' ↔
      s.Passes pool handler submission.record c ∧ s.completed pool handler submission.record c = s' := by
  obtain ⟨r, submitter⟩ := submission
  unfold step handle workCompletion
  simp only [hmap, hwork, hout, not_true_eq_false, if_false]
  by_cases hkey : c.unlock (some r.keyHandle) = sOk
  · simp only [hkey, ne_eq, not_true_eq_false, if_false]
    change (match (match unlockAll r.pool c.unlock (s.deferred pool c.key) _ with
      | (s, some e) => (s, some e)
      | (s, none) => s.sendResponse handler r c) with
      | (s', none) => some s'
      | (_, some _) => none) = some s' ↔ _
    by_cases hkeys : ∀ k ∈ s.deferred pool c.key, c.unlock k = sOk
    · have hunlock : ∀ h ∈ some r.keyHandle :: s.deferred pool c.key, c.unlock h = sOk :=
        List.forall_mem_cons.mpr ⟨hkey, hkeys⟩
      rw [unlockAll_of_ok hkeys]
      dsimp only
      generalize ht : unlocked r.pool (s.deferred pool c.key) _ = t
      have hclosed : t.closed = s.closed := by rw [← ht]; rfl
      have hdone : t.post handler (.construct r.requestId sOk c.response) = s.completed pool handler r c := by
        rw [← ht, completed, unlocked_cons]
        rfl
      constructor
      · intro hstep
        split at hstep
        · next t' hsend =>
          have hpasses := passes_of_sendResponse hunlock hclosed hsend
          rw [hpasses.sendResponse hclosed] at hsend
          cases hsend
          cases hstep
          exact ⟨hpasses, hdone.symm⟩
        · cases hstep
      · rintro ⟨hpasses, rfl⟩
        rw [hpasses.sendResponse hclosed, hdone]
    · obtain ⟨s₁, hs₁⟩ := unlockAll_of_not_ok hkeys
      rw [hs₁]
      refine ⟨fun h => (by cases h), fun h => absurd ?_ hkeys⟩
      exact fun k hk => h.1.unlock k (List.mem_cons_of_mem _ hk)
  · simp only [hkey, ne_eq, not_false_eq_true, if_true]
    exact ⟨fun h => (by cases h), fun h => absurd (h.1.unlock _ List.mem_cons_self) hkey⟩

end Completion

def recorded (s : AdoShard) (r : WorkRequest) (k : Nat) : List (Nat × Nat) :=
  (r.pool, r.keyHandle) :: ((s.deferred r.pool k).filterMap id).map (Prod.mk r.pool)

structure Inv (s : AdoShard) : Prop where
  launched : ∀ submission ∈ s.work, s.adoMap submission.record.pool ≠ none
  locks : ∀ k ∈ s.outstanding, ∃ submission ∈ s.work[k]?,
    (s.locksOf k).Perm (s.recorded submission.record k)
  places : (s.held.map AdoLock.place).Nodup
  held : ∀ l ∈ s.held, l.work < s.work.length
  deferred : ∀ pool k, s.work.length ≤ k → s.deferred pool k = []

section Books

variable {s s' : AdoShard} {pool handler : Nat} {c : Completion} {submission : Submission} {k : Nat}

theorem mem_recorded_iff {r : WorkRequest} {l : AdoLock} : l.place ∈ s.recorded r k ↔
      l.pool = r.pool ∧ some l.handle ∈ some r.keyHandle :: s.deferred r.pool k := by
  simp only [recorded, AdoLock.place, List.mem_cons, Prod.mk.injEq, List.mem_map, List.mem_filterMap,
    id_eq, Option.some.injEq]
  constructor
  · rintro (⟨hpool, hhandle⟩ | ⟨h, ⟨_, hmem, rfl⟩, hpool, rfl⟩)
    · exact ⟨hpool, Or.inl hhandle⟩
    · exact ⟨hpool.symm, Or.inr hmem⟩
  · rintro ⟨hpool, hhandle | hmem⟩
    · exact Or.inl ⟨hpool, hhandle⟩
    · exact Or.inr ⟨l.handle, ⟨_, hmem, rfl⟩, hpool.symm, rfl⟩

theorem Inv.mem_locksOf_iff (h : s.Inv) {l : AdoLock} (hl : l ∈ s.held) : l.place ∈ s.locksOf k ↔ l.work = k := by
  unfold locksOf
  constructor
  · intro hmem
    obtain ⟨l', hl', hplace⟩ := List.mem_map.mp hmem
    obtain ⟨hheld, hwork⟩ := List.mem_filter.mp hl'
    rw [← List.inj_on_of_nodup_map h.places hheld hl hplace]
    exact of_decide_eq_true hwork
  · intro hwork
    exact List.mem_map.mpr ⟨l, List.mem_filter.mpr ⟨hl, decide_eq_true hwork⟩, rfl⟩

theorem Inv.held_completed (h : s.Inv) (hout : c.key ∈ s.outstanding)
    (hwork : s.work[c.key]? = some submission) (hpool : submission.record.pool = pool) :
    (s.completed pool handler submission.record c).held = s.held.filter fun l => l.work ≠ c.key := by
  obtain ⟨submission', hsub, hperm⟩ := h.locks _ hout
  obtain rfl : submission = submission' := Option.some.inj (hwork.symm.trans hsub)
  refine List.filter_congr fun l hl => decide_eq_decide.mpr (not_congr ?_)
  rw [← h.mem_locksOf_iff hl, hperm.mem_iff, mem_recorded_iff, hpool]

theorem locksOf_filter_self {held : List AdoLock} (hheld : s'.held = held.filter fun l => l.work ≠ k) :
    s'.locksOf k = [] := by
  unfold locksOf
  rw [hheld, List.filter_filter]
  simp

theorem locksOf_filter_ne {j : Nat} (hheld : s'.held = s.held.filter fun l => l.work ≠ k) (hj : j ≠ k) :
    s'.locksOf j = s.locksOf j := by
  unfold locksOf
  rw [hheld, List.filter_filter]
  congr 1
  refine List.filter_congr fun l _ => ?_
  by_cases hl : l.work = j
  · simp [hl, hj]
  · simp [hl]

theorem filterMap_unlock (keys : List (Option Nat)) : ((keys.map (AdoCall.unlock pool)).filterMap fun
      | .unlock pool (some handle) => some (pool, handle)
      | _ => none) = (keys.filterMap id).map (Prod.mk pool) := by
  induction keys with
  | nil => rfl
  | cons k keys ih =>
    cases k with
    | none => simpa using ih
    | some h => simpa using ih

theorem unlocks_completed {r : WorkRequest} (hpool : r.pool = pool) :
    (s.completed pool handler r c).unlocks = s.unlocks ++ s.recorded r c.key := by
  change (s.calls ++ (some r.keyHandle :: s.deferred pool c.key).map (AdoCall.unlock r.pool)).filterMap
    _ = _
  rw [List.filterMap_append, filterMap_unlock, ← hpool]
  rfl

theorem Inv.answersCompletion_iff (h : s.Inv) (hpossible : s.Possible (.completion pool c)) :
    s.AnswersCompletion pool c ↔ s.Safe (.completion pool c) := by
  obtain ⟨hout, hpool⟩ := hpossible
  obtain ⟨submission, hwork, hpool⟩ := Option.map_eq_some_iff.mp hpool
  have hlaunched := h.launched submission (List.mem_of_getElem? hwork)
  rw [hpool] at hlaunched
  obtain ⟨handler, hmap⟩ := Option.ne_none_iff_exists'.mp hlaunched
  constructor
  · rintro ⟨s', submission', r, -, hstep, hwork', -, -, hposted, -⟩
    obtain rfl : submission = submission' := Option.some.inj (hwork.symm.trans hwork')
    obtain ⟨hpasses, rfl⟩ := (step_completion_iff hout hwork hmap).mp hstep
    have hlast := List.append_cancel_left hposted
    have hhandler : handler = submission.handler := by
      injection hlast with hpair
      exact congrArg Prod.fst hpair
    refine ⟨submission, hwork, hhandler ▸ hmap, hhandler ▸ hpasses.notClosed, hpasses.iobFree, hpasses.fits, hpasses.unlock⟩
  · rintro ⟨submission', hwork', hmap', hclosed, hfree, hfits, hunlock⟩
    obtain rfl : submission = submission' := Option.some.inj (hwork.symm.trans hwork')
    have hstep := (step_completion_iff hout hwork hmap').mpr ⟨⟨hunlock, hclosed, hfree, hfits⟩, rfl⟩
    have hheld : (s.completed pool submission.handler submission.record c).held = _ :=
      h.held_completed hout hwork hpool
    obtain ⟨submission', hsub, hperm⟩ := h.locks _ hout
    obtain rfl : submission = submission' := Option.some.inj (hwork.symm.trans hsub)
    exact ⟨_, submission, _, _, hstep, hwork, rfl, rfl, rfl, Finset.notMem_erase _ _,
      unlocks_completed hpool, hperm.symm, locksOf_filter_self hheld,
      fun k hk => locksOf_filter_ne hheld hk⟩

structure Keeps (s s' : AdoShard) : Prop where
  deferred : s'.deferred = s.deferred
  work : s'.work = s.work
  outstanding : s'.outstanding = s.outstanding
  held : s'.held = s.held
  adoMap : ∀ pool, s.adoMap pool ≠ none → s'.adoMap pool ≠ none
  unlocks : s'.unlocks = s.unlocks
  answers : s'.answers = s.answers

theorem Keeps.refl (s : AdoShard) : Keeps s s := ⟨rfl, rfl, rfl, rfl, fun _ h => h, rfl, rfl⟩

theorem Keeps.trans {t : AdoShard} (h : Keeps s t) (h' : Keeps t s') : Keeps s s' :=
  ⟨h'.deferred.trans h.deferred, h'.work.trans h.work, h'.outstanding.trans h.outstanding,
    h'.held.trans h.held, fun pool hpool => h'.adoMap pool (h.adoMap pool hpool),
    h'.unlocks.trans h.unlocks, h'.answers.trans h.answers⟩

theorem keeps_call {a : AdoCall} (ha : ∀ pool handle, a ≠ .unlock pool handle) : Keeps s (s.call a) := by
  refine ⟨rfl, rfl, rfl, rfl, fun _ h => h, ?_, rfl⟩
  unfold unlocks call
  rw [List.filterMap_append]
  cases a with
  | unlock pool handle => exact absurd rfl (ha pool handle)
  | create | bootstrapAdo | getPoolRegions | sendMemoryMap | lock | erase | sendWorkRequest
  | sendTableOpResponse => exact List.append_nil _

variable {m : AdoRequest} {a : AdoAnswer} {e : AdoEvent}

theorem keeps_postError {message : String} : Keeps s (s.postError handler m message) := by
  refine ⟨rfl, rfl, rfl, rfl, fun _ h => h, rfl, ?_⟩
  change (s.posted ++ [_]).filter _ = s.posted.filter _
  rw [List.filter_append]
  exact List.append_nil _

theorem keeps_sendMemoryMaps {regions : List (Nat × Nat × Bool)} : Keeps s (s.sendMemoryMaps pool regions) := by
  refine ⟨rfl, rfl, rfl, rfl, fun _ h => h, ?_, rfl⟩
  unfold unlocks sendMemoryMaps
  rw [List.filterMap_append, List.append_right_eq_self, List.filterMap_filterMap, List.filterMap_eq_nil_iff]
  rintro ⟨base, len, exposed⟩ -
  cases exposed with
  | true => rfl
  | false => rfl

theorem keeps_bootstrap (s : AdoShard) (pool : Nat) (a : AdoAnswer) : Keeps s (s.bootstrap pool a).1 := by
  have hboot : Keeps s (s.call (.bootstrapAdo pool)) := keeps_call (by simp)
  have hregions : Keeps s ((s.call (.bootstrapAdo pool)).call (.getPoolRegions pool)) :=
    hboot.trans (keeps_call (by simp))
  unfold bootstrap
  dsimp only
  split
  · exact hboot
  · split
    · split
      · exact hregions
      · exact hregions.trans keeps_sendMemoryMaps
    · exact hboot

theorem keeps_launch : Keeps s (s.launch handler pool a).1 ∧ (s.launch handler pool a).1.adoMap pool ≠ none := by
  unfold launch
  cases hmap : s.adoMap pool with
  | some _ => exact ⟨Keeps.refl s, by simp [hmap]⟩
  | none =>
    have hcreate : Keeps s { s.call (.create pool) with
        adoMap := Function.update s.adoMap pool (some handler) } := by
      have hcall : Keeps s (s.call (.create pool)) := keeps_call (by simp)
      refine ⟨rfl, rfl, rfl, rfl, fun p hp => ?_, hcall.unlocks, rfl⟩
      by_cases hpool : p = pool
      · simp [hpool]
      · simpa [hpool] using hp
    have hboot := keeps_bootstrap { s.call (.create pool) with
      adoMap := Function.update s.adoMap pool (some handler) } pool a
    exact ⟨hcreate.trans hboot, hboot.adoMap pool (by simp)⟩

theorem Inv.of_keeps (h : s.Inv) (hkeeps : Keeps s s') : s'.Inv where
  launched submission hmem := hkeeps.adoMap _ (h.launched submission (hkeeps.work ▸ hmem))
  locks k hk := by
    rw [hkeeps.outstanding] at hk
    unfold locksOf recorded
    rw [hkeeps.work, hkeeps.held, hkeeps.deferred]
    exact h.locks k hk
  places := by
    rw [hkeeps.held]
    exact h.places
  held := by
    rw [hkeeps.held, hkeeps.work]
    exact h.held
  deferred := by
    rw [hkeeps.work, hkeeps.deferred]
    exact h.deferred

theorem processAdoRequest_cases (h : s.processAdoRequest handler m a = (s', none)) :
    Keeps s s' ∨ ∃ t keyHandle base len, Keeps s t ∧ t.adoMap m.poolId ≠ none ∧
      keyHandle ∈ a.lock.handle ∧ t.sendWork handler m keyHandle base len = s' := by
  unfold processAdoRequest at h
  split at h
  · cases h
  split at h
  · cases h
    exact Or.inl keeps_postError
  have hlaunch : Keeps s (s.launch handler m.poolId a).1 ∧ _ := keeps_launch
  rcases hres : s.launch handler m.poolId a with ⟨t, message⟩
  rw [hres] at h hlaunch
  cases message with
  | some message =>
    cases h
    exact Or.inl (hlaunch.1.trans keeps_postError)
  | none =>
    have hlock : Keeps s (t.call (.lock m.poolId m.key m.ondemandValLen)) :=
      hlaunch.1.trans (keeps_call (by simp))
    dsimp only at h
    split at h
    · cases h
      exact Or.inl (hlock.trans keeps_postError)
    · cases hhandle : a.lock.handle with
      | none =>
        rw [hhandle] at h
        cases h
      | some keyHandle =>
        rw [hhandle] at h
        cases h
        exact Or.inr ⟨_, keyHandle, _, _, hlock, hlaunch.2, rfl, rfl⟩

theorem Inv.sendWork (h : s.Inv) {keyHandle base len : Nat}
    (hmap : s.adoMap m.poolId ≠ none) (hfresh : (m.poolId, keyHandle) ∉ s.held.map AdoLock.place) :
    (s.sendWork handler m keyHandle base len).Inv where
  launched submission hmem := by
    obtain hmem | hmem := List.mem_append.mp hmem
    · exact h.launched submission hmem
    · rw [List.mem_singleton.mp hmem]
      exact hmap
  locks k hk := by
    obtain rfl | hk := Finset.mem_insert.mp hk
    · refine ⟨_, List.getElem?_concat_length, ?_⟩
      have hnone : s.held.filter (fun l => l.work = s.work.length) = [] :=
        List.filter_eq_nil_iff.mpr fun l hl => by simpa using (h.held l hl).ne
      unfold locksOf recorded AdoShard.sendWork
      dsimp only [call]
      rw [List.filter_append, hnone, h.deferred m.poolId _ (Nat.le_refl _)]
      simp [AdoLock.place]
    · obtain ⟨submission, hwork, hperm⟩ := h.locks k hk
      have hlt : k < s.work.length := (List.getElem?_eq_some_iff.mp hwork).1
      refine ⟨submission, (List.getElem?_append_left hlt).trans hwork, ?_⟩
      have hsame : (s.sendWork handler m keyHandle base len).locksOf k = s.locksOf k := by
        unfold locksOf AdoShard.sendWork
        rw [List.filter_append]
        simp [hlt.ne']
      rw [hsame]
      exact hperm
  places := by
    change ((s.held ++ [_]).map AdoLock.place).Nodup
    rw [List.map_append]
    exact h.places.append (List.nodup_singleton _) (List.disjoint_singleton.mpr hfresh)
  held l hl := by
    change l ∈ s.held ++ [_] at hl
    change l.work < (s.work ++ [_]).length
    rw [List.length_append]
    obtain hl | hl := List.mem_append.mp hl
    · exact Nat.lt_add_right 1 (h.held l hl)
    · rw [List.mem_singleton.mp hl]
      exact Nat.lt_succ_self _
  deferred pool k hk := by
    refine h.deferred pool k (Nat.le_trans ?_ hk)
    change _ ≤ (s.work ++ [_]).length
    rw [List.length_append]
    exact Nat.le_add_right _ _

theorem tableOp_cases {t : TableOp} (h : s.tableOp pool t = (s', none)) :
    Keeps s s' ∨ ∃ u, Keeps s u ∧ Keeps (u.addDeferredUnlock pool t.work t.lock.handle) s' := by
  have hkeeps (u : AdoShard) {a : AdoCall} (ha : ∀ pool handle, a ≠ .unlock pool handle) :
      Keeps u (u.call a) := keeps_call ha
  unfold tableOp at h
  split at h
  · dsimp only at h
    split at h
    · cases h
    · cases h
      exact Or.inr ⟨_, hkeeps s (by simp), hkeeps _ (by simp)⟩
  · split at h
    · cases h
      exact Or.inl ((hkeeps s (by simp)).trans (hkeeps _ (by simp)))
    · cases h

theorem locksOf_addDeferredUnlock {work : Nat} {handle : Option Nat} :
    (s.addDeferredUnlock pool work handle).locksOf k =
      s.locksOf k ++ if k = work then handle.toList.map (Prod.mk pool) else [] := by
  unfold locksOf addDeferredUnlock
  rw [List.filter_append, List.map_append]
  cases handle with
  | none => simp
  | some h =>
    by_cases hk : k = work
    · simp [hk, AdoLock.place]
    · simp [hk, Ne.symm hk]

theorem Inv.addDeferredUnlock (h : s.Inv) {work : Nat} {handle : Option Nat}
    (hwork : s.work[work]? = some submission) (hpool : submission.record.pool = pool)
    (hfresh : s.Fresh pool handle) : (s.addDeferredUnlock pool work handle).Inv where
  launched := h.launched
  locks k hk := by
    obtain ⟨submission', hsub, hperm⟩ := h.locks k hk
    refine ⟨submission', hsub, ?_⟩
    rw [locksOf_addDeferredUnlock]
    by_cases hkey : k = work
    · subst hkey
      obtain rfl : submission = submission' := Option.some.inj (hwork.symm.trans hsub)
      have hrecorded : (s.addDeferredUnlock pool k handle).recorded submission.record k =
          s.recorded submission.record k ++ handle.toList.map (Prod.mk pool) := by
        unfold recorded AdoShard.addDeferredUnlock
        cases handle with
        | none => simp [hpool]
        | some h => simp [hpool]
      rw [if_pos rfl, hrecorded]
      exact hperm.append_right _
    · have hrecorded : (s.addDeferredUnlock pool work handle).recorded submission'.record k =
          s.recorded submission'.record k := by
        unfold recorded AdoShard.addDeferredUnlock
        by_cases hp : submission'.record.pool = pool
        · simp [hp, hkey]
        · simp [hp]
      rw [if_neg hkey, hrecorded, List.append_nil]
      exact hperm
  places := by
    change ((s.held ++ _).map AdoLock.place).Nodup
    rw [List.map_append]
    cases handle with
    | none =>
      rw [Option.map_none, Option.toList_none, List.map_nil, List.append_nil]
      exact h.places
    | some handle =>
      exact h.places.append (List.nodup_singleton _) (List.disjoint_singleton.mpr (hfresh handle rfl))
  held l hl := by
    obtain hl | hl := List.mem_append.mp hl
    · exact h.held l hl
    · obtain ⟨handle', -, rfl⟩ := Option.map_eq_some_iff.mp (Option.mem_toList.mp hl)
      exact (List.getElem?_eq_some_iff.mp hwork).1
  deferred p k hk := by
    have hlt : work < s.work.length := (List.getElem?_eq_some_iff.mp hwork).1
    have hne : k ≠ work := fun heq => Nat.not_le.mpr hlt (heq ▸ hk)
    have hsame := h.deferred p k hk
    unfold AdoShard.addDeferredUnlock
    by_cases hp : p = pool
    · subst hp
      simp [hne, hsame]
    · simp [hp, hsame]

theorem Inv.completed (h : s.Inv) (hout : c.key ∈ s.outstanding)
    (hwork : s.work[c.key]? = some submission) (hpool : submission.record.pool = pool) :
    (s.completed pool handler submission.record c).Inv := by
  have hheld : (s.completed pool handler submission.record c).held = _ :=
    h.held_completed hout hwork hpool
  refine ⟨h.launched, fun k hk => ?_, ?_, fun l hl => ?_, fun p k hk => ?_⟩
  · obtain ⟨hne, hk⟩ := Finset.mem_erase.mp hk
    obtain ⟨submission', hsub, hperm⟩ := h.locks k hk
    refine ⟨submission', hsub, ?_⟩
    have hrecorded : (s.completed pool handler submission.record c).recorded submission'.record k =
        s.recorded submission'.record k := by
      unfold recorded AdoShard.completed unlocked post
      by_cases hp : submission'.record.pool = pool
      · simp [hp, hne]
      · simp [hp]
    rw [locksOf_filter_ne hheld hne, hrecorded]
    exact hperm
  · rw [hheld]
    exact h.places.sublist (List.filter_sublist.map _)
  · rw [hheld] at hl
    exact h.held l (List.mem_filter.mp hl).1
  · have hsame := h.deferred p k hk
    unfold AdoShard.completed unlocked post
    by_cases hp : p = pool
    · subst hp
      by_cases hkey : k = c.key
      · simp [hkey]
      · simp [hkey, hsame]
    · simp [hp, hsame]

theorem step_eq_some_iff : s.step e = some s' ↔ s.handle e = (s', none) := by
  unfold step
  rcases s.handle e with ⟨t, x⟩
  cases x with
  | none => simp
  | some e => simp

theorem Keeps.of_request (h : s.processAdoRequest handler m a = (s', none)) :
    s'.unlocks = s.unlocks ∧ s'.answers = s.answers := by
  obtain hkeeps | ⟨t, keyHandle, base, len, hkeeps, -, -, rfl⟩ := processAdoRequest_cases h
  · exact ⟨hkeeps.unlocks, hkeeps.answers⟩
  · have hsend : Keeps t (t.call (.sendWorkRequest m.poolId t.work.length m.key base len m.request)) :=
      keeps_call (by simp)
    exact ⟨hsend.unlocks.trans hkeeps.unlocks, hkeeps.answers⟩

theorem Keeps.of_tableOp {t : TableOp} (h : s.tableOp pool t = (s', none)) :
    s'.unlocks = s.unlocks ∧ s'.answers = s.answers := by
  obtain hkeeps | ⟨u, hkeeps, hkeeps'⟩ := tableOp_cases h
  · exact ⟨hkeeps.unlocks, hkeeps.answers⟩
  · exact ⟨hkeeps'.unlocks.trans hkeeps.unlocks, hkeeps'.answers.trans hkeeps.answers⟩

theorem Inv.answers_iff (h : s.Inv) (hpossible : s.Possible e) : s.Answers e ↔ s.Safe e := by
  cases e with
  | completion pool c => exact h.answersCompletion_iff hpossible
  | request handler m a =>
    refine iff_of_true (fun s' hs' => ?_) trivial
    exact Keeps.of_request (step_eq_some_iff.mp hs')
  | tableOp pool t =>
    refine iff_of_true (fun s' hs' => ?_) trivial
    have hhandle := step_eq_some_iff.mp hs'
    unfold handle at hhandle
    dsimp only at hhandle
    split at hhandle
    · exact Keeps.of_tableOp hhandle
    · cases hhandle
      exact ⟨rfl, rfl⟩
  | close handler =>
    refine iff_of_true (fun s' hs' => ?_) trivial
    cases hs'
    exact ⟨rfl, rfl⟩

theorem Inv.step (h : s.Inv) (hpossible : s.Possible e) (hs' : s' ∈ s.step e) : s'.Inv := by
  have hhandle := step_eq_some_iff.mp hs'
  cases e with
  | completion pool c =>
    obtain ⟨hout, hpool⟩ := hpossible
    obtain ⟨submission, hwork, hpool⟩ := Option.map_eq_some_iff.mp hpool
    cases hmap : s.adoMap pool with
    | none =>
      have hlaunched := h.launched submission (List.mem_of_getElem? hwork)
      rw [hpool] at hlaunched
      exact absurd hmap hlaunched
    | some handler =>
      obtain ⟨-, rfl⟩ := (step_completion_iff hout hwork hmap).mp hs'
      exact h.completed hout hwork hpool
  | request handler m a =>
    obtain hkeeps | ⟨t, keyHandle, base, len, hkeeps, hmap, hgranted, rfl⟩ :=
      processAdoRequest_cases hhandle
    · exact h.of_keeps hkeeps
    · refine (h.of_keeps hkeeps).sendWork hmap ?_
      rw [hkeeps.held]
      exact hpossible.2 keyHandle hgranted
  | tableOp pool t =>
    obtain ⟨hpool, hfresh⟩ := hpossible
    obtain ⟨submission, hwork, hpool⟩ := Option.map_eq_some_iff.mp hpool
    unfold handle at hhandle
    dsimp only at hhandle
    split at hhandle
    · obtain hkeeps | ⟨u, hkeeps, hkeeps'⟩ := tableOp_cases hhandle
      · exact h.of_keeps hkeeps
      · have hu : (u.addDeferredUnlock pool t.work t.lock.handle).Inv := by
          refine (h.of_keeps hkeeps).addDeferredUnlock (hkeeps.work ▸ hwork) hpool ?_
          unfold Fresh
          rw [hkeeps.held]
          exact hfresh
        exact hu.of_keeps hkeeps'
    · cases hhandle
      exact h
  | close handler =>
    cases hhandle
    exact ⟨h.launched, h.locks, h.places, h.held, h.deferred⟩

theorem inv_new (enabled : Bool) : (new enabled).Inv where
  launched _ hmem := absurd hmem List.not_mem_nil
  locks k hk := absurd hk (Finset.notMem_empty k)
  places := List.nodup_nil
  held _ hl := absurd hl List.not_mem_nil
  deferred _ _ _ := rfl

end Books

end AdoShard

/-- Every completed work request is answered exactly if every completion is safe. -/
theorem ado_answers_iff (enabled : Bool) (es : List AdoEvent)
    (hpossible : Throughout AdoShard.step AdoShard.Possible (.new enabled) es) :
    Throughout AdoShard.step AdoShard.Answers (.new enabled) es ↔
      Throughout AdoShard.step AdoShard.Safe (.new enabled) es :=
  Throughout.iff_of (fun _ _ h hp => h.answers_iff hp) (fun _ _ _ h hp hs' => h.step hp hs')
    (AdoShard.inv_new enabled) hpossible

def AdoEvent.submit (handler requestId handle : Nat) : AdoEvent :=
  .request handler ⟨requestId, 5, 1, 4096, 1, [107, 0, 33]⟩
    { (default : AdoAnswer) with iobFree := true, lock := ⟨sOk, some handle, 0x1000, [1]⟩ }

def AdoEvent.done (key : Nat) : AdoEvent := .completion 5 ⟨key, [111, 107], fun _ => sOk, true⟩

theorem ado_answers_twoRequests : Throughout AdoShard.step AdoShard.Answers (.new true)
      [.submit 1 40 7, .submit 1 41 8, .tableOp 5 ⟨0, 0, [110], 64, ⟨sOk, some 9, 0x2000, []⟩, sOk⟩,
        .done 1, .done 0] :=
  (ado_answers_iff true _ (by decide +kernel)).mpr (by decide +kernel)

/-- The response to the request of the second session goes to the first one. -/
theorem not_ado_answers_twoSessions : ¬ Throughout AdoShard.step AdoShard.Answers (.new true)
      [.submit 1 40 7, .submit 2 41 8, .done 1] := by
  rintro ⟨-, hrest⟩
  obtain ⟨-, hrest⟩ := hrest _ rfl
  obtain ⟨⟨s', submission, r, -, hstep, hwork, -, -, hposted, -⟩, -⟩ := hrest _ rfl
  cases hstep
  cases hwork
  injection hposted with hpair
  have hhandler : 1 = 2 := congrArg Prod.fst hpair
  cases hhandler

end Comanche.Dawn
