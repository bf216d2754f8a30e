import Comanche.Dawn.Loop
import Mathlib.Data.List.Pairwise

/-!
# Value locks

The locks that GET and PUT_ADVANCE take in the store, over all sessions of a shard.
-/

namespace Comanche.Dawn

open Lib
open Function (update update_of_ne update_self)

namespace Connection

def Waiting (c : Connection) : Prop := c.state = .waitSendValue ∨ c.state = .waitRecvValue

instance (c : Connection) : Decidable c.Waiting := inferInstanceAs (Decidable (_ ∨ _))

/-- The operation by which a request transfers a value in place: the one posted for the descriptor that it
made, or else the response that carries the value. -/
def transferContext (before after : Connection) : Option Context :=
  if .value before.descriptors ∈ after.inFlight then some (.value before.descriptors)
  else if before.descriptors < after.descriptors then after.postedSend.map .io
  else none

end Connection

namespace Work

def after (w : Work) (e : SessionEvent) : Work :=
  match w.conn.pendingMsgs, e with
  | [], .tick i =>
    match w.conn.tick i with
    | .error _ => w
    | .ok (_, conn) => { w with conn }.processActions.1
  | _ :: _, .message r => (w.answer r).1
  | [], .later len => (w.send len).1
  | _, _ => w

/-- The pools and handles that the store gave in answer to `lock`. -/
def taken (w : Work) : SessionEvent → List (Nat × Nat)
  | .message (.io _ _ _ a) => w.calls.filterMap fun
    | .lock pool _ _ _ => a.lock.handle.map (pool, ·)
    | _ => none
  | _ => []

def unlocked (w : Work) : List (Nat × Nat) :=
  w.calls.filterMap fun
    | .unlock pool handle => some (pool, handle)
    | _ => none

end Work

structure Hold where
  session : Nat
  pool : Nat
  handle : Nat
  transfer : Option Context
  deriving DecidableEq

structure Shard where
  conns : Nat → Option Connection
  locked : Nat → Option LockInfo
  index : Option (Nat → Option (List (List UInt8)))
  held : List Hold

inductive ShardEvent where
  | connect (s : Nat)
  | session (s : Nat) (e : SessionEvent)

namespace Shard

def empty : Shard := ⟨fun _ => none, fun _ => none, none, []⟩

def work (S : Shard) (c : Connection) : Work := ⟨c, S.locked, S.index, [], []⟩

def InFlight (S : Shard) (h : Hold) : Bool :=
  match S.conns h.session, h.transfer with
  | some c, some x => decide (x ∈ c.inFlight)
  | _, _ => false

/-- After an event of a session, with the new locks in the ledger. -/
def after (S : Shard) (s : Nat) (c : Connection) (e : SessionEvent) : Shard :=
  let w := (S.work c).after e
  { conns := update S.conns s (match (S.work c).step e with
      | .closed _ => none
      | _ => some w.conn)
    locked := w.locked
    index := w.index
    held := S.held ++ (w.taken e).map fun p => ⟨s, p.1, p.2, c.transferContext w.conn⟩ }

def strike (S : Shard) : List Hold → List (Nat × Nat) → Option (List Hold)
  | held, [] => some held
  | held, p :: ps =>
    match held.find? fun h => (h.pool, h.handle) = p && !S.InFlight h with
    | none => none
    | some h => S.strike (held.erase h) ps

def ledger (S : Shard) (s : Nat) (c : Connection) (e : SessionEvent) : Option (List Hold) :=
  (S.after s c e).strike (S.after s c e).held ((S.work c).after e).unlocked

/-- Every unlock is of a lock that is held and whose transfer is complete; after the event every lock that
is held protects a transfer in flight, and when the thread of the shard ends no lock is held. -/
def Accounts (S : Shard) : ShardEvent → Prop
  | .connect _ => True
  | .session s e => ∀ c ∈ S.conns s, ∃ held ∈ S.ledger s c e,
    if ((S.work c).step e).returns then ∀ h ∈ held, (S.after s c e).InFlight h = true else held = []

def step (S : Shard) : ShardEvent → Option Shard
  | .connect s =>
    if S.conns s = none then some { S with conns := update S.conns s (some .fresh) } else some S
  | .session s e =>
    match S.conns s with
    | none => some S
    | some c =>
      if ((S.work c).step e).returns then (S.ledger s c e).map fun held => { S.after s c e with held }
      else none

end Shard

def Work.TakesLock (m : IORequest) (a : StoreAnswer) : Prop :=
  a.lock.handle.isSome ∧
    (m.op = .get ∧ Work.Scbe m = false ∨ m.op = .putAdvance ∧ m.flags &&& flagsDontStomp = 0)

/-- The lock does not report failure with a handle. A get copies the value, refuses it for its length, or transfers it
apart from the response; a put finds the length announced; no other transfer of the value is under way. -/
def Work.SafeLock (locked : Nat → Option LockInfo) (m : IORequest) (a : StoreAnswer) : Prop :=
  Work.TakesLock m a → a.lock.rc ≠ eFail ∧
    if m.op = .get then
      Work.isDirect m = false ∧ a.lock.bytes.length < twoStageThreshold ∨ m.valLen < a.lock.bytes.length ∨
        (Work.isDirect m = true ∨ bufferLen - ioResponseSize < a.lock.bytes.length) ∧
          locked a.lock.base = none
    else a.lock.bytes.length = m.valLen ∧ locked a.lock.base = none

/-- An event that throws comes when no lock is held; a client does not go away while its session waits for
a value; and locks are taken safely. -/
def Shard.Safe (S : Shard) : ShardEvent → Prop
  | .connect _ => True
  | .session s e => ∀ c ∈ S.conns s, (((S.work c).step e).returns = false → S.held = []) ∧
    match e with
    | .tick i => c.pendingMsgs = [] → c.Waiting → ¬ c.Disconnects i
    | .message (.io m _ _ a) => c.pendingMsgs ≠ [] → Work.SafeLock S.locked m a
    | _ => True

instance (m : IORequest) (a : StoreAnswer) : Decidable (Work.TakesLock m a) :=
  inferInstanceAs (Decidable (_ ∧ _))

instance (locked : Nat → Option LockInfo) (m : IORequest) (a : StoreAnswer) :
    Decidable (Work.SafeLock locked m a) :=
  inferInstanceAs (Decidable (_ → _ ∧ ite _ _ _))

instance (S : Shard) (e : ShardEvent) : Decidable (S.Safe e) := by
  rcases e with _ | ⟨s, i | r | len⟩
  case session.message => cases r <;> (dsimp only [Shard.Safe]; infer_instance)
  all_goals dsimp only [Shard.Safe]; infer_instance

instance (S : Shard) : (e : ShardEvent) → Decidable (S.Accounts e)
  | .connect _ => isTrue trivial
  | .session s e => inferInstanceAs (Decidable (∀ c ∈ S.conns s, ∃ held ∈ S.ledger s c e,
      if ((S.work c).step e).returns then ∀ h ∈ held, (S.after s c e).InFlight h = true else held = []))

namespace Connection

variable {c c' : Connection} {i : TickInput} {x : Context} {v : ValueBuffer} {base : Nat}

def values (c : Connection) : List Nat :=
  c.inFlight.filterMap fun
    | .value d => some d
    | .io _ => none

/-- Between two events exactly the posted value is in flight, the session waits for it, and nothing is
left to be done for an earlier one. -/
structure Sound (c : Connection) : Prop where
  actions : c.pendingActions = []
  values : c.values = c.postedValue.toList.map ValueBuffer.id
  outstanding : c.valueOutstanding = c.postedValue.isSome
  waiting : c.Waiting ↔ c.postedValue.isSome

theorem mem_values {d : Nat} : d ∈ c.values ↔ .value d ∈ c.inFlight := by
  unfold values
  rw [List.mem_filterMap]
  constructor
  · rintro ⟨x, hx, hd⟩
    cases x with
    | io b => cases hd
    | value d' =>
      cases hd
      exact hx
  · intro hd
    exact ⟨_, hd, rfl⟩

structure PolledValue (c c' : Connection) (completions : List Context) : Prop where
  value : c'.postedValue = c.postedValue
  state : c'.state = c.state
  msgs : c'.pendingMsgs = c.pendingMsgs
  actions : c'.pendingActions = c.pendingActions
  values : c'.values = c.values.filter fun d => .value d ∉ completions
  outstanding : c'.valueOutstanding = true ↔
    c.valueOutstanding = true ∧ ∀ v ∈ c.postedValue, .value v.id ∉ completions

theorem PolledValue.nil (c : Connection) : PolledValue c c [] :=
  ⟨rfl, rfl, rfl, rfl, (List.filter_eq_self.mpr (by simp)).symm, by simp⟩

variable {c₁ c₂ : Connection} {response : TickResponse}

theorem PolledValue.append {l l' : List Context} (h : PolledValue c c₁ l)
    (h' : PolledValue c₁ c₂ l') : PolledValue c c₂ (l ++ l') where
  value := h'.value.trans h.value
  state := h'.state.trans h.state
  msgs := h'.msgs.trans h.msgs
  actions := h'.actions.trans h.actions
  values := by
    rw [h'.values, h.values, List.filter_filter]
    refine List.filter_congr fun d _ => ?_
    simp only [List.mem_append, not_or, Bool.decide_and, Bool.and_comm]
  outstanding := by
    rw [h'.outstanding, h.outstanding, h.value, and_assoc]
    simp only [List.mem_append, not_or, forall_and]

theorem values_erase (hnodup : c.values.Nodup) (x : Context) :
    { c with inFlight := c.inFlight.erase x }.values = c.values.filter fun d => .value d ∉ [x] := by
  unfold values at hnodup ⊢
  dsimp only
  generalize c.inFlight = l at hnodup
  induction l with
  | nil => rfl
  | cons y l ih =>
    cases y with
    | io b =>
      have htail := ih hnodup
      by_cases hx : Context.io b = x
      · subst hx
        rw [List.erase_cons_head]
        exact (List.filter_eq_self.mpr (by simp)).symm
      · rw [List.erase_cons_tail (by simpa using hx)]
        exact htail
    | value d =>
      simp only [List.filterMap_cons, List.nodup_cons] at hnodup
      by_cases hx : Context.value d = x
      · subst hx
        have hnot : ∀ d' ∈ l.filterMap (fun | Context.value d => some d | .io _ => none), d' ≠ d :=
          fun d' hd' heq => hnodup.1 (heq ▸ hd')
        simp only [List.erase_cons_head, List.filterMap_cons, List.mem_singleton, Context.value.injEq]
        rw [List.filter_cons_of_neg (by simp), List.filter_eq_self.mpr]
        intro d' hd'
        simpa using hnot d' hd'
      · rw [List.erase_cons_tail (by simpa using hx)]
        have hne : ¬ Context.value d = x := hx
        simp only [List.filterMap_cons]
        rw [List.filter_cons_of_pos (by simpa using hne), ih hnodup.2]

theorem completionCallback_polledValue (hnodup : c.values.Nodup) (h : c.completionCallback x = .ok c') :
    PolledValue c c' [x] := by
  have hvalues := values_erase hnodup x
  -- the context of a buffer is not that of a value
  have hio : ∀ {o : Option Nat}, o.map Context.io = some x → ∀ v ∈ c.postedValue, .value v.id ∉ [x] := by
    intro o ho v _ hv
    obtain ⟨b, -, rfl⟩ := Option.map_eq_some_iff.mp ho
    cases List.mem_singleton.mp hv
  unfold completionCallback at h
  dsimp only at h
  split_ifs at h with hrecv hsend hvalue
  · cases h
    exact ⟨rfl, rfl, rfl, rfl, hvalues, (and_iff_left (hio hrecv)).symm⟩
  · cases h
    exact ⟨rfl, rfl, rfl, rfl, hvalues, (and_iff_left (hio hsend)).symm⟩
  · cases h
    obtain ⟨v, hv, rfl⟩ := Option.map_eq_some_iff.mp hvalue
    exact ⟨rfl, rfl, rfl, rfl, hvalues, iff_of_false (by simp) fun hnot => hnot.2 v hv (by simp)⟩

theorem foldlM_polledValue {completions : List Context} (hnodup : c.values.Nodup)
    (h : completions.foldlM completionCallback c = .ok c') : PolledValue c c' completions := by
  induction completions generalizing c with
  | nil =>
    cases h
    exact .nil _
  | cons x completions ih =>
    rw [List.foldlM_cons] at h
    cases hx : c.completionCallback x with
    | error e =>
      rw [hx] at h
      cases h
    | ok c₁ =>
      rw [hx] at h
      have hpolled := completionCallback_polledValue hnodup hx
      exact hpolled.append (ih (by rw [hpolled.values]; exact hnodup.filter _) h)

theorem Sound.poll (hc : c.Sound) {st : CompletionState}
    (h : c.checkNetworkCompletions i.completions i.disconnect = .ok (st, c')) :
    (st = .clientDisconnect ↔ c.Disconnects i) ∧ ∃ completions, PolledValue c c' completions := by
  have hnodup : c.values.Nodup := by
    rw [hc.values]
    cases c.postedValue <;> simp
  rw [checkNetworkCompletions_eq] at h
  by_cases hpolls : c.Polls
  · rw [if_pos hpolls] at h
    cases hfold : i.completions.foldlM completionCallback c with
    | error e =>
      rw [hfold] at h
      cases h
    | ok c₁ =>
      rw [hfold] at h
      cases h
      refine ⟨?_, _, foldlM_polledValue hnodup hfold⟩
      unfold Disconnects
      cases i.disconnect <;> simp [hpolls]
  · rw [if_neg hpolls] at h
    cases h
    exact ⟨by simp [Disconnects, hpolls], [], .nil _⟩

structure SameValue (c c' : Connection) : Prop where
  value : c'.postedValue = c.postedValue
  outstanding : c'.valueOutstanding = c.valueOutstanding
  actions : c'.pendingActions = c.pendingActions
  values : c'.values = c.values

theorem SameValue.refl (c : Connection) : SameValue c c := ⟨rfl, rfl, rfl, rfl⟩

theorem SameValue.trans (h : SameValue c c₁) (h' : SameValue c₁ c₂) : SameValue c c₂ :=
  ⟨h'.value.trans h.value, h'.outstanding.trans h.outstanding, h'.actions.trans h.actions, h'.values.trans h.values⟩

structure SameStep (c c' : Connection) : Prop where
  same : SameValue c c'
  descriptors : c'.descriptors = c.descriptors
  msgs : c'.pendingMsgs = c.pendingMsgs
  state : c'.state = c.state

theorem SameStep.trans (h : SameStep c c₁) (h' : SameStep c₁ c₂) : SameStep c c₂ :=
  ⟨h.same.trans h'.same, h'.descriptors.trans h.descriptors, h'.msgs.trans h.msgs, h'.state.trans h.state⟩

theorem SameStep.msgs_le (h : SameStep c c') : c'.pendingMsgs.length ≤ c.pendingMsgs.length + 1 := by
  rw [h.msgs]
  exact Nat.le_succ _

theorem postSendBuffer_same (c : Connection) (b len : Nat) (hasValue : Bool) :
    SameStep c (c.postSendBuffer b len hasValue) := by
  unfold postSendBuffer
  split <;> exact ⟨⟨rfl, rfl, rfl, rfl⟩, rfl, rfl, rfl⟩

theorem freeRecvBuffer_same (c : Connection) : SameStep c c.freeRecvBuffer := by
  unfold freeRecvBuffer
  split <;> exact ⟨⟨rfl, rfl, rfl, rfl⟩, rfl, rfl, rfl⟩

theorem checkForPostedSendComplete_same (c : Connection) : SameStep c c.checkForPostedSendComplete.2 := by
  unfold checkForPostedSendComplete
  split
  · exact ⟨⟨rfl, rfl, rfl, rfl⟩, rfl, rfl, rfl⟩
  · split <;> exact ⟨⟨rfl, rfl, rfl, rfl⟩, rfl, rfl, rfl⟩

theorem allocate_same {b : Nat} (h : c.allocate = .ok (b, c')) : SameStep c c' := by
  unfold allocate at h
  split at h
  · cases h
  · cases h
    exact ⟨⟨rfl, rfl, rfl, rfl⟩, rfl, rfl, rfl⟩

theorem tickState_sameValue {message : Message} (hwait : ¬ c.Waiting) (h : c.tickState message = .ok (response, c')) :
    SameValue c c' ∧ ¬ c'.Waiting ∧ c'.pendingMsgs.length ≤ c.pendingMsgs.length + 1 := by
  unfold Waiting at hwait
  unfold tickState at h
  cases hstate : c.state with
  | waitSendValue => exact absurd (Or.inl hstate) hwait
  | waitRecvValue => exact absurd (Or.inr hstate) hwait
  | init =>
    rw [hstate] at h
    cases h
    exact ⟨⟨rfl, rfl, rfl, rfl⟩, by simp [Waiting, setState], Nat.le_succ _⟩
  | postMsgRecv | postHandshake =>
    rw [hstate] at h
    cases halloc : c.allocate with
    | error e =>
      rw [halloc] at h
      cases h
    | ok res =>
      obtain ⟨b, c₁⟩ := res
      rw [halloc] at h
      cases h
      have hstep := allocate_same halloc
      exact ⟨hstep.same.trans ⟨rfl, rfl, rfl, rfl⟩, by simp [Waiting, setState], hstep.msgs_le⟩
  | waitHandshake =>
    rw [hstate] at h
    dsimp only at h
    split at h
    · cases halloc : c.allocate with
      | error e =>
        rw [halloc] at h
        cases h
      | ok res =>
        obtain ⟨b, c₁⟩ := res
        rw [halloc] at h
        cases h
        have hstep := (allocate_same halloc).trans (postSendBuffer_same c₁ b handshakeReplySize false)
        exact ⟨hstep.same.trans ⟨rfl, rfl, rfl, rfl⟩, by simp [Waiting, setState], hstep.msgs_le⟩
    · cases h
      exact ⟨.refl _, hwait, Nat.le_succ _⟩
  | waitNewMsgRecv =>
    rw [hstate] at h
    dsimp only at h
    split at h
    · split at h
      · cases h
        have hstep := freeRecvBuffer_same c
        exact ⟨hstep.same, by simp [Waiting, hstep.state, hstate], hstep.msgs_le⟩
      · cases h
        refine ⟨⟨rfl, rfl, rfl, rfl⟩, by simp [Waiting], ?_⟩
        cases c.postedRecv <;> simp
    · cases h
      exact ⟨.refl _, hwait, Nat.le_succ _⟩
  | waitHandshakeResponseCompletion =>
    rw [hstate] at h
    dsimp only at h
    cases h
    have hstep := checkForPostedSendComplete_same c
    split
    · exact ⟨hstep.same.trans ⟨rfl, rfl, rfl, rfl⟩, by simp [Waiting, setState], hstep.msgs_le⟩
    · exact ⟨hstep.same, by simp [Waiting, hstep.state, hstate], hstep.msgs_le⟩

theorem Sound.of_none (hactions : c.pendingActions = []) (hvalue : c.postedValue = none)
    (hvalues : c.values = []) (hout : c.valueOutstanding = false) (hwait : ¬ c.Waiting) : c.Sound where
  actions := hactions
  values := by rw [hvalues, hvalue]; rfl
  outstanding := by rw [hout, hvalue]; rfl
  waiting := iff_of_false hwait (by simp [hvalue])

theorem Sound.values_eq_nil (hc : c.Sound) (hv : c.postedValue = none) : c.values = [] := by
  rw [hc.values, hv]
  rfl

theorem Sound.of_sameValue (hc : c.Sound) (hv : c.postedValue = none) (h : SameValue c c')
    (hwait : ¬ c'.Waiting) : c'.Sound ∧ c'.postedValue = none := by
  have hv' : c'.postedValue = none := h.value.trans hv
  refine ⟨.of_none (h.actions.trans hc.actions) hv' (h.values.trans (hc.values_eq_nil hv)) ?_ hwait, hv'⟩
  rw [h.outstanding, hc.outstanding, hv]
  rfl

theorem Sound.congr (hc : c.Sound) (h : SameValue c c') (hstate : c'.state = c.state) : c'.Sound where
  actions := h.actions.trans hc.actions
  values := by rw [h.values, hc.values, h.value]
  outstanding := by rw [h.outstanding, hc.outstanding, h.value]
  waiting := by
    rw [h.value, ← hc.waiting]
    simp only [Waiting, hstate]

theorem Sound.not_waiting (hc : c.Sound) (hv : c.postedValue = none) : ¬ c.Waiting := by
  rw [hc.waiting, hv]
  simp

theorem Sound.tick_none (hc : c.Sound) (hv : c.postedValue = none) (h : c.tick i = .ok (response, c')) :
    c'.Sound ∧ c'.postedValue = none ∧ c'.pendingMsgs.length ≤ c.pendingMsgs.length + 1 := by
  have hwait := hc.not_waiting hv
  cases hpoll : c.checkNetworkCompletions i.completions i.disconnect with
  | error e =>
    rw [tick_of_error hpoll] at h
    cases h
  | ok res =>
    obtain ⟨st, c₁⟩ := res
    obtain ⟨-, completions, hpolled⟩ := hc.poll hpoll
    have hsame : SameValue c c₁ := by
      refine ⟨hpolled.value, ?_, hpolled.actions, ?_⟩
      · have hout : c.valueOutstanding = false := by rw [hc.outstanding, hv]; rfl
        have hnot := mt hpolled.outstanding.mp (by simp [hout])
        rw [hout]
        simpa using hnot
      · rw [hpolled.values, hc.values_eq_nil hv]
        rfl
    have hwait₁ : ¬ c₁.Waiting := by simpa only [Waiting, hpolled.state] using hwait
    rw [tick_of_poll hpoll] at h
    split at h
    · cases h
      obtain ⟨hsound, hnone⟩ := hc.of_sameValue hv hsame hwait₁
      refine ⟨hsound, hnone, ?_⟩
      rw [hpolled.msgs]
      exact Nat.le_succ _
    · obtain ⟨hsame', hwait', hmsgs⟩ := tickState_sameValue hwait₁ h
      obtain ⟨hsound, hnone⟩ := hc.of_sameValue hv (hsame.trans hsame') hwait'
      rw [hpolled.msgs] at hmsgs
      exact ⟨hsound, hnone, hmsgs⟩

theorem tickState_waiting {message : Message} (hwait : c.Waiting)
    (hv : c.postedValue = some v) (h : c.tickState message = .ok (response, c')) :
    response = .continue ∧ if c.valueOutstanding then c' = c else
      c' = { c with
        deferredUnlock := some v.base
        pendingActions := v.base :: c.pendingActions
        postedValue := none
        state := .postMsgRecv } := by
  unfold tickState at h
  have hcheck : c.checkForPostedValueComplete =
      if c.valueOutstanding then (false, false, c)
      else (true, true, { c with deferredUnlock := some v.base }) := by
    unfold checkForPostedValueComplete
    rw [hv]
  rcases hwait with hstate | hstate
  all_goals
    rw [hstate] at h
    simp only [hcheck] at h
    by_cases hout : c.valueOutstanding = true
    · simp only [if_pos hout] at h ⊢
      cases h
      exact ⟨rfl, rfl⟩
    · simp only [if_neg hout, if_true, hv] at h ⊢
      cases h
      exact ⟨rfl, rfl⟩

theorem Sound.tick_some (hc : c.Sound) (hv : c.postedValue = some v) (hdis : ¬ c.Disconnects i)
 (h : c.tick i = .ok (response, c')) :
    response = .continue ∧ (c'.Sound ∧ c'.postedValue = some v ∧ c'.pendingMsgs = c.pendingMsgs ∨
        c'.pendingActions = [v.base] ∧ { c' with pendingActions := [] }.Sound ∧ c'.postedValue = none ∧
          c'.pendingMsgs = c.pendingMsgs) := by
  have hwait : c.Waiting := hc.waiting.mpr (by simp [hv])
  cases hpoll : c.checkNetworkCompletions i.completions i.disconnect with
  | error e =>
    rw [tick_of_error hpoll] at h
    cases h
  | ok res =>
    obtain ⟨st, c₁⟩ := res
    obtain ⟨hst, completions, hpolled⟩ := hc.poll hpoll
    have hv₁ : c₁.postedValue = some v := hpolled.value.trans hv
    have hwait₁ : c₁.Waiting := by simpa only [Waiting, hpolled.state] using hwait
    have hvalues : c₁.values = [v.id].filter fun d => .value d ∉ completions := by
      rw [hpolled.values, hc.values, hv]
      rfl
    have hactions : c₁.pendingActions = [] := hpolled.actions.trans hc.actions
    rw [tick_of_poll hpoll, if_neg fun h => hdis (hst.mp h)] at h
    obtain ⟨hresponse, hc'⟩ := tickState_waiting hwait₁ hv₁ h
    refine ⟨hresponse, ?_⟩
    have hout : c₁.valueOutstanding = true ↔ .value v.id ∉ completions := by
      rw [hpolled.outstanding, hc.outstanding, hv]
      simp
    by_cases hcomplete : .value v.id ∈ completions
    · rw [if_neg fun h => hout.mp h hcomplete] at hc'
      have hnil : c₁.values = [] := by simpa [hcomplete] using hvalues
      have hfalse : c₁.valueOutstanding = false := by simpa [hcomplete] using hout
      right
      rw [hc', hactions]
      exact ⟨rfl, .of_none rfl rfl hnil hfalse (by simp [Waiting]), rfl, hpolled.msgs⟩
    · rw [if_pos (hout.mpr hcomplete)] at hc'
      left
      rw [hc']
      have hone : c₁.values = [v.id] := by simpa [hcomplete] using hvalues
      exact ⟨⟨hactions, by rw [hone, hv₁]; rfl, by rw [hout.mpr hcomplete, hv₁]; rfl,
        iff_of_true hwait₁ (by simp [hv₁])⟩, hv₁, hpolled.msgs⟩

structure Plain (c c' : Connection) : Prop where
  same : SameValue c c'
  descriptors : c'.descriptors = c.descriptors
  msgs : c'.pendingMsgs = c.pendingMsgs
  waiting : c'.Waiting → c.Waiting

structure Transfers (c c' : Connection) (base : Nat) : Prop where
  value : c'.postedValue = some ⟨c.descriptors, base⟩
  outstanding : c'.valueOutstanding = true
  actions : c'.pendingActions = c.pendingActions
  values : c'.values = c.descriptors :: c.values
  msgs : c'.pendingMsgs = c.pendingMsgs
  waiting : c'.Waiting

theorem Plain.refl (c : Connection) : Plain c c := ⟨.refl c, rfl, rfl, id⟩

theorem Plain.trans (h : Plain c c₁) (h' : Plain c₁ c₂) : Plain c c₂ :=
  ⟨h.same.trans h'.same, h'.descriptors.trans h.descriptors, h'.msgs.trans h.msgs,
    fun hwait => h.waiting (h'.waiting hwait)⟩

theorem Plain.transfers (h : Plain c c₁) (h' : Transfers c₁ c₂ base) : Transfers c c₂ base where
  value := by rw [h'.value, h.descriptors]
  outstanding := h'.outstanding
  actions := h'.actions.trans h.same.actions
  values := by rw [h'.values, h.descriptors, h.same.values]
  msgs := h'.msgs.trans h.msgs
  waiting := h'.waiting

theorem Transfers.step (h : Transfers c c₁ base) (h' : SameStep c₁ c₂) : Transfers c c₂ base where
  value := h'.same.value.trans h.value
  outstanding := h'.same.outstanding.trans h.outstanding
  actions := h'.same.actions.trans h.actions
  values := h'.same.values.trans h.values
  msgs := h'.msgs.trans h.msgs
  waiting := by simpa only [Waiting, h'.state] using h.waiting

theorem SameStep.plain (h : SameStep c c') : Plain c c' :=
  ⟨h.same, h.descriptors, h.msgs, by simp only [Waiting, h.state, imp_self]⟩

theorem freeBuffer_plain (c : Connection) (b : Nat) : Plain c (c.freeBuffer b) :=
  ⟨⟨rfl, rfl, rfl, rfl⟩, rfl, rfl, id⟩

theorem postResponse_plain (c : Connection) (b len : Nat) : Plain c (c.postResponse b len none) := by
  have hpost := postSendBuffer_same c b len false
  exact ⟨⟨hpost.same.value, hpost.same.outstanding, hpost.same.actions, hpost.same.values⟩,
    hpost.descriptors, hpost.msgs, by simp [Waiting, postResponse, setState]⟩

theorem Plain.transferContext (h : Plain c c') (hvalues : c.values = []) : c.transferContext c' = none := by
  unfold Connection.transferContext
  have hnot : .value c.descriptors ∉ c'.inFlight := by
    rw [← mem_values, h.same.values, hvalues]
    simp
  rw [if_neg hnot, h.descriptors, if_neg (Nat.lt_irrefl _)]

theorem Transfers.transferContext (h : Transfers c c' base) : c.transferContext c' = some (.value c.descriptors) := by
  unfold Connection.transferContext
  have hmem : .value c.descriptors ∈ c'.inFlight := by
    rw [← mem_values, h.values]
    exact List.mem_cons_self
  rw [if_pos hmem]

theorem Sound.plain (hc : c.Sound) (hv : c.postedValue = none) (h : Plain c c') : c'.Sound ∧ c'.postedValue = none :=
  hc.of_sameValue hv h.same fun hwait => hc.not_waiting hv (h.waiting hwait)

theorem Sound.transfers (hc : c.Sound) (hv : c.postedValue = none) (h : Transfers c c' base) : c'.Sound where
  actions := h.actions.trans hc.actions
  values := by rw [h.values, hc.values_eq_nil hv, h.value]; rfl
  outstanding := by rw [h.outstanding, h.value]; rfl
  waiting := iff_of_true h.waiting (by simp [h.value])

end Connection

/-- What a handler did to the locks: nothing; a lock was taken and given back; or it was taken for a
transfer that is now in flight. -/
inductive Settles (c : Connection) (locked : Nat → Option LockInfo) (e : SessionEvent)
    (res : Work × Option Exc) : Prop
  | nothing (hconn : c.Plain res.1.conn) (hlocked : res.1.locked = locked) (htaken : res.1.taken e = [])
      (hunlocked : res.1.unlocked = [])
  | once (p : Nat × Nat) (hconn : c.Plain res.1.conn) (hlocked : res.1.locked = locked)
      (htaken : res.1.taken e = [p]) (hunlocked : res.1.unlocked = [p])
  | transfer (pool handle base : Nat) (hconn : c.Transfers res.1.conn base) (hfree : locked base = none)
      (hlocked : res.1.locked = update locked base (some ⟨pool, handle, 1⟩))
      (htaken : res.1.taken e = [(pool, handle)]) (hunlocked : res.1.unlocked = [])
      (hreturns : res.2 = none)

namespace Work

attribute [local simp] taken unlocked

open Connection

variable {w w' : Work} {c : Connection} {iob authId : Nat}
  {buf r : IOResponse} {m : IORequest} {a : StoreAnswer}

theorem getTwoStage_settles {handle : Nat} (hcalls : w.calls = [.lock m.poolId m.key false 0])
    (hhandle : a.lock.handle = some handle) (hsafe : m.valLen < a.lock.bytes.length ∨
      (isDirect m = true ∨ bufferLen - ioResponseSize < a.lock.bytes.length) ∧ w.locked a.lock.base = none) :
    Settles w.conn w.locked (.message (.io m authId buf a))
      (w.getTwoStage iob r m handle a.lock.base a.lock.bytes, none) := by
  unfold getTwoStage
  by_cases hlong : m.valLen < a.lock.bytes.length
  · rw [if_pos hlong]
    refine .once (m.poolId, handle) (postResponse_plain w.conn iob ioResponseSize) rfl ?_ ?_
    · simp [hcalls, hhandle]
    · simp [hcalls]
  · rw [if_neg hlong]
    dsimp only
    obtain ⟨happart, hfree⟩ := hsafe.resolve_left hlong
    rw [if_neg (by
      rcases happart with hdirect | hlarge
      · simp [hdirect]
      · simp [hlarge])]
    have hplain := postResponse_plain { w.conn with descriptors := w.conn.descriptors + 1 } iob ioResponseSize
    refine .transfer m.poolId handle a.lock.base ⟨rfl, rfl, hplain.same.actions, ?_, hplain.msgs,
      Or.inl rfl⟩ hfree ?_ ?_ ?_ rfl
    · exact congrArg (w.conn.descriptors :: ·) hplain.same.values
    · simp only [post, postResponse, addLockedValue, newValueBuffer, hfree]
    · change w.taken (.message (.io m authId buf a)) = _
      simp [hcalls, hhandle]
    · change w.unlocked = _
      simp [hcalls]

theorem get_settles (hop : m.op = .get) (hcalls : w.calls = []) (hsafe : SafeLock w.locked m a) :
    Settles w.conn w.locked (.message (.io m authId buf a)) (w.get iob r m a.lock, none) := by
  unfold get
  cases hscbe : Scbe m with
  | true =>
    refine .nothing (postResponse_plain w.conn iob ioResponseSize) rfl ?_ ?_
    · simp [hcalls]
    · simp [hcalls]
  | false =>
    simp only [Bool.false_eq_true, if_false]
    have hlock : (w.call (.lock m.poolId m.key false 0)).calls = [.lock m.poolId m.key false 0] := by
      simp [hcalls]
    cases hhandle : a.lock.handle with
    | none =>
      refine .nothing (postResponse_plain w.conn iob ioResponseSize) rfl ?_ ?_
      · simp [hcalls, hhandle]
      · simp [hcalls]
    | some handle =>
      dsimp only
      obtain ⟨hrc, hway⟩ := hsafe ⟨by simp [hhandle], Or.inl ⟨hop, hscbe⟩⟩
      rw [if_pos hop] at hway
      rw [if_neg hrc]
      by_cases hinline : isDirect m = false ∧ a.lock.bytes.length < twoStageThreshold
      · rw [if_pos (by simpa using hinline)]
        refine .once (m.poolId, handle) (postResponse_plain w.conn iob (ioResponseSize + a.lock.bytes.length)) rfl ?_ ?_
        · simp [hcalls, hhandle]
        · simp [hcalls]
      · rw [if_neg (by simpa using hinline)]
        exact getTwoStage_settles (w := w.call (.lock m.poolId m.key false 0)) hlock hhandle (hway.resolve_left hinline)

theorem otherOps_settles (hcalls : w.calls = []) (hsafe : SafeLock w.locked m a) :
    Settles w.conn w.locked (.message (.io m authId buf a)) (w.otherOps iob authId buf m a) := by
  unfold otherOps
  have hnothing : ∀ (w' : Work) (status : Status), w'.conn = w.conn → w'.locked = w.locked →
      w'.taken (.message (.io m authId buf a)) = [] → w'.unlocked = [] →
      Settles w.conn w.locked (.message (.io m authId buf a))
        (w'.sendResponse iob (buf.construct authId) m status, none) := by
    intro w' status hconn hlocked htaken hunlocked
    rw [← hconn]
    exact .nothing (postResponse_plain w'.conn iob _) hlocked htaken hunlocked
  cases hop : m.op with
  | put =>
    dsimp only
    unfold put
    split
    · exact hnothing w _ rfl rfl (by simp [hcalls]) (by simp [hcalls])
    · exact hnothing _ _ (by simp) (by simp) (by simp [hcalls]) (by simp [hcalls])
  | get => exact get_settles hop hcalls hsafe
  | erase =>
    dsimp only
    unfold erase
    dsimp only
    split
    · exact hnothing _ _ (by simp) (by simp) (by simp [hcalls]) (by simp [hcalls])
    · exact hnothing _ _ (by simp) (by simp) (by simp [hcalls]) (by simp [hcalls])
  | configure =>
    have hsame : (w.processConfigure m a.configure).1.conn = w.conn ∧
        (w.processConfigure m a.configure).1.locked = w.locked ∧
        (w.processConfigure m a.configure).1.calls = w.calls := by
      unfold processConfigure
      dsimp only
      split_ifs
      · unfold addIndex
        split <;> exact ⟨rfl, rfl, rfl⟩
      · exact ⟨rfl, rfl, rfl⟩
      · unfold removeIndex
        split
        · exact ⟨rfl, rfl, rfl⟩
        · split <;> exact ⟨rfl, rfl, rfl⟩
      · exact ⟨rfl, rfl, rfl⟩
    dsimp only
    generalize w.processConfigure m a.configure = res at hsame
    obtain ⟨w', e | status⟩ := res
    all_goals
      dsimp only at hsame
      obtain ⟨hconn, hlocked, hcalls'⟩ := hsame
      have htaken : w'.taken (.message (.io m authId buf a)) = [] := by simp [hcalls', hcalls]
      have hunlocked : w'.unlocked = [] := by simp [hcalls', hcalls]
    · exact .nothing (hconn ▸ .refl _) hlocked htaken hunlocked
    · exact hnothing w' status hconn hlocked htaken hunlocked
  | putAdvance => exact .nothing (.refl _) rfl (by simp [hcalls]) (by simp [hcalls])

theorem otherOps_putAdvance (w : Work) (hop : m.op = .putAdvance) :
    w.otherOps iob authId buf m a = (w, some .operationNotImplemented) := by
  unfold otherOps
  rw [hop]

theorem setPendingValue_transfers (c : Connection) (base : Nat) : c.Transfers (c.setPendingValue base) base :=
  ⟨rfl, rfl, rfl, rfl, rfl, Or.inr rfl⟩

theorem putAdvance_settles (hop : m.op = .putAdvance) (hcalls : w.calls = []) (hsafe : SafeLock w.locked m a) :
    Settles w.conn w.locked (.message (.io m authId buf a)) (w.putAdvance iob authId buf m a) := by
  have hget : m.op ≠ .get := by simp [hop]
  unfold putAdvance
  by_cases hstomp : m.flags &&& flagsDontStomp ≠ 0
  · rw [if_pos hstomp]
    exact otherOps_settles hcalls hsafe
  · rw [if_neg hstomp]
    dsimp only
    cases hhandle : a.lock.handle with
    | none =>
      dsimp only
      rw [otherOps_putAdvance _ hop]
      refine .nothing (.refl _) rfl ?_ ?_
      · simp [hcalls, hhandle]
      · simp [hcalls]
    | some handle =>
      dsimp only
      obtain ⟨hrc, hlen⟩ := hsafe ⟨by simp [hhandle], Or.inr ⟨hop, by simpa using hstomp⟩⟩
      rw [if_neg hget] at hlen
      rw [if_neg hrc, if_neg (not_not_intro hlen.1)]
      have hlocked : ((w.call (.lock m.poolId m.key true m.valLen)).addLockedValue m.poolId handle
          a.lock.base).locked = update w.locked a.lock.base (some ⟨m.poolId, handle, 1⟩) := by
        simp only [addLockedValue, call_fields, hlen.2]
      generalize hw₁ : { (w.call (.lock m.poolId m.key true m.valLen)).addLockedValue m.poolId handle
        a.lock.base with conn := ((w.call (.lock m.poolId m.key true m.valLen)).addLockedValue m.poolId
          handle a.lock.base).conn.setPendingValue a.lock.base } = w₁
      have hconn₁ : w₁.conn = w.conn.setPendingValue a.lock.base := by
        rw [← hw₁]
        rfl
      have hlocked₁ : w₁.locked = update w.locked a.lock.base (some ⟨m.poolId, handle, 1⟩) := by
        rw [← hw₁]
        exact hlocked
      have hcalls₁ : w₁.calls = [.lock m.poolId m.key true m.valLen] := by
        rw [← hw₁]
        exact congrArg (· ++ _) hcalls
      have hindex := addIndexKey_fields w₁ m.poolId m.key
      have hsend := postSendBuffer_same (w₁.addIndexKey m.poolId m.key).conn iob
        (({ buf.construct authId with requestId := m.requestId }.setStatus sOk).msgLen) false
      have htransfers : w.conn.Transfers (w₁.addIndexKey m.poolId m.key).conn a.lock.base := by
        rw [hindex.1, hconn₁]
        exact setPendingValue_transfers w.conn a.lock.base
      refine .transfer m.poolId handle a.lock.base (htransfers.step hsend) hlen.2 ?_ ?_ ?_ rfl
      · exact hindex.2.1.trans hlocked₁
      · change (w₁.addIndexKey m.poolId m.key).taken (.message (.io m authId buf a)) = _
        simp [hcalls₁, hhandle]
      · change (w₁.addIndexKey m.poolId m.key).unlocked = _
        simp [hcalls₁]

theorem processMessageIORequest_settles (hcalls : w.calls = []) (hsafe : SafeLock w.locked m a) :
    Settles w.conn w.locked (.message (.io m authId buf a)) (w.processMessageIORequest authId buf m a) := by
  unfold processMessageIORequest
  cases halloc : w.conn.allocate with
  | error e =>
    exact .nothing (.refl _) rfl (by simp [hcalls]) (by simp [hcalls])
  | ok res =>
    obtain ⟨iob, conn⟩ := res
    have hplain := (allocate_same halloc).plain
    dsimp only
    have hsettles : Settles conn w.locked (.message (.io m authId buf a))
        (if m.op = Op.putAdvance then { w with conn }.putAdvance iob authId buf m a
          else { w with conn }.otherOps iob authId buf m a) := by
      split
      · next hop => exact putAdvance_settles (w := { w with conn }) hop hcalls hsafe
      · exact otherOps_settles (w := { w with conn }) hcalls hsafe
    cases hsettles with
    | nothing hconn hlocked htaken hunlocked => exact .nothing (hplain.trans hconn) hlocked htaken hunlocked
    | once p hconn hlocked htaken hunlocked => exact .once p (hplain.trans hconn) hlocked htaken hunlocked
    | transfer pool handle base hconn hfree hlocked htaken hunlocked hreturns =>
      exact .transfer pool handle base (hplain.transfers hconn) hfree hlocked htaken hunlocked hreturns

theorem send_same (w : Work) (len : Nat) :
    SameStep w.conn (w.send len).1.conn ∧ (w.send len).1.locked = w.locked ∧ (w.send len).1.calls = w.calls := by
  unfold send
  cases halloc : w.conn.allocate with
  | error e => exact ⟨⟨.refl _, rfl, rfl, rfl⟩, rfl, rfl⟩
  | ok res => exact ⟨(allocate_same halloc).trans (postSendBuffer_same _ _ _ _), rfl, rfl⟩

variable {r : Reply}

theorem processMessage_plain (w : Work) (hr : ∀ m authId buf a, r ≠ .io m authId buf a) :
    w.conn.Plain (w.processMessage r).1.conn ∧ (w.processMessage r).1.locked = w.locked ∧
      (w.processMessage r).1.calls = w.calls := by
  unfold processMessage
  cases r with
  | io m authId buf a => exact absurd rfl (hr m authId buf a)
  | pool len =>
    dsimp only
    cases halloc : w.conn.allocate with
    | error e => exact ⟨.refl _, rfl, rfl⟩
    | ok res => exact ⟨(allocate_same halloc).plain.trans (postResponse_plain _ _ _), rfl, rfl⟩
  | info len => exact (send_same w len).imp_left SameStep.plain
  | findKey => exact ⟨.refl _, rfl, rfl⟩
  | ado error =>
    cases error with
    | some len => exact (send_same w len).imp_left SameStep.plain
    | none =>
      dsimp only
      cases halloc : w.conn.allocate with
      | error e => exact ⟨.refl _, rfl, rfl⟩
      | ok res => exact ⟨(allocate_same halloc).plain.trans (freeBuffer_plain _ _), rfl, rfl⟩

theorem other_settles (hcalls : w.calls = []) (hr : ∀ m authId buf a, r ≠ .io m authId buf a) :
    Settles w.conn w.locked (.message r) (w.processMessage r) := by
  obtain ⟨hplain, hlocked, hcalls'⟩ := processMessage_plain w hr
  refine .nothing hplain hlocked ?_ ?_
  · cases r with
    | io m authId buf a => exact absurd rfl (hr m authId buf a)
    | _ => rfl
  · simp [hcalls', hcalls]

theorem processMessage_settles (hcalls : w.calls = [])
    (hsafe : ∀ m authId buf a, r = .io m authId buf a → SafeLock w.locked m a) :
    Settles w.conn w.locked (.message r) (w.processMessage r) := by
  cases r with
  | io m authId buf a => exact processMessageIORequest_settles hcalls (hsafe m authId buf a rfl)
  | pool _ | info _ | findKey | ado _ => exact other_settles hcalls fun _ _ _ _ h => by cases h

theorem outcome_ne_closed (res : Work × Option Exc) (w : Work) : outcome res ≠ .closed w := by
  obtain ⟨w', _ | e⟩ := res <;> exact nofun

theorem answer_settles (hcalls : w.calls = [])
    (hsafe : ∀ m authId buf a, r = .io m authId buf a → SafeLock w.locked m a) :
    Settles { w.conn with pendingMsgs := w.conn.pendingMsgs.tail } w.locked (.message r) (w.answer r) := by
  have hsettles := processMessage_settles (w := { w with conn := { w.conn with
    pendingMsgs := w.conn.pendingMsgs.tail } }) hcalls hsafe
  unfold answer
  rcases hres : processMessage { w with conn := { w.conn with pendingMsgs := w.conn.pendingMsgs.tail } } r
    with ⟨w', _ | e⟩
  · rw [hres] at hsettles
    have hfree := freeRecvBuffer_same w'.conn
    cases hsettles with
    | nothing hconn hlocked htaken hunlocked => exact .nothing (hconn.trans hfree.plain) hlocked htaken hunlocked
    | once p hconn hlocked htaken hunlocked => exact .once p (hconn.trans hfree.plain) hlocked htaken hunlocked
    | transfer pool handle base hconn hnone hlocked htaken hunlocked hreturns =>
      exact .transfer pool handle base (hconn.step hfree) hnone hlocked htaken hunlocked rfl
  · rw [hres] at hsettles
    exact hsettles

end Work

namespace Shard

open Connection

variable {S : Shard} {s : Nat} {c c' : Connection} {v : ValueBuffer} {h : Hold} {held : List Hold}

/-- A connection between two events: a message that waits to be processed comes when no value is under
way. -/
def Settled (c : Connection) : Prop :=
  c.Sound ∧ (c.pendingMsgs = [] ∨ c.postedValue = none ∧ c.pendingMsgs.length = 1)

/-- The locks that are held are those of the values under way, one for each session that waits, under
different addresses, and each is counted once. -/
structure Inv (S : Shard) : Prop where
  conn : ∀ s c, S.conns s = some c → Settled c
  hold : ∀ h ∈ S.held, ∃ c v, S.conns h.session = some c ∧ c.postedValue = some v ∧
    h.transfer = some (.value v.id) ∧ S.locked v.base = some ⟨h.pool, h.handle, 1⟩
  posted : ∀ s c v, S.conns s = some c → c.postedValue = some v → ∃ h ∈ S.held, h.session = s
  distinct : S.held.Pairwise fun h h' => h.session ≠ h'.session
  bases : ∀ s s' c c' v v', S.conns s = some c → S.conns s' = some c' → c.postedValue = some v →
    c'.postedValue = some v' → s ≠ s' → v.base ≠ v'.base

theorem empty_inv : Inv empty where
  conn := fun _ _ h => by cases h
  hold := fun _ h => by cases h
  posted := fun _ _ _ h => by cases h
  distinct := .nil
  bases := fun _ _ _ _ _ _ h => by cases h

theorem Inv.inFlight (hS : S.Inv) (hh : h ∈ S.held) : S.InFlight h = true := by
  obtain ⟨c, v, hconn, hv, htransfer, -⟩ := hS.hold h hh
  have hmem : .value v.id ∈ c.inFlight := by
    rw [← mem_values, (hS.conn _ _ hconn).1.values, hv]
    exact List.mem_cons_self
  simp [InFlight, hconn, htransfer, hmem]

theorem Inv.eq_of_session (hS : S.Inv) {h' : Hold} (hh : h ∈ S.held) (hh' : h' ∈ S.held)
    (hsession : h.session = h'.session) : h = h' := by
  by_contra hne
  have hsymm : Std.Symm fun h h' : Hold => h.session ≠ h'.session := ⟨fun _ _ hne => hne.symm⟩
  exact hS.distinct.forall hh hh' hne hsession

theorem Inv.value_of_session (hS : S.Inv) (hc : S.conns s = some c) (hh : h ∈ S.held) (hs : h.session = s) :
    ∃ v, c.postedValue = some v ∧ h.transfer = some (.value v.id) ∧ S.locked v.base = some ⟨h.pool, h.handle, 1⟩ := by
  obtain ⟨c₁, v, hc₁, hrest⟩ := hS.hold h hh
  obtain rfl := Option.some.inj (hc.symm.trans (hs ▸ hc₁))
  exact ⟨v, hrest⟩

theorem Inv.hold_of_value (hS : S.Inv) (hc : S.conns s = some c) (hv : c.postedValue = some v) :
    ∃ h ∈ S.held, h.session = s ∧ h.transfer = some (.value v.id) ∧ S.locked v.base = some ⟨h.pool, h.handle, 1⟩ := by
  obtain ⟨h, hh, hs⟩ := hS.posted s c v hc hv
  obtain ⟨v', hv', hrest⟩ := hS.value_of_session hc hh hs
  obtain rfl := Option.some.inj (hv.symm.trans hv')
  exact ⟨h, hh, hs, hrest⟩

structure Moves (S S' : Shard) (s : Nat) (o : Option Connection) : Prop where
  self : S'.conns s = o
  other : ∀ s', s' ≠ s → S'.conns s' = S.conns s'

variable {S' : Shard} {o : Option Connection}

theorem Moves.cases (hmoves : Moves S S' s o) {s' : Nat} (hc' : S'.conns s' = some c') :
    (s' = s ∧ o = some c') ∨ (s' ≠ s ∧ S.conns s' = some c') := by
  by_cases hs : s' = s
  · exact Or.inl ⟨hs, hmoves.self.symm.trans (hs ▸ hc')⟩
  · exact Or.inr ⟨hs, (hmoves.other s' hs).symm.trans hc'⟩

theorem Inv.keep (hS : S.Inv) (hmoves : Moves S S' s o) (ho : ∀ c' ∈ o, Settled c')
    (hvalue : o.bind Connection.postedValue = (S.conns s).bind Connection.postedValue)
    (hlocked : S'.locked = S.locked) (hheld : S'.held = S.held) : S'.Inv := by
  have hsame (s' : Nat) : (S'.conns s').bind Connection.postedValue = (S.conns s').bind Connection.postedValue := by
    by_cases hs : s' = s
    · rw [hs, hmoves.self, hvalue]
    · rw [hmoves.other s' hs]
  have hback {s' : Nat} {c' : Connection} {v : ValueBuffer} (hc' : S'.conns s' = some c')
      (hv : c'.postedValue = some v) : ∃ c₀, S.conns s' = some c₀ ∧ c₀.postedValue = some v :=
    Option.bind_eq_some_iff.mp ((hsame s').symm.trans (Option.bind_eq_some_iff.mpr ⟨c', hc', hv⟩))
  refine ⟨fun s' c' hc' => ?_, fun h hh => ?_, fun s' c' v hc' hv => ?_, hheld ▸ hS.distinct,
    fun s₁ s₂ c₁ c₂ v₁ v₂ h₁ h₂ hv₁ hv₂ hne => ?_⟩
  · obtain ⟨-, ho'⟩ | ⟨-, hc'⟩ := hmoves.cases hc'
    · exact ho c' ho'
    · exact hS.conn s' c' hc'
  · obtain ⟨c₁, v, hc₁, hv, htransfer, hlock⟩ := hS.hold h (hheld ▸ hh)
    obtain ⟨c', hc', hv'⟩ := Option.bind_eq_some_iff.mp
      ((hsame h.session).trans (Option.bind_eq_some_iff.mpr ⟨c₁, hc₁, hv⟩))
    exact ⟨c', v, hc', hv', htransfer, hlocked ▸ hlock⟩
  · obtain ⟨c₀, hc₀, hv₀⟩ := hback hc' hv
    exact hheld ▸ hS.posted s' c₀ v hc₀ hv₀
  · obtain ⟨c₁', h₁', hv₁'⟩ := hback h₁ hv₁
    obtain ⟨c₂', h₂', hv₂'⟩ := hback h₂ hv₂
    exact hS.bases s₁ s₂ c₁' c₂' v₁ v₂ h₁' h₂' hv₁' hv₂' hne

section

variable (hS : S.Inv) (hc : S.conns s = some c)
include hS hc

theorem Inv.start (hnone : c.postedValue = none)
    (hmoves : Moves S S' s (some c')) (hc' : Settled c') (hv : c'.postedValue = some v) {pool handle : Nat}
    (hfree : S.locked v.base = none) (hlocked : S'.locked = update S.locked v.base (some ⟨pool, handle, 1⟩))
    (hheld : S'.held = S.held ++ [⟨s, pool, handle, some (.value v.id)⟩]) : S'.Inv := by
  have hold_ne : ∀ h ∈ S.held, h.session ≠ s := by
    intro h hh hs
    obtain ⟨v₁, hv₁, -⟩ := hS.value_of_session hc hh hs
    exact Option.some_ne_none v₁ (hv₁.symm.trans hnone)
  have hbase_ne : ∀ s' c₁ v₁, S.conns s' = some c₁ → c₁.postedValue = some v₁ → v₁.base ≠ v.base := by
    intro s' c₁ v₁ hc₁ hv₁ heq
    obtain ⟨h, -, -, -, hlock⟩ := hS.hold_of_value hc₁ hv₁
    exact Option.some_ne_none _ (hlock.symm.trans (heq ▸ hfree))
  refine ⟨fun s' c₁ hc₁ => ?_, fun h hh => ?_, fun s' c₁ v₁ hc₁ hv₁ => ?_, ?_,
    fun s₁ s₂ c₁ c₂ v₁ v₂ h₁ h₂ hv₁ hv₂ hne => ?_⟩
  · obtain ⟨-, ho⟩ | ⟨-, hc₁⟩ := hmoves.cases hc₁
    · exact Option.some.inj ho ▸ hc'
    · exact hS.conn s' c₁ hc₁
  · rw [hheld, List.mem_append, List.mem_singleton] at hh
    rcases hh with hh | rfl
    · obtain ⟨c₁, v₁, hc₁, hv₁, htransfer, hlock⟩ := hS.hold h hh
      refine ⟨c₁, v₁, (hmoves.other _ (hold_ne h hh)).trans hc₁, hv₁, htransfer, ?_⟩
      rw [hlocked, update_of_ne (hbase_ne _ c₁ v₁ hc₁ hv₁)]
      exact hlock
    · exact ⟨c', v, hmoves.self, hv, rfl, by rw [hlocked, update_self]⟩
  · rw [hheld]
    obtain ⟨hs, -⟩ | ⟨-, hc₁⟩ := hmoves.cases hc₁
    · exact ⟨_, List.mem_append_right _ (List.mem_singleton.mpr rfl), hs.symm⟩
    · obtain ⟨h, hh, hs'⟩ := hS.posted s' c₁ v₁ hc₁ hv₁
      exact ⟨h, List.mem_append_left _ hh, hs'⟩
  · rw [hheld, List.pairwise_append]
    refine ⟨hS.distinct, List.pairwise_singleton _ _, fun h hh h' hh' => ?_⟩
    rw [List.mem_singleton.mp hh']
    exact hold_ne h hh
  · obtain ⟨rfl, ho⟩ | ⟨-, h₁⟩ := hmoves.cases h₁
    · obtain rfl := Option.some.inj ho
      obtain rfl := Option.some.inj (hv.symm.trans hv₁)
      exact (hbase_ne s₂ c₂ v₂ ((hmoves.other s₂ hne.symm).symm.trans h₂) hv₂).symm
    · obtain ⟨-, ho⟩ | ⟨-, h₂⟩ := hmoves.cases h₂
      · obtain rfl := Option.some.inj ho
        obtain rfl := Option.some.inj (hv.symm.trans hv₂)
        exact hbase_ne s₁ c₁ v₁ h₁ hv₁
      · exact hS.bases s₁ s₂ c₁ c₂ v₁ v₂ h₁ h₂ hv₁ hv₂ hne

theorem Inv.finish (hv : c.postedValue = some v)
    (hmoves : Moves S S' s (some c')) (hc' : Settled c') (hnone : c'.postedValue = none)
    (hh : h ∈ S.held) (hs : h.session = s) (hlocked : S'.locked = update S.locked v.base none)
    (hheld : S'.held = S.held.erase h) : S'.Inv := by
  have hnodup : S.held.Nodup := hS.distinct.imp fun hne heq => hne (congrArg Hold.session heq)
  have hposted_ne : ∀ s' c₁ v₁, S'.conns s' = some c₁ → c₁.postedValue = some v₁ → s' ≠ s ∧ S.conns s' = some c₁ := by
    intro s' c₁ v₁ hc₁ hv₁
    refine (hmoves.cases hc₁).resolve_left fun ⟨_, ho⟩ => ?_
    obtain rfl := Option.some.inj ho
    exact Option.some_ne_none v₁ (hv₁.symm.trans hnone)
  refine ⟨fun s' c₁ hc₁ => ?_, fun h' hh' => ?_, fun s' c₁ v₁ hc₁ hv₁ => ?_,
    hheld ▸ hS.distinct.sublist List.erase_sublist, fun s₁ s₂ c₁ c₂ v₁ v₂ h₁ h₂ hv₁ hv₂ hne => ?_⟩
  · obtain ⟨-, ho⟩ | ⟨-, hc₁⟩ := hmoves.cases hc₁
    · exact Option.some.inj ho ▸ hc'
    · exact hS.conn s' c₁ hc₁
  · rw [hheld, hnodup.mem_erase_iff] at hh'
    have hs' : h'.session ≠ s := fun hs' => hh'.1 (hS.eq_of_session hh'.2 hh (hs'.trans hs.symm))
    obtain ⟨c₁, v₁, hc₁, hv₁, htransfer, hlock⟩ := hS.hold h' hh'.2
    refine ⟨c₁, v₁, (hmoves.other _ hs').trans hc₁, hv₁, htransfer, ?_⟩
    rw [hlocked, update_of_ne (hS.bases _ _ c₁ c v₁ v hc₁ hc hv₁ hv hs')]
    exact hlock
  · obtain ⟨hs', hc₁'⟩ := hposted_ne s' c₁ v₁ hc₁ hv₁
    obtain ⟨h', hh', hsession⟩ := hS.posted s' c₁ v₁ hc₁' hv₁
    rw [hheld]
    refine ⟨h', (hnodup.mem_erase_iff).mpr ⟨fun heq => hs' ?_, hh'⟩, hsession⟩
    rw [← hsession, heq, hs]
  · exact hS.bases s₁ s₂ c₁ c₂ v₁ v₂ (hposted_ne s₁ c₁ v₁ h₁ hv₁).2 (hposted_ne s₂ c₂ v₂ h₂ hv₂).2 hv₁ hv₂ hne

end

variable {e : SessionEvent}

theorem inFlight_congr (hconns : S'.conns = S.conns) (h : Hold) : S'.InFlight h = S.InFlight h := by
  unfold InFlight
  rw [hconns]

def Steps (S : Shard) (e : ShardEvent) : Prop := S.Accounts e ∧ ∀ S' ∈ S.step e, S'.Inv

theorem steps_of_ledger (hc : S.conns s = some c) (held : List Hold) (hledger : S.ledger s c e = some held)
    (hinv : ((S.work c).step e).returns = true → Inv { S.after s c e with held })
    (hthrow : ((S.work c).step e).returns = false → held = []) : S.Steps (.session s e) := by
  constructor
  · intro c₁ hc₁
    rw [hc] at hc₁
    cases hc₁
    refine ⟨held, hledger, ?_⟩
    split
    · next hreturns =>
      intro h hh
      have hsame : ({ S.after s c e with held } : Shard).InFlight h = (S.after s c e).InFlight h :=
        inFlight_congr rfl h
      rw [← hsame]
      exact (hinv hreturns).inFlight hh
    · next hreturns => exact hthrow (by simpa using hreturns)
  · intro S' hS'
    simp only [step, hc] at hS'
    split at hS'
    · next hreturns =>
      rw [hledger] at hS'
      cases hS'
      exact hinv hreturns
    · cases hS'

theorem after_moves (S : Shard) (s : Nat) (c : Connection) (e : SessionEvent) (held : List Hold) :
    Moves S { S.after s c e with held } s (match (S.work c).step e with
      | .closed _ => none
      | _ => some ((S.work c).after e).conn) where
  self := update_self ..
  other := fun _ hs => update_of_ne hs ..

theorem strike_once (hheld : ∀ h ∈ S.held, S'.InFlight h = true) (pool handle : Nat) (s : Nat) :
    S'.strike (S.held ++ [⟨s, pool, handle, none⟩]) [(pool, handle)] = some S.held := by
  have hnot : ∀ h : Hold, h.transfer = none → S'.InFlight h = false := by
    intro h htransfer
    unfold InFlight
    rw [htransfer]
    split <;> simp_all
  have hfind : (S.held ++ [(⟨s, pool, handle, none⟩ : Hold)]).find? (fun h =>
      (h.pool, h.handle) = (pool, handle) && !S'.InFlight h) = some ⟨s, pool, handle, none⟩ := by
    rw [List.find?_append, List.find?_eq_none.mpr (by
      intro h hh
      simp [hheld h hh])]
    simp [hnot ⟨s, pool, handle, none⟩ rfl]
  have hnew : (⟨s, pool, handle, none⟩ : Hold) ∉ S.held := by
    intro hmem
    have htrue := hheld _ hmem
    rw [hnot _ rfl] at htrue
    cases htrue
  unfold strike
  rw [hfind]
  simp only [List.erase_append_right _ hnew, List.erase_cons_head, List.append_nil]
  rfl

theorem strike_finish (hS : S.Inv) (hh : h ∈ S.held) (hdone : S'.InFlight h = false)
    (hother : ∀ h' ∈ S.held, h'.session ≠ h.session → S'.InFlight h' = true) :
    S'.strike S.held [(h.pool, h.handle)] = some (S.held.erase h) := by
  have hfind : S.held.find? (fun h' => (h'.pool, h'.handle) = (h.pool, h.handle) && !S'.InFlight h') = some h := by
    cases hres : S.held.find? (fun h' => (h'.pool, h'.handle) = (h.pool, h.handle) && !S'.InFlight h') with
    | none =>
      have hnot := List.find?_eq_none.mp hres h hh
      simp [hdone] at hnot
    | some h' =>
      have hmem := List.mem_of_find?_eq_some hres
      have hpred := List.find?_some hres
      by_cases hs : h'.session = h.session
      · rw [hS.eq_of_session hmem hh hs]
      · simp [hother h' hmem hs] at hpred
  unfold strike
  rw [hfind]
  rfl

theorem taken_work (S : Shard) (c : Connection) (e : SessionEvent) : (S.work c).taken e = [] := by
  unfold Work.taken
  split <;> rfl

section

variable (hS : S.Inv) (hc : S.conns s = some c)
include hS hc

theorem Inv.keep_after (hlocked : ((S.work c).after e).locked = S.locked) (hsettled : Settled ((S.work c).after e).conn)
    (hvalue : ((S.work c).after e).conn.postedValue = c.postedValue)
    (hclosed : ∀ w, (S.work c).step e = .closed w → c.postedValue = none) : Inv { S.after s c e with held := S.held } := by
  refine hS.keep (after_moves S s c e S.held) (fun c' hc' => ?_) ?_ hlocked rfl
  · split at hc'
    · cases hc'
    · exact Option.some.inj hc' ▸ hsettled
  · rw [hc]
    split
    · next w hw => exact (hclosed w hw).symm
    · exact hvalue

theorem Inv.steps_nothing {w : Work} (hafter : (S.work c).after e = w)
    (hthrow : ((S.work c).step e).returns = false → S.held = []) (hlocked : w.locked = S.locked)
    (htaken : w.taken e = []) (hunlocked : w.unlocked = [])
    (hconn : ((S.work c).step e).returns = true → Settled w.conn ∧ w.conn.postedValue = c.postedValue)
    (hclosed : ∀ w, (S.work c).step e = .closed w → c.postedValue = none) : S.Steps (.session s e) := by
  subst hafter
  have hledger : S.ledger s c e = some S.held := by
    unfold ledger
    simp only [hunlocked, Shard.after, htaken, List.map_nil, List.append_nil]
    rfl
  exact steps_of_ledger hc _ hledger
    (fun hreturns => hS.keep_after hc hlocked (hconn hreturns).1 (hconn hreturns).2 hclosed) hthrow

theorem Inv.steps_skip (hstep : (S.work c).step e = .next (S.work c)) (hafter : (S.work c).after e = S.work c) :
    S.Steps (.session s e) := by
  refine hS.steps_nothing hc hafter ?_ rfl (taken_work S c e) rfl (fun _ => ⟨hS.conn s c hc, rfl⟩) ?_
  · rw [hstep]
    exact nofun
  · rw [hstep]
    exact fun w h => nomatch h

theorem Inv.steps_later {len : Nat} (hsafe : S.Safe (.session s (.later len))) : S.Steps (.session s (.later len)) := by
  obtain ⟨hthrow, -⟩ := hsafe c hc
  cases hmsgs : c.pendingMsgs with
  | cons msg msgs =>
    exact hS.steps_skip hc (by simp [Work.step, work, hmsgs]) (by simp [Work.after, work, hmsgs])
  | nil =>
    have hstep : (S.work c).step (.later len) = Work.outcome ((S.work c).send len) := by
      simp [Work.step, work, hmsgs]
    have hafter : (S.work c).after (.later len) = ((S.work c).send len).1 := by
      simp [Work.after, work, hmsgs]
    obtain ⟨hsame, hlocked, hcalls⟩ := Work.send_same (S.work c) len
    refine hS.steps_nothing hc hafter hthrow hlocked rfl ?_ (fun _ => ?_) fun w hw => ?_
    · rw [Work.unlocked, hcalls]
      rfl
    · obtain ⟨hsound, -⟩ := hS.conn s c hc
      exact ⟨⟨hsound.congr hsame.same hsame.state, Or.inl (hsame.msgs.trans hmsgs)⟩, hsame.same.value⟩
    · exact absurd (hstep.symm.trans hw) (Work.outcome_ne_closed _ w)

theorem Inv.steps_message {r : Reply} (hsafe : S.Safe (.session s (.message r))) : S.Steps (.session s (.message r)) := by
  obtain ⟨hthrow, hlock⟩ := hsafe c hc
  cases hmsgs : c.pendingMsgs with
  | nil =>
    exact hS.steps_skip hc (by simp [Work.step, work, hmsgs]) (by simp [Work.after, work, hmsgs])
  | cons msg msgs =>
    obtain ⟨hsound, hturn⟩ := hS.conn s c hc
    obtain ⟨hnone, hone⟩ := hturn.resolve_left (by simp [hmsgs])
    have htail : msgs = [] := by simpa [hmsgs] using hone
    have hstep : (S.work c).step (.message r) = Work.outcome ((S.work c).answer r) := by
      simp [Work.step, work, hmsgs]
    have hafter : (S.work c).after (.message r) = ((S.work c).answer r).1 := by
      simp [Work.after, work, hmsgs]
    have hclosed : ∀ w, (S.work c).step (.message r) ≠ .closed w := fun w hw =>
      Work.outcome_ne_closed _ w (hstep.symm.trans hw)
    have hsettles := Work.answer_settles (w := S.work c) (r := r) rfl fun m authId buf a hr => by
      rw [hr] at hlock
      exact hlock (by simp [hmsgs])
    -- the connection without the message is as sound as with it
    have hsound₀ : { c with pendingMsgs := c.pendingMsgs.tail }.Sound :=
      ⟨hsound.actions, hsound.values, hsound.outstanding, hsound.waiting⟩
    have hmsgs₀ : { c with pendingMsgs := c.pendingMsgs.tail }.pendingMsgs = [] := by
      simp [hmsgs, htail]
    have hquiet {w : Work} (hconn : { c with pendingMsgs := c.pendingMsgs.tail }.Plain w.conn) :
        Settled w.conn ∧ w.conn.postedValue = c.postedValue := by
      obtain ⟨hsound', hnone'⟩ := hsound₀.plain hnone hconn
      exact ⟨⟨hsound', Or.inl (hconn.msgs.trans hmsgs₀)⟩, hnone'.trans hnone.symm⟩
    cases hsettles with
    | nothing hconn hlocked htaken hunlocked =>
      exact hS.steps_nothing hc hafter hthrow hlocked htaken hunlocked (fun _ => hquiet hconn)
        fun w hw => absurd hw (hclosed w)
    | once p hconn hlocked htaken hunlocked =>
      rw [← hafter] at hconn hlocked htaken hunlocked
      have hcontext : c.transferContext ((S.work c).after (.message r)).conn = none :=
        hconn.transferContext (hsound.values_eq_nil hnone)
      have hinv := hS.keep_after hc hlocked (hquiet hconn).1 (hquiet hconn).2 fun w hw => absurd hw (hclosed w)
      have hheld : (S.after s c (.message r)).held = S.held ++ [⟨s, p.1, p.2, none⟩] := by
        simp only [Shard.after, htaken, List.map_cons, List.map_nil, hcontext]
      refine steps_of_ledger hc _ ?_ (fun _ => hinv) hthrow
      unfold ledger
      rw [hunlocked, hheld]
      refine strike_once (fun h hh => ?_) p.1 p.2 s
      exact (inFlight_congr (S := S.after s c (.message r)) rfl h).symm.trans (hinv.inFlight hh)
    | transfer pool handle base hconn hfree hlocked htaken hunlocked hnothrow =>
      have hreturns : ((S.work c).step (.message r)).returns = true := by
        rw [hstep]
        rcases hres : (S.work c).answer r with ⟨w', _ | exc⟩
        · rfl
        · rw [hres] at hnothrow
          cases hnothrow
      rw [← hafter] at hconn hlocked htaken hunlocked
      have hcontext : c.transferContext ((S.work c).after (.message r)).conn =
          some (.value c.descriptors) := hconn.transferContext
      have hheld : (S.after s c (.message r)).held = S.held ++ [⟨s, pool, handle, some (.value c.descriptors)⟩] := by
        simp only [Shard.after, htaken, List.map_cons, List.map_nil, hcontext]
      refine steps_of_ledger hc (S.after s c (.message r)).held ?_ (fun _ => ?_) fun h => by rw [hreturns] at h; cases h
      · unfold ledger
        rw [hunlocked]
        rfl
      · have hmoves := after_moves S s c (.message r) (S.after s c (.message r)).held
        have ho : (match (S.work c).step (.message r) with
            | .closed _ => none
            | _ => some ((S.work c).after (.message r)).conn) =
              some ((S.work c).after (.message r)).conn := by
          split
          · next w hw => exact absurd hw (hclosed w)
          · rfl
        rw [ho] at hmoves
        exact hS.start hc hnone hmoves
          ⟨hsound₀.transfers hnone hconn, Or.inl (hconn.msgs.trans hmsgs₀)⟩ hconn.value hfree hlocked hheld

variable {i : TickInput}

theorem Inv.steps_tick_quiet (hmsgs : c.pendingMsgs = []) {response : TickResponse} (htick : c.tick i = .ok (response, c'))
    (hthrow : ((S.work c).step (.tick i)).returns = false → S.held = []) (hc' : Settled c')
    (hvalue : c'.postedValue = c.postedValue) (hclose : response = .close → c.postedValue = none) :
    S.Steps (.session s (.tick i)) := by
  have hactions : Work.processActions { S.work c with conn := c' } =
      ({ S.work c with conn := { c' with pendingActions := [] } }, none) := by
    unfold Work.processActions
    dsimp only
    rw [hc'.1.actions]
    rfl
  have hafter : (S.work c).after (.tick i) = { S.work c with conn := { c' with pendingActions := [] } } := by
    simp only [Work.after, work, hmsgs, htick]
    exact congrArg Prod.fst hactions
  have hstep : (S.work c).step (.tick i) = (S.work c).tick i := by
    simp [Work.step, work, hmsgs]
  refine hS.steps_nothing hc hafter hthrow rfl rfl rfl
    (fun _ => ⟨⟨⟨rfl, hc'.1.values, hc'.1.outstanding, hc'.1.waiting⟩, hc'.2⟩, hvalue⟩) fun w hw => ?_
  rw [hstep] at hw
  unfold Work.tick at hw
  simp only [show (S.work c).conn.tick i = .ok (response, c') from htick, hactions] at hw
  cases response with
  | «continue» => cases hw
  | close => exact hclose rfl

theorem Inv.steps_tick_finish (hmsgs : c.pendingMsgs = []) (htick : c.tick i = .ok (.continue, c')) (hv : c.postedValue = some v)
    (hactions : c'.pendingActions = [v.base]) (hc' : Settled { c' with pendingActions := [] })
    (hnone : c'.postedValue = none) :
    S.Steps (.session s (.tick i)) := by
  obtain ⟨h, hh, hs, htransfer, hlock⟩ := hS.hold_of_value hc hv
  have hrelease : Work.processActions { S.work c with conn := c' } =
      ({ ({ S.work c with conn := { c' with pendingActions := [] } } : Work).call
          (.unlock h.pool h.handle) with locked := update S.locked v.base none }, none) := by
    unfold Work.processActions
    dsimp only
    rw [hactions]
    simp only [Work.releaseAll, Work.releaseLockedValue, work, hlock, if_true]
  have hafter : (S.work c).after (.tick i) =
      { ({ S.work c with conn := { c' with pendingActions := [] } } : Work).call
        (.unlock h.pool h.handle) with locked := update S.locked v.base none } := by
    simp only [Work.after, work, hmsgs, htick]
    exact congrArg Prod.fst hrelease
  have hstep : (S.work c).step (.tick i) = .next ((S.work c).after (.tick i)) := by
    have htick' : (S.work c).step (.tick i) = (S.work c).tick i := by
      simp [Work.step, work, hmsgs]
    rw [htick', hafter]
    unfold Work.tick
    simp only [show (S.work c).conn.tick i = .ok (.continue, c') from htick, hrelease]
  have hheld : (S.after s c (.tick i)).held = S.held := List.append_nil _
  have hunlocked : ((S.work c).after (.tick i)).unlocked = [(h.pool, h.handle)] := by
    rw [hafter]
    rfl
  have hmoves : ∀ held, Moves S { S.after s c (.tick i) with held } s
      (some { c' with pendingActions := [] }) := by
    intro held
    have hmoves := after_moves S s c (.tick i) held
    rw [hstep] at hmoves
    dsimp only at hmoves
    rw [hafter] at hmoves
    exact hmoves
  have hinv : Inv { S.after s c (.tick i) with held := S.held.erase h } := by
    refine hS.finish hc hv (hmoves _) hc' hnone hh hs ?_ rfl
    show ((S.work c).after (.tick i)).locked = _
    rw [hafter]
  refine steps_of_ledger hc (S.held.erase h) ?_ (fun _ => hinv) fun hthrow => ?_
  · unfold ledger
    rw [hunlocked, hheld]
    refine strike_finish hS hh ?_ fun h' hh' hs' => ?_
    · -- nothing is in flight for this session
      have hnot : .value v.id ∉ c'.inFlight := by
        have hvalues := hc'.1.values_eq_nil hnone
        rw [← mem_values (c := { c' with pendingActions := [] }), hvalues]
        simp
      have hself : (S.after s c (.tick i)).conns h.session = some { c' with pendingActions := [] } := by
        rw [hs]
        exact (hmoves []).self
      simp [InFlight, hself, htransfer, hnot]
    · have hmem : h' ∈ S.held.erase h :=
        (List.mem_erase_of_ne fun heq => hs' (congrArg Hold.session heq)).mpr hh'
      exact (inFlight_congr (S := S.after s c (.tick i)) rfl h').symm.trans (hinv.inFlight hmem)
  · rw [hstep] at hthrow
    cases hthrow

theorem Inv.steps_tick (hsafe : S.Safe (.session s (.tick i))) : S.Steps (.session s (.tick i)) := by
  obtain ⟨hthrow, hstay⟩ := hsafe c hc
  obtain ⟨hsound, hturn⟩ := hS.conn s c hc
  cases hmsgs : c.pendingMsgs with
  | cons msg msgs =>
    exact hS.steps_skip hc (by simp [Work.step, work, hmsgs]) (by simp [Work.after, work, hmsgs])
  | nil =>
    cases htick : c.tick i with
    | error exc =>
      -- the thread ends before anything is done
      have hafter : (S.work c).after (.tick i) = S.work c := by
        simp only [Work.after, work, hmsgs, htick]
      have hstep : (S.work c).step (.tick i) = .threw exc := by
        simp only [Work.step, work, hmsgs, Work.tick, htick]
      refine hS.steps_nothing hc hafter hthrow rfl rfl rfl ?_ ?_
      · rw [hstep]
        simp [SessionOutcome.returns]
      · rw [hstep]
        simp
    | ok res =>
      obtain ⟨response, c'⟩ := res
      cases hv : c.postedValue with
      | none =>
        obtain ⟨hsound', hnone, hlen⟩ := hsound.tick_none hv htick
        have hturn' : c'.pendingMsgs = [] ∨ c'.postedValue = none ∧ c'.pendingMsgs.length = 1 := by
          rw [hmsgs] at hlen
          rcases Nat.le_one_iff_eq_zero_or_eq_one.mp hlen with hzero | hone
          · exact Or.inl (List.length_eq_zero_iff.mp hzero)
          · exact Or.inr ⟨hnone, hone⟩
        exact hS.steps_tick_quiet hc hmsgs htick hthrow ⟨hsound', hturn'⟩ (hnone.trans hv.symm) fun _ => hv
      | some v =>
        have hwait : c.Waiting := hsound.waiting.mpr (by simp [hv])
        obtain ⟨hcontinue, hsame | hdone⟩ := hsound.tick_some hv (hstay hmsgs hwait) htick
        · obtain ⟨hsound', hv', hmsgs'⟩ := hsame
          refine hS.steps_tick_quiet hc hmsgs htick hthrow ⟨hsound', Or.inl (hmsgs'.trans hmsgs)⟩
            (hv'.trans hv.symm) fun hclose => ?_
          rw [hcontinue] at hclose
          cases hclose
        · obtain ⟨hactions, hsound', hnone, hmsgs'⟩ := hdone
          rw [hcontinue] at htick
          exact hS.steps_tick_finish hc hmsgs htick hv hactions ⟨hsound', Or.inl (hmsgs'.trans hmsgs)⟩ hnone

end

theorem fresh_settled : Settled .fresh :=
  ⟨.of_none rfl rfl rfl rfl (by decide), Or.inl rfl⟩

theorem Inv.connect (hS : S.Inv) (s : Nat) (hfree : S.conns s = none) :
    Inv { S with conns := update S.conns s (some .fresh) } := by
  refine hS.keep (s := s) (o := some .fresh) ⟨update_self .., fun _ hs => update_of_ne hs ..⟩ (fun c' hc' => ?_) ?_ rfl rfl
  · exact Option.some.inj hc' ▸ fresh_settled
  · rw [hfree]
    rfl

theorem Inv.steps (hS : S.Inv) (e : ShardEvent) (hsafe : S.Safe e) : S.Steps e := by
  cases e with
  | connect s =>
    refine ⟨trivial, fun S' hS' => ?_⟩
    unfold step at hS'
    dsimp only at hS'
    split at hS'
    · next hfree =>
      cases hS'
      exact hS.connect s hfree
    · cases hS'
      exact hS
  | session s e =>
    cases hc : S.conns s with
    | none =>
      refine ⟨fun c hc' => absurd hc' (by simp [hc]), fun S' hS' => ?_⟩
      simp only [step, hc] at hS'
      cases hS'
      exact hS
    | some c =>
      cases e with
      | tick i => exact hS.steps_tick hc hsafe
      | message r => exact hS.steps_message hc hsafe
      | later len => exact hS.steps_later hc hsafe

end Shard

/-- In every run whose events are all safe, every handle that the store gives is given back once, after its transfer. -/
theorem locks_accounted (es : List ShardEvent) (hsafe : Throughout Shard.step Shard.Safe .empty es) :
    Throughout Shard.step Shard.Accounts .empty es :=
  Throughout.imp (fun _ e hS hsafe => (Shard.Inv.steps hS e hsafe).1)
    (fun _ e _ hS hsafe => (Shard.Inv.steps hS e hsafe).2 _) Shard.empty_inv hsafe

def ShardEvent.opening (s : Nat) : List ShardEvent :=
  [.connect s, .session s (.tick ⟨[], false, .pool⟩), .session s (.tick ⟨[], false, .pool⟩),
    .session s (.tick ⟨[.io 7], false, .pool⟩), .session s (.tick ⟨[], false, .pool⟩),
    .session s (.tick ⟨[], false, .pool⟩), .session s (.tick ⟨[.io 6], false, .pool⟩)]

def ShardEvent.directGet (s handle base : Nat) : ShardEvent :=
  .session s (.message (.io
    { (default : IORequest) with op := .get, poolId := 1, valLen := 8, resvd := msgResvdDirect } 7 default
    { (default : StoreAnswer) with lock := ⟨sOk, some handle, base, [1, 2, 3, 4]⟩ }))

theorem locks_accounted_twoSessions : Throughout Shard.step Shard.Accounts .empty
      (ShardEvent.opening 0 ++ ShardEvent.opening 1 ++ [.directGet 0 5 0x1000, .directGet 1 6 0x2000,
          .session 1 (.tick ⟨[.value 0], false, .pool⟩), .session 0 (.tick ⟨[], false, .pool⟩),
          .session 0 (.tick ⟨[.value 0], false, .pool⟩)]) :=
  locks_accounted _ (by decide +kernel)

/-- A client goes away while its value is transferred: the session is closed and the lock stays. -/
theorem not_locks_accounted_disconnect : ¬ Throughout Shard.step Shard.Accounts .empty
      (ShardEvent.opening 0 ++ [.directGet 0 5 0x1000, .session 0 (.tick ⟨[], true, .pool⟩)]) := by
  decide +kernel

end Comanche.Dawn
