import Comanche.Lib.Run
import Mathlib.Data.List.Perm.Basic

/-!
# Completion queues

`Fabric_cq` reads the completion queue of libfabric and calls back for each entry.
-/

namespace Comanche.Net

open Lib

structure Entry where
  opContext : Nat
  flags : Nat
  len : Nat
  buf : Nat
  data : Nat
  deriving DecidableEq

inductive Status where
  | ok
  | fail
  deriving DecidableEq

structure Completion where
  status : Status
  entry : Entry
  deriving DecidableEq

/-- What `fi_cq_read` returns: up to 16 entries, `FI_EAVAIL` with the error entry that is then read, `FI_EINTR`,
or another error. -/
inductive Read where
  | batch (entries : List Entry) (le : entries.length ≤ 16)
  | avail (entry : Entry)
  | interrupted
  | other (code : Nat)

def Read.completions : Read → List Completion
  | .batch entries _ => entries.map (⟨.ok, ·⟩)
  | .avail entry => [⟨.fail, entry⟩]
  | .interrupted | .other _ => []

/-- The kinds of callbacks. Two take a parameter of the caller, and `complete_old` takes no flags and no
length. -/
inductive Callback where
  | completeOld
  | completeDefinite
  | completeTentative
  | completeParamDefinite (param : Nat)
  | completeParamTentative (param : Nat)
  deriving DecidableEq

/-- What a callback is called with. `error_data` is always null. -/
structure Args where
  context : Nat
  status : Status
  flagsLen : Option (Nat × Nat)
  param : Option Nat

def Callback.args (cb : Callback) (c : Completion) : Args :=
  match cb with
  | .completeOld => ⟨c.entry.opContext, c.status, none, none⟩
  | .completeDefinite | .completeTentative => ⟨c.entry.opContext, c.status, some (c.entry.flags, c.entry.len), none⟩
  | .completeParamDefinite p | .completeParamTentative p =>
    ⟨c.entry.opContext, c.status, some (c.entry.flags, c.entry.len), some p⟩

/-- A call, and whether it delivered the entry: a definite callback always does. -/
structure Call where
  args : Args
  delivered : Bool

namespace FabricCq

/-- `force_read`, and the answers of the tentative callbacks: that to call number `k`. -/
structure Env where
  forceRead : Bool
  accept : Nat → Bool

/-- The deferred completions and the counters. `calls`, `read` and `returned` are all calls so far, all that
libfabric gave, and the sum of what the polls returned. -/
structure State where
  completions : List Completion
  inflight : UInt64
  ctTotal : Nat
  deferTotal : Nat
  calls : List Call
  read : List Completion
  returned : Nat

def State.start : State := ⟨[], 0, 0, 0, [], [], 0⟩

/-- `cq_read` has returned entries. -/
def State.took (s : State) (cs : List Completion) : State :=
  { s with read := s.read ++ cs, inflight := s.inflight - UInt64.ofNat cs.length }

def State.accepted (s : State) (args : Args) : State := { s with calls := s.calls ++ [⟨args, true⟩] }

def State.deferred (s : State) (args : Args) (c : Completion) : State :=
  { s with
    calls := s.calls ++ [⟨args, false⟩]
    completions := s.completions ++ [c]
    deferTotal := s.deferTotal + 1 }

def processOrQueueCompletion (env : Env) (cb : Callback) (c : Completion) (s : State) : Nat × State :=
  if env.accept s.calls.length then (1, s.accepted (cb.args c)) else (0, s.deferred (cb.args c) c)

/-- The entries of one read, through `process_or_queue_completion`. -/
def processBatch (env : Env) (cb : Callback) : List Entry → Nat → State → Nat × State
  | [], ct, s => (ct, s)
  | e :: es, ct, s =>
    let r := processOrQueueCompletion env cb ⟨.ok, e⟩ s
    processBatch env cb es (ct + r.1) r.2

def State.Skips (env : Env) (s : State) : Prop := s.inflight = 0 ∧ env.forceRead = false

instance (env : Env) (s : State) : Decidable (s.Skips env) := inferInstanceAs (Decidable (_ ∧ _))

/-- The read loop of the definite polls. It ends when there are no more entries, `FI_EAGAIN`. -/
def definiteLoop (env : Env) (cb : Callback) : List Read → Nat → State → Except Nat (Nat × State)
  | [], ct, s => .ok (ct, s)
  | r :: rs, ct, s =>
    if s.Skips env then .ok (ct, s)
    else match r with
      | .batch es _ =>
        definiteLoop env cb rs (ct + es.length)
          (es.foldl (fun s e => s.accepted (cb.args ⟨.ok, e⟩)) (s.took (es.map (⟨.ok, ·⟩))))
      | .avail e => definiteLoop env cb rs (ct + 1) ((s.took [⟨.fail, e⟩]).accepted (cb.args ⟨.fail, e⟩))
      | .interrupted => definiteLoop env cb rs ct s
      | .other code => .error code

def tentativeLoop (env : Env) (cb : Callback) : List Read → Nat → State → Except Nat (Nat × State)
  | [], ct, s => .ok (ct, s)
  | r :: rs, ct, s =>
    if s.Skips env then .ok (ct, s)
    else match r with
      | .batch es _ =>
        let r := processBatch env cb es ct (s.took (es.map (⟨.ok, ·⟩)))
        tentativeLoop env cb rs r.1 r.2
      | .avail e =>
        let r := processOrQueueCompletion env cb ⟨.fail, e⟩ (s.took [⟨.fail, e⟩])
        tentativeLoop env cb rs (ct + r.1) r.2
      | .interrupted => tentativeLoop env cb rs ct s
      | .other code => .error code

def State.setCompletions (s : State) (completions : List Completion) : State := { s with completions := completions }

def drainDefinite (cb : Callback) : List Completion → Nat → State → Nat × State
  | [], ct, s => (ct, s)
  | c :: cs, ct, s => drainDefinite cb cs (ct + 1) ((s.setCompletions cs).accepted (cb.args c))

def State.declined (s : State) (args : Args) : State :=
  { s with calls := s.calls ++ [⟨args, false⟩], deferTotal := s.deferTotal + 1 }

/-- `drain_old_completions` with a tentative callback; what is deferred takes the place of the queue. -/
def drainTentative (env : Env) (cb : Callback) : List Completion → Nat → List Completion → State → Nat × State
  | [], ct, kept, s => (ct, s.setCompletions kept)
  | c :: cs, ct, kept, s =>
    if env.accept s.calls.length then
      drainTentative env cb cs (ct + 1) kept ((s.setCompletions cs).accepted (cb.args c))
    else drainTentative env cb cs ct (kept ++ [c]) ((s.setCompletions cs).declined (cb.args c))

def State.finish (s : State) (ct : Nat) : Nat × State :=
  (ct, { s with ctTotal := s.ctTotal + ct, returned := s.returned + ct })

def pollDefinite (env : Env) (cb : Callback) (reads : List Read) (s : State) : Except Nat (Nat × State) :=
  (definiteLoop env cb reads 0 s).map fun r =>
    let d := drainDefinite cb r.2.completions 0 r.2
    d.2.finish (r.1 + d.1)

def pollTentative (env : Env) (cb : Callback) (reads : List Read) (s : State) : Except Nat (Nat × State) :=
  (tentativeLoop env cb reads 0 s).map fun r =>
    let d := drainTentative env cb r.2.completions 0 [] r.2
    d.2.finish (r.1 + d.1)

/-- `poll_completions` and `poll_completions_tentative`, by the kind of the callback. -/
def pollCompletions (env : Env) : Callback → List Read → State → Except Nat (Nat × State)
  | .completeOld => pollDefinite env .completeOld
  | .completeDefinite => pollDefinite env .completeDefinite
  | .completeTentative => pollTentative env .completeTentative
  | .completeParamDefinite p => pollDefinite env (.completeParamDefinite p)
  | .completeParamTentative p => pollTentative env (.completeParamTentative p)

inductive Event where
  | incrInflight
  | poll (cb : Callback) (reads : List Read)

def step (env : Env) (s : State) : Event → Option State
  | .incrInflight => some { s with inflight := s.inflight + 1 }
  | .poll cb reads => (pollCompletions env cb reads s).toOption.map Prod.snd

/-- The reads that a poll makes: it stops when nothing is in flight any more, unless reads are forced. -/
def readsMade (env : Env) : UInt64 → List Read → List Read
  | _, [] => []
  | inflight, r :: rs =>
    if inflight = 0 ∧ env.forceRead = false then []
    else r :: readsMade env (inflight - UInt64.ofNat r.completions.length) rs

/-- The completions of the reads that are made by a poll in `s`. -/
def State.taken (s : State) (env : Env) (reads : List Read) : List Completion :=
  (readsMade env s.inflight reads).flatMap Read.completions

def State.delivered (s : State) : List Args := (s.calls.filter Call.delivered).map Call.args

/-- The arguments of a call are those of an entry, as the kind of the callback takes them. -/
def Carries (c : Completion) (a : Args) : Prop := ∃ cb : Callback, a = cb.args c

/-- What was read is what was delivered, entry by entry with its own arguments, and what is in the queue. -/
def State.Complete (s : State) : Prop :=
  ∃ done, s.read.Perm (done ++ s.completions) ∧ List.Forall₂ Carries done s.delivered

/-- A poll reads `taken`. It delivers `done` to its callback and returns their number; the others of the queue and
of `taken` are in the queue afterwards. What was in the queue is offered in the order of the queue, then what the
poll deferred itself, and what is deferred again keeps that order. -/
structure Polls (env : Env) (cb : Callback) (reads : List Read) (taken : List Completion) (s s' : State) : Prop where
  read : s'.read = s.read ++ taken
  delivers : ∃ done, pollCompletions env cb reads s = .ok (done.length, s') ∧
    s'.returned = s.returned + done.length ∧ s'.delivered = s.delivered ++ done.map cb.args ∧
    (s.completions ++ taken).Perm (done ++ s'.completions)
  offers : ∃ before fresh, fresh.Sublist taken ∧
    s'.calls.map Call.args = s.calls.map Call.args ++ before ++ (s.completions ++ fresh).map cb.args ∧
    s'.completions.Sublist (s.completions ++ fresh)

def Holds (env : Env) (s : State) (e : Event) : Prop :=
  ∀ s' ∈ step env s e, s'.Complete ∧ s'.returned = s'.delivered.length ∧
    match e with
    | .poll cb reads => Polls env cb reads (s.taken env reads) s s'
    | .incrInflight => True

section Accounting

variable {env : Env} {cb : Callback} {s s' s'' : State} {c : Completion} {cs entries entries' : List Completion}
  {reads : List Read} {ct d : Nat}

/-- What a part of a poll does with the entries that it has in hand: those that it does not deliver are behind the
queue. -/
structure Splits (cb : Callback) (entries : List Completion) (s s' : State) (ct : Nat) : Prop where
  returned : s'.returned = s.returned
  queue : ∃ done fresh before, entries.Perm (done ++ fresh) ∧ fresh.Sublist entries ∧ done.length = ct ∧
    s'.delivered = s.delivered ++ done.map cb.args ∧ s'.completions = s.completions ++ fresh ∧
    s'.calls.map Call.args = s.calls.map Call.args ++ before

theorem Splits.nil (cb : Callback) (s : State) : Splits cb [] s s 0 :=
  ⟨rfl, [], [], [], .nil, .slnil, rfl, (List.append_nil _).symm, (List.append_nil _).symm, (List.append_nil _).symm⟩

theorem Splits.trans {a b : Nat} (h : Splits cb entries s s' a) (h' : Splits cb entries' s' s'' b) :
    Splits cb (entries ++ entries') s s'' (a + b) := by
  obtain ⟨done, fresh, before, hperm, hsub, hlen, hdelivered, hqueue, hcalls⟩ := h.queue
  obtain ⟨done', fresh', before', hperm', hsub', hlen', hdelivered', hqueue', hcalls'⟩ := h'.queue
  refine ⟨h'.returned.trans h.returned, done ++ done', fresh ++ fresh', before ++ before', ?_, hsub.append hsub', ?_,
    ?_, ?_, ?_⟩
  · refine (hperm.append hperm').trans ?_
    simp only [List.append_assoc]
    refine .append_left done ?_
    simp only [← List.append_assoc]
    exact .append_right fresh' List.perm_append_comm
  · rw [List.length_append, hlen, hlen']
  · rw [hdelivered', hdelivered, List.map_append, List.append_assoc]
  · rw [hqueue', hqueue, List.append_assoc]
  · rw [hcalls', hcalls, List.append_assoc]

/-- A part of a poll that only works on entries in hand. -/
structure Handles (cb : Callback) (entries : List Completion) (s s' : State) (ct : Nat) : Prop where
  read : s'.read = s.read
  inflight : s'.inflight = s.inflight
  splits : Splits cb entries s s' ct

theorem Handles.trans {a b : Nat} (h : Handles cb entries s s' a) (h' : Handles cb entries' s' s'' b) :
    Handles cb (entries ++ entries') s s'' (a + b) :=
  ⟨h'.read.trans h.read, h'.inflight.trans h.inflight, h.splits.trans h'.splits⟩

theorem handles_accepted (cb : Callback) (c : Completion) (s : State) :
    Handles cb [c] s (s.accepted (cb.args c)) 1 := by
  refine ⟨rfl, rfl, rfl, [c], [], [cb.args c], .refl _, List.nil_sublist _, rfl, ?_, (List.append_nil _).symm, ?_⟩
  · simp [State.delivered, State.accepted]
  · simp [State.accepted]

theorem handles_deferred (cb : Callback) (c : Completion) (s : State) :
    Handles cb [c] s (s.deferred (cb.args c) c) 0 := by
  refine ⟨rfl, rfl, rfl, [], [c], [cb.args c], .refl _, .refl _, rfl, ?_, rfl, ?_⟩
  · simp [State.delivered, State.deferred]
  · simp [State.deferred]

theorem handles_processOrQueue (env : Env) (cb : Callback) (c : Completion) (s : State) :
    Handles cb [c] s (processOrQueueCompletion env cb c s).2 (processOrQueueCompletion env cb c s).1 := by
  unfold processOrQueueCompletion
  split
  · exact handles_accepted cb c s
  · exact handles_deferred cb c s

theorem handles_definiteBatch (cb : Callback) (es : List Entry) (s : State) :
    Handles cb (es.map (⟨.ok, ·⟩)) s (es.foldl (fun s e => s.accepted (cb.args ⟨.ok, e⟩)) s) es.length := by
  induction es generalizing s with
  | nil => exact ⟨rfl, rfl, .nil cb s⟩
  | cons e es ih =>
    rw [List.length_cons, Nat.add_comm]
    exact (handles_accepted cb ⟨.ok, e⟩ s).trans (ih _)

theorem handles_processBatch (env : Env) (cb : Callback) (es : List Entry) (ct : Nat) (s : State) :
    ∃ d, (processBatch env cb es ct s).1 = ct + d ∧
      Handles cb (es.map (⟨.ok, ·⟩)) s (processBatch env cb es ct s).2 d := by
  induction es generalizing ct s with
  | nil => exact ⟨0, rfl, rfl, rfl, .nil cb s⟩
  | cons e es ih =>
    obtain ⟨d, hct, hes⟩ := ih (ct + (processOrQueueCompletion env cb ⟨.ok, e⟩ s).1)
      (processOrQueueCompletion env cb ⟨.ok, e⟩ s).2
    exact ⟨_, hct.trans (Nat.add_assoc _ _ _), (handles_processOrQueue env cb ⟨.ok, e⟩ s).trans hes⟩

/-- What a read loop does: it reads `taken` and splits it. -/
def Takes (cb : Callback) (taken : List Completion) (s s' : State) (d : Nat) : Prop :=
  s'.read = s.read ++ taken ∧ Splits cb taken s s' d

theorem Takes.nil (cb : Callback) (s : State) : Takes cb [] s s 0 := ⟨(List.append_nil _).symm, .nil cb s⟩

/-- One read, the handling of its entries, and the reads that follow. -/
theorem Takes.cons {a : Nat} (h : Handles cb entries (s.took entries) s' a) (h' : Takes cb entries' s' s'' d) :
    Takes cb (entries ++ entries') s s'' (a + d) := by
  refine ⟨?_, ?_⟩
  · rw [h'.1, h.read, ← List.append_assoc]
    rfl
  · have hsplits : Splits cb entries s s' a := ⟨h.splits.returned, h.splits.queue⟩
    exact hsplits.trans h'.2

theorem taken_cons {r : Read} {rs : List Read} (hskips : ¬ s.Skips env)
    (hs' : s'.inflight = (s.took r.completions).inflight) :
    s.taken env (r :: rs) = r.completions ++ s'.taken env rs := by
  have hmade : readsMade env s.inflight (r :: rs) = r :: readsMade env (s.took r.completions).inflight rs :=
    if_neg hskips
  rw [State.taken, hmade, List.flatMap_cons, ← hs']
  rfl

theorem taken_interrupted {rs : List Read} (hskips : ¬ s.Skips env) :
    s.taken env (.interrupted :: rs) = s.taken env rs := by
  refine (taken_cons hskips ?_).trans (List.nil_append _)
  change s.inflight = s.inflight - UInt64.ofNat 0
  simp

theorem taken_skips {r : Read} {rs : List Read} (hskips : s.Skips env) : s.taken env (r :: rs) = [] := by
  have hmade : readsMade env s.inflight (r :: rs) = [] := if_pos hskips
  rw [State.taken, hmade, List.flatMap_nil]

theorem takes_read {r : Read} {rs : List Read} {a ct' : Nat} (hskips : ¬ s.Skips env)
    (h : Handles cb r.completions (s.took r.completions) s'' a)
    (hrest : ∃ d, ct' = ct + a + d ∧ Takes cb (s''.taken env rs) s'' s' d) :
    ∃ d, ct' = ct + d ∧ Takes cb (s.taken env (r :: rs)) s s' d := by
  obtain ⟨d, rfl, hrest⟩ := hrest
  rw [taken_cons hskips h.inflight]
  exact ⟨a + d, Nat.add_assoc _ _ _, .cons h hrest⟩

theorem definiteLoop_takes {ct' : Nat} (h : definiteLoop env cb reads ct s = .ok (ct', s')) :
    ∃ d, ct' = ct + d ∧ Takes cb (s.taken env reads) s s' d := by
  induction reads generalizing ct s with
  | nil =>
    obtain ⟨rfl, rfl⟩ := Prod.mk.inj (Except.ok.inj h)
    exact ⟨0, rfl, .nil cb s⟩
  | cons r rs ih =>
    unfold definiteLoop at h
    split at h
    · next hskips =>
      obtain ⟨rfl, rfl⟩ := Prod.mk.inj (Except.ok.inj h)
      rw [taken_skips hskips]
      exact ⟨0, rfl, .nil cb s⟩
    · next hskips =>
      cases r with
      | batch es hes => exact takes_read hskips (handles_definiteBatch cb es _) (ih h)
      | avail e => exact takes_read hskips (handles_accepted cb ⟨.fail, e⟩ _) (ih h)
      | interrupted =>
        rw [taken_interrupted hskips]
        exact ih h
      | other code => cases h

theorem tentativeLoop_takes {ct' : Nat} (h : tentativeLoop env cb reads ct s = .ok (ct', s')) :
    ∃ d, ct' = ct + d ∧ Takes cb (s.taken env reads) s s' d := by
  induction reads generalizing ct s with
  | nil =>
    obtain ⟨rfl, rfl⟩ := Prod.mk.inj (Except.ok.inj h)
    exact ⟨0, rfl, .nil cb s⟩
  | cons r rs ih =>
    unfold tentativeLoop at h
    split at h
    · next hskips =>
      obtain ⟨rfl, rfl⟩ := Prod.mk.inj (Except.ok.inj h)
      rw [taken_skips hskips]
      exact ⟨0, rfl, .nil cb s⟩
    · next hskips =>
      cases r with
      | batch es hes =>
        obtain ⟨k, hk, hbatch⟩ := handles_processBatch env cb es ct (s.took (es.map (⟨.ok, ·⟩)))
        exact takes_read hskips hbatch (hk ▸ ih h)
      | avail e => exact takes_read hskips (handles_processOrQueue env cb ⟨.fail, e⟩ _) (ih h)
      | interrupted =>
        rw [taken_interrupted hskips]
        exact ih h
      | other code => cases h

/-- What the drain of the queue `cs` does, with `kept` deferred already. -/
structure Drains (cb : Callback) (kept cs : List Completion) (s s' : State) (ct : Nat) : Prop where
  read : s'.read = s.read
  returned : s'.returned = s.returned
  calls : s'.calls.map Call.args = s.calls.map Call.args ++ cs.map cb.args
  queue : s'.completions.Sublist (kept ++ cs)
  delivers : ∃ done, done.length = ct ∧ s'.delivered = s.delivered ++ done.map cb.args ∧
    (kept ++ cs).Perm (done ++ s'.completions)

theorem Drains.nil (kept : List Completion) (hs : s'.calls = s.calls) (hread : s'.read = s.read)
    (hreturned : s'.returned = s.returned) (hkept : s'.completions = kept) : Drains cb kept [] s s' 0 := by
  refine ⟨hread, hreturned, ?_, ?_, [], rfl, ?_, ?_⟩
  · rw [hs, List.map_nil, List.append_nil]
  · rw [hkept, List.append_nil]
  · rw [State.delivered, hs, List.map_nil, List.append_nil]
    rfl
  · rw [hkept, List.append_nil]
    exact .refl _

theorem Drains.accept {kept : List Completion}
    (h : Drains cb kept cs ((s.setCompletions cs).accepted (cb.args c)) s' d) :
    Drains cb kept (c :: cs) s s' (1 + d) := by
  obtain ⟨done, hlen, hdelivered, hperm⟩ := h.delivers
  refine ⟨h.read, h.returned, ?_, h.queue.trans ((List.sublist_cons_self c cs).append_left kept), c :: done, ?_, ?_, ?_⟩
  · rw [h.calls]
    simp [State.accepted, State.setCompletions]
  · rw [List.length_cons, hlen, Nat.add_comm]
  · rw [hdelivered]
    simp [State.delivered, State.accepted, State.setCompletions]
  · exact List.perm_middle.trans (hperm.cons c)

theorem Drains.decline {kept : List Completion}
    (h : Drains cb (kept ++ [c]) cs ((s.setCompletions cs).declined (cb.args c)) s' d) :
    Drains cb kept (c :: cs) s s' d := by
  obtain ⟨done, hlen, hdelivered, hperm⟩ := h.delivers
  have hkept : kept ++ [c] ++ cs = kept ++ c :: cs := by rw [List.append_assoc, List.singleton_append]
  refine ⟨h.read, h.returned, ?_, hkept ▸ h.queue, done, hlen, ?_, hkept ▸ hperm⟩
  · rw [h.calls]
    simp [State.declined, State.setCompletions]
  · rw [hdelivered]
    simp [State.delivered, State.declined, State.setCompletions]

theorem drainDefinite_drains (cb : Callback) (ct : Nat) (hs : s.completions = cs) :
    ∃ d, (drainDefinite cb cs ct s).1 = ct + d ∧ Drains cb [] cs s (drainDefinite cb cs ct s).2 d := by
  induction cs generalizing ct s with
  | nil => exact ⟨0, rfl, .nil [] rfl rfl rfl hs⟩
  | cons c cs ih =>
    obtain ⟨d, hct, hrest⟩ := ih (s := (s.setCompletions cs).accepted (cb.args c)) (ct + 1) rfl
    exact ⟨1 + d, hct.trans (Nat.add_assoc _ _ _), .accept hrest⟩

theorem drainTentative_drains (env : Env) (cb : Callback) (cs : List Completion) (ct : Nat) (kept : List Completion)
    (s : State) : ∃ d, (drainTentative env cb cs ct kept s).1 = ct + d ∧
      Drains cb kept cs s (drainTentative env cb cs ct kept s).2 d := by
  induction cs generalizing ct kept s with
  | nil => exact ⟨0, rfl, .nil kept rfl rfl rfl rfl⟩
  | cons c cs ih =>
    unfold drainTentative
    split
    · obtain ⟨d, hct, hrest⟩ := ih (ct + 1) kept ((s.setCompletions cs).accepted (cb.args c))
      exact ⟨1 + d, hct.trans (Nat.add_assoc _ _ _), .accept hrest⟩
    · obtain ⟨d, hct, hrest⟩ := ih ct (kept ++ [c]) ((s.setCompletions cs).declined (cb.args c))
      exact ⟨d, hct, .decline hrest⟩

/-- The read loop and the drain make up a poll. -/
theorem polls_of_drains {s₁ s₂ : State} {k : Nat} (htakes : Takes cb (s.taken env reads) s s₁ d)
    (hdrain : Drains cb [] s₁.completions s₁ s₂ k)
    (hpoll : pollCompletions env cb reads s = .ok (s₂.finish (d + k))) :
    Polls env cb reads (s.taken env reads) s (s₂.finish (d + k)).2 := by
  obtain ⟨hread, hsplits⟩ := htakes
  obtain ⟨done, fresh, before, hperm, hsub, hlen, hdelivered, hqueue, hcalls⟩ := hsplits.queue
  obtain ⟨done', hlen', hdelivered', hperm'⟩ := hdrain.delivers
  have hcount : (done ++ done').length = d + k := by rw [List.length_append, hlen, hlen']
  refine ⟨hdrain.read.trans hread, ⟨done ++ done', ?_, ?_, ?_, ?_⟩, before, fresh, hsub, ?_, ?_⟩
  · rw [hpoll, hcount]
    rfl
  · rw [hcount]
    change s₂.returned + (d + k) = _
    rw [hdrain.returned, hsplits.returned]
  · rw [List.map_append, ← List.append_assoc, ← hdelivered]
    exact hdelivered'
  · -- what is read is split first, and then what is in the queue
    rw [hqueue, List.nil_append] at hperm'
    rw [List.append_assoc]
    refine (hperm.append_left s.completions).trans (.trans ?_ (hperm'.append_left done))
    simp only [← List.append_assoc]
    exact .append_right fresh List.perm_append_comm
  · rw [← hqueue, ← hcalls]
    exact hdrain.calls
  · rw [← hqueue]
    exact hdrain.queue

theorem polls_of_loop {loop : Except Nat (Nat × State)} {drain : State → Nat × State}
    (hloop : ∀ ct₁ s₁, loop = .ok (ct₁, s₁) → ∃ d, ct₁ = 0 + d ∧ Takes cb (s.taken env reads) s s₁ d)
    (hdrain : ∀ s₁, ∃ k, (drain s₁).1 = 0 + k ∧ Drains cb [] s₁.completions s₁ (drain s₁).2 k)
    (hpoll : pollCompletions env cb reads s = loop.map fun r => (drain r.2).2.finish (r.1 + (drain r.2).1))
    (hp : pollCompletions env cb reads s = .ok (ct, s')) : Polls env cb reads (s.taken env reads) s s' := by
  cases loop with
  | error code => cases hpoll.symm.trans hp
  | ok r =>
    obtain ⟨d, hd, htakes⟩ := hloop r.1 r.2 rfl
    obtain ⟨k, hk, hdrain⟩ := hdrain r.2
    have hpoll : pollCompletions env cb reads s = .ok ((drain r.2).2.finish (r.1 + (drain r.2).1)) := hpoll
    rw [hd, hk, Nat.zero_add, Nat.zero_add] at hpoll
    obtain rfl : _ = s' := congrArg Prod.snd (Except.ok.inj (hpoll.symm.trans hp))
    exact polls_of_drains htakes hdrain hpoll

theorem polls_pollCompletions (hp : pollCompletions env cb reads s = .ok (ct, s')) :
    Polls env cb reads (s.taken env reads) s s' := by
  cases cb with
  | completeTentative | completeParamTentative p =>
    exact polls_of_loop (fun _ _ => tentativeLoop_takes)
      (fun s₁ => drainTentative_drains env _ s₁.completions 0 [] s₁) rfl hp
  | completeOld | completeDefinite | completeParamDefinite p =>
    exact polls_of_loop (fun _ _ => definiteLoop_takes) (fun _ => drainDefinite_drains _ 0 rfl) rfl hp

structure State.Settled (s : State) : Prop where
  complete : s.Complete
  returned : s.returned = s.delivered.length

theorem forall₂_carries (cb : Callback) (done : List Completion) : List.Forall₂ Carries done (done.map cb.args) := by
  induction done with
  | nil => exact .nil
  | cons c done ih => exact .cons ⟨cb, rfl⟩ ih

theorem Polls.settled {taken : List Completion} (h : Polls env cb reads taken s s') (hs : s.Settled) : s'.Settled := by
  obtain ⟨done, hperm, hcarries⟩ := hs.complete
  obtain ⟨done', -, hreturned, hdelivered, hperm'⟩ := h.delivers
  refine ⟨⟨done ++ done', ?_, ?_⟩, ?_⟩
  · rw [h.read, List.append_assoc]
    refine (hperm.append_right taken).trans ?_
    rw [List.append_assoc]
    exact hperm'.append_left done
  · rw [hdelivered]
    exact List.rel_append hcarries (forall₂_carries cb done')
  · rw [hreturned, hs.returned, hdelivered, List.length_append, List.length_map]

theorem settled_start : State.start.Settled := ⟨⟨[], .nil, .nil⟩, rfl⟩

theorem poll_of_step (h : s' ∈ step env s (.poll cb reads)) : ∃ ct, pollCompletions env cb reads s = .ok (ct, s') := by
  obtain ⟨r, hr, rfl⟩ := Option.map_eq_some_iff.mp h
  cases hp : pollCompletions env cb reads s with
  | error code => rw [hp] at hr; cases hr
  | ok r' =>
    rw [hp] at hr
    obtain rfl := Option.some.inj hr
    exact ⟨r'.1, rfl⟩

theorem settled_step {e : Event} (h : s.Settled) (hs' : s' ∈ step env s e) : s'.Settled := by
  cases e with
  | incrInflight =>
    obtain rfl := Option.some.inj hs'
    exact ⟨h.complete, h.returned⟩
  | poll cb reads =>
    obtain ⟨ct, hp⟩ := poll_of_step hs'
    exact (polls_pollCompletions hp).settled h

theorem holds_of_settled (h : s.Settled) (e : Event) : Holds env s e := by
  intro s' hs'
  have hsettled := settled_step h hs'
  refine ⟨hsettled.complete, hsettled.returned, ?_⟩
  cases e with
  | incrInflight => trivial
  | poll cb reads =>
    obtain ⟨ct, hp⟩ := poll_of_step hs'
    exact polls_pollCompletions hp

end Accounting

end FabricCq

end Comanche.Net
