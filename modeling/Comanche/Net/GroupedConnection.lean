import Comanche.Net.GroupedProgress

/-!
# Polls of a grouped connection

A grouped connection can be polled itself, beside its communicators.
-/

namespace Comanche.Net.GroupedConnection

open Lib FabricGrouped

inductive Context where
  | user (context : Nat)
  | record (r : Nat)
  deriving DecidableEq

structure Called where
  record : Nat
  context : Context
  status : Status
  flagsLen : Option (Nat × Nat)
  param : Option Nat
  accepted : Bool
  deriving DecidableEq

/-- `stalled` are the queues of the two `Fabric_cq`. -/
structure State where
  base : FabricGrouped.State
  stalled : Side → List (Completion × Context)
  calls : List Called

def State.start : State := ⟨.start, fun _ => [], []⟩

namespace State

def setBase (s : State) (base : FabricGrouped.State) : State := { s with base := base }

def call (s : State) (cb : Callback) (c : Completion) (context : Context) (accepted : Bool) : State :=
  { s with calls := s.calls ++ [⟨recordOf c, context, c.status, (cb.args c).flagsLen, (cb.args c).param, accepted⟩] }

def stall (s : State) (side : Side) (c : Completion) (context : Context) : State :=
  { s with stalled := Function.update s.stalled side (s.stalled side ++ [(c, context)]) }

def contextOf (s : State) (c : Completion) : Option Context :=
  if c.status = .fail then some (.record (recordOf c))
  else (s.base.deref (recordOf c)).map fun record => .user record.context

/-- The callback for an entry that was read, with the queue of the `Fabric_cq` for one that is deferred. The
`unique_ptr` to the record is released. -/
def fresh (accept : Nat → Bool) (cb : Callback) (side : Side) (c : Completion) (context : Context) (s : State) :
    Nat × State :=
  if Defers cb (accept s.calls.length) then (0, (s.call cb c context false).stall side c context)
  else (1, s.call cb c context true)

end State

def readLoop (accept : Nat → Bool) (cb : Callback) (side : Side) : List Completion → Nat → State → Nat × State
  | [], ct, s => (ct, s.setBase (s.base.setFabric side []))
  | c :: cs, ct, s =>
    match s.contextOf c with
    | none => (ct, s.setBase s.base.corrupt)
    | some context =>
      let r := (s.setBase (s.base.setFabric side cs)).fresh accept cb side c context
      readLoop accept cb side cs (ct + r.1) r.2

def drainOld (accept : Nat → Bool) (cb : Callback) (cq : Cq) : List Completion → List Completion → State → State
  | [], kept, s => s.setBase (s.base.setCompletions cq kept)
  | c :: cs, kept, s =>
    match s.base.deref (recordOf c) with
    | none => s.setBase s.base.corrupt
    | some record =>
      if Defers cb (accept s.calls.length) then
        drainOld accept cb cq cs (kept ++ [c]) (s.call cb c (.user record.context) false)
      else
        drainOld accept cb cq cs kept ((s.call cb c (.user record.context) true).setBase (s.base.free (recordOf c)))

/-- The loop over `_comm_cq_set`. What the drains return is not used. -/
def drainAll (accept : Nat → Bool) (cb : Callback) : List Cq → State → State
  | [], s => s
  | cq :: cqs, s => drainAll accept cb cqs (drainOld accept cb cq (s.base.completions cq) [] s)

def pollSide (accept : Nat → Bool) (cb : Callback) (side : Side) (s : State) : Nat × State :=
  let r := readLoop accept cb side (s.base.fabric side) 0 s
  (r.1, drainAll accept cb (r.2.base.members side) r.2)

def poll (accept : Nat → Bool) (cb : Callback) (s : State) : Nat × State :=
  let rx := pollSide accept cb .rx s
  let tx := pollSide accept cb .tx rx.2
  (rx.1 + tx.1, tx.2)

/-- `other` is an event of the communicators and of libfabric. -/
inductive Event where
  | other (e : FabricGrouped.Event)
  | poll (cb : Callback)

def Idle (s : State) : Prop := ∀ i ∈ s.base.comms, s.base.pc i = .idle

instance (s : State) : Decidable (Idle s) := inferInstanceAs (Decidable (∀ i ∈ s.base.comms, s.base.pc i = .idle))

def Event.begins : Event → Bool
  | .poll _ | .other (.poll _ _ _) => true
  | .other _ => false

def stepIdle (accept : Nat → Bool) (s : State) : Event → Option State
  | .other e => (FabricGrouped.step s.base e).map s.setBase
  | .poll cb => if s.base.fault then none else some (poll accept cb s).2

/-- One thread makes the calls: a poll begins when the one before has ended. `accept` are the answers of the tentative
callbacks, by the number of the call. -/
def step (accept : Nat → Bool) (s : State) (e : Event) : Option State :=
  if e.begins = true ∧ ¬ Idle s then none else stepIdle accept s e

def delivering (calls : List Called) : List Nat := (calls.filter Called.accepted).map Called.record

def State.delivered (s : State) : List Nat := s.base.accepted ++ delivering s.calls

/-- Callbacks get the context of the post; no completion is delivered twice; the records of those delivered are
deleted, and only they; and what was not delivered is with libfabric or a communicator. -/
structure State.Fine (s : State) : Prop where
  contexts : ∀ c ∈ s.calls, ∃ op ∈ s.base.ops[c.record]?, c.context = .user op.record.context
  once : s.delivered.Nodup
  freed : s.base.freed.Perm s.delivered
  kept : Idle s → ∀ r < s.base.ops.length, r ∉ s.delivered → r ∈ s.base.outstanding ∨
    ∃ side, r ∈ (s.base.fabric side).map recordOf ∨ ∃ cq ∈ s.base.members side, r ∈ (s.base.completions cq).map recordOf
  fault : s.base.fault = false
  owned : s.base.lost = []

/-- What a poll of the connection returns is the number of the completions it delivered, and it offers again what one
before it deferred. -/
structure Exact (accept : Nat → Bool) (cb : Callback) (s : State) : Prop where
  count : (poll accept cb s).1 = (delivering ((poll accept cb s).2.calls.drop s.calls.length)).length
  again : ∀ c ∈ s.calls, c.record ∉ s.delivered →
    ∃ c' ∈ (poll accept cb s).2.calls.drop s.calls.length, c'.record = c.record

def Holds (accept : Nat → Bool) (s : State) (e : Event) : Prop :=
  ∀ s' ∈ step accept s e, s'.Fine ∧ ∀ cb, e = .poll cb → Exact accept cb s

def State.old (s : State) : List Completion :=
  (s.base.members .rx ++ s.base.members .tx).flatMap s.base.completions

/-- No receive is posted with descriptors, and a poll of the connection finds nothing to read and delivers nothing of
what communicators have. -/
def Safe (accept : Nat → Bool) (s : State) : Event → Prop
  | .other (.post _ p _) => p ≠ .recvDesc
  | .other _ => True
  | .poll cb => s.base.fabric .rx = [] ∧ s.base.fabric .tx = [] ∧
    ∀ k < s.old.length, Defers cb (accept (s.calls.length + k))

instance (accept : Nat → Bool) (s : State) (e : Event) : Decidable (Safe accept s e) := by
  unfold Safe
  split <;> infer_instance

section Poll

variable {s s' : State} {accept : Nat → Bool} {cb : Callback} {cq : Cq}

structure Declines (s s' : State) (cs : List Completion) (new : List Called) : Prop where
  base : s'.base = s.base
  stalled : s'.stalled = s.stalled
  calls : s'.calls = s.calls ++ new
  records : new.map Called.record = cs.map recordOf
  declined : ∀ c ∈ new, c.accepted = false
  contexts : ∀ c ∈ new, ∃ op ∈ s.base.ops[c.record]?, c.context = .user op.record.context

theorem Declines.trans {s₁ : State} {cs cs₁ : List Completion} {calls calls₁ : List Called} (h : Declines s s₁ cs calls)
    (h₁ : Declines s₁ s' cs₁ calls₁) : Declines s s' (cs ++ cs₁) (calls ++ calls₁) := by
  refine ⟨h₁.base.trans h.base, h₁.stalled.trans h.stalled, ?_, ?_, fun c hc => ?_, fun c hc => ?_⟩
  · rw [h₁.calls, h.calls, List.append_assoc]
  · rw [List.map_append, List.map_append, h.records, h₁.records]
  · exact (List.mem_append.mp hc).elim (h.declined c) (h₁.declined c)
  · exact (List.mem_append.mp hc).elim (h.contexts c) fun hc => h.base ▸ h₁.contexts c hc

theorem Declines.length {cs : List Completion} {calls : List Called} (h : Declines s s' cs calls) :
    s'.calls.length = s.calls.length + cs.length := by
  have hlen := congrArg List.length h.records
  rw [List.length_map, List.length_map] at hlen
  rw [h.calls, List.length_append, hlen]

def Alive (s : State) (cs : List Completion) : Prop :=
  ∀ c ∈ cs, ∃ op ∈ s.base.ops[recordOf c]?, s.base.deref (recordOf c) = some op.record

theorem drainOld_declines (cq : Cq) (cs kept : List Completion) (halive : Alive s cs)
    (hdefers : ∀ k < cs.length, Defers cb (accept (s.calls.length + k))) : ∃ s₁ calls, Declines s s₁ cs calls ∧
      drainOld accept cb cq cs kept s = s₁.setBase (s.base.setCompletions cq (kept ++ cs)) := by
  induction cs generalizing kept s with
  | nil =>
    refine ⟨s, [], ⟨rfl, rfl, (List.append_nil _).symm, rfl, nofun, nofun⟩, ?_⟩
    rw [drainOld, List.append_nil]
  | cons c cs ih =>
    obtain ⟨op, hop, hderef⟩ := halive c List.mem_cons_self
    have hfirst : Defers cb (accept s.calls.length) := hdefers 0 (Nat.succ_pos _)
    have hcall : Declines s (s.call cb c (.user op.record.context) false) [c]
        [⟨recordOf c, .user op.record.context, c.status, (cb.args c).flagsLen, (cb.args c).param, false⟩] := by
      refine ⟨rfl, rfl, rfl, rfl, fun x hx => ?_, fun x hx => ?_⟩
      · rw [List.mem_singleton.mp hx]
      · rw [List.mem_singleton.mp hx]
        exact ⟨op, hop, rfl⟩
    obtain ⟨s₁, calls, hdeclines, hdrain⟩ := ih (s := s.call cb c (.user op.record.context) false) (kept ++ [c])
      (fun x hx => halive x (List.mem_cons_of_mem _ hx)) fun k hk => by
        have hnext := hdefers (k + 1) (Nat.succ_lt_succ hk)
        rw [hcall.length, List.length_singleton, Nat.add_assoc, Nat.add_comm 1 k]
        exact hnext
    refine ⟨s₁, _, hcall.trans hdeclines, ?_⟩
    simp only [drainOld, hderef, if_pos hfirst]
    rw [hdrain, List.append_assoc]
    rfl

theorem drainAll_declines (cqs : List Cq) (halive : ∀ cq, Alive s (s.base.completions cq))
    (hdefers : ∀ k < (cqs.flatMap s.base.completions).length, Defers cb (accept (s.calls.length + k))) :
    ∃ calls, Declines s (drainAll accept cb cqs s) (cqs.flatMap s.base.completions) calls := by
  induction cqs generalizing s with
  | nil => exact ⟨[], rfl, rfl, (List.append_nil _).symm, rfl, nofun, nofun⟩
  | cons cq cqs ih =>
    rw [List.flatMap_cons] at hdefers ⊢
    obtain ⟨s₁, calls, hdeclines, hdrain⟩ := drainOld_declines cq (s.base.completions cq) [] (halive cq)
      fun k hk => hdefers k (by rw [List.length_append]; omega)
    -- the queue has the same completions again
    have hsame : drainOld accept cb cq (s.base.completions cq) [] s = s₁ := by
      have hbase : s.base.setCompletions cq ([] ++ s.base.completions cq) = s₁.base := by
        rw [hdeclines.base, List.nil_append]
        unfold FabricGrouped.State.setCompletions
        rw [Function.update_eq_self]
      rw [hdrain, hbase]
      rfl
    have hqueues : s₁.base = s.base := hdeclines.base
    obtain ⟨calls₁, hrest⟩ := ih (s := s₁) (fun cq' => by unfold Alive; rw [hqueues]; exact halive cq') fun k hk => by
      rw [hqueues] at hk
      rw [hdeclines.length, Nat.add_assoc]
      exact hdefers _ (by rw [List.length_append]; omega)
    refine ⟨calls ++ calls₁, ?_⟩
    rw [drainAll, hsame]
    exact hdeclines.trans (hqueues ▸ hrest)

theorem pollSide_declines {side : Side} (hfabric : s.base.fabric side = [])
    (halive : ∀ cq, Alive s (s.base.completions cq))
    (hdefers : ∀ k < ((s.base.members side).flatMap s.base.completions).length, Defers cb (accept (s.calls.length + k))) :
    (pollSide accept cb side s).1 = 0 ∧ ∃ calls, Declines s (pollSide accept cb side s).2
      ((s.base.members side).flatMap s.base.completions) calls := by
  have hread : readLoop accept cb side (s.base.fabric side) 0 s = (0, s) := by
    have hbase : s.base.setFabric side [] = s.base := by
      unfold FabricGrouped.State.setFabric
      rw [← hfabric, Function.update_eq_self]
    rw [hfabric, readLoop, hbase]
    rfl
  unfold pollSide
  rw [hread]
  exact ⟨rfl, drainAll_declines _ halive hdefers⟩

theorem poll_declines (hrx : s.base.fabric .rx = []) (htx : s.base.fabric .tx = [])
    (halive : ∀ cq, Alive s (s.base.completions cq))
    (hdefers : ∀ k < s.old.length, Defers cb (accept (s.calls.length + k))) :
    (poll accept cb s).1 = 0 ∧ ∃ calls, Declines s (poll accept cb s).2 s.old calls := by
  unfold State.old at hdefers ⊢
  rw [List.flatMap_append] at hdefers ⊢
  obtain ⟨hzero, calls, hfirst⟩ := pollSide_declines hrx halive fun k hk =>
    hdefers k (by rw [List.length_append]; omega)
  have hbase : (pollSide accept cb .rx s).2.base = s.base := hfirst.base
  have hfabric : (pollSide accept cb .rx s).2.base.fabric .tx = [] := by rw [hbase]; exact htx
  have halive' (cq : Cq) : Alive (pollSide accept cb .rx s).2 ((pollSide accept cb .rx s).2.base.completions cq) := by
    unfold Alive
    rw [hbase]
    exact halive cq
  obtain ⟨hzero₁, calls₁, hsecond⟩ := pollSide_declines hfabric halive' fun k hk => by
    rw [hbase] at hk
    rw [hfirst.length, Nat.add_assoc]
    exact hdefers _ (by rw [List.length_append]; omega)
  rw [hbase] at hsecond
  refine ⟨?_, _, hfirst.trans hsecond⟩
  change (pollSide accept cb .rx s).1 + (pollSide accept cb .tx (pollSide accept cb .rx s).2).1 = 0
  rw [hzero, hzero₁]

end Poll

section Invariant

variable {s s' : State} {accept : Nat → Bool} {e : Event}

def Place.Owned (x : Place) : Prop := x.Kept ∨ x = .done

structure Inv (s : State) : Prop where
  base : FabricGrouped.Inv s.base
  alone : ∀ i j, s.base.pc i ≠ .idle → s.base.pc j ≠ .idle → i = j
  contexts : ∀ c ∈ s.calls, ∃ op ∈ s.base.ops[c.record]?, c.context = .user op.record.context
  declined : ∀ c ∈ s.calls, c.accepted = false
  pending : ∀ c ∈ s.calls, ∃ x, Place.Owned x ∧ c.record ∈ s.base.held x

theorem Inv.delivered (h : Inv s) : s.delivered = s.base.accepted := by
  have hnone : s.calls.filter Called.accepted = [] :=
    List.filter_eq_nil_iff.mpr fun c hc => by rw [h.declined c hc]; exact Bool.false_ne_true
  unfold State.delivered delivering
  rw [hnone, List.map_nil, List.append_nil]

theorem Inv.pc_idle (h : Inv s) (hidle : Idle s) (i : Nat) : s.base.pc i = .idle := by
  by_contra hne
  exact hne (hidle i (h.base.polling i hne))

theorem Inv.mem_members (h : Inv s) {cq : Cq} {c : Completion} (hc : c ∈ s.base.completions cq) :
    ∃ side, cq ∈ s.base.members side := by
  obtain ⟨op, hop, rfl⟩ := h.base.queue cq c hc
  obtain ⟨hcq, hcomm⟩ := h.base.ops op (List.mem_of_getElem? hop)
  exact ⟨op.post.arrives, hcq ▸ h.base.members op.comm hcomm op.post.arrives⟩

theorem Inv.mem_old (h : Inv s) (hidle : Idle s) {x : Place} (hx : x.Kept) {r : Nat} (hr : r ∈ s.base.held x) :
    ∃ side, ∃ cq ∈ s.base.members side, r ∈ (s.base.completions cq).map recordOf := by
  cases x with
  | queue cq =>
    obtain ⟨c, hc, rfl⟩ := List.mem_map.mp hr
    obtain ⟨side, hcq⟩ := h.mem_members hc
    exact ⟨side, cq, hcq, hr⟩
  | drain i =>
    rw [FabricGrouped.State.held, h.pc_idle hidle i] at hr
    cases hr
  | outstanding | fabric side | hand i | done => exact hx.elim

theorem Inv.fine (h : Inv s) : s.Fine := by
  have hdelivers := h.base.delivers
  refine ⟨h.contexts, ?_, ?_, fun hidle r hr hnot => ?_, hdelivers.fault, hdelivers.owned⟩
  · rw [h.delivered]
    exact hdelivers.once
  · rw [h.delivered, hdelivers.freed]
  · obtain ⟨x, hx⟩ := h.base.placed.total r hr
    cases x with
    | outstanding => exact Or.inl hx
    | fabric side => exact Or.inr ⟨side, Or.inl hx⟩
    | queue cq =>
      obtain ⟨side, hold⟩ := h.mem_old hidle (x := .queue cq) trivial hx
      exact Or.inr ⟨side, Or.inr hold⟩
    | drain i =>
      obtain ⟨side, hold⟩ := h.mem_old hidle (x := .drain i) trivial hx
      exact Or.inr ⟨side, Or.inr hold⟩
    | hand i =>
      rw [FabricGrouped.State.held, h.pc_idle hidle i] at hx
      cases hx
    | done =>
      rw [h.delivered, ← hdelivers.freed] at hnot
      exact absurd hx hnot

theorem Owned.follows {b b' : FabricGrouped.State} {e : FabricGrouped.Event} {r : Nat} (h : FabricGrouped.Inv b)
    (hf : Follows b e b') (hr : ∃ x, Place.Owned x ∧ r ∈ b.held x) : ∃ x, Place.Owned x ∧ r ∈ b'.held x := by
  obtain ⟨z, hz, hmem⟩ := hr
  cases hf with
  | same hsame => exact ⟨z, hz, hsame z ▸ hmem⟩
  | post hnew hother =>
    refine ⟨z, hz, hother z (fun hout => ?_) ▸ hmem⟩
    subst hout
    exact hz.elim id nofun
  | move x y xs hop hm =>
    by_cases hxs : r ∈ xs
    · obtain rfl := h.placed.unique _ _ r hmem (hm.mem_source hxs)
      refine ⟨y, ?_, hm.mem_target hxs⟩
      cases hop with
      | pop i accept side => exact Or.inl trivial
      | swap i accept side => exact Or.inl trivial
      | acceptOld i accept => exact Or.inr rfl
      | _ => exact hz.elim False.elim nofun
    · exact ⟨z, hz, (hm.mem_iff hxs z).mpr hmem⟩

theorem Inv.safe_base (h : Inv s) {e : FabricGrouped.Event} (hsafe : Safe accept s (.other e)) : FabricGrouped.Safe s.base e := by
  cases e with
  | post i p context => exact hsafe
  | run i a =>
    change Released s.base a (s.base.pc i)
    cases hpc : s.base.pc i with
    | popped cb side deferred c =>
      refine Or.inr fun j _ hrel => ?_
      have hj : s.base.pc j ≠ .idle := fun hidle => by
        rw [hidle] at hrel
        cases hrel
      obtain rfl := h.alone i j (by rw [hpc]; exact nofun) hj
      rw [hpc] at hrel
      cases hrel
    | _ => trivial
  | _ => trivial

theorem Inv.other (h : Inv s) {e : FabricGrouped.Event} {b : FabricGrouped.State} (hsafe : Safe accept s (.other e))
    (hbegins : (Event.other e).begins = true → Idle s) (hb : b ∈ FabricGrouped.step s.base e) : Inv (s.setBase b) := by
  obtain ⟨hinv, hfollows⟩ := step_steps h.base (h.safe_base hsafe) hb
  refine ⟨hinv, fun i j hi hj => ?_, fun c hc => ?_, h.declined, fun c hc => Owned.follows h.base hfollows (h.pending c hc)⟩
  · -- a thread that was idle has begun a poll, and then no other was in one
    have hwas : ∀ k, b.pc k ≠ .idle → s.base.pc k ≠ .idle ∨ ∃ cb side, e = .poll k cb side := by
      intro k hk
      by_cases hidle : s.base.pc k = .idle
      · right
        cases step_cases hb with
        | poll k' cb side _ _ =>
          by_cases hkk : k = k'
          · exact ⟨cb, side, by rw [hkk]⟩
          · exact absurd ((Function.update_of_ne hkk _ _).trans hidle) hk
        | run k' a b hadv =>
          by_cases hkk : k = k'
          · subst hkk
            rw [hidle] at hadv
            cases hadv
          · exact absurd (((advance_apart hadv).pc k hkk).trans hidle) hk
        | allocateGroup _ | post _ _ _ _ | complete _ _ _ _ _ _ _ _ _ | interrupted _ => exact absurd hidle hk
      · exact Or.inl hidle
    obtain hi | ⟨cb, side, rfl⟩ := hwas i hi
    · obtain hj | ⟨cb, side, rfl⟩ := hwas j hj
      · exact h.alone i j hi hj
      · exact absurd (h.pc_idle (hbegins rfl) i) hi
    · obtain hj | ⟨cb', side', heq⟩ := hwas j hj
      · exact absurd (h.pc_idle (hbegins rfl) j) hj
      · cases heq
        rfl
  · obtain ⟨op, hop, hcontext⟩ := h.contexts c hc
    exact ⟨op, step_ops hb hop, hcontext⟩

theorem Inv.alive (h : Inv s) (cq : Cq) : Alive s (s.base.completions cq) := by
  intro c hc
  obtain ⟨op, hop, -⟩ := h.base.queue cq c hc
  exact ⟨op, hop, h.base.deref_eq (x := .queue cq) (List.mem_map_of_mem hc) nofun hop⟩

theorem Inv.poll (h : Inv s) {cb : Callback} (hsafe : Safe accept s (.poll cb)) (hidle : Idle s) :
    Inv (poll accept cb s).2 ∧ Exact accept cb s := by
  obtain ⟨hrx, htx, hdefers⟩ := hsafe
  obtain ⟨hzero, calls, hd⟩ := poll_declines hrx htx h.alive hdefers
  have hdrop : (GroupedConnection.poll accept cb s).2.calls.drop s.calls.length = calls := by
    rw [hd.calls, List.drop_left]
  refine ⟨⟨hd.base ▸ h.base, hd.base ▸ h.alone, ?_, ?_, ?_⟩, ?_, fun c hc hnot => ?_⟩
  · rw [hd.base, hd.calls]
    exact fun c hc => (List.mem_append.mp hc).elim (h.contexts c) (hd.contexts c)
  · rw [hd.calls]
    exact fun c hc => (List.mem_append.mp hc).elim (h.declined c) (hd.declined c)
  · rw [hd.base, hd.calls]
    intro c hc
    obtain hc | hc := List.mem_append.mp hc
    · exact h.pending c hc
    · have hold : c.record ∈ s.old.map recordOf := hd.records ▸ List.mem_map_of_mem hc
      obtain ⟨x, hx, hrecord⟩ := List.mem_map.mp hold
      obtain ⟨cq, -, hx⟩ := List.mem_flatMap.mp hx
      exact ⟨.queue cq, Or.inl trivial, hrecord ▸ List.mem_map_of_mem hx⟩
  · have hnone : calls.filter Called.accepted = [] :=
      List.filter_eq_nil_iff.mpr fun c hc => by rw [hd.declined c hc]; exact Bool.false_ne_true
    rw [hzero, hdrop, delivering, hnone]
    rfl
  · obtain ⟨x, hx, hmem⟩ := h.pending c hc
    have hkept : x.Kept := hx.resolve_right fun hdone => by
      subst hdone
      rw [h.delivered, ← h.base.delivers.freed] at hnot
      exact hnot hmem
    obtain ⟨side, cq, hcq, hmem⟩ := h.mem_old hidle hkept hmem
    have hold : c.record ∈ s.old.map recordOf := by
      obtain ⟨y, hy, hrecord⟩ := List.mem_map.mp hmem
      refine List.mem_map.mpr ⟨y, List.mem_flatMap.mpr ⟨cq, ?_, hy⟩, hrecord⟩
      cases side with
      | rx => exact List.mem_append_left _ hcq
      | tx => exact List.mem_append_right _ hcq
    rw [← hd.records] at hold
    obtain ⟨c', hc', hrecord⟩ := List.mem_map.mp hold
    exact ⟨c', hdrop ▸ hc', hrecord⟩

theorem Inv.step (h : Inv s) (hsafe : Safe accept s e) (hs' : s' ∈ step accept s e) :
    Inv s' ∧ ∀ cb, e = .poll cb → Exact accept cb s := by
  change s' ∈ ite _ _ _ at hs'
  split at hs'
  · cases hs'
  · rename_i hbegins
    have hidle : e.begins = true → Idle s := fun hb => by
      by_contra hnot
      exact hbegins ⟨hb, hnot⟩
    cases e with
    | other e =>
      obtain ⟨b, hb, rfl⟩ := Option.map_eq_some_iff.mp hs'
      exact ⟨h.other hsafe hidle hb, nofun⟩
    | poll cb =>
      change s' ∈ ite _ _ _ at hs'
      split at hs'
      · cases hs'
      · obtain ⟨hinv, hexact⟩ := h.poll hsafe (hidle rfl)
        refine ⟨Option.some.inj hs' ▸ hinv, fun cb' heq => ?_⟩
        cases heq
        exact hexact

theorem start_inv : Inv .start :=
  ⟨inv_start, fun _ _ h => absurd rfl h, nofun, nofun, nofun⟩

/-- In every run in which polls of the connection find nothing to deliver, completions are delivered once, with their
contexts and counts. -/
theorem exact_of_safe (accept : Nat → Bool) (es : List Event) (hsafe : Throughout (step accept) (Safe accept) .start es) :
    Throughout (step accept) (Holds accept) .start es :=
  hsafe.imp (I := Inv) (fun _ _ h hs _ hs' => ⟨(h.step hs hs').1.fine, (h.step hs hs').2⟩)
    (fun _ _ _ h hs hs' => (h.step hs hs').1) start_inv

/-- Communicator 0 posts a receive with context 7, and it completes. -/
def received (status : Status) : List Event :=
  [.other (.allocateGroup 0), .other (.post 0 .recvVec 7), .other (.complete 0 status 0 4 0 0)]

theorem exact_deferred : Throughout (step fun _ => false) (Holds fun _ => false) .start
    (received .ok ++ [.other (.poll 0 .completeTentative .rx), .other (.run 0 false), .other (.run 0 false),
      .other (.run 0 false), .other (.run 0 false), .other (.run 0 false), .other (.run 0 false), .other (.run 0 false),
      .other (.run 0 false), .poll .completeTentative, .poll .completeTentative]) :=
  exact_of_safe _ _ (by decide +kernel)

/-- The poll of the connection delivers the completion and releases the record, which is never deleted. -/
theorem not_exact : ¬ Throughout (step fun _ => true) (Holds fun _ => true) .start
    (received .ok ++ [.poll .completeDefinite]) := by
  intro h
  have hfine := h.nth 3 (Option.get_mem (by decide +kernel)) rfl _ (Option.get_mem (by decide +kernel))
  exact absurd hfine.1.freed (by decide +kernel)

end Invariant

end Comanche.Net.GroupedConnection
