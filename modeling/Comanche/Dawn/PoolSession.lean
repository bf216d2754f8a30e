import Comanche.Dawn.PoolManager

/-!
# Accounting of the pool handles

A session beside the handles that the store has open for it.
-/

namespace Comanche.Dawn

open Function (update update_eq_self update_of_ne update_self)

structure PoolSession where
  manager : PoolManager
  /-- The handles that the store has open for the session, and their pools. -/
  held : Nat → Option String
  /-- The handle that the store has given out last for a pool. -/
  given : String → Option Nat
  replied : Nat → Nat
  closed : Nat → Nat

namespace PoolSession

def fresh : PoolSession := ⟨.empty, fun _ => none, fun _ => none, fun _ => 0, fun _ => 0⟩

def count (s : PoolSession) (r : PoolResponse) : Nat → Nat :=
  if r.status = sOk then update s.replied r.poolId (s.replied r.poolId + 1) else s.replied

/-- The store has answered with the handle `pool`. -/
def give (s : PoolSession) (name : String) (pool : Nat) : PoolSession :=
  if pool = poolError then s
  else { s with held := update s.held pool (some name), given := update s.given name (some pool) }

/-- The store and the history after a request with this outcome. -/
def after (s : PoolSession) (o : PoolOutcome) : PoolRequest → PoolSession
  | .create name pool =>
    { if .createPool name ∈ o.calls then s.give name pool else s with
      manager := o.manager
      replied := s.count o.response }
  | .open name pool =>
    { if .openPool name ∈ o.calls then s.give name pool else s with
      manager := o.manager
      replied := s.count o.response }
  | .close pool _ =>
    { s with
      manager := o.manager
      held := if .closePool pool ∈ o.calls then update s.held pool none else s.held
      closed := update s.closed pool (s.closed pool + 1) }
  | .delete _ _ => { s with manager := o.manager }

def next (s : PoolSession) (req : PoolRequest) : Except PoolExc PoolSession := do
  let o ← processMessagePoolRequest s.manager req
  return s.after o req

def Allowed (s : PoolSession) : PoolRequest → Prop
  | .create _ pool | .open _ pool => pool = poolError ∨ s.held pool = none
  | _ => True

/-- A successful reply to a create or an open carries a handle that the store has open for the pool; a handle is
closed with as many close requests as it had replies; and a delete reaches the store if no handle for the pool is
open. -/
def Outcome (s : PoolSession) (o : PoolOutcome) : PoolRequest → Prop
  | .create name pool =>
    o.response.status = sOk → (s.after o (.create name pool)).held o.response.poolId = some name
  | .open name pool =>
    o.response.status = sOk → (s.after o (.open name pool)).held o.response.poolId = some name
  | .close pool _ => .closePool pool ∈ o.calls ↔ s.closed pool + 1 = s.replied pool
  | .delete name _ => .deletePool name ∈ o.calls ↔ ∀ pool, s.held pool ≠ some name

/-- The request does what it has to. An exception ends the session; it may only come from a close request
for which no close of the store is due. -/
def Accounts (s : PoolSession) (req : PoolRequest) : Prop :=
  match processMessagePoolRequest s.manager req with
  | .ok o => s.Outcome o req
  | .error _ => ∃ pool status, req = .close pool status ∧ s.closed pool + 1 ≠ s.replied pool

/-- A create is not refused, and the handle that was given out last for its pool is not open; the one for the pool of an
open or a delete has not been given out for another pool since it was closed; the references of a handle to close are
not one more than a multiple of their range. -/
def Regular (s : PoolSession) : PoolRequest → Prop
  | .create name pool => (∀ h ∈ s.given name, s.held h = none) ∧ pool ≠ poolError
  | .open name _ | .delete name _ => ∀ h ∈ s.given name, ∀ other ∈ s.held h, other = name
  | .close pool _ =>
    s.closed pool + 1 < s.replied pool → (s.replied pool - s.closed pool - 1) % 2 ^ 32 ≠ 0

instance Allowed.decidable (s : PoolSession) : (req : PoolRequest) → Decidable (s.Allowed req)
  | .create _ _ | .open _ _ => inferInstanceAs (Decidable (_ ∨ _))
  | .close _ _ | .delete _ _ => isTrue trivial

instance Regular.decidable (s : PoolSession) (req : PoolRequest) : Decidable (s.Regular req) := by
  unfold PoolSession.Regular
  split <;> infer_instance

def Balanced (refs : Option Nat) (held : Option String) (replied closed : Nat) : Prop :=
  match refs, held with
  | none, none => closed = replied
  | some n, some _ => closed < replied ∧ n = (replied - closed) % 2 ^ 32
  | _, _ => False

structure Sound (s : PoolSession) : Prop where
  names : s.manager.nameMap = s.given
  balanced : ∀ pool, Balanced (s.manager.openPools pool) (s.held pool) (s.replied pool) (s.closed pool)
  name : ∀ pool name, s.held pool = some name → s.given name = some pool
  error : s.held poolError = none

theorem fresh_sound : fresh.Sound :=
  ⟨rfl, fun _ => rfl, fun _ _ h => (by cases h), rfl⟩

variable {s : PoolSession} {name : String} {pool n : Nat} {status : Status}

theorem Sound.balanced_update (hs : s.Sound) (pool : Nat) {refs : Option Nat} {held : Option String} {replied closed : Nat}
    (hpool : Balanced refs held replied closed) (p : Nat) :
    Balanced (update s.manager.openPools pool refs p) (update s.held pool held p)
      (update s.replied pool replied p) (update s.closed pool closed p) := by
  by_cases hp : p = pool
  · subst hp
    simpa only [update_self] using hpool
  · simpa only [update_of_ne hp] using hs.balanced p

theorem Sound.openPools_eq_none (hs : s.Sound) (hheld : s.held pool = none) :
    s.manager.openPools pool = none ∧ s.closed pool = s.replied pool := by
  have hbalanced := hs.balanced pool
  rw [hheld] at hbalanced
  cases hrefs : s.manager.openPools pool with
  | none =>
    rw [hrefs] at hbalanced
    exact ⟨rfl, hbalanced⟩
  | some n =>
    rw [hrefs] at hbalanced
    exact hbalanced.elim

theorem Sound.held_of_open (hs : s.Sound) (hn : s.manager.openPools pool = some n) :
    ∃ name, s.held pool = some name ∧ s.closed pool < s.replied pool ∧ n = (s.replied pool - s.closed pool) % 2 ^ 32 := by
  have hbalanced := hs.balanced pool
  rw [hn] at hbalanced
  cases hheld : s.held pool with
  | none =>
    rw [hheld] at hbalanced
    exact hbalanced.elim
  | some name =>
    rw [hheld] at hbalanced
    exact ⟨name, rfl, hbalanced⟩

theorem check_eq_some (hcheck : s.manager.checkForOpenPool name = some pool) :
    ∃ n, s.manager.openPools pool = some n := by
  unfold PoolManager.checkForOpenPool at hcheck
  split at hcheck
  case h_1 => cases hcheck
  case h_2 =>
    split at hcheck
    case isTrue hopen =>
      cases hcheck
      exact Option.isSome_iff_exists.mp hopen
    case isFalse => cases hcheck

/-- `check_for_open_pool` finds the handle that was given out last for the pool, if it is open: for whatever pool. -/
theorem Sound.check_iff (hs : s.Sound) : s.manager.checkForOpenPool name = some pool ↔
    s.given name = some pool ∧ s.held pool ≠ none := by
  have hopen : (s.manager.openPools pool).isSome ↔ s.held pool ≠ none := by
    refine ⟨fun h => ?_, fun h => ?_⟩
    · obtain ⟨n, hn⟩ := Option.isSome_iff_exists.mp h
      obtain ⟨m, hm, -⟩ := hs.held_of_open hn
      simp [hm]
    · by_contra hnone
      have hbalanced := hs.balanced pool
      rw [Option.not_isSome_iff_eq_none.mp hnone] at hbalanced
      cases hheld : s.held pool with
      | none => exact h hheld
      | some m =>
        rw [hheld] at hbalanced
        exact hbalanced
  unfold PoolManager.checkForOpenPool
  rw [hs.names]
  cases hgiven : s.given name with
  | none => simp
  | some h =>
    by_cases hh : h = pool
    · subst hh
      simp only [Option.ite_none_right_eq_some, and_true, hopen, true_and]
    · simp [hh]

theorem Sound.check_of_held (hs : s.Sound) (hheld : s.held pool = some name) :
    s.manager.checkForOpenPool name = some pool :=
  hs.check_iff.mpr ⟨hs.name pool name hheld, by simp [hheld]⟩

theorem Sound.regular_create (hs : s.Sound) :
    s.Regular (.create name pool) ↔ s.manager.checkForOpenPool name = none ∧ pool ≠ poolError := by
  refine and_congr_left fun _ => ?_
  simp only [Option.eq_none_iff_forall_ne_some (o := s.manager.checkForOpenPool name), ne_eq, hs.check_iff, not_and,
    not_not, Option.mem_def]

theorem Sound.regular_named (hs : s.Sound) : (∀ h ∈ s.given name, ∀ other ∈ s.held h, other = name) ↔
    ∀ h ∈ s.manager.checkForOpenPool name, s.held h = some name := by
  refine ⟨fun h p hp => ?_, fun h p hp other hother => ?_⟩
  · obtain ⟨hgiven, hheld⟩ := hs.check_iff.mp hp
    obtain ⟨other, hother⟩ := Option.ne_none_iff_exists'.mp hheld
    rw [hother, h p hgiven other hother]
  · have hheld := h p (hs.check_iff.mpr ⟨hp, by simp [Option.mem_def.mp hother]⟩)
    exact Option.some.inj (hother.symm.trans hheld)

theorem Sound.register (hs : s.Sound) (hpool : pool ≠ poolError) (hfree : s.held pool = none)
    (hcheck : s.manager.checkForOpenPool name = none) :
    Sound { s with
      manager := ⟨update s.manager.openPools pool (some 1), update s.manager.nameMap name (some pool)⟩
      held := update s.held pool (some name)
      given := update s.given name (some pool)
      replied := update s.replied pool (s.replied pool + 1) } := by
  have hbalanced : Balanced (some 1) (some name) (s.replied pool + 1) (s.closed pool) := by
    rw [(hs.openPools_eq_none hfree).2]
    exact ⟨by omega, by rw [Nat.add_sub_cancel_left]; rfl⟩
  refine ⟨by rw [hs.names], fun p => ?_, fun p m hm => ?_, ?_⟩
  · simpa only [update_eq_self] using hs.balanced_update pool hbalanced p
  · by_cases hp : p = pool
    · subst hp
      obtain rfl : name = m := by simpa using hm
      exact update_self ..
    · simp only [update_of_ne hp] at hm
      -- the name of a handle that is held is not the one that is registered
      have hne : m ≠ name := by
        rintro rfl
        rw [hs.check_of_held hm] at hcheck
        cases hcheck
      simp only [update_of_ne hne]
      exact hs.name p m hm
  · simp only [update_of_ne hpool.symm]
    exact hs.error

theorem Sound.add (hs : s.Sound) (hn : s.manager.openPools pool = some n) :
    Sound { s with
      manager := { s.manager with
        openPools := update s.manager.openPools pool (some ((n + 1) % 2 ^ 32)) }
      replied := update s.replied pool (s.replied pool + 1) } := by
  obtain ⟨name, hheld, hlt, hcount⟩ := hs.held_of_open hn
  have hbalanced : Balanced (some ((n + 1) % 2 ^ 32)) (s.held pool) (s.replied pool + 1) (s.closed pool) := by
    rw [hheld]
    exact ⟨by omega, by omega⟩
  refine ⟨hs.names, fun p => ?_, hs.name, hs.error⟩
  simpa only [update_eq_self] using hs.balanced_update pool hbalanced p

theorem Sound.release (hs : s.Sound) (hn : s.manager.openPools pool = some n)
    (hmore : s.closed pool + 1 < s.replied pool) :
    Sound { s with
      manager := { s.manager with
        openPools := update s.manager.openPools pool (some ((n + (2 ^ 32 - 1)) % 2 ^ 32)) }
      closed := update s.closed pool (s.closed pool + 1) } := by
  obtain ⟨name, hheld, hlt, hcount⟩ := hs.held_of_open hn
  have hbalanced : Balanced (some ((n + (2 ^ 32 - 1)) % 2 ^ 32)) (s.held pool) (s.replied pool) (s.closed pool + 1) := by
    rw [hheld]
    exact ⟨hmore, by omega⟩
  refine ⟨hs.names, fun p => ?_, hs.name, hs.error⟩
  simpa only [update_eq_self] using hs.balanced_update pool hbalanced p

theorem Sound.close (hs : s.Sound) (hlast : s.closed pool + 1 = s.replied pool) :
    Sound { s with
      manager := { s.manager with openPools := update s.manager.openPools pool none }
      held := update s.held pool none
      closed := update s.closed pool (s.closed pool + 1) } := by
  have hbalanced : Balanced none none (s.replied pool) (s.closed pool + 1) := hlast
  refine ⟨hs.names, fun p => ?_, fun p m hm => ?_, ?_⟩
  · simpa only [update_eq_self] using hs.balanced_update pool hbalanced p
  · by_cases hp : p = pool
    · subst hp
      simp at hm
    · simp only [update_of_ne hp] at hm
      exact hs.name p m hm
  · by_cases hp : poolError = pool
    · rw [hp]
      exact update_self ..
    · simp only [update_of_ne hp]
      exact hs.error

/-- The request does what it has to exactly if it is regular, and then the accounts stay sound. -/
def Steps (s : PoolSession) (req : PoolRequest) : Prop :=
  match processMessagePoolRequest s.manager req with
  | .ok o => (s.Outcome o req ↔ s.Regular req) ∧ (s.Regular req → (s.after o req).Sound)
  | .error _ => (∃ pool status, req = .close pool status ∧ s.closed pool + 1 ≠ s.replied pool) ↔ s.Regular req

theorem Steps.request {req : PoolRequest} (h : s.Steps req) :
    (s.Accounts req ↔ s.Regular req) ∧ ∀ s', s.Regular req → s.next req = .ok s' → s'.Sound := by
  unfold Steps at h
  unfold Accounts next
  cases ho : processMessagePoolRequest s.manager req with
  | error e =>
    rw [ho] at h
    exact ⟨h, fun _ _ hnext => nomatch hnext⟩
  | ok o =>
    rw [ho] at h
    exact ⟨h.1, fun s' hregular hnext => Except.ok.inj hnext ▸ h.2 hregular⟩

theorem steps_of_ok {req : PoolRequest} {o : PoolOutcome} (ho : processMessagePoolRequest s.manager req = .ok o)
    (hiff : s.Outcome o req ↔ s.Regular req) (hsound : s.Regular req → (s.after o req).Sound) : s.Steps req := by
  unfold Steps
  rw [ho]
  exact ⟨hiff, hsound⟩

theorem addReference_eq (hn : s.manager.openPools pool = some n) :
    s.manager.addReference pool = .ok { s.manager with
      openPools := update s.manager.openPools pool (some ((n + 1) % 2 ^ 32)) } := by
  unfold PoolManager.addReference
  rw [hn]

theorem registerPool_eq (hn : s.manager.openPools pool = none) (name : String) : s.manager.registerPool name pool =
      .ok ⟨update s.manager.openPools pool (some 1), update s.manager.nameMap name (some pool)⟩ := by
  unfold PoolManager.registerPool
  rw [hn]
  rfl

section

variable (hs : s.Sound)
include hs

theorem Sound.create (hallowed : pool = poolError ∨ s.held pool = none) : s.Steps (.create name pool) := by
  cases hcheck : s.manager.checkForOpenPool name with
  | some p =>
    obtain ⟨n, hn⟩ := check_eq_some hcheck
    have hnot : ¬ s.Regular (.create name pool) := fun h =>
      Option.some_ne_none p (hcheck.symm.trans (hs.regular_create.mp h).1)
    refine steps_of_ok (by simp only [processMessagePoolRequest, hcheck, addReference_eq hn]; rfl)
      (iff_of_false (fun h => ?_) hnot) fun h => absurd h hnot
    -- the answer is the handle zero
    exact Option.some_ne_none name ((h rfl).symm.trans hs.error)
  | none =>
    by_cases hpool : pool = poolError
    · subst hpool
      refine steps_of_ok (by simp only [processMessagePoolRequest, hcheck]; rfl)
        (iff_of_false (fun h => ?_) fun h => h.2 rfl) fun h => absurd rfl h.2
      have hheld : s.held 0 = some name := by simpa [after, give] using h rfl
      exact Option.some_ne_none name (hheld.symm.trans hs.error)
    · have hfree := hallowed.resolve_left hpool
      refine steps_of_ok (by
        simp only [processMessagePoolRequest, hcheck, if_neg hpool, registerPool_eq (hs.openPools_eq_none hfree).1]
        rfl) (iff_of_true (fun _ => ?_) (hs.regular_create.mpr ⟨hcheck, hpool⟩)) fun _ => ?_
      · simp [after, give, hpool]
      · simpa [after, give, hpool, count] using hs.register hpool hfree hcheck

theorem Sound.open (hallowed : pool = poolError ∨ s.held pool = none) : s.Steps (.open name pool) := by
  cases hcheck : s.manager.checkForOpenPool name with
  | some p =>
    obtain ⟨n, hn⟩ := check_eq_some hcheck
    refine steps_of_ok (by simp only [processMessagePoolRequest, hcheck, addReference_eq hn]; rfl) ?_ fun _ => ?_
    · rw [Regular, hs.regular_named]
      simp [Outcome, after, hcheck]
    · simpa [after, count] using hs.add hn
  | none =>
    have hregular : s.Regular (.open name pool) := hs.regular_named.mpr (by simp [hcheck])
    by_cases hpool : pool = poolError
    · refine steps_of_ok (by simp only [processMessagePoolRequest, hcheck, if_pos hpool]; rfl)
        (iff_of_true (fun hok => absurd hok (show eInval ≠ sOk by decide)) hregular) fun _ => ?_
      simpa [after, give, hpool, count, eInval, sOk] using hs
    · have hfree := hallowed.resolve_left hpool
      refine steps_of_ok (by
        simp only [processMessagePoolRequest, hcheck, if_neg hpool, registerPool_eq (hs.openPools_eq_none hfree).1]
        rfl) (iff_of_true (fun _ => ?_) hregular) fun _ => ?_
      · simp [after, give, hpool]
      · simpa [after, give, hpool, count] using hs.register hpool hfree hcheck

theorem Sound.close_request : s.Steps (.close pool status) := by
  cases hn : s.manager.openPools pool with
  | none =>
    have heven : s.closed pool = s.replied pool := by
      have hbalanced := hs.balanced pool
      rw [hn] at hbalanced
      cases hheld : s.held pool with
      | none =>
        rw [hheld] at hbalanced
        exact hbalanced
      | some name =>
        rw [hheld] at hbalanced
        exact hbalanced.elim
    simp only [Steps, processMessagePoolRequest, PoolManager.releasePoolReference, hn]
    exact iff_of_true ⟨pool, status, rfl, by omega⟩ fun hlt => absurd hlt (by omega)
  | some n =>
    obtain ⟨name, hheld, hlt, hcount⟩ := hs.held_of_open hn
    have hdown : (n + (2 ^ 32 - 1)) % 2 ^ 32 = (s.replied pool - s.closed pool - 1) % 2 ^ 32 := by omega
    by_cases hzero : (n + (2 ^ 32 - 1)) % 2 ^ 32 = 0
    · have hiff : s.Regular (.close pool status) ↔ s.closed pool + 1 = s.replied pool := by
        simp only [Regular]
        rw [← hdown, hzero]
        exact ⟨fun h => by_contra fun hne => h (by omega) rfl, fun h hlt => absurd hlt (by omega)⟩
      refine steps_of_ok (by
        simp only [processMessagePoolRequest, PoolManager.releasePoolReference, hn, if_pos hzero]
        rfl) ?_ fun hregular => ?_
      · rw [hiff]
        simp [Outcome]
      · simpa [after] using hs.close (hiff.mp hregular)
    · -- a counter that does not reach zero leaves references
      have hmore : s.closed pool + 1 < s.replied pool := by omega
      refine steps_of_ok (by
        simp only [processMessagePoolRequest, PoolManager.releasePoolReference, hn, if_neg hzero]
        rfl) (iff_of_true ?_ fun _ => by rwa [← hdown]) fun _ => ?_
      · simpa [Outcome] using hmore.ne
      · simpa [after] using hs.release hn hmore

theorem Sound.delete (name : String) (status : Status) : s.Steps (.delete name status) := by
  cases hcheck : s.manager.checkForOpenPool name with
  | none =>
    refine steps_of_ok (by simp only [processMessagePoolRequest, hcheck]; rfl)
      (iff_of_true (iff_of_true List.mem_cons_self fun pool hheld => ?_) (hs.regular_named.mpr (by simp [hcheck]))) fun _ => ?_
    · rw [hs.check_of_held hheld] at hcheck
      cases hcheck
    · exact hs
  | some pool =>
    refine steps_of_ok (by simp only [processMessagePoolRequest, hcheck]; rfl) ?_ fun _ => ?_
    · rw [Regular, hs.regular_named]
      simp only [Outcome, hcheck, List.not_mem_nil, false_iff, not_forall, not_not, Option.mem_some_iff, forall_eq']
      refine ⟨?_, fun hp => ⟨pool, hp⟩⟩
      rintro ⟨p, hp⟩
      obtain rfl := Option.some.inj (hcheck.symm.trans (hs.check_of_held hp))
      exact hp
    · exact hs

theorem Sound.request {req : PoolRequest} (hallowed : s.Allowed req) : s.Steps req := by
  cases req with
  | create name pool => exact hs.create hallowed
  | «open» name pool => exact hs.open hallowed
  | close pool status => exact hs.close_request
  | delete name status => exact hs.delete name status

end

def AllRequests (P : PoolSession → PoolRequest → Prop) : PoolSession → List PoolRequest → Prop
  | _, [] => True
  | s, req :: reqs => P s req ∧ match s.next req with
    | .ok s' => AllRequests P s' reqs
    | .error _ => True

instance AllRequests.decidable {P : PoolSession → PoolRequest → Prop} [hP : ∀ s req, Decidable (P s req)] :
    (s : PoolSession) → (reqs : List PoolRequest) → Decidable (AllRequests P s reqs)
  | _, [] => isTrue trivial
  | s, req :: reqs =>
    have : Decidable (match s.next req with
        | .ok s' => AllRequests P s' reqs
        | .error _ => True) :=
      match s.next req with
      | .ok s' => AllRequests.decidable s' reqs
      | .error _ => isTrue trivial
    inferInstanceAs (Decidable (_ ∧ _))

theorem Sound.run_iff (hs : s.Sound) {reqs : List PoolRequest} (hallowed : AllRequests Allowed s reqs) :
    AllRequests Accounts s reqs ↔ AllRequests Regular s reqs := by
  induction reqs generalizing s with
  | nil => exact Iff.rfl
  | cons req reqs ih =>
    obtain ⟨hreq, htail⟩ := hallowed
    obtain ⟨hiff, hsound⟩ := (hs.request hreq).request
    unfold AllRequests
    rw [hiff]
    refine and_congr_right fun hregular => ?_
    cases hnext : s.next req with
    | error e => exact Iff.rfl
    | ok s' =>
      rw [hnext] at htail
      exact ih (hsound s' hregular hnext) htail

end PoolSession

/-- Over a store that gives out only handles that are not open, handles are accounted exactly if every request is
regular. -/
theorem pools_accounted_iff (reqs : List PoolRequest)
    (hallowed : PoolSession.AllRequests PoolSession.Allowed .fresh reqs) :
    PoolSession.AllRequests PoolSession.Accounts .fresh reqs ↔
      PoolSession.AllRequests PoolSession.Regular .fresh reqs :=
  PoolSession.fresh_sound.run_iff hallowed

theorem pools_accounted_reuse : PoolSession.AllRequests PoolSession.Accounts .fresh
      [.create "a" 1, .open "a" 0, .close 1 0, .delete "a" 0, .close 1 0, .delete "a" 0, .open "b" 1] :=
  (pools_accounted_iff _ (by decide +kernel)).mpr (by decide +kernel)

/-- The handle of a pool that is closed is given out for another one: an open of the first pool answers
with the handle of the second. -/
theorem not_pools_accounted_stale : ¬ PoolSession.AllRequests PoolSession.Accounts .fresh
      [.create "a" 1, .close 1 0, .create "b" 1, .open "a" 0] := by
  rw [PoolSession.fresh_sound.run_iff (by decide +kernel)]
  decide +kernel

end Comanche.Dawn
