import Comanche.Lib.Trace
import Comanche.Net.FabricGrouped

/-!
# Progress of grouped communicators

A completion goes from the connection to its owner in stages.
-/

namespace Comanche.Net.FabricGrouped

open Lib

inductive Turn (s : State) (i : Nat) (accept : Bool) : Pc → Pc → Prop
  | drained {cb : Callback} {side : Side} {deferred : List Completion} (h : s.completions ⟨i, side⟩ = []) :
    Turn s i accept (.draining cb side deferred) (if tentative cb then .idle else .reading cb side)
  | pop {cb : Callback} {side : Side} {deferred cs : List Completion} {c : Completion}
    (h : s.completions ⟨i, side⟩ = c :: cs) :
    Turn s i accept (.draining cb side deferred) (.popped cb side deferred c)
  | declineOld {cb : Callback} {side : Side} {deferred : List Completion} {c : Completion} (h : Defers cb accept) :
    Turn s i accept (.popped cb side deferred c) (.draining cb side (deferred ++ [c]))
  | acceptOld {cb : Callback} {side : Side} {deferred : List Completion} {c : Completion} :
    Turn s i accept (.popped cb side deferred c) (.draining cb side deferred)
  | again {cb : Callback} {side : Side} (h : s.fabric side = []) :
    Turn s i accept (.reading cb side) (if tentative cb then .draining cb side [] else .idle)
  | error {cb : Callback} {side : Side} {c : Completion} {cs : List Completion} (h : s.fabric side = c :: cs) :
    Turn s i accept (.reading cb side) (.failed cb side)
  | read {cb : Callback} {side : Side} {c : Completion} {cs : List Completion} (h : s.fabric side = c :: cs) :
    Turn s i accept (.reading cb side) (.got cb side c)
  | throw {cb : Callback} {side : Side} : Turn s i accept (.failed cb side) .idle
  | readError {cb : Callback} {side : Side} {c : Completion} : Turn s i accept (.failed cb side) (.got cb side c)
  | accept {cb : Callback} {side : Side} {c : Completion} : Turn s i accept (.got cb side c) (.reading cb side)
  | queueing {cb : Callback} {side : Side} {c : Completion} :
    Turn s i accept (.got cb side c) (.queueing cb side c)
  | queue {cb : Callback} {side : Side} {c : Completion} :
    Turn s i accept (.queueing cb side c) (if tentative cb then .handed cb side c else .reading cb side)
  | release {cb : Callback} {side : Side} {c : Completion} : Turn s i accept (.handed cb side c) (.reading cb side)

section Turns

variable {s s' : State} {i : Nat} {p : Pc} {accept : Bool} {e : Event}

theorem corrupt_absurd (h : Inv s.corrupt) : False := Bool.noConfusion h.delivers.fault

variable {cb : Callback} {side : Side} {deferred : List Completion} {c : Completion} {record : Option Record}

theorem drainOldCompletions_turn {l : List Completion} (hl : s.completions ⟨i, side⟩ = l) :
    Turn s i accept (.draining cb side deferred) ((drainOldCompletions i cb side deferred s l).pc i) := by
  cases l with
  | nil =>
    rw [drainOldCompletions, pc_setPc]
    exact .drained hl
  | cons c cs =>
    rw [drainOldCompletions, pc_setPc]
    exact .pop hl

theorem offerOld_turn (h' : Inv (offerOld i cb side deferred c accept s record)) :
    Turn s i accept (.popped cb side deferred c) ((offerOld i cb side deferred c accept s record).pc i) := by
  cases record with
  | none => exact (corrupt_absurd h').elim
  | some record =>
    by_cases hdefers : Defers cb accept
    · rw [offerOld, if_pos hdefers, pc_setPc]
      exact .declineOld hdefers
    · rw [offerOld, if_neg hdefers, pc_setPc]
      exact .acceptOld

theorem cqRead_turn {l : List Completion} (hl : s.fabric side = l) :
    Turn s i accept (.reading cb side) ((cqRead i cb side s l).pc i) := by
  cases l with
  | nil =>
    rw [cqRead, pc_setPc]
    exact .again hl
  | cons c cs =>
    by_cases hfail : c.status = .fail
    · rw [cqRead, if_pos hfail, pc_setPc]
      exact .error hl
    · rw [cqRead, if_neg hfail, pc_setPc]
      exact .read hl

theorem getCqCompErr_turn (l : List Completion) :
    Turn s i accept (.failed cb side) ((getCqCompErr i cb side s l).pc i) := by
  cases l with
  | nil =>
    rw [getCqCompErr, pc_setPc]
    exact .throw
  | cons c cs =>
    by_cases hfail : c.status = .fail
    · rw [getCqCompErr, if_pos hfail, pc_setPc]
      exact .readError
    · rw [getCqCompErr, if_neg hfail, pc_setPc]
      exact .throw

theorem processOrQueueCompletion_turn (h' : Inv (processOrQueueCompletion i cb side c accept s record)) :
    Turn s i accept (.got cb side c) ((processOrQueueCompletion i cb side c accept s record).pc i) := by
  cases record with
  | none => exact (corrupt_absurd h').elim
  | some record =>
    by_cases hcq : record.cq = ⟨i, side⟩
    · by_cases hdefers : Defers cb accept
      · rw [processOrQueueCompletion, if_pos hcq, if_pos hdefers, pc_setPc]
        exact .queueing
      · rw [processOrQueueCompletion, if_pos hcq, if_neg hdefers, pc_setPc]
        exact .accept
    · rw [processOrQueueCompletion, if_neg hcq, pc_setPc]
      exact .queueing

theorem queueCompletion_turn (h' : Inv (queueCompletion i cb side c s record)) :
    Turn s i accept (.queueing cb side c) ((queueCompletion i cb side c s record).pc i) := by
  cases record with
  | none => exact (corrupt_absurd h').elim
  | some record =>
    by_cases hmember : record.cq ∈ s.members side
    · rw [queueCompletion, if_pos hmember, pc_setPc]
      exact .queue
    · -- no owner was found, which the invariant excludes
      rw [queueCompletion, if_neg hmember] at h'
      have hlost : s.lost ++ [recordOf c] = [] := h'.delivers.owned
      exact absurd hlost (List.append_ne_nil_of_right_ne_nil _ (List.cons_ne_nil _ _))

theorem redirected_turn (h' : Inv (redirected i cb side s record)) :
    Turn s i accept (.handed cb side c) ((redirected i cb side s record).pc i) := by
  cases record with
  | none => exact (corrupt_absurd h').elim
  | some record =>
    rw [redirected, pc_setPc]
    exact .release

theorem advance_turn (h' : Inv s') (hs' : advance i accept s p = some s') : Turn s i accept p (s'.pc i) := by
  cases p with
  | idle => cases hs'
  | draining cb side deferred =>
    cases hs'
    exact drainOldCompletions_turn rfl
  | popped cb side deferred c =>
    cases hs'
    exact offerOld_turn h'
  | reading cb side =>
    cases hs'
    exact cqRead_turn rfl
  | failed cb side =>
    cases hs'
    exact getCqCompErr_turn _
  | got cb side c =>
    cases hs'
    exact processOrQueueCompletion_turn h'
  | queueing cb side c =>
    cases hs'
    exact queueCompletion_turn h'
  | handed cb side c =>
    cases hs'
    exact redirected_turn h'

structure Apart (i : Nat) (s s' : State) : Prop where
  ops : s'.ops = s.ops
  pc : ∀ j, j ≠ i → s'.pc j = s.pc j

theorem apart_corrupt (s : State) : Apart i s s.corrupt := ⟨rfl, fun _ _ => rfl⟩

theorem advance_apart (hs' : advance i accept s p = some s') : Apart i s s' := by
  have hset (s : State) (p : Pc) (j : Nat) (hj : j ≠ i) : (s.setPc i p).pc j = s.pc j := Function.update_of_ne hj _ _
  cases p with
  | idle => cases hs'
  | draining cb side deferred =>
    cases hs'
    cases s.completions ⟨i, side⟩ <;> exact ⟨rfl, hset _ _⟩
  | popped cb side deferred c =>
    cases hs'
    cases s.deref (recordOf c) with
    | none => exact apart_corrupt s
    | some record => rw [offerOld]; split <;> exact ⟨rfl, hset _ _⟩
  | reading cb side =>
    cases hs'
    cases s.fabric side with
    | nil => exact ⟨rfl, hset _ _⟩
    | cons c cs => rw [cqRead]; split <;> exact ⟨rfl, hset _ _⟩
  | failed cb side =>
    cases hs'
    cases s.fabric side with
    | nil => exact ⟨rfl, hset _ _⟩
    | cons c cs => rw [getCqCompErr]; split <;> exact ⟨rfl, hset _ _⟩
  | got cb side c =>
    cases hs'
    cases s.deref (recordOf c) with
    | none => exact apart_corrupt s
    | some record => rw [processOrQueueCompletion]; split_ifs <;> exact ⟨rfl, hset _ _⟩
  | queueing cb side c =>
    cases hs'
    cases s.deref (recordOf c) with
    | none => exact apart_corrupt s
    | some record => rw [queueCompletion]; split <;> exact ⟨rfl, hset _ _⟩
  | handed cb side c =>
    cases hs'
    cases s.deref (recordOf c) with
    | none => exact apart_corrupt s
    | some record => exact ⟨rfl, hset _ _⟩

inductive PcStep (s : State) (i : Nat) (e : Event) (p : Pc) : Prop
  | stay (he : ∀ accept, e ≠ .run i accept) (hp : p = s.pc i)
  | start (hidle : s.pc i = .idle) (cb : Callback) (side : Side) (hp : p = startOf cb side)
  | turn (accept : Bool) (he : e = .run i accept) (h : Turn s i accept (s.pc i) p)

theorem PcStep.turn_of {accept : Bool} {p q : Pc} (h : PcStep s i e p) (he : e = .run i accept) (hpc : s.pc i = q)
    (hq : q ≠ .idle) : ∃ accept, Turn s i accept q p := by
  cases h with
  | stay hstay _ => exact absurd he (hstay accept)
  | start hidle _ _ _ => exact absurd (hpc.symm.trans hidle) hq
  | turn accept _ hturn => exact ⟨accept, hpc ▸ hturn⟩

theorem step_pc (h' : Inv s') (hs' : s' ∈ step s e) (i : Nat) : PcStep s i e (s'.pc i) := by
  cases step_cases hs' with
  | poll j cb side _ hidle =>
    by_cases hij : i = j
    · subst hij
      exact .start hidle cb side (pc_setPc _ _ _)
    · exact .stay nofun (Function.update_of_ne hij _ _)
  | run j accept s' hs' =>
    by_cases hij : i = j
    · subst hij
      exact .turn accept rfl (advance_turn h' hs')
    · refine .stay (fun accept' he => ?_) ((advance_apart hs').pc i hij)
      cases he
      exact hij rfl
  | _ => exact .stay nofun rfl

variable {r : Nat} {x : Place} {op : Op}

theorem step_ops (hs' : s' ∈ step s e) (hop : op ∈ s.ops[r]?) : op ∈ s'.ops[r]? := by
  cases step_cases hs' with
  | post i p context _ =>
    exact (List.getElem?_append_left (List.getElem?_eq_some_iff.mp hop).1).trans hop
  | run i accept s' hs' => exact (advance_apart hs').ops ▸ hop
  | _ => exact hop

def Place.stage : Place → Nat
  | .outstanding => 0
  | .fabric _ => 1
  | .hand _ => 2
  | .queue _ | .drain _ => 3
  | .done => 4

theorem Hop.stage_le {y : Place} (h : Hop e x y) : x.stage ≤ y.stage := by
  cases h <;> simp [Place.stage]

theorem Follows.place (hf : Follows s e s') (hplaced : Placed (· < s.ops.length) s.held) (hr : r ∈ s.held x) :
    r ∈ s'.held x ∨ ∃ y, Hop e x y ∧ r ∈ s'.held y := by
  cases hf with
  | same h =>
    left
    rw [h x]
    exact hr
  | post hnew h =>
    left
    by_cases hx : x = .outstanding
    · subst hx
      rw [hnew]
      exact List.mem_append_left _ hr
    · rw [h x hx]
      exact hr
  | move y z xs hop hm =>
    by_cases hxs : r ∈ xs
    · right
      obtain rfl := hplaced.unique _ _ r hr (hm.mem_source hxs)
      exact ⟨z, hop, hm.mem_target hxs⟩
    · exact .inl ((hm.mem_iff hxs x).mpr hr)

theorem stage_outstanding (hx : x ≠ .outstanding) : 1 ≤ x.stage := by
  cases x with
  | outstanding => exact absurd rfl hx
  | _ => simp [Place.stage]

theorem Inv.fabric_side (h : Inv s) (hop : op ∈ s.ops[r]?) (hr : r ∈ s.held (.fabric side)) :
    side = op.post.arrives := by
  obtain ⟨c, hc, rfl⟩ := List.mem_map.mp hr
  obtain ⟨op', hop', hside⟩ := h.fabric side c hc
  obtain rfl := Option.mem_unique hop hop'
  exact hside.symm

theorem Inv.owns_eq (h : Inv s) {cq : Cq} (hop : op ∈ s.ops[recordOf c]?) (hc : Owns s.ops cq c) :
    cq = ⟨op.comm, op.post.arrives⟩ := by
  obtain ⟨op', hop', hcq⟩ := hc
  obtain rfl := Option.mem_unique hop hop'
  exact hcq.symm.trans (h.owner_eq hop).1

theorem PcOk.owns_drained {ops : List Op} (hok : PcOk ops i p) (hc : c ∈ p.drained) : ∃ side, Owns ops ⟨i, side⟩ c := by
  cases p with
  | draining cb side deferred => exact ⟨side, hok c hc⟩
  | popped cb side deferred c' => exact ⟨side, hok c hc⟩
  | _ => cases hc

theorem Inv.kept_place (h : Inv s) (hop : op ∈ s.ops[r]?) (hr : r ∈ s.held x) (hstage : 3 ≤ x.stage)
    (hnot : r ∉ s.freed) : x = .queue ⟨op.comm, op.post.arrives⟩ ∨ x = .drain op.comm := by
  cases x with
  | queue cq =>
    obtain ⟨c, hc, rfl⟩ := List.mem_map.mp hr
    exact .inl (congrArg _ (h.owns_eq hop (h.queue cq c hc)))
  | drain i =>
    obtain ⟨c, hc, rfl⟩ := List.mem_map.mp hr
    obtain ⟨side, hown⟩ := (h.pc i).owns_drained hc
    exact .inr (congrArg (fun cq => Place.drain (Cq.comm cq)) (h.owns_eq hop hown))
  | done => exact absurd hr hnot
  | _ => simp [Place.stage] at hstage

def State.declined (s : State) (r : Nat) : Nat := s.offers.countP fun o => o.record = r ∧ o.accepted = false

theorem declined_of_defers (h : Inv s)
    (hpc : s.pc i = .popped cb side deferred c) (hdefers : Defers cb accept) (hs' : s' ∈ step s (.run i accept)) :
    s'.declined (recordOf c) = s.declined (recordOf c) + 1 := by
  cases step_cases hs' with
  | run _ _ _ hs' =>
    have hok := h.pc i
    rw [hpc] at hok hs'
    obtain ⟨op, hop, -⟩ := List.forall_mem_singleton.mp (List.forall_mem_append.mp hok).2
    have hheld : recordOf c ∈ s.held (.drain i) := by
      change recordOf c ∈ (s.pc i).drained.map recordOf
      rw [hpc]
      exact List.mem_map_of_mem (List.mem_append_right _ (List.mem_singleton_self c))
    cases hs'
    rw [h.deref_eq hheld nofun hop, offerOld, if_pos hdefers]
    simp [State.declined, State.setPc, State.offer]

end Turns

def Fair (t : Trace step .start) : Prop :=
  ∀ k i, (t.state k).pc i ≠ .idle → ∃ l, k ≤ l ∧ ∃ accept, t.event l = .run i accept

inductive Returns (i : Nat) (side : Side) (s : State) (e : Event) : Prop
  | definite (cb : Callback) (accept : Bool) (ht : tentative cb = false) (he : e = .run i accept)
    (hpc : s.pc i = .reading cb side) (hempty : s.fabric side = [])
  | tentative (cb : Callback) (deferred : List Completion) (accept : Bool) (ht : tentative cb = true)
    (he : e = .run i accept) (hpc : s.pc i = .draining cb side deferred) (hempty : s.completions ⟨i, side⟩ = [])

def KeepsPolling (t : Trace step .start) (i : Nat) : Prop := ∀ side, t.Often (Returns i side)

def KeepsAccepting (t : Trace step .start) (r : Nat) : Prop :=
  ∃ k, ∀ l, k ≤ l → (t.state l).declined r = (t.state k).declined r

section Progress

variable {t : Trace step .start} {r k l i : Nat} {op : Op} {x : Place} {side : Side}

section

variable (hsafe : t.Always Safe)
include hsafe

theorem trace_inv (k : Nat) : Inv (t.state k) :=
  t.invariant hsafe inv_start (fun _ _ _ h hs hs' => (step_steps h hs hs').1) k

theorem trace_follows (k : Nat) : Follows (t.state k) (t.event k) (t.state (k + 1)) :=
  (step_steps (trace_inv hsafe k) (hsafe k) (t.next k)).2

theorem trace_pc (k i : Nat) : PcStep (t.state k) i (t.event k) ((t.state (k + 1)).pc i) :=
  step_pc (trace_inv hsafe (k + 1)) (t.next k) i

theorem trace_place (hr : r ∈ (t.state k).held x) :
    r ∈ (t.state (k + 1)).held x ∨ ∃ y, Hop (t.event k) x y ∧ r ∈ (t.state (k + 1)).held y :=
  (trace_follows hsafe k).place (trace_inv hsafe k).placed hr

end

theorem trace_ops (hop : op ∈ (t.state k).ops[r]?) (hkl : k ≤ l) : op ∈ (t.state l).ops[r]? := by
  induction l, hkl using Nat.le_induction with
  | base => exact hop
  | succ l _ ih => exact step_ops (t.next l) ih

theorem stage_mono (hsafe : t.Always Safe) (hr : r ∈ (t.state k).held x) (hkl : k ≤ l) :
    ∃ y, r ∈ (t.state l).held y ∧ x.stage ≤ y.stage := by
  induction l, hkl using Nat.le_induction with
  | base => exact ⟨x, hr, Nat.le_refl _⟩
  | succ l _ ih =>
    obtain ⟨y, hy, hstage⟩ := ih
    obtain hy | ⟨z, hhop, hz⟩ := trace_place hsafe hy
    · exact ⟨y, hy, hstage⟩
    · exact ⟨z, hz, hstage.trans hhop.stage_le⟩

variable {p : Pc} {s : State} {e : Event}

section

variable (hsafe : t.Always Safe)
include hsafe

theorem exists_turn (hfair : Fair t) (hpc : (t.state k).pc i = p) (hp : p ≠ .idle) :
    ∃ l, k ≤ l ∧ (t.state l).pc i = p ∧ ∃ accept, Turn (t.state l) i accept p ((t.state (l + 1)).pc i) := by
  obtain ⟨l, hkl, hrun⟩ := hfair k i (hpc ▸ hp)
  have hkeep (m : Nat) (hm : (t.state m).pc i = p) (hrun : ¬ ∃ accept, t.event m = .run i accept) :
      (t.state (m + 1)).pc i = p := by
    cases trace_pc hsafe m i with
    | stay _ hstay => exact hstay.trans hm
    | start hidle _ _ _ => exact absurd (hm.symm.trans hidle) hp
    | turn accept he _ => exact absurd ⟨accept, he⟩ hrun
  obtain ⟨m, hkm, hm, accept, hrun⟩ := exists_until hkl hpc hkeep hrun
  refine ⟨m, hkm, hm, ?_⟩
  cases trace_pc hsafe m i with
  | stay he _ => exact absurd hrun (he accept)
  | start hidle _ _ _ => exact absurd (hm.symm.trans hidle) hp
  | turn accept _ hturn => exact ⟨accept, hm ▸ hturn⟩

theorem exists_past_hand_of_out (hr : r ∈ (t.state k).held (.hand i))
    (hout : ((t.state (k + 1)).pc i).inHand = []) : ∃ y, r ∈ (t.state (k + 1)).held y ∧ 3 ≤ y.stage := by
  obtain hr | ⟨y, hhop, hy⟩ := trace_place hsafe hr
  · change r ∈ ((t.state (k + 1)).pc i).inHand.map recordOf at hr
    rw [hout] at hr
    cases hr
  · generalize t.event k = e at hhop
    cases hhop with
    | queue i accept cq => exact ⟨_, hy, Nat.le_refl _⟩
    | accept i accept => exact ⟨_, hy, Nat.le_succ _⟩

theorem exists_past_queueing {cb : Callback} {c : Completion} (hfair : Fair t)
    (hpc : (t.state k).pc i = .queueing cb side c) : ∃ l y, k ≤ l ∧ recordOf c ∈ (t.state l).held y ∧ 3 ≤ y.stage := by
  obtain ⟨l, hkl, hl, accept, hturn⟩ := exists_turn hsafe hfair hpc nofun
  have hr : recordOf c ∈ (t.state l).held (.hand i) := held_of_inHand (by rw [hl]; rfl)
  have hout : ((t.state (l + 1)).pc i).inHand = [] := by
    generalize (t.state (l + 1)).pc i = p at hturn
    cases hturn with
    | queue => split <;> rfl
  obtain ⟨y, hy, hstage⟩ := exists_past_hand_of_out hsafe hr hout
  exact ⟨l + 1, y, hkl.trans (Nat.le_succ l), hy, hstage⟩

theorem exists_past_hand (hfair : Fair t) (hr : r ∈ (t.state k).held (.hand i)) :
    ∃ l y, k ≤ l ∧ r ∈ (t.state l).held y ∧ 3 ≤ y.stage := by
  obtain ⟨c, hc, rfl⟩ := List.mem_map.mp hr
  generalize hpc : (t.state k).pc i = p at hc
  cases p with
  | queueing cb side c' =>
    obtain rfl := List.mem_singleton.mp hc
    exact exists_past_queueing hsafe hfair hpc
  | got cb side c' =>
    obtain rfl := List.mem_singleton.mp hc
    obtain ⟨l, hkl, hl, accept, hturn⟩ := exists_turn hsafe hfair hpc nofun
    generalize hpc' : (t.state (l + 1)).pc i = p' at hturn
    cases hturn with
    | accept =>
      have hr : recordOf c ∈ (t.state l).held (.hand i) := held_of_inHand (by rw [hl]; rfl)
      obtain ⟨y, hy, hstage⟩ := exists_past_hand_of_out hsafe hr (by rw [hpc']; rfl)
      exact ⟨l + 1, y, hkl.trans (Nat.le_succ l), hy, hstage⟩
    | queueing =>
      obtain ⟨m, y, hlm, hy⟩ := exists_past_queueing hsafe hfair hpc'
      exact ⟨m, y, hkl.trans ((Nat.le_succ l).trans hlm), hy⟩
  | _ => cases hc

end

def Pc.LateDrain (side : Side) : Pc → Prop
  | .draining cb side' _ | .popped cb side' _ _ => tentative cb = true ∧ side' = side
  | _ => False

def Pc.LateRead (side : Side) : Pc → Prop
  | .reading cb side' | .failed cb side' | .got cb side' _ | .queueing cb side' _ | .handed cb side' _ =>
    tentative cb = false ∧ side' = side
  | _ => False

def Drained (i : Nat) (side : Side) (s : State) (e : Event) : Prop :=
  ∃ cb deferred accept, e = .run i accept ∧ s.pc i = .draining cb side deferred ∧ s.completions ⟨i, side⟩ = []

theorem idle_of_returns (hsafe : t.Always Safe) (h : Returns i side (t.state k) (t.event k)) :
    (t.state (k + 1)).pc i = .idle := by
  have hstep := trace_pc hsafe k i
  generalize (t.state (k + 1)).pc i = p at hstep
  cases h with
  | definite cb accept ht he hpc hempty =>
    obtain ⟨_, hturn⟩ := hstep.turn_of he hpc nofun
    cases hturn with
    | again _ => exact if_neg (Bool.eq_false_iff.mp ht)
    | error h => exact absurd (hempty.symm.trans h) nofun
    | read h => exact absurd (hempty.symm.trans h) nofun
  | tentative cb deferred accept ht he hpc hempty =>
    obtain ⟨_, hturn⟩ := hstep.turn_of he hpc nofun
    cases hturn with
    | drained _ => exact if_pos ht
    | pop h => exact absurd (hempty.symm.trans h) nofun

theorem empty_of_lateDrain (h : PcStep s i e p) (hs : ¬ (s.pc i).LateDrain side)
    (hp : p.LateDrain side) : s.fabric side = [] := by
  cases h with
  | stay _ hstay => exact absurd (hstay ▸ hp) hs
  | start hidle cb side' hstart =>
    subst hstart
    unfold startOf at hp
    split at hp
    · exact hp.elim
    · exact absurd hp.1 ‹_›
  | turn accept _ hturn =>
    generalize s.pc i = q at hturn hs
    cases hturn with
    | again hempty =>
      split at hp
      · exact hp.2 ▸ hempty
      · exact hp.elim
    | drained _ => split at hp <;> exact hp.elim
    | pop _ => exact absurd hp hs
    | declineOld _ => exact absurd hp hs
    | acceptOld => exact absurd hp hs
    | queue => split at hp <;> exact hp.elim
    | _ => exact hp.elim

theorem drained_of_lateRead (h : PcStep s i e p) (hs : ¬ (s.pc i).LateRead side)
    (hp : p.LateRead side) : Drained i side s e := by
  cases h with
  | stay _ hstay => exact absurd (hstay ▸ hp) hs
  | start hidle cb side' hstart =>
    subst hstart
    by_cases ht : tentative cb = true
    · rw [startOf, if_pos ht] at hp
      exact absurd (ht.symm.trans hp.1) nofun
    · rw [startOf, if_neg ht] at hp
      exact hp.elim
  | turn accept he hturn =>
    generalize hq : s.pc i = q at hturn hs
    cases hturn with
    | drained hempty =>
      split at hp
      · exact hp.elim
      · obtain ⟨-, rfl⟩ := hp
        exact ⟨_, _, accept, he, hq, hempty⟩
    | again _ => split at hp <;> exact hp.elim
    | queue =>
      split at hp <;> exact absurd hp hs
    | pop _ => exact hp.elim
    | declineOld _ => exact hp.elim
    | acceptOld => exact hp.elim
    | throw => exact hp.elim
    | _ => exact absurd hp hs

theorem often_empty (hsafe : t.Always Safe) (hpoll : t.Often (Returns i side)) :
    t.Often fun s _ => s.fabric side = [] := by
  intro k
  obtain ⟨a, hka, ha⟩ := hpoll k
  obtain ⟨b, hab, hb⟩ := hpoll (a + 1)
  cases hb with
  | definite cb accept ht he hpc hempty => exact ⟨b, (hka.trans (Nat.le_succ a)).trans hab, hempty⟩
  | tentative cb deferred accept ht he hpc hempty =>
    have hidle : ¬ ((t.state (a + 1)).pc i).LateDrain side := by
      rw [idle_of_returns hsafe ha]
      exact id
    have hlate : ((t.state b).pc i).LateDrain side := by
      rw [hpc]
      exact ⟨ht, rfl⟩
    obtain ⟨m, ham, hm, hm'⟩ := exists_switch (P := fun m => ((t.state m).pc i).LateDrain side) hab hidle hlate
    exact ⟨m, (hka.trans (Nat.le_succ a)).trans ham, empty_of_lateDrain (trace_pc hsafe m i) hm hm'⟩

theorem often_drained (hsafe : t.Always Safe) (hpoll : t.Often (Returns i side)) : t.Often (Drained i side) := by
  intro k
  obtain ⟨a, hka, ha⟩ := hpoll k
  obtain ⟨b, hab, hb⟩ := hpoll (a + 1)
  cases hb with
  | tentative cb deferred accept ht he hpc hempty =>
    exact ⟨b, (hka.trans (Nat.le_succ a)).trans hab, cb, deferred, accept, he, hpc, hempty⟩
  | definite cb accept ht he hpc hempty =>
    have hidle : ¬ ((t.state (a + 1)).pc i).LateRead side := by
      rw [idle_of_returns hsafe ha]
      exact id
    have hlate : ((t.state b).pc i).LateRead side := by
      rw [hpc]
      exact ⟨ht, rfl⟩
    obtain ⟨m, ham, hm, hm'⟩ := exists_switch (P := fun m => ((t.state m).pc i).LateRead side) hab hidle hlate
    exact ⟨m, (hka.trans (Nat.le_succ a)).trans ham, drained_of_lateRead (trace_pc hsafe m i) hm hm'⟩

def Pc.deferred : Pc → List Completion
  | .draining _ _ deferred | .popped _ _ deferred _ => deferred
  | _ => []

theorem Pc.deferred_subset (p : Pc) : p.deferred ⊆ p.drained := by
  cases p with
  | draining cb side deferred => exact List.Subset.refl _
  | popped cb side deferred c => exact List.subset_append_left _ _
  | _ => exact List.nil_subset _

theorem declined_of_deferred {s' : State} (h : Inv s) (h' : Inv s') (hs' : s' ∈ step s e)
    (hr : r ∉ (s.pc i).deferred.map recordOf) (hr' : r ∈ (s'.pc i).deferred.map recordOf) :
    s'.declined r = s.declined r + 1 := by
  have hstep := step_pc h' hs' i
  generalize s'.pc i = p at hstep hr'
  cases hstep with
  | stay _ hstay => exact absurd (hstay ▸ hr') hr
  | start hidle cb side hstart =>
    subst hstart
    unfold startOf at hr'
    split at hr' <;> cases hr'
  | turn accept he hturn =>
    generalize hq : s.pc i = q at hturn hr
    cases hturn with
    | declineOld hdefers =>
      obtain hr' | hr' := List.mem_append.mp (List.map_append ▸ hr')
      · exact absurd hr' hr
      · obtain rfl := List.mem_singleton.mp hr'
        exact declined_of_defers h hq hdefers (he ▸ hs')
    | pop _ => exact absurd hr' hr
    | acceptOld => exact absurd hr' hr
    | drained _ => split at hr' <;> cases hr'
    | again _ => split at hr' <;> cases hr'
    | queue => split at hr' <;> cases hr'
    | _ => cases hr'

theorem queue_of_drained (hsafe : t.Always Safe) (hd : Drained i side (t.state k) (t.event k))
    (hr : r ∈ (t.state k).held (.drain i)) (hnot : r ∉ (t.state (k + 1)).freed) :
    ∃ side, r ∈ (t.state (k + 1)).held (.queue ⟨i, side⟩) := by
  obtain ⟨cb, deferred, accept, he, hpc, hempty⟩ := hd
  have hout : ((t.state (k + 1)).pc i).drained = [] := by
    have hstep := trace_pc hsafe k i
    generalize (t.state (k + 1)).pc i = p at hstep
    obtain ⟨_, hturn⟩ := hstep.turn_of he hpc nofun
    cases hturn with
    | drained _ => split <;> rfl
    | pop h => exact absurd (hempty.symm.trans h) nofun
  obtain hr | ⟨y, hhop, hy⟩ := trace_place hsafe hr
  · change r ∈ ((t.state (k + 1)).pc i).drained.map recordOf at hr
    rw [hout] at hr
    cases hr
  · generalize t.event k = e at hhop
    cases hhop with
    | swap _ _ side => exact ⟨side, hy⟩
    | acceptOld => exact absurd hy hnot

theorem deferred_of_drained (h : Inv s) (hop : op ∈ s.ops[r]?) (hr : r ∈ s.held x)
    (hstage : 3 ≤ x.stage) (hnot : r ∉ s.freed) (hd : Drained op.comm op.post.arrives s e) :
    r ∈ (s.pc op.comm).deferred.map recordOf ∧ r ∈ s.held (.drain op.comm) := by
  obtain ⟨cb, deferred, accept, -, hpc, hempty⟩ := hd
  obtain rfl | rfl := h.kept_place hop hr hstage hnot
  · change r ∈ (s.completions _).map recordOf at hr
    rw [hempty] at hr
    cases hr
  · refine ⟨?_, hr⟩
    change r ∈ (s.pc op.comm).drained.map recordOf at hr
    rw [hpc] at hr ⊢
    exact hr

theorem eventually_accepted (hsafe : t.Always Safe) (hfair : Fair t) (hop : op ∈ (t.state k).ops[r]?)
    (hdone : r ∉ (t.state k).outstanding) (hpoll : KeepsPolling t op.comm) (haccept : KeepsAccepting t r) :
    ∃ l, r ∈ (t.state l).accepted := by
  by_contra hnever
  have hnot (l : Nat) : r ∉ (t.state l).freed := by
    rw [(trace_inv hsafe l).delivers.freed]
    exact fun hl => hnever ⟨l, hl⟩
  -- someone reads it
  obtain ⟨x, hx⟩ := (trace_inv hsafe k).placed.total r (List.getElem?_eq_some_iff.mp hop).1
  have hx1 : 1 ≤ x.stage := stage_outstanding fun hout => hdone (by subst hout; exact hx)
  obtain ⟨a, hka, hempty⟩ := often_empty hsafe (hpoll op.post.arrives) k
  obtain ⟨y, hy, hxy⟩ := stage_mono hsafe hx hka
  have hy2 : ∃ b z, a ≤ b ∧ r ∈ (t.state b).held z ∧ 3 ≤ z.stage := by
    cases y with
    | outstanding => exact absurd (hx1.trans hxy) (by simp [Place.stage])
    | fabric side =>
      obtain rfl := (trace_inv hsafe a).fabric_side (trace_ops hop hka) hy
      change r ∈ ((t.state a).fabric _).map recordOf at hy
      rw [hempty] at hy
      cases hy
    | hand j => exact exists_past_hand hsafe hfair hy
    | done => exact absurd hy (hnot a)
    | _ => exact ⟨a, _, Nat.le_refl a, hy, Nat.le_refl _⟩
  -- from then on its owner has it
  obtain ⟨b, z, hab, hz, hz3⟩ := hy2
  have hkept (l : Nat) (hbl : b ≤ l) (hd : Drained op.comm op.post.arrives (t.state l) (t.event l)) :
      r ∈ ((t.state l).pc op.comm).deferred.map recordOf ∧ r ∈ (t.state l).held (.drain op.comm) := by
    obtain ⟨z', hz', hzz'⟩ := stage_mono hsafe hz hbl
    exact deferred_of_drained (trace_inv hsafe l) (trace_ops hop (hka.trans (hab.trans hbl))) hz' (hz3.trans hzz') (hnot l) hd
  -- a drain that defers nothing puts it into the queue, and the next one must offer it
  obtain ⟨K, hK⟩ := haccept
  obtain ⟨l, hl, hdrained⟩ := often_drained hsafe (hpoll op.post.arrives) (max b K)
  obtain ⟨side, hqueue⟩ := queue_of_drained hsafe hdrained (hkept l ((Nat.le_max_left b K).trans hl) hdrained).2 (hnot (l + 1))
  have hnone : r ∉ ((t.state (l + 1)).pc op.comm).deferred.map recordOf := by
    intro hr
    have hdrain : r ∈ (t.state (l + 1)).held (.drain op.comm) := List.map_subset _ (Pc.deferred_subset _) hr
    cases (trace_inv hsafe (l + 1)).placed.unique _ _ r hqueue hdrain
  obtain ⟨m, hm, hdrained'⟩ := often_drained hsafe (hpoll op.post.arrives) (l + 1)
  have hbm : b ≤ m := (Nat.le_max_left b K).trans (hl.trans ((Nat.le_succ l).trans hm))
  obtain ⟨n, hln, hn, hn'⟩ := exists_switch (P := fun n => r ∈ ((t.state n).pc op.comm).deferred.map recordOf) hm hnone
    (hkept m hbm hdrained').1
  have hdeclined := declined_of_deferred (trace_inv hsafe n) (trace_inv hsafe (n + 1)) (t.next n) hn hn'
  have hKn : K ≤ n := (Nat.le_max_right b K).trans (hl.trans ((Nat.le_succ l).trans hln))
  rw [hK n hKn, hK (n + 1) (hKn.trans (Nat.le_succ n))] at hdeclined
  exact absurd hdeclined (Nat.ne_of_lt (Nat.lt_succ_self _))

end Progress

section Round

variable {s : State} {i : Nat} {side : Side} {accept : Bool}

theorem step_poll_idle (hfault : s.fault = false) (hi : i ∈ s.comms) (hpc : s.pc i = .idle) :
    step s (.poll i .completeOld side) = some (s.setPc i (.draining .completeOld side [])) := by
  rw [step, hfault]
  change (if i ∈ s.comms ∧ s.pc i = .idle then _ else _) = _
  exact if_pos ⟨hi, hpc⟩

theorem setPc_setPc (s : State) (i : Nat) (p q : Pc) : (s.setPc i p).setPc i q = s.setPc i q := by
  simp [State.setPc]

theorem step_drain_empty (hfault : s.fault = false) (hqueue : s.completions ⟨i, side⟩ = []) :
    step (s.setPc i (.draining .completeOld side [])) (.run i accept) = some (s.setPc i (.reading .completeOld side)) := by
  have hset : (s.setPc i (.draining .completeOld side [])).setCompletions ⟨i, side⟩ [] =
      s.setPc i (.draining .completeOld side []) := by
    rw [State.setCompletions, Function.update_eq_self_iff.mpr hqueue.symm]
  have hpc := pc_setPc s i (.draining .completeOld side [])
  rw [step, show (s.setPc i _).fault = false from hfault]
  change advance i accept _ _ = _
  rw [hpc]
  change some (drainOldCompletions i .completeOld side [] _ (s.completions ⟨i, side⟩)) = _
  rw [hqueue, drainOldCompletions, hset, setPc_setPc]
  rfl

theorem step_read_empty (hfault : s.fault = false) (hpc : s.pc i = .idle) (hempty : s.fabric side = []) :
    step (s.setPc i (.reading .completeOld side)) (.run i accept) = some s := by
  have hpc' := pc_setPc s i (.reading .completeOld side)
  rw [step, show (s.setPc i _).fault = false from hfault]
  change advance i accept _ _ = _
  rw [hpc']
  change some (cqRead i .completeOld side _ (s.fabric side)) = _
  rw [hempty, cqRead, setPc_setPc]
  refine congrArg some ?_
  change { s with pc := Function.update s.pc i .idle } = s
  rw [Function.update_eq_self_iff.mpr hpc.symm]

end Round

def receiveEvent : Nat → Event
  | 0 => .allocateGroup 0
  | 1 => .post 0 .recvVec 7
  | 2 => .complete 0 .ok 0 64 0 0
  | 3 => .poll 0 .completeOld .rx
  | 4 | 5 | 6 | 7 => .run 0 true
  | k + 8 =>
    match k % 6 with
    | 0 => .poll 0 .completeOld .rx
    | 3 => .poll 0 .completeOld .tx
    | _ => .run 0 true

def receiveState : Nat → State
  | 0 => .start
  | k + 1 => (step (receiveState k) (receiveEvent k)).getD (receiveState k)

def receiveLoop : Nat → State
  | 1 => (receiveState 8).setPc 0 (.draining .completeOld .rx [])
  | 2 => (receiveState 8).setPc 0 (.reading .completeOld .rx)
  | 4 => (receiveState 8).setPc 0 (.draining .completeOld .tx [])
  | 5 => (receiveState 8).setPc 0 (.reading .completeOld .tx)
  | _ => receiveState 8

theorem receiveState_eight :
    (receiveState 8).fault = false ∧ (receiveState 8).comms = [0] ∧ (receiveState 8).pc 0 = .idle ∧
      (receiveState 8).declined 0 = 0 := by
  decide +kernel

theorem receiveState_eight_empty (side : Side) :
    (receiveState 8).fabric side = [] ∧ (receiveState 8).completions ⟨0, side⟩ = [] := by
  cases side <;> decide +kernel

theorem receiveLoop_step (j : Nat) (hj : j < 6) :
    step (receiveLoop j) (receiveEvent (j + 8)) = some (receiveLoop (j + 1)) := by
  obtain ⟨hfault, hcomms, hpc, -⟩ := receiveState_eight
  have hi : 0 ∈ (receiveState 8).comms := hcomms ▸ List.mem_singleton_self 0
  match j, hj with
  | 0, _ => exact step_poll_idle hfault hi hpc
  | 1, _ => exact step_drain_empty hfault (receiveState_eight_empty .rx).2
  | 2, _ => exact step_read_empty hfault hpc (receiveState_eight_empty .rx).1
  | 3, _ => exact step_poll_idle hfault hi hpc
  | 4, _ => exact step_drain_empty hfault (receiveState_eight_empty .tx).2
  | 5, _ => exact step_read_empty hfault hpc (receiveState_eight_empty .tx).1

theorem receiveEvent_loop (k : Nat) : receiveEvent (k + 8) = receiveEvent (k % 6 + 8) := by
  change (match k % 6 with | 0 => _ | 3 => _ | _ => _) = match k % 6 % 6 with | 0 => _ | 3 => _ | _ => _
  rw [Nat.mod_mod]

theorem receiveLoop_succ (k : Nat) : receiveLoop (k % 6 + 1) = receiveLoop ((k + 1) % 6) := by
  have hk : k % 6 < 6 := Nat.mod_lt k (by decide)
  rw [Nat.add_mod]
  generalize k % 6 = j at hk
  match j, hk with
  | 0, _ | 1, _ | 2, _ | 3, _ | 4, _ | 5, _ => rfl

theorem receiveState_loop (k : Nat) : receiveState (k + 8) = receiveLoop (k % 6) := by
  induction k with
  | zero => rfl
  | succ k ih =>
    change (step (receiveState (k + 8)) (receiveEvent (k + 8))).getD _ = _
    rw [ih, receiveEvent_loop, receiveLoop_step (k % 6) (Nat.mod_lt k (by decide)), ← receiveLoop_succ]
    rfl

theorem receiveState_first (k : Nat) (hk : k < 8) : receiveState (k + 1) ∈ step (receiveState k) (receiveEvent k) := by
  have hsome : (step (receiveState k) (receiveEvent k)).isSome := by
    match k, hk with
    | 0, _ | 1, _ | 2, _ | 3, _ | 4, _ | 5, _ | 6, _ | 7, _ => decide +kernel
  obtain ⟨s, hs⟩ := Option.isSome_iff_exists.mp hsome
  change (step (receiveState k) (receiveEvent k)).getD (receiveState k) ∈ _
  rw [hs]
  rfl

def receiveTrace : Trace step .start where
  state := receiveState
  event := receiveEvent
  state_zero := rfl
  next k := by
    obtain hk | ⟨d, rfl⟩ := (Nat.lt_or_ge k 8).imp_right Nat.exists_eq_add_of_le'
    · exact receiveState_first k hk
    · change receiveState (d + 1 + 8) ∈ step (receiveState (d + 8)) (receiveEvent (d + 8))
      rw [receiveState_loop, receiveState_loop, receiveEvent_loop, ← receiveLoop_succ]
      exact receiveLoop_step (d % 6) (Nat.mod_lt d (by decide))

theorem receiveTrace_safe : receiveTrace.Always Safe := by
  intro k
  obtain hk | ⟨d, rfl⟩ := (Nat.lt_or_ge k 8).imp_right Nat.exists_eq_add_of_le'
  · change Safe (receiveState k) (receiveEvent k)
    match k, hk with
    | 0, _ | 1, _ | 2, _ | 3, _ | 4, _ | 5, _ | 6, _ | 7, _ => decide +kernel
  · change Safe (receiveState (d + 8)) (receiveEvent (d + 8))
    rw [receiveState_loop, receiveEvent_loop]
    have hd : d % 6 < 6 := Nat.mod_lt d (by decide)
    generalize d % 6 = j at hd
    match j, hd with
    | 0, _ | 1, _ | 2, _ | 3, _ | 4, _ | 5, _ => trivial

theorem receiveTrace_often (k j : Nat) (hj : j < 6) :
    ∃ l, k ≤ l ∧ receiveState l = receiveLoop j ∧ receiveEvent l = receiveEvent (j + 8) := by
  have hmod : (6 * k + j) % 6 = j := by omega
  refine ⟨6 * k + j + 8, by omega, ?_, ?_⟩
  · rw [receiveState_loop, hmod]
  · rw [receiveEvent_loop, hmod]

theorem receiveTrace_fair : Fair receiveTrace := by
  intro k i hpc
  -- there is no other communicator
  have hcomms : (receiveState k).comms ⊆ [0] := by
    obtain hk | ⟨d, rfl⟩ := (Nat.lt_or_ge k 8).imp_right Nat.exists_eq_add_of_le'
    · match k, hk with
      | 0, _ | 1, _ | 2, _ | 3, _ | 4, _ | 5, _ | 6, _ | 7, _ => decide +kernel
    · rw [receiveState_loop]
      have hd : d % 6 < 6 := Nat.mod_lt d (by decide)
      generalize d % 6 = j at hd
      match j, hd with
      | 0, _ | 1, _ | 2, _ | 3, _ | 4, _ | 5, _ =>
        change (receiveState 8).comms ⊆ [0]
        rw [receiveState_eight.2.1]
        exact List.Subset.refl _
  obtain rfl := List.mem_singleton.mp (hcomms ((trace_inv receiveTrace_safe k).polling i hpc))
  obtain ⟨l, hkl, -, hl⟩ := receiveTrace_often k 1 (by decide)
  exact ⟨l, hkl, true, hl⟩

theorem receiveTrace_polls : KeepsPolling receiveTrace 0 := by
  intro side k
  cases side with
  | rx =>
    obtain ⟨l, hkl, hl, he⟩ := receiveTrace_often k 2 (by decide)
    refine ⟨l, hkl, .definite .completeOld true rfl he ?_ ?_⟩
    · exact (congrArg (State.pc · 0) hl).trans (pc_setPc _ _ _)
    · exact (congrArg (State.fabric · .rx) hl).trans (receiveState_eight_empty .rx).1
  | tx =>
    obtain ⟨l, hkl, hl, he⟩ := receiveTrace_often k 5 (by decide)
    refine ⟨l, hkl, .definite .completeOld true rfl he ?_ ?_⟩
    · exact (congrArg (State.pc · 0) hl).trans (pc_setPc _ _ _)
    · exact (congrArg (State.fabric · .tx) hl).trans (receiveState_eight_empty .tx).1

theorem receiveTrace_accepts : KeepsAccepting receiveTrace 0 := by
  have hloop (d : Nat) : (receiveState (d + 8)).declined 0 = 0 := by
    rw [receiveState_loop]
    have hd : d % 6 < 6 := Nat.mod_lt d (by decide)
    generalize d % 6 = j at hd
    match j, hd with
    | 0, _ | 1, _ | 2, _ | 3, _ | 4, _ | 5, _ => exact receiveState_eight.2.2.2
  refine ⟨8, fun l hl => ?_⟩
  obtain ⟨d, rfl⟩ := Nat.exists_eq_add_of_le' hl
  exact (hloop d).trans (hloop 0).symm

end Comanche.Net.FabricGrouped
