import Comanche.Hstore.Ownership
import Comanche.Hstore.Recover

/-!
# Crashes

A history is a sequence of calls, of which some are cut after some of their stores and followed by recovery.
-/

namespace Comanche.Hstore

open Lib ValueUnstable

variable {K κ V : Type} [DecidableEq κ] [Inhabited K] [Inhabited V]

/-- The state that a call leaves when it is cut after `n` steps. -/
def Op.cut (cfg : Config K κ V) (n : Nat) : Op K κ V → HopHash K V → HopHash K V
  | .emplace kv, w => (Hstore.emplace cfg fun _ => kv).cut n w
  | .erase k, w => (Hstore.erase cfg k).cut n w
  | .at_ k, w => (Hstore.at_ cfg k).cut n w

omit [DecidableEq κ] [Inhabited K] [Inhabited V] in
/-- The constructor over the table `t`, cut after each number of steps in `again` and started over,
and then run to its end. -/
def recovered (cfg : Config K κ V) : List Nat → Table K V → Except Exc (Table K V)
  | [], t =>
      match (hopHashBase cfg .reconstitute).result ⟨t, []⟩ with
      | .ok _ => .ok ((hopHashBase cfg .reconstitute).final ⟨t, []⟩).table
      | .error e => .error e
  | n :: again, t => recovered cfg again ((hopHashBase cfg .reconstitute).cut n ⟨t, []⟩).table

/-- A call that runs to its end, or one that is cut after `n` steps and recovered from. -/
inductive Event (K κ V : Type) where
  | done (op : Op K κ V)
  | crash (op : Op K κ V) (n : Nat) (again : List Nat)

def Event.op : Event K κ V → Op K κ V
  | .done op => op
  | .crash op _ _ => op

def Event.run (cfg : Config K κ V) : Event K κ V → Table K V → Except Exc (Table K V)
  | .done op, t => .ok (op.run cfg ⟨t, []⟩).2.table
  | .crash op n again, t => recovered cfg again (op.cut cfg n ⟨t, []⟩).table

/-- Each insertion of a history has room on the table it is made on. -/
def RoomThroughout (cfg : Config K κ V) : List (Event K κ V) → Table K V → Prop
  | [], _ => True
  | e :: es, t => HasRoom cfg ⟨t, []⟩ e.op ∧ ∀ t', e.run cfg t = .ok t' → RoomThroughout cfg es t'

/-- From a well-formed table for `m`, each event of the history leaves a well-formed table for the
map before its call or for the map after it, of the right size. -/
def Atomic (cfg : Config K κ V) : List (Event K κ V) → Table K V → KeyMap κ V → Prop
  | [], t, m => WellFormed cfg t m ∧ t.size = m.keys.card
  | e :: es, t, m => (WellFormed cfg t m ∧ t.size = m.keys.card) ∧ ∃ t' m', e.run cfg t = .ok t' ∧
      (m' = m ∨ m' = (e.op.spec cfg m).2) ∧ Atomic cfg es t' m'

variable {cfg : Config K κ V} {t : Table K V} {m : KeyMap κ V}

omit [Inhabited K] [Inhabited V] in
theorem recovered_wellFormed (h : Recoverable cfg t m) (again : List Nat) :
    ∃ t', recovered cfg again t = .ok t' ∧ WellFormed cfg t' m := by
  induction again generalizing t with
  | nil =>
    have hsat := hopHashBase_sat (C := fun _ => True) (fun _ _ => trivial) h .reconstitute [] rfl
    unfold recovered
    cases hr : (hopHashBase cfg .reconstitute).result ⟨t, []⟩ with
    | error e => exact (hsat.of_error hr).elim
    | ok r => exact ⟨_, rfl, hsat.of_ok hr⟩
  | cons n again ih =>
    exact ih ((hopHashBase_sat (fun _ hw => hw) h .reconstitute [] rfl).cut n)

theorem cut_recoverable (h : WellFormed cfg t m) (op : Op K κ V) (hroom : HasRoom cfg ⟨t, []⟩ op) (n : Nat) :
    Recoverable cfg (op.cut cfg n ⟨t, []⟩).table m ∨ Recoverable cfg (op.cut cfg n ⟨t, []⟩).table (op.spec cfg m).2 := by
  cases op with
  | emplace kv =>
    simp only [Op.cut, Op.spec]
    by_cases hmem : cfg.key kv.1 ∈ m
    · -- the key is found, and the table does not change
      left
      cases hlocate : locateKey cfg t (cfg.key kv.1) (bucket cfg t (cfg.key kv.1)) with
      | none => exact absurd hmem (h.represents.locateKey_eq_none hlocate)
      | some b =>
        have hsat := emplaceFrom_present (C := fun w => Recoverable cfg w.table m)
          (E := fun _ _ => False) (fun _ => kv) (fun _ => rfl)
          (fun _ _ => Or.inl h.repairable) hlocate segmentCapacity 0 [] rfl
        exact hsat.cut n
    · have hroomy := hroom (h.represents.locateKey_of_notMem hmem)
      have hsat := emplace_sat (C := fun w => Recoverable cfg w.table m ∨
        ∃ _ : Nat, Recoverable cfg w.table (m.insert (cfg.key kv.1) kv.2)) (fun _ => kv)
        (fun _ => rfl) (fun w hw _ _ => hw hroomy) h [] rfl
      rw [if_neg hmem]
      exact (hsat.cut n).imp_right (exists_const Nat).mp
  | erase k =>
    have hsat := erase_sat (C := fun w => Repairable cfg w.table m ∨
      Repairable cfg w.table (m.erase k)) (fun _ hw _ => hw) h [] rfl
    exact (hsat.cut n).imp Or.inl Or.inl
  | at_ k =>
    have hsat := at_sat (C := fun w => Recoverable cfg w.table m) (k := k) (w := ⟨t, []⟩)
      (fun _ _ => Or.inl h.repairable) ⟨h, rfl⟩
    exact Or.inl (hsat.cut n)

theorem event_atomic (h : WellFormed cfg t m) (e : Event K κ V) (hroom : HasRoom cfg ⟨t, []⟩ e.op) :
    ∃ t' m', e.run cfg t = .ok t' ∧ (m' = m ∨ m' = (e.op.spec cfg m).2) ∧ WellFormed cfg t' m' := by
  cases e with
  | done op =>
    rcases run_op_stands ⟨h, rfl⟩ op hroom with ⟨-, hstands⟩ | ⟨-, hstands⟩
    · exact ⟨_, _, rfl, Or.inr rfl, hstands.wellFormed⟩
    · exact ⟨_, _, rfl, Or.inl rfl, hstands.wellFormed⟩
  | crash op n again =>
    rcases cut_recoverable h op hroom n with hold | hnew
    · obtain ⟨t', hrun, hwf⟩ := recovered_wellFormed hold again
      exact ⟨t', m, hrun, Or.inl rfl, hwf⟩
    · obtain ⟨t', hrun, hwf⟩ := recovered_wellFormed hnew again
      exact ⟨t', _, hrun, Or.inr rfl, hwf⟩

/-- Calls may be cut short anywhere, and so may the recoveries that follow: the table always stands for the map before
the call or for the one after it. -/
theorem history_atomic (cfg : Config K κ V) {t : Table K V} {m : KeyMap κ V}
    (h : WellFormed cfg t m) (es : List (Event K κ V)) (hroom : RoomThroughout cfg es t) : Atomic cfg es t m := by
  induction es generalizing t m with
  | nil => exact ⟨h, h.size⟩
  | cons e es ih =>
    obtain ⟨t', m', hrun, hmap, hwf⟩ := event_atomic h e hroom.1
    exact ⟨⟨h, h.size⟩, t', m', hrun, hmap, ih hwf (hroom.2 t' hrun)⟩

def smallHistory : List (Event Nat Nat Nat) :=
  [.crash (.emplace (3, 30)) 9 [1], .done (.erase 3)]

theorem history_atomic_smallHistory : Atomic (idConfig Nat Owner.maskAllOnes) smallHistory (persistMap 1) ∅ := by
  refine history_atomic _ (persistMap_stands (by decide)).wellFormed _ ⟨fun _ => Or.inl ?_, ?_⟩
  · decide
  · exact fun _ _ => ⟨trivial, fun _ _ => trivial⟩

section Far

omit [DecidableEq κ] [Inhabited K] [Inhabited V] in
theorem hopHashBase_stable (hcount : isStable 1 t.segmentCountActual = true)
    (hsize : isStable 8 t.sizeControl = true) (mode : ConstructionMode) (l : List (Step K V)) :
    Sat (hopHashBase cfg mode) ⟨t, l⟩ (fun _ => True) (fun _ w' => w'.table = t) (fun e _ => e = .nullSegment) := by
  refine sat_getTable_bind (Sat.bind (Sat.when (fun _ => Sat.fail trivial rfl) fun _ => ⟨trivial, ?_⟩))
  have hlook : Sat (Action.when (mode = .reconstitute) do reconstituteBuckets 0 t.bucketCount)
      ⟨t, l⟩ (fun _ => True) (fun _ w' => w'.table = t) (fun e _ => e = .nullSegment) :=
    Sat.when (fun _ => (reconstituteBuckets_sat (fun _ => trivial) 0 _ l).imp
      (fun _ w' hw' => hw'.1) (fun _ _ h => h.elim)) fun _ => ⟨trivial, rfl⟩
  refine Sat.bind (hlook.post ?_)
  rintro - ⟨t', l'⟩ rfl
  refine Sat.bind (Sat.when (fun h => ?_) fun _ => ⟨trivial, ?_⟩)
  · rw [hcount] at h
    cases h
  · refine sat_getTable_bind (Sat.when (fun h => ?_) fun _ => ⟨trivial, rfl⟩)
    rw [hsize] at h
    cases h

omit [Inhabited K] [Inhabited V] in
theorem not_wellFormed_recovered (hcount : isStable 1 t.segmentCountActual = true)
    (hsize : isStable 8 t.sizeControl = true) (hbad : ¬ Ownership cfg t)
    {t' : Table K V} (hrec : recovered cfg [] t = .ok t') : ¬ WellFormed cfg t' m := by
  have hsat : Sat (hopHashBase cfg .reconstitute) ⟨t, []⟩ _ _ _ :=
    hopHashBase_stable hcount hsize .reconstitute []
  unfold recovered at hrec
  intro hwf
  cases hr : (hopHashBase cfg .reconstitute).result ⟨t, []⟩ with
  | error e =>
    rw [hr] at hrec
    cases hrec
  | ok r =>
    rw [hr] at hrec
    simp only [Except.ok.injEq] at hrec
    have htable := hsat.of_ok hr
    rw [hrec] at htable
    exact hbad (htable ▸ hwf.ownership)

omit [DecidableEq κ] [Inhabited K] in
theorem filled_wellFormed (ones : BitVec 64) (f : Nat → V) {c : Nat} (k : Nat)
    (hk : segmentCountSpecified k = c) (hc : c ≤ segmentCapacity) {n : Nat}
    (hn : n ≤ 2 ^ (7 + (c - 1))) : ∃ m, WellFormed (idConfig V ones) (filled c f n) m := by
  obtain ⟨hroom, -, l, hrun⟩ := run_fillOps ones f hc n hn []
  have hstart : Stands (idConfig V ones) ⟨filled c f 0, []⟩ ∅ := by
    rw [← hk, ← persistMap_eq_filled]
    exact persistMap_stands (by rwa [hk])
  obtain ⟨m, hstands⟩ := stands_run _ hstart hroom
  rw [hrun] at hstands
  exact ⟨m, hstands.wellFormed⟩

omit [Inhabited K] [Inhabited V] in
theorem cut_length {α : Type} (a : Act K V α) (w : HopHash K V) : a.cut (a.stores w).length w = a.final w := by
  unfold Action.cut Action.final
  rw [List.take_length]

omit [DecidableEq κ] [Inhabited K] in
theorem far_not_atomic (ones : BitVec 64) {c n k : Nat} (f : Nat → V) (v : V) (hk : n ≤ k)
    (hk64 : k < 2 ^ 64) (hhome : k % 2 ^ (7 + (c - 1)) = 0) (hn : n < 2 ^ (7 + (c - 1)))
    (hfar : 2 ^ 32 ≤ n) (hclose : n % 2 ^ 32 < 64) (hpos : 0 < n % 2 ^ 32) (m : KeyMap Nat V) :
    ∃ cut, ¬ Atomic (idConfig V ones) [.crash (.emplace (k, v)) cut []] (filled c f n) m := by
  have hsat := far_emplace ones f v hk hk64 hhome hn hclose []
  have hbad := not_ownership_entered ones (k := k) f v hn hfar hclose hpos
  refine ⟨((emplace (idConfig V ones) fun _ => (k, v)).stores ⟨filled c f n, []⟩).length, ?_⟩
  rintro ⟨-, t', m', hrec, -, hwf, -⟩
  simp only [Event.run, Op.cut] at hrec
  rw [cut_length] at hrec
  cases hr : (emplace (idConfig V ones) fun _ => (k, v)).result ⟨filled c f n, []⟩ with
  | error e => exact hsat.of_error hr
  | ok r =>
    rw [(hsat.of_ok hr).2] at hrec
    refine not_wellFormed_recovered (isStable_valueSetStable 1 c) ?_ hbad hrec hwf
    change (n * 2 ^ 8 + 2 ^ 8) % 2 ^ 8 == 0
    rw [beq_iff_eq]
    omega

/-- With `2 ^ 33` buckets and the first `2 ^ 32 + 1` full, the insertion of a key with home 0 followed by a crash leaves
a table that recovery does not make well formed. -/
theorem not_atomic_far : ∃ m cut,
    WellFormed (idConfig Unit Owner.maskAllOnes) (filled 27 (fun _ => ()) (2 ^ 32 + 1)) m ∧
      ¬ Atomic (idConfig Unit Owner.maskAllOnes) [.crash (.emplace (2 ^ 33, ())) cut []]
        (filled 27 (fun _ => ()) (2 ^ 32 + 1)) m := by
  obtain ⟨m, hwf⟩ := filled_wellFormed Owner.maskAllOnes (fun _ => ()) (c := 27) 2863311531
    (by decide) (by decide) (by decide : 2 ^ 32 + 1 ≤ _)
  obtain ⟨cut, hcut⟩ := far_not_atomic Owner.maskAllOnes (c := 27) (n := 2 ^ 32 + 1) (k := 2 ^ 33)
    (fun _ => ()) () (by decide) (by decide) (by decide) (by decide) (by decide) (by decide)
    (by decide) m
  exact ⟨m, cut, hwf, hcut⟩

end Far

end Comanche.Hstore
