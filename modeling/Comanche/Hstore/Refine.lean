import Comanche.Hstore.Direct
import Comanche.Hstore.Erase

/-!
# The table as a finite map

Runs of `emplace`, `erase` and `at` on a table built by `persist_map`, compared with the same calls on a
finite map.
-/

namespace Comanche.Hstore

open Lib

variable {K κ V : Type} [DecidableEq κ] [Inhabited K] [Inhabited V]

inductive Op (K κ V : Type) where
  | emplace (kv : K × V)
  | erase (k : κ)
  | at_ (k : κ)

inductive Outcome (V : Type) where
  | inserted (b : Bool)
  | erased (n : Nat)
  | mapped (v : V)
  | thrown (e : Exc)
  deriving DecidableEq

def Outcome.of {α : Type} (f : α → Outcome V) (r : Except Exc α) : Outcome V :=
  match r with
  | .ok a => f a
  | .error e => .thrown e

def Op.run (cfg : Config K κ V) : Op K κ V → HopHash K V → Outcome V × HopHash K V
  | .emplace kv, w =>
      let m := Hstore.emplace cfg fun _ => kv
      (.of (fun r => .inserted r.2) (m.result w), m.final w)
  | .erase k, w =>
      let m := Hstore.erase cfg k
      (.of .erased (m.result w), m.final w)
  | .at_ k, w =>
      let m := Hstore.at_ cfg k
      (.of .mapped (m.result w), m.final w)

def Op.spec (cfg : Config K κ V) : Op K κ V → KeyMap κ V → Outcome V × KeyMap κ V
  | .emplace kv, m =>
      if cfg.key kv.1 ∈ m then (.inserted false, m)
      else (.inserted true, m.insert (cfg.key kv.1) kv.2)
  | .erase k, m => (.erased (if k ∈ m then 1 else 0), m.erase k)
  | .at_ k, m =>
      match m.lookup k with
      | some v => (.mapped v, m)
      | none => (.thrown .outOfRange, m)

/-- The outcomes of a run, each with the `size()` after it, and the final state. -/
def run (cfg : Config K κ V) : List (Op K κ V) → HopHash K V →
    List (Outcome V × Nat) × HopHash K V
  | [], w => ([], w)
  | op :: ops, w =>
      let (o, w') := op.run cfg w
      let (os, w'') := run cfg ops w'
      ((o, w'.table.size) :: os, w'')

def runSpec (cfg : Config K κ V) : List (Op K κ V) → KeyMap κ V →
    List (Outcome V × Nat) × KeyMap κ V
  | [], m => ([], m)
  | op :: ops, m =>
      let (o, m') := op.spec cfg m
      let (os, m'') := runSpec cfg ops m'
      ((o, m'.keys.card) :: os, m'')

def AllCalls (cfg : Config K κ V) (P : HopHash K V → Op K κ V → Prop) :
    List (Op K κ V) → HopHash K V → Prop
  | [], _ => True
  | op :: ops, w => P w op ∧ AllCalls cfg P ops (op.run cfg w).2

def Exhausts (cfg : Config K κ V) (w : HopHash K V) (op : Op K κ V) : Prop :=
  ((op.run cfg w).1 = .thrown .moveStuck ∨ (op.run cfg w).1 = .thrown .hopHashFull) ∧
    (op.run cfg w).2.table.segmentCountNotStable = segmentCapacity

/-- An insertion of a key that is not there has room in the sense of `Roomy`. -/
def HasRoom (cfg : Config K κ V) (w : HopHash K V) : Op K κ V → Prop
  | .emplace kv =>
      locateKey cfg w.table (cfg.key kv.1) (bucket cfg w.table (cfg.key kv.1)) = none →
        Roomy cfg w.table (cfg.key kv.1)
  | .erase _ => True
  | .at_ _ => True

structure Stands (cfg : Config K κ V) (w : HopHash K V) (m : KeyMap κ V) : Prop where
  wellFormed : WellFormed cfg w.table m
  log : freedHead w.log = none

variable {cfg : Config K κ V} {w : HopHash K V} {m : KeyMap κ V}

omit [Inhabited K] [Inhabited V] in
theorem at_sat {C : HopHash K V → Prop} {k : κ} (hC : ∀ l, freedHead l = none → C ⟨w.table, l⟩) (h : Stands cfg w m) :
    Sat (at_ cfg k) w C (fun v w' => m.lookup k = some v ∧ Stands cfg w' m)
      (fun e w' => e = .outOfRange ∧ k ∉ m ∧ Stands cfg w' m) := by
  refine sat_getTable_bind (sat_call_bind (hC _ h.log) (sat_call_bind (hC _ rfl) ?_))
  cases hlocate : locateKey cfg w.table k (bucket cfg w.table k) with
  | none =>
    exact Sat.fail (hC _ rfl) ⟨rfl, h.wellFormed.represents.locateKey_eq_none hlocate, h.wellFormed, rfl⟩
  | some j =>
    obtain ⟨p, -, -, -, hlookup⟩ := h.wellFormed.represents.locateKey_eq_some hlocate
    exact Sat.pure (hC _ rfl) ⟨hlookup, h.wellFormed, rfl⟩

theorem run_op_stands (h : Stands cfg w m) (op : Op K κ V) (hroom : HasRoom cfg w op) :
    ((op.run cfg w).1 = (op.spec cfg m).1 ∧ Stands cfg (op.run cfg w).2 (op.spec cfg m).2) ∨
      ((cfg.autoResize = true → Exhausts cfg w op) ∧ Stands cfg (op.run cfg w).2 m) := by
  obtain ⟨t, l⟩ := w
  have hwf : WellFormed cfg t m := h.wellFormed
  have hl : freedHead l = none := h.log
  cases op with
  | emplace kv =>
    have hsat := emplace_sat (C := fun _ => True) (fun _ => kv) (fun _ => rfl) (fun _ _ _ _ => trivial) hwf l hl
    unfold Exhausts
    simp only [Op.run, Op.spec]
    cases hr : (emplace cfg fun _ => kv).result ⟨t, l⟩ with
    | ok r =>
      obtain ⟨hlog, hpresent, habsent⟩ := hsat.of_ok hr
      left
      by_cases hmem : cfg.key kv.1 ∈ m
      · obtain ⟨hfalse, htable, -⟩ := hpresent hmem
        rw [if_pos hmem]
        simp only [Outcome.of, hfalse]
        exact ⟨trivial, by rw [htable]; exact hwf, hlog⟩
      · obtain ⟨htrue, hins⟩ := habsent hmem
        obtain ⟨-, -, hwf'⟩ := hins (hroom (hwf.represents.locateKey_of_notMem hmem))
        rw [if_neg hmem]
        simp only [Outcome.of, htrue]
        exact ⟨trivial, hwf', hlog⟩
    | error e =>
      obtain ⟨he, hwf', hlog, hcount⟩ := hsat.of_error hr
      right
      simp only [Outcome.of]
      refine ⟨fun hauto => ⟨?_, hcount hauto⟩, hwf', hlog⟩
      cases e with
      | moveStuck => exact Or.inl rfl
      | hopHashFull => exact Or.inr rfl
      | _ => cases he
  | erase k =>
    have hsat := erase_sat (C := fun _ => True) (k := k) (fun _ _ _ => trivial) hwf l hl
    left
    simp only [Op.run, Op.spec]
    cases hr : (erase cfg k).result ⟨t, l⟩ with
    | ok r =>
      obtain ⟨hcount, hwf', hlog, -⟩ := hsat.of_ok hr
      simp only [Outcome.of, hcount]
      exact ⟨trivial, hwf', hlog⟩
    | error e => exact (hsat.of_error hr).elim
  | at_ k =>
    have hsat := at_sat (C := fun _ => True) (k := k) (fun _ _ => trivial) h
    left
    simp only [Op.run, Op.spec]
    cases hr : (at_ cfg k).result ⟨t, l⟩ with
    | ok v =>
      obtain ⟨hlookup, hstands⟩ := hsat.of_ok hr
      rw [hlookup]
      exact ⟨rfl, hstands⟩
    | error e =>
      obtain ⟨rfl, habsent, hstands⟩ := hsat.of_error hr
      rw [Finmap.lookup_eq_none.mpr habsent]
      exact ⟨rfl, hstands⟩

theorem run_of_stands (hauto : cfg.autoResize = true) (ops : List (Op K κ V)) (h : Stands cfg w m)
    (hroom : AllCalls cfg (HasRoom cfg) ops w) (hfit : AllCalls cfg (fun w op => ¬ Exhausts cfg w op) ops w) :
    (run cfg ops w).1 = (runSpec cfg ops m).1 := by
  induction ops generalizing w m with
  | nil => rfl
  | cons op ops ih =>
    obtain ⟨hroom₀, hroom⟩ := hroom
    obtain ⟨hfit₀, hfit⟩ := hfit
    obtain ⟨hout, hstands⟩ :=
      (run_op_stands h op hroom₀).resolve_right fun hex => hfit₀ (hex.1 hauto)
    have hrest := ih hstands hroom hfit
    simp only [run, runSpec]
    rw [hrest, hout, hstands.wellFormed.size]

theorem stands_run (ops : List (Op K κ V)) (h : Stands cfg w m)
    (hroom : AllCalls cfg (HasRoom cfg) ops w) : ∃ m', Stands cfg (run cfg ops w).2 m' := by
  induction ops generalizing w m with
  | nil => exact ⟨m, h⟩
  | cons op ops ih =>
    obtain ⟨hroom₀, hroom⟩ := hroom
    rcases run_op_stands h op hroom₀ with ⟨-, hstands⟩ | ⟨-, hstands⟩
    · exact ih hstands hroom
    · exact ih hstands hroom

omit [DecidableEq κ] in
theorem persistMap_not_claims (n i p : Nat) : ¬ Claims (persistMap n : Table K V) i p := by
  rintro ⟨-, hbit⟩
  rw [show (persistMap n : Table K V).owner i = 0#64 from rfl, BitVec.getLsbD_zero] at hbit
  cases hbit

theorem persistMap_stands {n : Nat} (hn : segmentCountSpecified n ≤ segmentCapacity) :
    Stands cfg ⟨persistMap n, []⟩ ∅ := by
  have hcount : (persistMap n : Table K V).segmentCountNotStable = segmentCountSpecified n :=
    ValueUnstable.valueNotStable_valueSetStable 1 _
  have hnone := persistMap_not_claims (K := K) (V := V) n
  refine ⟨⟨⟨⟨fun i p hc => absurd hc (hnone i p), fun k v => ?_,
    fun i p p' hc => absurd hc (hnone i p)⟩, ?_, ?_, ?_, fun i hi => ?_⟩, fun b _ => ?_, rfl⟩, rfl⟩
  · rw [Finmap.lookup_empty]
    constructor
    · intro h
      cases h
    · rintro ⟨i, p, hc, -⟩
      exact absurd hc (hnone i p)
  · rw [hcount]
    rfl
  · rw [hcount]
    unfold segmentCountSpecified log2
    split <;> omega
  · rwa [hcount]
  · rw [hcount] at hi
    exact decide_eq_true hi
  · constructor
    · intro h
      cases h
    · rintro ⟨i, p, hc, -⟩
      exact absurd hc (hnone i p)

section Append

theorem run_append (a b : List (Op K κ V)) (w : HopHash K V) :
    run cfg (a ++ b) w = ((run cfg a w).1 ++ (run cfg b (run cfg a w).2).1, (run cfg b (run cfg a w).2).2) := by
  induction a generalizing w with
  | nil => rfl
  | cons op a ih =>
    simp only [List.cons_append, run]
    rw [ih]

omit [Inhabited K] [Inhabited V] in
theorem runSpec_append (a b : List (Op K κ V)) (m : KeyMap κ V) :
    runSpec cfg (a ++ b) m = ((runSpec cfg a m).1 ++ (runSpec cfg b (runSpec cfg a m).2).1,
      (runSpec cfg b (runSpec cfg a m).2).2) := by
  induction a generalizing m with
  | nil => rfl
  | cons op a ih =>
    simp only [List.cons_append, runSpec]
    rw [ih]

theorem allCalls_append {P : HopHash K V → Op K κ V → Prop} {a b : List (Op K κ V)}
    (ha : AllCalls cfg P a w) (hb : AllCalls cfg P b (run cfg a w).2) : AllCalls cfg P (a ++ b) w := by
  induction a generalizing w with
  | nil => exact hb
  | cons op a ih => exact ⟨ha.1, ih ha.2 hb⟩

theorem length_run (ops : List (Op K κ V)) (w : HopHash K V) (m : KeyMap κ V) :
    (run cfg ops w).1.length = (runSpec cfg ops m).1.length := by
  induction ops generalizing w m with
  | nil => rfl
  | cons op ops ih =>
    simp only [run, runSpec, List.length_cons]
    rw [ih]

end Append

/-- A `hop_hash` constructed over an empty `persist_map` for `n` objects. -/
def created (cfg : Config K κ V) (n : Nat) : HopHash K V :=
  (hopHashBase cfg .create).final ⟨persistMap n, []⟩

omit [DecidableEq κ] in
theorem created_eq (cfg : Config K κ V) (n : Nat) : created cfg n = ⟨persistMap n, []⟩ := by
  have hstable : ValueUnstable.isStable 1 (persistMap n : Table K V).segmentCountActual = true :=
    ValueUnstable.isStable_valueSetStable 1 _
  have hsat : Sat (hopHashBase cfg .create) ⟨persistMap n, []⟩ (fun _ => True)
      (fun _ w' => w' = ⟨persistMap n, []⟩) (fun _ w' => w' = ⟨persistMap n, []⟩) := by
    refine sat_getTable_bind (Sat.bind (Sat.when (fun _ => Sat.fail trivial rfl) fun _ => ⟨trivial, ?_⟩))
    refine Sat.bind (Sat.when (fun h => absurd h (by decide)) fun _ => ⟨trivial, ?_⟩)
    refine Sat.bind (Sat.when (fun h => ?_) fun _ => ⟨trivial, ?_⟩)
    · rw [hstable] at h
      cases h
    · have hsize : ValueUnstable.isStable 8 (persistMap n : Table K V).sizeControl = true := rfl
      refine sat_getTable_bind (Sat.when (fun h => ?_) fun _ => ⟨trivial, rfl⟩)
      rw [hsize] at h
      cases h
  unfold created
  cases hr : (hopHashBase cfg .create).result ⟨persistMap n, []⟩ with
  | ok r => exact hsat.of_ok hr
  | error e => exact hsat.of_error hr

/-- Every run on a table built by `persist_map` gives the results the same calls give on a finite map, where each key
that is new has its home less than `2 ^ 32` buckets before a free one. -/
theorem run_eq_runSpec (cfg : Config K κ V) (hauto : cfg.autoResize = true) {n : Nat}
    (hn : segmentCountSpecified n ≤ segmentCapacity) (ops : List (Op K κ V))
    (hfit : AllCalls cfg (fun w op => ¬ Exhausts cfg w op) ops (created cfg n))
    (hroom : AllCalls cfg (HasRoom cfg) ops (created cfg n)) :
    (run cfg ops (created cfg n)).1 = (runSpec cfg ops ∅).1 := by
  rw [created_eq] at *
  exact run_of_stands hauto ops (persistMap_stands hn) hroom hfit

def smallRun : List (Op Nat Nat Nat) :=
  [.emplace (3, 30), .emplace (3, 31), .at_ 3, .erase 3, .at_ 3]

theorem run_eq_runSpec_smallRun :
    (run (idConfig Nat Owner.maskAllOnes) smallRun (created (idConfig Nat Owner.maskAllOnes) 1)).1 =
      (runSpec (idConfig Nat Owner.maskAllOnes) smallRun ∅).1 := by
  refine run_eq_runSpec _ rfl (by decide) _ ?_ ?_
  · rw [created_eq]
    refine ⟨?_, ?_, ?_, ?_, ?_, trivial⟩
    all_goals
      rintro ⟨h | h, -⟩
      all_goals exact absurd h (by decide)
  · rw [created_eq]
    exact ⟨fun _ => Or.inl (by decide), fun _ => Or.inl (by decide), trivial, trivial, trivial,
      trivial⟩

section Far

def fillOps (f : Nat → V) (n : Nat) : List (Op Nat Nat V) :=
  (List.range n).map fun i => .emplace (i, f i)

omit [Inhabited V] in
theorem fillOps_succ (f : Nat → V) (n : Nat) : fillOps f (n + 1) = fillOps f n ++ [.emplace (n, f n)] := by
  unfold fillOps
  rw [List.range_succ, List.map_append]
  rfl

theorem persistMap_eq_filled (f : Nat → V) (n : Nat) :
    (persistMap n : Table Nat V) = filled (segmentCountSpecified n) f 0 := by
  unfold persistMap filled
  simp

theorem run_fillOps (ones : BitVec 64) {c : Nat} (f : Nat → V) (hc : c ≤ segmentCapacity) (n : Nat)
    (hn : n ≤ 2 ^ (7 + (c - 1))) (l : List (Step Nat V)) :
    AllCalls (idConfig V ones) (HasRoom (idConfig V ones)) (fillOps f n) ⟨filled c f 0, l⟩ ∧
      AllCalls (idConfig V ones) (fun w op => ¬ Exhausts (idConfig V ones) w op) (fillOps f n) ⟨filled c f 0, l⟩ ∧
      ∃ l', (run (idConfig V ones) (fillOps f n) ⟨filled c f 0, l⟩).2 = ⟨filled c f n, l'⟩ := by
  induction n with
  | zero => exact ⟨trivial, trivial, l, rfl⟩
  | succ n ih =>
    obtain ⟨hroom, hcalls, l', hrun⟩ := ih (by omega)
    have hlt : n < 2 ^ (7 + (c - 1)) := by omega
    have h64 := filled_lt_two_pow hc hlt
    have hsat := filled_emplace ones f hc hlt l'
    cases hr : (emplace (idConfig V ones) fun _ => (n, f n)).result ⟨filled c f n, l'⟩ with
    | error e => exact (hsat.of_error hr).elim
    | ok r =>
      obtain ⟨htrue, htable⟩ := hsat.of_ok hr
      rw [fillOps_succ]
      refine ⟨allCalls_append hroom ?_, allCalls_append hcalls ?_, ?_⟩
      · rw [hrun]
        refine ⟨fun _ => Or.inr ⟨0, by decide, ?_⟩, trivial⟩
        -- the home of the next key is the first free bucket
        change (filled c f n).state ((filled c f n).addSmall (bucket _ (filled c f n) n) 0) = .free
        rw [filled_bucket h64, Nat.mod_eq_of_lt hlt, filled_addSmall (by omega)]
        exact if_neg (Nat.lt_irrefl n)
      · rw [hrun]
        refine ⟨?_, trivial⟩
        rintro ⟨hout, -⟩
        simp only [Op.run, hr, Outcome.of] at hout
        rcases hout with hout | hout <;> cases hout
      · rw [run_append, hrun]
        refine ⟨((emplace (idConfig V ones) fun _ => (n, f n)).final ⟨filled c f n, l'⟩).log, ?_⟩
        simp only [run, Op.run]
        rw [← htable]

omit [Inhabited V] in
theorem runSpec_fillOps (ones : BitVec 64) (f : Nat → V) (n k : Nat) :
    k ∈ (runSpec (idConfig V ones) (fillOps f n) ∅).2 ↔ k < n := by
  induction n generalizing k with
  | zero =>
    change k ∈ (∅ : KeyMap Nat V) ↔ k < 0
    simp [Finmap.notMem_empty]
  | succ n ih =>
    rw [fillOps_succ, runSpec_append]
    simp only [runSpec, Op.spec]
    split
    · rename_i hmem
      rw [ih]
      change n ∈ _ at hmem
      have := (ih n).mp hmem
      omega
    · rw [Finmap.mem_insert, ih]
      change k = n ∨ _ ↔ _
      omega

def farOps (n k : Nat) : List (Op Nat Nat Unit) :=
  fillOps (fun _ => ()) n ++ [.emplace (k, ()), .at_ k]

theorem far_emplace (ones : BitVec 64) {c n k : Nat} (f : Nat → V) (v : V) (hk : n ≤ k)
    (hk64 : k < 2 ^ 64) (hhome : k % 2 ^ (7 + (c - 1)) = 0) (hn : n < 2 ^ (7 + (c - 1)))
    (hclose : n % 2 ^ 32 < 64) (l : List (Step Nat V)) :
    Sat (emplace (idConfig V ones) fun _ => (k, v)) ⟨filled c f n, l⟩ (fun _ => True)
      (fun r w' => r.2 = true ∧ w'.table = entered (filled c f n) 0 n (k, v)) (fun _ _ => False) := by
  have hnear := filled_nearestFree (f := f) (Nat.zero_le n) hn
  rw [Nat.sub_zero] at hnear
  refine (emplace_direct ((filled_bucket hk64).trans hhome) (filled_locateKey hk (by omega)) hnear hclose l).post ?_
  rintro r w' ⟨rfl, hw'⟩
  exact ⟨rfl, hw'⟩

theorem far_bucket {ones : BitVec 64} {c n k : Nat} {f : Nat → V} {kv : Nat × V}
    (hk64 : k < 2 ^ 64) (hhome : k % 2 ^ (7 + (c - 1)) = 0) :
    bucket (idConfig V ones) (entered (filled c f n) 0 n kv) k = 0 :=
  (bucket_congr (t := filled c f n) rfl k).trans ((filled_bucket hk64).trans hhome)

theorem far_locateKey {ones : BitVec 64} {c n k : Nat} {f : Nat → V} {v : V} (hk : n ≤ k)
    (hn : n < 2 ^ (7 + (c - 1))) (hfar : 2 ^ 32 ≤ n) (hclose : n % 2 ^ 32 < 64) :
    locateKey (idConfig V ones) (entered (filled c f n) 0 n (k, v)) k 0 = none := by
  cases hlocate : locateKey (idConfig V ones) (entered (filled c f n) 0 n (k, v)) k 0 with
  | none => rfl
  | some j =>
    obtain ⟨q, hbit, rfl, hkey⟩ := Represents.locateFrom_eq_some (Table.bucketCount_pos _) hlocate
    have hbit := (getLsbD_claim (filled c f n) 0 (n % 2 ^ 32) 0 q).symm.trans hbit
    rw [Bool.or_eq_true, filled_getLsbD, decide_eq_true_iff, Nat.mod_eq_of_lt hclose] at hbit
    have hq : q < n := by omega
    change (Function.update (filled c f n).value ((filled c f n).addSmall 0 n) (k, v)
      ((filled c f n).addSmall 0 q)).1 = k at hkey
    rw [filled_addSmall (by omega), filled_addSmall (by omega), Function.update_of_ne (by omega)] at hkey
    change (if 0 + q < n then (0 + q, f (0 + q)) else default).1 = k at hkey
    rw [if_pos (by omega)] at hkey
    simp only at hkey
    omega

theorem run_farOps (ones : BitVec 64) {c n k : Nat} (hc : c ≤ segmentCapacity) (hk : n ≤ k)
    (hk64 : k < 2 ^ 64) (hhome : k % 2 ^ (7 + (c - 1)) = 0) (hn : n < 2 ^ (7 + (c - 1)))
    (hfar : 2 ^ 32 ≤ n) (hclose : n % 2 ^ 32 < 64) :
    AllCalls (idConfig Unit ones) (fun w op => ¬ Exhausts (idConfig Unit ones) w op) (farOps n k)
        ⟨filled c (fun _ => ()) 0, []⟩ ∧ (run (idConfig Unit ones) (farOps n k) ⟨filled c (fun _ => ()) 0, []⟩).1 ≠
        (runSpec (idConfig Unit ones) (farOps n k) ∅).1 := by
  obtain ⟨-, hcalls, l, hrun⟩ := run_fillOps ones (fun _ => ()) hc n hn.le []
  have hsat := far_emplace ones (fun _ => ()) () hk hk64 hhome hn hclose l
  have hnotin : k ∉ (runSpec (idConfig Unit ones) (fillOps (fun _ => ()) n) ∅).2 := by
    rw [runSpec_fillOps]
    omega
  generalize hm : (runSpec (idConfig Unit ones) (fillOps (fun _ => ()) n) ∅).2 = m at hnotin
  cases hr : (emplace (idConfig Unit ones) fun _ => (k, ())).result
      ⟨filled c (fun _ => ()) n, l⟩ with
  | error e => exact (hsat.of_error hr).elim
  | ok r =>
    obtain ⟨htrue, htable⟩ := hsat.of_ok hr
    generalize hw : (emplace (idConfig Unit ones) fun _ => (k, ())).final
      ⟨filled c (fun _ => ()) n, l⟩ = w at htable
    have hat : (at_ (idConfig Unit ones) k).result w = .error .outOfRange := by
      have hnone : Sat (at_ (idConfig Unit ones) k) w (fun _ => True) (fun _ _ => False) (fun e _ => e = .outOfRange) := by
        refine sat_getTable_bind (sat_call_bind trivial (sat_call_bind trivial ?_))
        dsimp only
        rw [htable, far_bucket hk64 hhome, far_locateKey hk hn hfar hclose]
        exact Sat.fail trivial rfl
      cases hres : (at_ (idConfig Unit ones) k).result w with
      | ok v => exact (hnone.of_ok hres).elim
      | error e => rw [hnone.of_error hres]
    unfold farOps
    refine ⟨allCalls_append hcalls ?_, fun heq => ?_⟩
    · rw [hrun]
      refine ⟨?_, ?_, trivial⟩
      · rintro ⟨hout, -⟩
        simp only [Op.run, hr, Outcome.of] at hout
        rcases hout with hout | hout <;> cases hout
      · rintro ⟨hout, -⟩
        simp only [Op.run, hw, hat, Outcome.of] at hout
        rcases hout with hout | hout <;> cases hout
    · -- the last outcomes differ: the table throws where the map has the key
      rw [run_append, runSpec_append, hrun, hm] at heq
      have hlast := (List.append_inj heq (length_run _ _ _)).2
      simp only [run, runSpec, Op.run, Op.spec, hw, hat, Outcome.of] at hlast
      rw [if_neg (show ¬ (idConfig Unit ones).key k ∈ m from hnotin)] at hlast
      rw [show (idConfig Unit ones).key k = k from rfl] at hlast
      simp only [Finmap.lookup_insert, List.cons.injEq, Prod.mk.injEq] at hlast
      exact nomatch hlast.2.1.1

/-- With `2 ^ 33` buckets and the first `2 ^ 32 + 1` of them full, a key with home 0 is inserted and
not found. -/
theorem run_ne_runSpec_farOps : AllCalls (idConfig Unit Owner.maskAllOnes)
        (fun w op => ¬ Exhausts (idConfig Unit Owner.maskAllOnes) w op)
        (farOps (2 ^ 32 + 1) (2 ^ 33)) (created (idConfig Unit Owner.maskAllOnes) 2863311531) ∧
      (run (idConfig Unit Owner.maskAllOnes) (farOps (2 ^ 32 + 1) (2 ^ 33))
          (created (idConfig Unit Owner.maskAllOnes) 2863311531)).1 ≠
        (runSpec (idConfig Unit Owner.maskAllOnes) (farOps (2 ^ 32 + 1) (2 ^ 33)) ∅).1 := by
  rw [created_eq, persistMap_eq_filled fun _ => (), show segmentCountSpecified 2863311531 = 27 by decide]
  exact run_farOps _ (by decide) (by decide) (by decide) (by decide) (by decide) (by decide)
    (by decide)

end Far

end Comanche.Hstore
