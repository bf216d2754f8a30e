import Comanche.Hstore.Refine

/-!
# Owner words and contents

The representation invariant in the terms of the table alone.
-/

namespace Comanche.Hstore

open Lib

variable {K κ V : Type}

def hashIndex (cfg : Config K κ V) (N : Nat) (k : κ) : Nat := (cfg.hf k).toNat % N

structure Ownership (cfg : Config K κ V) (t : Table K V) : Prop where
  bit_iff : ∀ i p, i < t.bucketCount → p < 64 →
    ((t.owner i).getLsbD p = true ↔ t.state ((i + p) % t.bucketCount) = .inUse ∧
      hashIndex cfg t.bucketCount (cfg.key (t.value ((i + p) % t.bucketCount)).1) = i)
  owned : ∀ b, b < t.bucketCount → t.state b = .inUse →
    ∃! x : Nat × Nat, x.1 < t.bucketCount ∧ x.2 ≤ 63 ∧ (t.owner x.1).getLsbD x.2 = true ∧
      (x.1 + x.2) % t.bucketCount = b
  unowned : ∀ b, b < t.bucketCount → t.state b = .free → ∀ i p, i < t.bucketCount →
    (i + p) % t.bucketCount = b → (t.owner i).getLsbD p = false
  keys : ∀ b b', b < t.bucketCount → b' < t.bucketCount → t.state b = .inUse →
    t.state b' = .inUse → cfg.key (t.value b).1 = cfg.key (t.value b').1 → b = b'
  size : (ownerBits t).card = t.size

variable [DecidableEq κ] {cfg : Config K κ V} {t : Table K V} {m : KeyMap κ V}

omit [DecidableEq κ] in
theorem hashIndex_eq_bucket (k : κ) : hashIndex cfg t.bucketCount k = bucket cfg t k := by
  unfold hashIndex bucket
  rw [Table.bucketIx_eq_mod]

theorem WellFormed.home_unique (h : WellFormed cfg t m) {i p b : Nat} (hi : i < t.bucketCount)
    (hp : p < 64) (hb : t.addSmall i p = b) (hused : t.state b = .inUse)
    (hhome : bucket cfg t (cfg.key (t.value b).1) = i) : Claims t i p := by
  have hN := t.le_bucketCount
  obtain ⟨i', p', hc, heq⟩ := (h.states b (hb ▸ t.addSmall_lt hi)).mp hused
  have hi' := h.represents.home i' p' hc
  unfold entry at hi'
  rw [heq, hhome] at hi'
  subst hi'
  have hpp : p = p' := Circle.step_inj hi (by omega) hc.lt_bucketCount (hb.trans heq.symm)
  rwa [hpp]

theorem WellFormed.ownership (h : WellFormed cfg t m) : Ownership cfg t := by
  refine ⟨fun i p hi hp => ?_, fun b hb hused => ?_, fun b hb hfree i p hi heq => ?_,
    fun b b' hb hb' hused hused' hkey => ?_, ?_⟩
  · rw [hashIndex_eq_bucket]
    constructor
    · intro hbit
      have hc : Claims t i p := ⟨hi, hbit⟩
      exact ⟨(h.states _ (t.addSmall_lt hi)).mpr hc.claimed, h.represents.home i p hc⟩
    · rintro ⟨hused, hhome⟩
      exact (h.home_unique hi hp rfl hused hhome).2
  · obtain ⟨i, p, hc, heq⟩ := (h.states b hb).mp hused
    have hp := hc.lt_size
    refine ⟨(i, p), ⟨hc.1, by omega, hc.2, heq⟩, ?_⟩
    rintro ⟨i', p'⟩ ⟨hi', -, hbit, heq'⟩
    obtain ⟨rfl, rfl⟩ := h.represents.claim_unique ⟨hi', hbit⟩ hc (heq'.trans heq.symm)
    rfl
  · rw [Bool.eq_false_iff]
    intro hbit
    exact (h.free_iff hb).mp hfree ⟨i, p, ⟨hi, hbit⟩, heq⟩
  · obtain ⟨i, p, hc, rfl⟩ := (h.states b hb).mp hused
    obtain ⟨i', p', hc', rfl⟩ := (h.states b' hb').mp hused'
    obtain ⟨rfl, rfl⟩ := h.represents.key_inj hc hc' hkey
    rfl
  · rw [h.represents.card_ownerBits, h.size]

variable [Inhabited K] [Inhabited V]

/-- After every such run the owner bits say exactly which bucket each entry belongs to, and `size` is their number. -/
theorem run_ownership (cfg : Config K κ V) {n : Nat}
    (hn : segmentCountSpecified n ≤ segmentCapacity) (ops : List (Op K κ V))
    (hroom : AllCalls cfg (HasRoom cfg) ops (created cfg n)) :
    Ownership cfg (run cfg ops (created cfg n)).2.table := by
  rw [created_eq] at *
  obtain ⟨m, hstands⟩ := stands_run ops (persistMap_stands hn) hroom
  exact hstands.wellFormed.ownership

theorem run_ownership_smallRun : Ownership (idConfig Nat Owner.maskAllOnes)
    (run (idConfig Nat Owner.maskAllOnes) smallRun (created (idConfig Nat Owner.maskAllOnes) 1)).2.table := by
  refine run_ownership _ (by decide) _ ?_
  rw [created_eq]
  exact ⟨fun _ => Or.inl (by decide), fun _ => Or.inl (by decide), trivial, trivial, trivial,
    trivial⟩

omit [Inhabited K] in
theorem not_ownership_entered (ones : BitVec 64) {c n k : Nat} (f : Nat → V) (v : V)
    (hn : n < 2 ^ (7 + (c - 1))) (hfar : 2 ^ 32 ≤ n) (hclose : n % 2 ^ 32 < 64) (hpos : 0 < n % 2 ^ 32) :
    ¬ Ownership (idConfig V ones) (entered (filled c f n) 0 n (k, v)) := by
  intro h
  have hN : (entered (filled c f n) 0 n (k, v)).bucketCount = 2 ^ (7 + (c - 1)) :=
    filled_bucketCount c f n
  have hp : n % 2 ^ 32 < n := by omega
  have hbit := (h.bit_iff 0 (n % 2 ^ 32) (Table.bucketCount_pos _) hclose).mp
    ((getLsbD_claim (filled c f n) 0 (n % 2 ^ 32) 0 _).trans (by simp [-Nat.reducePow, Nat.mod_eq_of_lt hclose]))
  rw [hN, Nat.zero_add, Nat.mod_eq_of_lt (by omega : n % 2 ^ 32 < 2 ^ (7 + (c - 1)))] at hbit
  have hhome := hbit.2
  change hashIndex _ _ (Function.update (filled c f n).value ((filled c f n).addSmall 0 n) (k, v)
    (n % 2 ^ 32)).1 = 0 at hhome
  rw [filled_addSmall (by omega), Function.update_of_ne (by omega)] at hhome
  change (BitVec.ofNat 64 (if n % 2 ^ 32 < n then (n % 2 ^ 32, f (n % 2 ^ 32)) else default).1).toNat
    % _ = 0 at hhome
  rw [if_pos hp, BitVec.toNat_ofNat, Nat.mod_eq_of_lt (by omega : n % 2 ^ 32 < 2 ^ 64),
    Nat.mod_eq_of_lt (by omega)] at hhome
  omega

/-- After the far insertion bit 1 of bucket 0 claims bucket 1, whose key has home 1. -/
theorem not_ownership_farOps : ¬ Ownership (idConfig Unit Owner.maskAllOnes) (run (idConfig Unit Owner.maskAllOnes)
      (fillOps (fun _ => ()) (2 ^ 32 + 1) ++ [.emplace (2 ^ 33, ())])
      (created (idConfig Unit Owner.maskAllOnes) 2863311531)).2.table := by
  rw [created_eq, persistMap_eq_filled fun _ => (),
    show segmentCountSpecified 2863311531 = 27 by decide]
  obtain ⟨-, -, l, hrun⟩ := run_fillOps Owner.maskAllOnes (c := 27) (fun _ => ()) (by decide)
    (2 ^ 32 + 1) (by decide) []
  have hsat := far_emplace Owner.maskAllOnes (c := 27) (n := 2 ^ 32 + 1) (k := 2 ^ 33)
    (fun _ => ()) () (by decide) (by decide) (by decide) (by decide) (by decide) l
  rw [run_append, hrun]
  have hfinal : (run (idConfig Unit Owner.maskAllOnes) [.emplace (2 ^ 33, ())]
      ⟨filled 27 (fun _ => ()) (2 ^ 32 + 1), l⟩).2.table =
      entered (filled 27 (fun _ => ()) (2 ^ 32 + 1)) 0 (2 ^ 32 + 1) (2 ^ 33, ()) := by
    simp only [run, Op.run]
    cases hr : (emplace (idConfig Unit Owner.maskAllOnes) fun _ => (2 ^ 33, ())).result
        ⟨filled 27 (fun _ => ()) (2 ^ 32 + 1), l⟩ with
    | error e => exact (hsat.of_error hr).elim
    | ok r => exact (hsat.of_ok hr).2
  rw [hfinal]
  exact not_ownership_entered _ _ _ (by decide) (by decide) (by decide) (by decide)

end Comanche.Hstore
