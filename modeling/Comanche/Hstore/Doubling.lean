import Comanche.Hstore.Ownership

/-!
# Doubling a table

What `resize` does to a table at rest, in the terms of the table alone.
-/

namespace Comanche.Hstore

open Lib ValueUnstable

variable {K κ V : Type}

/-- A table of `128 * 2 ^ k` buckets between operations: its segments are there, and neither the segment count nor
the size is marked as changing. -/
structure AtRest (t : Table K V) (k : Nat) : Prop where
  count : t.segmentCountActual = valueSetStable 1 (k + 1)
  segment : ∀ i, i ≤ k → t.segment i = true
  size : isStable 8 t.sizeControl = true

theorem AtRest.segmentCountNotStable {t : Table K V} {k : Nat} (h : AtRest t k) : t.segmentCountNotStable = k + 1 := by
  unfold Table.segmentCountNotStable
  rw [h.count, valueNotStable_valueSetStable]

theorem AtRest.bucketCount {t : Table K V} {k : Nat} (h : AtRest t k) : t.bucketCount = 128 * 2 ^ k := by
  unfold Table.bucketCount baseSegmentSize
  rw [h.segmentCountNotStable, Nat.add_sub_cancel, Nat.shiftLeft_eq]
  rfl

def pairs (cfg : Config K κ V) (t : Table K V) : Set (κ × V) :=
  {kv | ∃ b, b < t.bucketCount ∧ t.state b = .inUse ∧ (cfg.key (t.value b).1, (t.value b).2) = kv}

variable [DecidableEq κ] {cfg : Config K κ V} {t : Table K V} {m : KeyMap κ V}

theorem WellFormed.mem_pairs (h : WellFormed cfg t m) (k : κ) (v : V) : (k, v) ∈ pairs cfg t ↔ m.lookup k = some v := by
  rw [h.represents.lookup]
  constructor
  · rintro ⟨b, hb, hused, heq⟩
    obtain ⟨i, p, hc, rfl⟩ := (h.states b hb).mp hused
    exact ⟨i, p, hc, congrArg Prod.fst heq, congrArg Prod.snd heq⟩
  · rintro ⟨i, p, hc, rfl, rfl⟩
    exact ⟨_, t.addSmall_lt hc.1, (h.states _ (t.addSmall_lt hc.1)).mpr hc.claimed, rfl⟩

theorem WellFormed.atRest (h : WellFormed cfg t m) {k : Nat} (hk : t.segmentCountNotStable = k + 1) : AtRest t k := by
  refine ⟨by rw [h.count, hk], fun i hi => h.segment i (by omega), ?_⟩
  rw [h.size_eq, isStable_valueSetStable]

namespace Ownership

omit [DecidableEq κ] in
theorem claims_iff (h : Ownership cfg t) {i p : Nat} : Claims t i p ↔ i < t.bucketCount ∧ p < 64 ∧
    t.state (t.addSmall i p) = .inUse ∧ bucket cfg t (cfg.key (entry t i p).1) = i := by
  constructor
  · intro hc
    obtain ⟨hused, hhome⟩ := (h.bit_iff i p hc.1 hc.lt_size).mp hc.2
    exact ⟨hc.1, hc.lt_size, hused, (hashIndex_eq_bucket _).symm.trans hhome⟩
  · rintro ⟨hi, hp, hused, hhome⟩
    exact ⟨hi, (h.bit_iff i p hi hp).mpr ⟨hused, (hashIndex_eq_bucket _).trans hhome⟩⟩

omit [DecidableEq κ] in
theorem claimed_iff (h : Ownership cfg t) {b : Nat} (hb : b < t.bucketCount) : t.state b = .inUse ↔ Claimed t b := by
  constructor
  · intro hused
    obtain ⟨⟨i, p⟩, ⟨hi, -, hbit, heq⟩, -⟩ := h.owned b hb hused
    exact ⟨i, p, ⟨hi, hbit⟩, heq⟩
  · rintro ⟨i, p, hc, rfl⟩
    exact (h.claims_iff.mp hc).2.2.1

theorem exists_keyMap (h : Ownership cfg t) : ∃ m : KeyMap κ V, ∀ k v, m.lookup k = some v ↔ (k, v) ∈ pairs cfg t := by
  let used := (List.range t.bucketCount).filter fun b => t.state b = .inUse
  have hused : ∀ b, b ∈ used ↔ b < t.bucketCount ∧ t.state b = .inUse := fun b => by
    rw [List.mem_filter, List.mem_range, decide_eq_true_iff]
  let entries : List (Σ _ : κ, V) := used.map fun b => ⟨cfg.key (t.value b).1, (t.value b).2⟩
  have hnodup : entries.NodupKeys := by
    rw [List.NodupKeys, List.keys, List.map_map]
    refine List.Nodup.map_on (fun b hb b' hb' heq => ?_) (List.nodup_range.filter _)
    obtain ⟨hlt, hin⟩ := (hused b).mp hb
    obtain ⟨hlt', hin'⟩ := (hused b').mp hb'
    exact h.keys b b' hlt hlt' hin hin' heq
  refine ⟨⟨entries, hnodup⟩, fun k v => ?_⟩
  change List.dlookup k entries = some v ↔ _
  rw [← Option.mem_def, List.mem_dlookup_iff hnodup, List.mem_map]
  constructor
  · rintro ⟨b, hb, heq⟩
    cases heq
    exact ⟨b, ((hused b).mp hb).1, ((hused b).mp hb).2, rfl⟩
  · rintro ⟨b, hb, hin, heq⟩
    cases heq
    exact ⟨b, (hused b).mpr ⟨hb, hin⟩, rfl⟩

theorem wellFormed (h : Ownership cfg t) {k : Nat} (hrest : AtRest t k) (hk : k < 32)
    (hm : ∀ k v, m.lookup k = some v ↔ (k, v) ∈ pairs cfg t) : WellFormed cfg t m := by
  have hcount := hrest.segmentCountNotStable
  have hrep : Represents cfg t m := by
    refine ⟨fun i p hc => (h.claims_iff.mp hc).2.2.2, fun key v => (hm key v).trans ?_, fun i p p' hc hc' heq => ?_⟩
    · constructor
      · rintro ⟨b, hb, hused, heq⟩
        obtain ⟨i, p, hc, rfl⟩ := (h.claimed_iff hb).mp hused
        exact ⟨i, p, hc, congrArg Prod.fst heq, congrArg Prod.snd heq⟩
      · rintro ⟨i, p, hc, rfl, rfl⟩
        exact ⟨_, t.addSmall_lt hc.1, (h.claims_iff.mp hc).2.2.1, rfl⟩
    · have hb := h.keys _ _ (t.addSmall_lt hc.1) (t.addSmall_lt hc'.1) (h.claims_iff.mp hc).2.2.1
        (h.claims_iff.mp hc').2.2.1 heq
      exact Circle.step_inj hc.1 hc.lt_bucketCount hc'.lt_bucketCount hb
  refine ⟨⟨hrep, by rw [hrest.count, hcount], by omega, by rw [hcount]; exact hk, fun i hi => ?_⟩,
    fun b hb => h.claimed_iff hb, ?_⟩
  · exact hrest.segment i (by omega)
  · -- the size is the number of owner bits, which is that of the keys
    have hsize := h.size
    rw [hrep.card_ownerBits] at hsize
    have hstable := hrest.size
    unfold isStable at hstable
    unfold Table.size valueNotStable at hsize
    unfold valueSetStable
    rw [beq_iff_eq] at hstable
    rw [hsize, Nat.shiftLeft_eq, Nat.shiftRight_eq_div_pow]
    omega

end Ownership

variable [Inhabited K] [Inhabited V]

/-- `resize` ends normally, in a table of twice the size that is in step again and has the same pairs. -/
theorem resize_ownership (cfg : Config K κ V) {t : Table K V} {k : Nat} (hrest : AtRest t k) (hk : k < 31)
    (h : Ownership cfg t) : ∃ t' l', (resize cfg).exec ⟨t, []⟩ = (.ok (), ⟨t', l'⟩) ∧ AtRest t' (k + 1) ∧
      Ownership cfg t' ∧ t'.bucketCount = 2 * t.bucketCount ∧ pairs cfg t' = pairs cfg t ∧ t'.size = t.size := by
  obtain ⟨m, hm⟩ := h.exists_keyMap
  have hwf := h.wellFormed hrest (by omega) hm
  have hcount := hrest.segmentCountNotStable
  have hroom : t.segmentCountNotStable < segmentCapacity := by
    rw [hcount]
    exact Nat.succ_lt_succ hk
  have hsat := resize_sat (C := fun _ => True) (fun _ _ _ => trivial) hwf hroom [] rfl
  cases hr : (resize cfg).result ⟨t, []⟩ with
  | error e => exact (hsat.of_error hr).elim
  | ok r =>
    obtain ⟨hwf', -, hdoubled⟩ := hsat.of_ok hr
    refine ⟨_, _, Prod.ext hr rfl, hwf'.atRest (by rw [hdoubled.count, hcount]), hwf'.ownership,
      hdoubled.bucketCount, ?_, hwf'.size.trans hwf.size.symm⟩
    ext ⟨key, v⟩
    exact (hwf'.mem_pairs key v).trans (hwf.mem_pairs key v).symm

theorem resize_ownership_moved : ∃ t t' : Table Nat Nat, ∃ l', t.owner 126 = 1#64 ∧
    (resize (idConfig Nat Owner.maskAllOnes)).exec ⟨t, []⟩ = (.ok (), ⟨t', l'⟩) ∧ t'.bucketCount = 256 ∧
      pairs (idConfig Nat Owner.maskAllOnes) t' = pairs (idConfig Nat Owner.maskAllOnes) t := by
  have hstart : Stands (idConfig Nat Owner.maskAllOnes) ⟨persistMap 1, []⟩ ∅ := persistMap_stands (by decide)
  have hroom : AllCalls (idConfig Nat Owner.maskAllOnes) (HasRoom (idConfig Nat Owner.maskAllOnes)) [.emplace (254, 9)] ⟨persistMap 1, []⟩ :=
    ⟨fun _ => Or.inl (by decide), trivial⟩
  obtain ⟨m, hstands⟩ := stands_run _ hstart hroom
  have hrest := hstands.wellFormed.atRest (k := 0) (by decide +kernel)
  obtain ⟨t', l', hexec, -, -, hbuckets, hpairs, -⟩ := resize_ownership (idConfig Nat Owner.maskAllOnes) hrest (by decide)
    hstands.wellFormed.ownership
  exact ⟨_, t', l', by decide +kernel, hexec, hbuckets.trans (congrArg (2 * ·) hrest.bucketCount), hpairs⟩

end Comanche.Hstore
