import Comanche.Hstore.Claims

/-!
# The map a table represents

`Represents cfg t m` says that the claims of `t` stand for the finite map `m`.
-/

namespace Comanche.Hstore

open Lib

section Bucket

variable {K κ V : Type} {cfg : Config K κ V} {t t' : Table K V}

theorem bucket_lt (cfg : Config K κ V) (t : Table K V) (k : κ) : bucket cfg t k < t.bucketCount := t.bucketIx_lt _

theorem bucket_congr (hN : t'.bucketCount = t.bucketCount) (k : κ) : bucket cfg t' k = bucket cfg t k := by
  unfold bucket
  rw [Table.bucketIx_eq_mod, Table.bucketIx_eq_mod, hN]

end Bucket

variable {K κ V : Type} [DecidableEq κ]

abbrev KeyMap (κ V : Type) : Type := Finmap fun _ : κ => V

structure Represents (cfg : Config K κ V) (t : Table K V) (m : KeyMap κ V) : Prop where
  home : ∀ i p, Claims t i p → bucket cfg t (cfg.key (entry t i p).1) = i
  lookup : ∀ k v, m.lookup k = some v ↔
    ∃ i p, Claims t i p ∧ cfg.key (entry t i p).1 = k ∧ (entry t i p).2 = v
  inj : ∀ i p p', Claims t i p → Claims t i p' →
    cfg.key (entry t i p).1 = cfg.key (entry t i p').1 → p = p'

variable {cfg : Config K κ V} {t t' : Table K V} {m : KeyMap κ V}

namespace Represents

variable {i p : Nat} {k : κ}

section

variable (h : Represents cfg t m)
include h

theorem claim_unique {i' p' : Nat} (hc : Claims t i p)
    (hc' : Claims t i' p') (heq : t.addSmall i p = t.addSmall i' p') : i = i' ∧ p = p' := by
  have hi : i = i' := by
    rw [← h.home i p hc, ← h.home i' p' hc', entry, entry, heq]
  subst hi
  exact ⟨rfl, Circle.step_inj hc.1 hc.lt_bucketCount hc'.lt_bucketCount heq⟩

theorem key_inj {i' p' : Nat} (hc : Claims t i p)
    (hc' : Claims t i' p') (hkey : cfg.key (entry t i p).1 = cfg.key (entry t i' p').1) : i = i' ∧ p = p' := by
  have hi : i = i' := by
    rw [← h.home i p hc, ← h.home i' p' hc', hkey]
  subst hi
  exact ⟨rfl, h.inj i p p' hc hc' hkey⟩

theorem lookup_entry (hc : Claims t i p) : m.lookup (cfg.key (entry t i p).1) = some (entry t i p).2 :=
  (h.lookup _ _).mpr ⟨i, p, hc, rfl, rfl⟩

theorem exists_of_mem (hk : k ∈ m) : ∃ p, Claims t (bucket cfg t k) p ∧ cfg.key (entry t (bucket cfg t k) p).1 = k := by
  obtain ⟨v, hv⟩ := Finmap.mem_iff.mp hk
  obtain ⟨i, p, hc, hkey, -⟩ := (h.lookup k v).mp hv
  have hi := h.home i p hc
  rw [hkey] at hi
  subst hi
  exact ⟨p, hc, hkey⟩

theorem congr (hN : t'.bucketCount = t.bucketCount) (howner : ∀ i, i < t.bucketCount → t'.owner i = t.owner i)
    (hvalue : ∀ b, Claimed t b → t'.value b = t.value b) : Represents cfg t' m := by
  have hc := claims_congr hN howner
  have hentry : ∀ i p, Claims t i p → entry t' i p = entry t i p := by
    intro i p hip
    unfold entry Table.addSmall
    rw [hN]
    exact hvalue _ hip.claimed
  refine ⟨fun i p hip => ?_, fun k v => ?_, fun i p p' hip hip' hkey => ?_⟩
  · rw [hc] at hip
    rw [hentry i p hip, bucket_congr hN, h.home i p hip]
  · rw [h.lookup]
    constructor
    · rintro ⟨i, p, hip, hkey, hval⟩
      exact ⟨i, p, (hc i p).mpr hip, by rw [hentry i p hip]; exact ⟨hkey, hval⟩⟩
    · rintro ⟨i, p, hip, hkey, hval⟩
      rw [hc] at hip
      rw [hentry i p hip] at hkey hval
      exact ⟨i, p, hip, hkey, hval⟩
  · rw [hc] at hip hip'
    rw [hentry i p hip, hentry i p' hip'] at hkey
    exact h.inj i p p' hip hip' hkey

theorem apply_state (i : Nat) (s : ContentState) : Represents cfg (t.apply (.state i s)) m :=
  h.congr rfl (fun _ _ => rfl) fun _ _ => rfl

theorem apply_size (word : Nat) : Represents cfg (t.apply (.size word)) m :=
  h.congr rfl (fun _ _ => rfl) fun _ _ => rfl

theorem apply_value {b : Nat} (hb : ¬ Claimed t b) (kv : K × V) : Represents cfg (t.apply (.value b kv)) m := by
  refine h.congr rfl (fun _ _ => rfl) fun b' hb' => ?_
  have hne : b' ≠ b := fun heq => hb (heq ▸ hb')
  exact Function.update_of_ne hne _ _

theorem insert (hi : i < t.bucketCount) (hp : p < 64)
    (hhome : bucket cfg t (cfg.key (entry t i p).1) = i) (hnew : cfg.key (entry t i p).1 ∉ m) :
    Represents cfg (t.apply (.owner i (Owner.insert (t.owner i) p)))
      (m.insert (cfg.key (entry t i p).1) (entry t i p).2) := by
  have hc := claims_insert (t := t) hi hp
  have hfresh : ∀ i' p', Claims t i' p' → cfg.key (entry t i' p').1 ≠ cfg.key (entry t i p).1 := by
    intro i' p' hc' hkey
    exact hnew (hkey ▸ Finmap.mem_of_lookup_eq_some (h.lookup_entry hc'))
  refine ⟨fun i' p' hip => ?_, fun k v => ?_, fun i' p' q' hip hiq hkey => ?_⟩
  · rcases (hc i' p').mp hip with hold | ⟨rfl, rfl⟩
    · exact h.home i' p' hold
    · exact hhome
  · by_cases hk : k = cfg.key (entry t i p).1
    · subst hk
      rw [Finmap.lookup_insert, Option.some.injEq]
      constructor
      · rintro rfl
        exact ⟨i, p, (hc i p).mpr (Or.inr ⟨rfl, rfl⟩), rfl, rfl⟩
      · rintro ⟨i', p', hip, hkey, hval⟩
        rcases (hc i' p').mp hip with hold | ⟨rfl, rfl⟩
        · exact absurd hkey (hfresh i' p' hold)
        · exact hval
    · rw [Finmap.lookup_insert_of_ne _ hk, h.lookup]
      constructor
      · rintro ⟨i', p', hip, hkey, hval⟩
        exact ⟨i', p', (hc i' p').mpr (Or.inl hip), hkey, hval⟩
      · rintro ⟨i', p', hip, hkey, hval⟩
        rcases (hc i' p').mp hip with hold | ⟨rfl, rfl⟩
        · exact ⟨i', p', hold, hkey, hval⟩
        · exact absurd hkey.symm hk
  · rcases (hc i' p').mp hip with hold | ⟨rfl, rfl⟩
    · rcases (hc i' q').mp hiq with hold' | ⟨rfl, rfl⟩
      · exact h.inj i' p' q' hold hold' hkey
      · exact absurd hkey (hfresh _ _ hold)
    · rcases (hc i' q').mp hiq with hold' | ⟨-, rfl⟩
      · exact absurd hkey.symm (hfresh _ _ hold')
      · rfl

theorem erase (hip : Claims t i p) (hk : cfg.key (entry t i p).1 = k) :
    Represents cfg (t.apply (.owner i (Owner.erase (t.owner i) p))) (m.erase k) := by
  subst hk
  have hc := claims_erase (t := t) (i := i) hip.lt_size
  refine ⟨fun i' p' hip' => h.home i' p' ((hc i' p').mp hip').1, fun k v => ?_,
    fun i' p' q' hp' hq' hkey => h.inj i' p' q' ((hc i' p').mp hp').1 ((hc i' q').mp hq').1 hkey⟩
  by_cases hk : k = cfg.key (entry t i p).1
  · subst hk
    rw [Finmap.lookup_erase]
    constructor
    · intro hnone
      cases hnone
    · rintro ⟨i', p', hip', hkey, -⟩
      have hold := (hc i' p').mp hip'
      exact absurd (h.key_inj hold.1 hip hkey) hold.2
  · rw [Finmap.lookup_erase_ne hk, h.lookup]
    constructor
    · rintro ⟨i', p', hip', hkey, hval⟩
      refine ⟨i', p', (hc i' p').mpr ⟨hip', ?_⟩, hkey, hval⟩
      rintro ⟨rfl, rfl⟩
      exact hk hkey.symm
    · rintro ⟨i', p', hip', hkey, hval⟩
      exact ⟨i', p', ((hc i' p').mp hip').1, hkey, hval⟩

theorem claimed_erase (hip : Claims t i p) (b : Nat) :
    Claimed (t.apply (.owner i (Owner.erase (t.owner i) p))) b ↔ Claimed t b ∧ b ≠ t.addSmall i p := by
  have hc := claims_erase (t := t) (i := i) hip.lt_size
  constructor
  · rintro ⟨i', p', hip', rfl⟩
    have hold := (hc i' p').mp hip'
    refine ⟨⟨i', p', hold.1, rfl⟩, fun heq => hold.2 ?_⟩
    exact h.claim_unique hold.1 hip heq
  · rintro ⟨⟨i', p', hip', rfl⟩, hne⟩
    refine ⟨i', p', (hc i' p').mpr ⟨hip', ?_⟩, rfl⟩
    rintro ⟨rfl, rfl⟩
    exact hne rfl

theorem move {q : Nat} (hip : Claims t i p) (hq : q < 64) (hcopy : entry t i q = entry t i p) (hne : p ≠ q) :
    Represents cfg (t.apply (.owner i (Owner.move (t.owner i) q p))) m ∧
      ∀ b, Claimed (t.apply (.owner i (Owner.move (t.owner i) q p))) b ↔
        (Claimed t b ∧ b ≠ t.addSmall i p) ∨ b = t.addSmall i q := by
  -- the move is the removal of the key followed by its insertion at the new place
  let u := t.apply (.owner i (Owner.erase (t.owner i) p))
  have hu : u.apply (.owner i (Owner.insert (u.owner i) q)) = t.apply (.owner i (Owner.move (t.owner i) q p)) := by
    have hword : Owner.insert (Owner.erase (t.owner i) p) q = Owner.move (t.owner i) q p := by
      apply BitVec.eq_of_getLsbD_eq
      intro r hr
      rw [Owner.getLsbD_insert, Owner.getLsbD_erase, Owner.getLsbD_move, Nat.mod_eq_of_lt hip.lt_size, Nat.mod_eq_of_lt hq]
      by_cases hrq : r = q
      · subst hrq
        simp [hne.symm]
      · simp [hrq]
    have howner : u.owner i = Owner.erase (t.owner i) p := Function.update_self _ _ _
    rw [howner, hword]
    unfold u Table.apply
    simp only [Function.update_idem]
  have herase : Represents cfg u (m.erase (cfg.key (entry t i p).1)) := h.erase hip rfl
  have hentry : entry u i q = entry t i p := hcopy
  have hinsert := herase.insert (i := i) (p := q) hip.1 hq
    (by rw [hentry]; exact h.home i p hip) (by rw [hentry]; exact Finmap.notMem_erase_self)
  have hm : (m.erase (cfg.key (entry t i p).1)).insert (cfg.key (entry t i p).1) (entry t i p).2 = m := by
    apply Finmap.ext_lookup
    intro k
    by_cases hk : k = cfg.key (entry t i p).1
    · subst hk
      rw [Finmap.lookup_insert, h.lookup_entry hip]
    · rw [Finmap.lookup_insert_of_ne _ hk, Finmap.lookup_erase_ne hk]
  rw [hentry, hm, hu] at hinsert
  refine ⟨hinsert, fun b => ?_⟩
  rw [← hu, claimed_insert (t := u) hip.1 hq, h.claimed_erase hip]
  rfl

theorem update (hip : Claims t i p) {kv : K × V} (hkey : cfg.key kv.1 = cfg.key (entry t i p).1) :
    Represents cfg (t.apply (.value (t.addSmall i p) kv)) (m.insert (cfg.key kv.1) kv.2) := by
  have hself : entry (t.apply (.value (t.addSmall i p) kv)) i p = kv := Function.update_self _ _ _
  have hother : ∀ i' p', Claims t i' p' → ¬ (i' = i ∧ p' = p) →
      entry (t.apply (.value (t.addSmall i p) kv)) i' p' = entry t i' p' :=
    fun i' p' hc hne => Function.update_of_ne (fun heq => hne (h.claim_unique hc hip heq)) _ _
  have hkeys : ∀ i' p', Claims t i' p' → cfg.key (entry (t.apply (.value (t.addSmall i p) kv)) i' p').1 =
        cfg.key (entry t i' p').1 := by
    intro i' p' hc
    by_cases heq : i' = i ∧ p' = p
    · obtain ⟨rfl, rfl⟩ := heq
      rw [hself, hkey]
    · rw [hother i' p' hc heq]
  refine ⟨fun i' p' hc => ?_, fun k v => ?_, fun i' p' q' hp' hq' hk => ?_⟩
  · rw [hkeys i' p' hc]
    exact h.home i' p' hc
  · by_cases hk : k = cfg.key kv.1
    · subst hk
      rw [Finmap.lookup_insert, Option.some.injEq]
      constructor
      · rintro rfl
        exact ⟨i, p, hip, by rw [hself], by rw [hself]⟩
      · rintro ⟨i', p', hc, hk, hv⟩
        rw [hkeys i' p' hc, hkey] at hk
        obtain ⟨rfl, rfl⟩ := h.key_inj hc hip hk
        rwa [hself] at hv
    · rw [Finmap.lookup_insert_of_ne _ hk, h.lookup]
      have hne : ∀ i' p', cfg.key (entry t i' p').1 = k → ¬ (i' = i ∧ p' = p) := by
        rintro i' p' hk' ⟨rfl, rfl⟩
        exact hk (hk'.symm.trans hkey.symm)
      constructor
      · rintro ⟨i', p', hc, hk', hv⟩
        refine ⟨i', p', hc, ?_⟩
        rw [hother i' p' hc (hne i' p' hk')]
        exact ⟨hk', hv⟩
      · rintro ⟨i', p', hc, hk', hv⟩
        rw [hkeys i' p' hc] at hk'
        rw [hother i' p' hc (hne i' p' hk')] at hv
        exact ⟨i', p', hc, hk', hv⟩
  · rw [hkeys i' p' hp', hkeys i' q' hq'] at hk
    exact h.inj i' p' q' hp' hq' hk

end

theorem card_ownerBits (h : Represents cfg t m) : (ownerBits t).card = m.keys.card := by
  refine Finset.card_bij (fun x _ => cfg.key (entry t x.1 x.2).1) ?_ ?_ ?_
  · intro x hx
    rw [Finmap.mem_keys]
    exact Finmap.mem_of_lookup_eq_some (h.lookup_entry (mem_ownerBits.mp hx))
  · intro x hx y hy hkey
    obtain ⟨hi, hp⟩ := h.key_inj (mem_ownerBits.mp hx) (mem_ownerBits.mp hy) hkey
    exact Prod.ext hi hp
  · intro k hk
    obtain ⟨p, hc, hkey⟩ := h.exists_of_mem (Finmap.mem_keys.mp hk)
    exact ⟨(bucket cfg t k, p), mem_ownerBits.mpr hc, hkey⟩

theorem card_usedBuckets (h : Represents cfg t m) : (usedBuckets t).card = m.keys.card := by
  rw [← h.card_ownerBits]
  refine Finset.card_image_of_injOn fun x hx y hy heq => ?_
  obtain ⟨hi, hp⟩ := h.claim_unique (mem_ownerBits.mp hx) (mem_ownerBits.mp hy) heq
  exact Prod.ext hi hp

theorem locateFrom_eq_some {n : Nat} {wv : BitVec 64} {bi j : Nat}
    (hbi : bi < t.bucketCount) (h : locateFrom cfg t k n wv bi = some j) :
    ∃ q, wv.getLsbD q = true ∧ j = t.addSmall bi q ∧ cfg.key (t.value j).1 = k := by
  induction n generalizing wv bi with
  | zero => cases h
  | succ n ih =>
    unfold locateFrom at h
    split at h
    · rename_i hfound
      cases h
      exact ⟨0, hfound.1, (Circle.step_zero hbi).symm, hfound.2⟩
    · obtain ⟨q, hbit, hj, hkey⟩ := ih (t.addSmall_lt hbi) h
      rw [BitVec.getLsbD_ushiftRight] at hbit
      refine ⟨1 + q, hbit, ?_, hkey⟩
      rw [hj]
      exact Circle.step_step

theorem locateFrom_eq_none {n : Nat} {wv : BitVec 64} {bi : Nat}
    (hbi : bi < t.bucketCount) (h : locateFrom cfg t k n wv bi = none) {q : Nat} (hq : q < n)
    (hbit : wv.getLsbD q = true) : cfg.key (entry t bi q).1 ≠ k := by
  induction n generalizing wv bi q with
  | zero => omega
  | succ n ih =>
    unfold locateFrom at h
    split at h
    · cases h
    · rename_i hmiss
      cases q with
      | zero =>
        intro hkey
        unfold entry Table.addSmall at hkey
        rw [Circle.step_zero hbi] at hkey
        exact hmiss ⟨hbit, hkey⟩
      | succ q =>
        have hbit' : (wv >>> 1).getLsbD q = true := by
          rwa [BitVec.getLsbD_ushiftRight, Nat.add_comm]
        have hrest := ih (t.addSmall_lt hbi) h (by omega) hbit'
        unfold entry Table.addSmall Table.incrWithWrap at *
        rwa [Circle.step_step, Nat.add_comm] at hrest

theorem alreadyPresent_eq_locateFrom (k : κ) (n : Nat) (cv : BitVec 64) (bi : Nat) :
    alreadyPresent cfg t k n cv bi = locateFrom cfg t k n cv bi := by
  induction n generalizing cv bi with
  | zero => rfl
  | succ n ih =>
    unfold alreadyPresent locateFrom
    rw [← ih]
    by_cases hcv : cv = 0#64
    · subst hcv
      cases n with
      | zero => simp [alreadyPresent]
      | succ n => simp [alreadyPresent]
    · rw [if_neg hcv]

theorem locateKey_eq_some (h : Represents cfg t m) {j : Nat} (hj : locateKey cfg t k (bucket cfg t k) = some j) :
    ∃ p, Claims t (bucket cfg t k) p ∧ j = t.addSmall (bucket cfg t k) p ∧
      cfg.key (t.value j).1 = k ∧ m.lookup k = some (t.value j).2 := by
  obtain ⟨p, hbit, rfl, hkey⟩ := locateFrom_eq_some (bucket_lt cfg t k) hj
  have hc : Claims t (bucket cfg t k) p := ⟨bucket_lt cfg t k, hbit⟩
  have hlookup := h.lookup_entry hc
  rw [show cfg.key (entry t (bucket cfg t k) p).1 = k from hkey] at hlookup
  exact ⟨p, hc, rfl, hkey, hlookup⟩

theorem locateKey_eq_none (h : Represents cfg t m) (hnone : locateKey cfg t k (bucket cfg t k) = none) : k ∉ m := by
  intro hk
  obtain ⟨p, hc, hkey⟩ := h.exists_of_mem hk
  exact locateFrom_eq_none (bucket_lt cfg t k) hnone hc.lt_size hc.2 hkey

theorem locateKey_of_notMem (h : Represents cfg t m) (hk : k ∉ m) : locateKey cfg t k (bucket cfg t k) = none := by
  cases hlocate : locateKey cfg t k (bucket cfg t k) with
  | none => rfl
  | some j =>
    obtain ⟨p, -, -, -, hlookup⟩ := h.locateKey_eq_some hlocate
    exact absurd (Finmap.mem_of_lookup_eq_some hlookup) hk

end Represents

end Comanche.Hstore
