import Comanche.Core.UipcLedger

/-!
# Runs of a channel

The construction of a channel is ordered by the negotiations, up to the last of them.
-/

namespace Comanche.Core.Uipc

open Lib Lib.MpmcRing
open Function (comp_update update update_eq_self update_of_ne update_self)

def MasterPc.rank : MasterPc → Nat
  | .offer k => 2 * k
  | .openShm k => 2 * k + 1
  | .header _ | .seqs _ _ | .fill _ | .done => 8

def RingId.idx : RingId → Nat
  | .m2s => 0
  | .s2m => 1
  | .slab => 2

def MasterPc.finished : MasterPc → Nat
  | .offer _ | .openShm _ => 0
  | .header id | .seqs id _ => id.idx
  | .fill _ | .done => 3

def ThreadPc.on (master : Bool) (id : RingId) : ThreadPc → Option (Pc Nat)
  | .idle => none
  | .call op pc => if op.ring master = id then some pc else none

def State.view (s : State) (id : RingId) (t : Thread) : Option (Pc Nat) := (s.pc t).on t.master id

def State.slotAddr (s : State) (i : Nat) : Nat := s.slabAddr + i * s.config.messageSize

structure Raw (s : State) (id : RingId) (i : Nat) : Prop where
  sized : s.config.ringSize id ≠ 0
  built : s.built id = true
  mask : (s.rings id).mask = s.config.ringSize id - 1
  head : (s.rings id).head = 0
  tail : (s.rings id).tail = 0
  log : (s.rings id).log = []
  seq : ∀ c < i, (s.rings id).seq c = c

structure Phase (s : State) : Prop where
  answered : ∀ k ≤ 3, 2 * k < s.master.rank → 2 * k < s.slave.rank
  connects : ∀ k, s.slave = .connect k → k ≤ 3
  opens : ∀ k, s.slave = .openShm k → k ≤ 3
  waits : s.slave = .done → s.master = .done
  pages : 6 < s.master.rank → 0 < s.config.slabBytes
  rings : ∀ id, id.idx < s.master.finished → s.built id = true ∧ Inv (s.rings id) (s.view id)
  raw : ∀ id i, s.master = .seqs id i → Raw s id i
  blank : ∀ id, s.master.finished ≤ id.idx → (∀ i, s.master ≠ .seqs id i) → s.rings id = zeroRing
  calls : ∀ t op p, s.pc t = .call op p →
    s.master = .done ∨ ∃ i j, s.master = .fill i ∧ t = ctor ∧ op = .fill (s.slotAddr j) ∧ j < i
  early : s.master ≠ .done → ∀ id, id ≠ .slab → (s.rings id).log = []
  slots : s.slots = if s.master.finished = 3 then s.slotAddrs else []
  filled : ∀ i, s.master = .fill i → ∀ j, i ≤ j → j < s.config.slabSlots → s.slotAddr j ∈ s.hand ctor

structure State.Inv (s : State) : Prop where
  phase : Phase s
  ledger : Ledger s.books s.pc

variable {s s' : State} {t : Thread} {id : RingId}

theorem init_inv (config : Config) : (State.init config).Inv where
  phase :=
    { answered := fun k _ hk => absurd hk (Nat.not_lt_zero _)
      connects := fun k hk => SlavePc.connect.inj hk ▸ Nat.zero_le _
      opens := fun k hk => nomatch hk
      waits := fun h => nomatch h
      pages := fun h => absurd h (Nat.not_lt_zero 6)
      rings := fun id hid => absurd hid (Nat.not_lt_zero _)
      raw := fun id i h => nomatch h
      blank := fun id _ _ => rfl
      calls := fun t op p h => nomatch h
      early := fun _ id _ => rfl
      slots := rfl
      filled := fun i h => nomatch h }
  ledger :=
    { sentLength := fun id => rfl
      behind := fun id => Nat.le_refl _
      placed := by
        have hheld (p : Place) : (State.init config).books.held p = [] := by cases p <;> rfl
        refine ⟨fun p => ?_, fun p x hx => ?_, fun p q x hx => ?_, fun x hx => ?_⟩
        · rw [hheld]
          exact List.nodup_nil
        · rw [hheld] at hx
          cases hx
        · rw [hheld] at hx
          cases hx
        · cases hx
      bytes := fun id _ k x _ hx => nomatch hx
      locals := fun t op p h => nomatch h
      claimed := fun id => rfl
      single := fun id => List.nodup_nil
      intact := fun id m hm => nomatch hm }

theorem Phase.idle (h : Phase s) (hfinished : s.master.finished ≠ 3) (t : Thread) : s.pc t = .idle := by
  cases hpc : s.pc t with
  | idle => rfl
  | call op p =>
    obtain hdone | ⟨i, -, hfill, -⟩ := h.calls t op p hpc
    · exact absurd (congrArg MasterPc.finished hdone) hfinished
    · exact absurd (congrArg MasterPc.finished hfill) hfinished

theorem view_of_idle (hidle : ∀ t, s.pc t = .idle) (id : RingId) (t : Thread) : s.view id t = none := by
  unfold State.view
  rw [hidle]
  rfl

variable {k i : Nat}

theorem clear_rings (hblank : ∀ id, RingId.ofShm k = some id → s.rings id = zeroRing) : (s.clear k).rings = s.rings := by
  unfold State.clear
  split
  · rename_i id hid
    change update s.rings id zeroRing = s.rings
    rw [← hblank id hid, update_eq_self]
  · rfl

theorem State.Inv.clear_ledger (h : s.Inv) (hblank : ∀ id, RingId.ofShm k = some id → s.rings id = zeroRing)
    (hdone : s.master ≠ .done) : Ledger (s.clear k).books s.pc := by
  have hrings := clear_rings hblank
  unfold State.books
  rw [hrings]
  unfold State.clear
  split
  · exact h.ledger
  · refine h.ledger.setMem (h.phase.early hdone) (fun t op p hp => ?_) _
    obtain h | ⟨-, -, -, -, rfl, -⟩ := h.phase.calls t op p hp
    · exact absurd h hdone
    · exact nofun

theorem clear_same (s : State) (k : Nat) :
    (s.clear k).config = s.config ∧ (s.clear k).master = s.master ∧ (s.clear k).slave = s.slave := by
  unfold State.clear
  split <;> exact ⟨rfl, rfl, rfl⟩

theorem clear_eq (hblank : ∀ id, RingId.ofShm k = some id → s.rings id = zeroRing) :
    s.clear k = { s with built := (s.clear k).built, mem := (s.clear k).mem } := by
  conv_rhs => rw [← clear_rings hblank]
  unfold State.clear
  split <;> rfl

theorem clear_built (hk : RingId.ofShm k = none) : (s.clear k).built = s.built := by
  unfold State.clear
  rw [hk]

theorem State.Inv.clear (h : s.Inv) (hblank : RingId.ofShm k ≠ none → s.master.rank < 8)
    (hdone : s.master ≠ .done) : (s.clear k).Inv := by
  have hfinished (hk : RingId.ofShm k ≠ none) : s.master.finished = 0 ∧ ∀ id i, s.master ≠ .seqs id i := by
    have hrank := hblank hk
    cases hm : s.master with
    | offer k => exact ⟨rfl, fun _ _ => nofun⟩
    | openShm k => exact ⟨rfl, fun _ _ => nofun⟩
    | header id | seqs id i | fill i | done =>
      rw [hm] at hrank
      exact absurd hrank (Nat.lt_irrefl 8)
  have hzero (id : RingId) (hid : RingId.ofShm k = some id) : s.rings id = zeroRing := by
    obtain ⟨hzero, hseqs⟩ := hfinished (by rw [hid]; exact Option.some_ne_none id)
    exact h.phase.blank id (hzero ▸ Nat.zero_le _) (hseqs id)
  have hledger := h.clear_ledger hzero hdone
  rw [clear_eq hzero] at hledger ⊢
  refine ⟨{ h.phase with
    rings := fun id hid => ⟨?_, (h.phase.rings id hid).2⟩
    raw := fun id i hm => { h.phase.raw id i hm with built := ?_ } }, hledger⟩
  · have hk : RingId.ofShm k = none := by
      by_contra hk
      exact Nat.not_lt_zero _ ((hfinished hk).1 ▸ hid)
    exact (congrFun (clear_built hk) id).trans (h.phase.rings id hid).1
  · have hk : RingId.ofShm k = none := by
      by_contra hk
      exact (hfinished hk).2 id i hm
    exact (congrFun (clear_built hk) id).trans (h.phase.raw id i hm).built

theorem State.Inv.setSlave (h : s.Inv) {pc : SlavePc} (hrank : s.slave.rank ≤ pc.rank) (hconnect : ∀ k, pc = .connect k → k ≤ 3)
    (hopen : ∀ k, pc = .openShm k → k ≤ 3) (hwaits : pc = .done → s.master = .done) : (s.setSlave pc).Inv :=
  ⟨{ h.phase with
    answered := fun k hk hm => Nat.lt_of_lt_of_le (h.phase.answered k hk hm) hrank
    connects := hconnect
    opens := hopen
    waits := hwaits
    raw := fun id i hm => { h.phase.raw id i hm with } }, h.ledger⟩

theorem State.Inv.setEarly (h : s.Inv) {m : MasterPc} (hold : s.master.finished = 0) (hnew : m.finished = 0)
    (hseqs : ∀ id i, s.master ≠ .seqs id i) (hseqs' : ∀ id i, m ≠ .seqs id i)
    (hanswered : ∀ k ≤ 3, 2 * k < m.rank → 2 * k < s.slave.rank) (hpages : 6 < m.rank → 0 < s.config.slabBytes) (addr : Nat) :
    ({ s.setMaster m with slabAddr := addr } : State).Inv := by
  have hidle := h.phase.idle (by rw [hold]; decide)
  have hdone : s.master ≠ .done := fun hdone => absurd (hdone ▸ hold) (by decide)
  refine ⟨⟨hanswered, h.phase.connects, h.phase.opens, fun hslave => absurd (h.phase.waits hslave) hdone, hpages, ?_, ?_, ?_, ?_, ?_, ?_, ?_⟩, h.ledger⟩
  · intro id hid
    change id.idx < m.finished at hid
    rw [hnew] at hid
    exact absurd hid (Nat.not_lt_zero _)
  · exact fun id i hm => absurd hm (hseqs' id i)
  · exact fun id _ _ => h.phase.blank id (hold ▸ Nat.zero_le _) (hseqs id)
  · exact fun t op p hp => nomatch (hidle t).symm.trans hp
  · exact fun _ => h.phase.early hdone
  · have hslots := h.phase.slots
    rw [if_neg (by rw [hold]; decide)] at hslots
    change s.slots = if m.finished = 3 then _ else []
    rw [if_neg (by rw [hnew]; decide), hslots]
  · intro i hm
    change m = .fill i at hm
    rw [hm] at hnew
    cases hnew

theorem books_setRing (s : State) (id : RingId) (r : Queue Nat) : (s.setRing id r).books =
      { s.books with
        log := update s.books.log id r.log
        tail := update s.books.tail id r.tail } := by
  have hlog := comp_update Queue.log s.rings id r
  have htail := comp_update Queue.tail s.rings id r
  exact congr (congrArg (fun log tail => ({ s.books with log := log, tail := tail } : Books)) hlog) htail

theorem books_setRing_of_same {r : Queue Nat} (hlog : r.log = (s.rings id).log) (htail : r.tail = (s.rings id).tail) :
    (s.setRing id r).books = s.books := by
  have hlogs : update s.books.log id (s.rings id).log = s.books.log := update_eq_self id s.books.log
  have htails : update s.books.tail id (s.rings id).tail = s.books.tail := update_eq_self id s.books.tail
  rw [books_setRing, hlog, htail, hlogs, htails]

theorem idx_lt_three (id : RingId) : id.idx < 3 := by
  cases id <;> decide

theorem idx_ne_three (id : RingId) : id.idx ≠ 3 := Nat.ne_of_lt (idx_lt_three id)

theorem idx_inj {id' : RingId} (h : id'.idx = id.idx) : id' = id := by
  cases id <;> cases id' <;> first | rfl | cases h

theorem State.Inv.building (h : s.Inv) (hrank : s.master.rank = 8) (hfinished : s.master.finished = id.idx)
    {r : Queue Nat} {built : RingId → Bool} (hbuilt : ∀ id', id' ≠ id → built id' = s.built id')
    (hlog : r.log = (s.rings id).log) (htail : r.tail = (s.rings id).tail)
    (hraw : Raw { s.setRing id r with built := built, master := .seqs id i } id i) :
    ({ s.setRing id r with built := built, master := .seqs id i } : State).Inv := by
  have hthree : s.master.finished ≠ 3 := hfinished ▸ idx_ne_three id
  have hidle := h.phase.idle hthree
  have hdone : s.master ≠ .done := fun hdone => hthree (congrArg MasterPc.finished hdone)
  have hrings {id' : RingId} (hid : id' ≠ id) : (s.setRing id r).rings id' = s.rings id' := update_of_ne hid ..
  refine ⟨⟨fun k hk _ => h.phase.answered k hk (by omega), h.phase.connects, h.phase.opens,
    fun hslave => absurd (h.phase.waits hslave) hdone, fun _ => h.phase.pages (by omega), ?_, ?_, ?_, ?_, ?_, ?_, ?_⟩, ?_⟩
  · intro id' hid
    have hne : id' ≠ id := fun heq => Nat.lt_irrefl _ (heq ▸ hid)
    obtain ⟨hb, hinv⟩ := h.phase.rings id' (hfinished ▸ hid)
    exact ⟨(hbuilt id' hne).trans hb, (hrings hne).symm ▸ hinv⟩
  · intro id' i' hid
    obtain ⟨rfl, rfl⟩ := MasterPc.seqs.inj hid
    exact hraw
  · intro id' hid hseqs
    have hne : id' ≠ id := fun heq => hseqs i (heq ▸ rfl)
    refine (hrings hne).trans (h.phase.blank id' (hfinished ▸ hid) fun i' hi' => ?_)
    exact hne (idx_inj ((congrArg MasterPc.finished hi').symm.trans hfinished))
  · exact fun t op p hp => nomatch (hidle t).symm.trans hp
  · intro _ id' hslab
    by_cases hid : id' = id
    · subst hid
      exact hraw.log
    · exact (congrArg Queue.log (hrings hid)).trans (h.phase.early hdone id' hslab)
  · exact (h.phase.slots.trans (if_neg hthree)).trans (if_neg (idx_ne_three id)).symm
  · exact fun i hi => nomatch hi
  · have hledger := h.ledger
    rw [← books_setRing_of_same hlog htail] at hledger
    exact hledger

theorem State.Inv.header (h : s.Inv) (hm : s.master = .header id) (hsized : s.config.ringSize id ≠ 0) :
    ((s.header id).setMaster (.seqs id 0)).Inv := by
  have hblank : s.rings id = zeroRing := by
    refine h.phase.blank id (by rw [hm]; exact Nat.le_refl _) fun i hi => ?_
    cases hm.symm.trans hi
  have hself {α : Type} (f : Queue Nat → α) : f ((s.header id).rings id) =
      f { s.rings id with mask := s.config.ringSize id - 1, head := 0, tail := 0, log := [] } :=
    congrArg f (update_self ..)
  refine h.building (by rw [hm]; rfl) (by rw [hm]; rfl) (fun id' hid => update_of_ne hid ..) (by rw [hblank]; rfl)
    (by rw [hblank]; rfl) ?_
  exact ⟨hsized, update_self .., hself Queue.mask, hself Queue.head, hself Queue.tail, hself Queue.log,
    fun c hc => absurd hc (Nat.not_lt_zero c)⟩

theorem State.Inv.seq (h : s.Inv) (hm : s.master = .seqs id i) :
    ((s.setRing id { s.rings id with seq := update (s.rings id).seq i i }).setMaster (.seqs id (i + 1))).Inv := by
  have hraw := h.phase.raw id i hm
  have hself {α : Type} (f : Queue Nat → α) :
      f (update s.rings id { s.rings id with seq := update (s.rings id).seq i i } id) =
        f { s.rings id with seq := update (s.rings id).seq i i } :=
    congrArg f (update_self ..)
  refine h.building (by rw [hm]; rfl) (by rw [hm]; rfl) (fun _ _ => rfl) rfl rfl ?_
  refine ⟨hraw.sized, hraw.built, (hself Queue.mask).trans hraw.mask, (hself Queue.head).trans hraw.head, (hself Queue.tail).trans hraw.tail,
    (hself Queue.log).trans hraw.log, fun c hc => (hself (Queue.seq · c)).trans ?_⟩
  change update (s.rings id).seq i i c = c
  by_cases hci : c = i
  · rw [hci, update_self]
  · rw [update_of_ne hci]
    exact hraw.seq c (by omega)

theorem ringSize_eq {c : Config} {id : RingId} (h : c.ringSize id ≠ 0) : ∃ k, c.ringSize id = 2 ^ (k + 1) := by
  cases id with
  | slab =>
    have hsize : c.ringSize .slab = 2 ^ (c.sizeLog + 2) % 2 ^ 32 := congrArg (· % 2 ^ 32) (Nat.pow_succ ..).symm
    rw [hsize] at h ⊢
    obtain hlt | hge := Nat.lt_or_ge (c.sizeLog + 2) 32
    · exact ⟨c.sizeLog + 1, Nat.mod_eq_of_lt (Nat.pow_lt_pow_right (by decide) hlt)⟩
    · exact absurd (Nat.mod_eq_zero_of_dvd (Nat.pow_dvd_pow 2 hge)) h
  | _ => exact ⟨c.sizeLog, rfl⟩

theorem Raw.inv (h : Raw s id i) (hi : s.config.ringSize id ≤ i) (hidle : ∀ t, s.pc t = .idle) :
    MpmcRing.Inv (s.rings id) (s.view id) := by
  obtain ⟨k, hk⟩ := ringSize_eq h.sized
  refine MpmcRing.Inv.new ⟨k, by rw [h.mask, hk]⟩ h.head h.tail h.log (fun c hc => h.seq c ?_) (view_of_idle hidle id)
  have hpos := Nat.two_pow_pos (k + 1)
  rw [h.mask] at hc
  omega

section

variable (h : s.Inv) (hm : s.master = .seqs id i) (hi : s.config.ringSize id ≤ i)
include h hm hi

theorem State.Inv.ringsBuilt (id' : RingId)
    (hid : id'.idx ≤ id.idx) : s.built id' = true ∧ MpmcRing.Inv (s.rings id') (s.view id') := by
  have hfinished : s.master.finished = id.idx := by rw [hm]; rfl
  obtain hlt | heq := Nat.lt_or_eq_of_le hid
  · exact h.phase.rings id' (hfinished ▸ hlt)
  · obtain rfl := idx_inj heq
    have hraw := h.phase.raw id' i hm
    exact ⟨hraw.built, hraw.inv hi (h.phase.idle (hfinished ▸ idx_ne_three id'))⟩

theorem State.Inv.nextHeader {id' : RingId}
    (hid : id'.idx = id.idx + 1) : (s.setMaster (.header id')).Inv := by
  have hfinished : s.master.finished = id.idx := by rw [hm]; rfl
  have hthree : s.master.finished ≠ 3 := hfinished ▸ idx_ne_three id
  have hidle := h.phase.idle hthree
  have hdone : s.master ≠ .done := fun hdone => nomatch hm.symm.trans hdone
  have hrank : s.master.rank = 8 := by rw [hm]; rfl
  refine ⟨⟨fun k hk _ => h.phase.answered k hk (by omega), h.phase.connects, h.phase.opens,
    fun hslave => absurd (h.phase.waits hslave) hdone, fun _ => h.phase.pages (by omega), ?_, ?_, ?_, ?_, ?_, ?_, ?_⟩, h.ledger⟩
  · intro id₁ hlt
    change id₁.idx < id'.idx at hlt
    exact h.ringsBuilt hm hi id₁ (by omega)
  · exact fun id i hi => nomatch hi
  · intro id₁ hle _
    change id'.idx ≤ id₁.idx at hle
    refine h.phase.blank id₁ (by omega) fun i' hi' => ?_
    obtain ⟨rfl, -⟩ := MasterPc.seqs.inj (hm.symm.trans hi')
    omega
  · exact fun t op p hp => nomatch (hidle t).symm.trans hp
  · exact fun _ => h.phase.early hdone
  · exact (h.phase.slots.trans (if_neg hthree)).trans (if_neg (idx_ne_three id')).symm
  · exact fun i hi => nomatch hi

end

theorem messageSize_pos {c : Config} (h : 0 < c.slabBytes) : 0 < c.messageSize := by
  by_contra hzero
  have hz : c.messageSize = 0 := by omega
  unfold Config.slabBytes at h
  rw [hz, Nat.zero_mul, Nat.zero_mul] at h
  exact absurd h (by decide)

theorem slotAddr_inj (hpos : 0 < s.config.messageSize) {j : Nat} (h : s.slotAddr i = s.slotAddr j) : i = j :=
  Nat.eq_of_mul_eq_mul_right hpos (Nat.add_left_cancel h)

theorem nodup_slotAddrs (hpos : 0 < s.config.messageSize) : s.slotAddrs.Nodup :=
  List.nodup_range.map fun _ _ h => slotAddr_inj hpos h

theorem State.Inv.nextFill (h : s.Inv) (hm : s.master = .seqs .slab i) (hi : s.config.ringSize .slab ≤ i) :
    (s.nextRing .slab).Inv := by
  have hthree : s.master.finished ≠ 3 := by rw [hm]; exact idx_ne_three .slab
  have hidle := h.phase.idle hthree
  have hdone : s.master ≠ .done := fun hdone => nomatch hm.symm.trans hdone
  have hrank : s.master.rank = 8 := by rw [hm]; rfl
  have hpages := h.phase.pages (by omega)
  refine ⟨⟨fun k hk _ => h.phase.answered k hk (by omega), h.phase.connects, h.phase.opens,
    fun hslave => absurd (h.phase.waits hslave) hdone, fun _ => hpages, ?_, ?_, ?_, ?_, ?_, ?_, ?_⟩, ?_⟩
  · exact fun id₁ hlt => h.ringsBuilt hm hi id₁ (Nat.le_of_lt_succ hlt)
  · exact fun id i hi => nomatch hi
  · exact fun id hle _ => absurd hle (Nat.not_le.mpr (idx_lt_three id))
  · exact fun t op p hp => nomatch (hidle t).symm.trans hp
  · exact fun _ => h.phase.early hdone
  · rfl
  · intro i' _ j _ hj
    change s.slotAddr j ∈ update s.hand ctor s.slotAddrs ctor
    rw [update_self]
    exact List.mem_map_of_mem (List.mem_range.mpr hj)
  · exact h.ledger.supply (h.phase.slots.trans (if_neg hthree)) hidle (nodup_slotAddrs (messageSize_pos hpages)) ctor

theorem view_setPc (s : State) (t : Thread) (pc : ThreadPc) (id : RingId) :
    (s.setPc t pc).view id = update (s.view id) t (pc.on t.master id) := by
  funext t'
  unfold State.view
  change (update s.pc t pc t').on t'.master id = _
  by_cases ht : t' = t
  · subst ht
    rw [update_self, update_self]
  · rw [update_of_ne ht, update_of_ne ht]

theorem State.Inv.setPc (h : s.Inv) (hfinished : s.master.finished = 3) {pc : ThreadPc}
    (hrings : ∀ id, MpmcRing.Inv (s.rings id) (update (s.view id) t (pc.on t.master id)))
    (hcalls : ∀ op p, pc = .call op p →
      s.master = .done ∨ ∃ i j, s.master = .fill i ∧ t = ctor ∧ op = .fill (s.slotAddr j) ∧ j < i)
    (hself : ∀ op p, pc = .call op p → s.books.Local t op p) : (s.setPc t pc).Inv := by
  refine ⟨{ h.phase with rings := fun id hid => ⟨(h.phase.rings id hid).1, ?_⟩, raw := fun id i hm => ?_, calls := ?_ },
    h.ledger.silent hself⟩
  · rw [view_setPc]
    exact hrings id
  · exact absurd ((congrArg MasterPc.finished hm).symm.trans hfinished) (idx_ne_three id)
  · intro t' op p hp
    change update s.pc t pc t' = .call op p at hp
    by_cases ht : t' = t
    · subst ht
      rw [update_self] at hp
      exact hcalls op p hp
    · rw [update_of_ne ht] at hp
      exact h.phase.calls t' op p hp

theorem ring_finished (h : Phase s) (hfinished : s.master.finished = 3) (id : RingId) :
    s.built id = true ∧ MpmcRing.Inv (s.rings id) (s.view id) :=
  h.rings id (hfinished ▸ idx_lt_three id)

theorem State.Inv.begin (h : s.Inv) (hfinished : s.master.finished = 3) {op : Op} {p : Pc Nat} (hfits : ∀ id, Fits (s.rings id) p)
    (hproduces : p.produces = none) (hconsumes : p.consumes = none)
    (hcall : s.master = .done ∨ ∃ i j, s.master = .fill i ∧ t = ctor ∧ op = .fill (s.slotAddr j) ∧ j < i)
    (hlocal : s.books.Local t op p) : (s.setPc t (.call op p)).Inv := by
  refine h.setPc hfinished (fun id => ?_) (fun op' p' hp => ?_) fun op' p' hp => ?_
  · have hinv := (ring_finished h.phase hfinished id).2
    change MpmcRing.Inv (s.rings id) (update (s.view id) t (if op.ring t.master = id then some p else none))
    split
    · exact hinv.goTo (hfits id) hproduces hconsumes
    · exact hinv.ends
  · obtain ⟨rfl, rfl⟩ := ThreadPc.call.inj hp
    exact hcall
  · obtain ⟨rfl, rfl⟩ := ThreadPc.call.inj hp
    exact hlocal

theorem State.Inv.ready (h : s.Inv) (ht : s.Ready t) : s.master = .done := by
  unfold State.Ready at ht
  split at ht
  · exact ht
  · exact h.phase.waits ht

theorem State.Inv.setFill (h : s.Inv) (hm : s.master = .fill i) : (s.setMaster (.fill (i + 1))).Inv := by
  have hfinished : s.master.finished = 3 := by rw [hm]; rfl
  have hdone : s.master ≠ .done := fun hdone => nomatch hm.symm.trans hdone
  have hrank : s.master.rank = 8 := by rw [hm]; rfl
  refine ⟨⟨fun k hk _ => h.phase.answered k hk (by omega), h.phase.connects, h.phase.opens,
    fun hslave => absurd (h.phase.waits hslave) hdone, fun _ => h.phase.pages (by omega),
    fun id _ => ring_finished h.phase hfinished id, fun id i hi => (nomatch hi), ?_, fun t op p hp => ?_, fun _ => h.phase.early hdone, ?_,
    fun i' hi' j hj => ?_⟩, h.ledger⟩
  · exact fun id hle _ => absurd hle (Nat.not_le.mpr (idx_lt_three id))
  · obtain hdone' | ⟨i', j, hi', ht, hop, hj⟩ := h.phase.calls t op p hp
    · exact absurd hdone' hdone
    · obtain rfl := MasterPc.fill.inj (hm.symm.trans hi')
      exact Or.inr ⟨i + 1, j, rfl, ht, hop, Nat.lt_succ_of_lt hj⟩
  · exact h.phase.slots.trans (if_pos hfinished)
  · obtain rfl := MasterPc.fill.inj hi'
    exact h.phase.filled i hm j (by omega)

theorem State.Inv.setDone (h : s.Inv) (hm : s.master = .fill i) : (s.setMaster .done).Inv := by
  have hfinished : s.master.finished = 3 := by rw [hm]; rfl
  have hrank : s.master.rank = 8 := by rw [hm]; rfl
  refine ⟨⟨fun k hk _ => h.phase.answered k hk (by omega), h.phase.connects, h.phase.opens, fun _ => rfl, fun _ => h.phase.pages (by omega),
    fun id _ => ring_finished h.phase hfinished id, fun id i hi => (nomatch hi), ?_, fun _ _ _ _ => Or.inl rfl, fun h => absurd rfl h, ?_,
    fun i' hi' => (nomatch hi')⟩, h.ledger⟩
  · exact fun id hle _ => absurd hle (Nat.not_le.mpr (idx_lt_three id))
  · exact h.phase.slots.trans (if_pos hfinished)

theorem exchange_eq (s : State) (t : Thread) (op : Op) (id : RingId) (p : Pc Nat) (next : Next Nat) :
    ∃ hand lost sent claimed received,
      s.exchange t op id p next = { s with hand, lost, sent, claimed, received } := by
  unfold State.exchange
  split
  · exact ⟨_, _, _, _, _, rfl⟩
  · exact ⟨_, _, _, _, _, rfl⟩
  · split <;> exact ⟨_, _, _, _, _, rfl⟩
  · split <;> exact ⟨_, _, _, _, _, rfl⟩
  · exact ⟨_, _, _, _, _, rfl⟩

theorem on_goOn (op : Op) (next : Next Nat) (master : Bool) (id : RingId) :
    (op.goOn next).on master id = if op.ring master = id then next.pc? else none := by
  unfold Op.goOn
  cases next.pc? with
  | none => split <;> rfl
  | some q => rfl

abbrev State.ring (s : State) (t : Thread) (op : Op) : Queue Nat := s.rings (op.ring t.master)

section CallStep

variable {op : Op} {p : Pc Nat} {fails : Bool}

theorem Phase.finished_of_call (h : Phase s) (hcall : s.pc t = .call op p) : s.master.finished = 3 := by
  obtain hdone | ⟨i, -, hfill, -⟩ := h.calls t op p hcall
  · rw [hdone]
    rfl
  · rw [hfill]
    rfl

theorem view_of_call (hcall : s.pc t = .call op p) : s.view (op.ring t.master) t = some p := by
  unfold State.view
  rw [hcall]
  exact if_pos rfl

theorem Phase.call_rings (h : Phase s) (hcall : s.pc t = .call op p) (fails : Bool) (id : RingId) :
    MpmcRing.Inv (update s.rings (op.ring t.master) ((s.ring t op).step fails p).1 id)
      (update (s.view id) t ((op.goOn ((s.ring t op).step fails p).2).on t.master id)) := by
  have hinv (id : RingId) := (ring_finished h (h.finished_of_call hcall) id).2
  rw [on_goOn]
  by_cases hid : id = op.ring t.master
  · subst hid
    rw [update_self, if_pos rfl]
    exact (hinv _).step (view_of_call hcall)
  · rw [update_of_ne hid, if_neg fun heq => hid heq.symm]
    exact (hinv id).ends

theorem Phase.call_early (h : Phase s) (hcall : s.pc t = .call op p) (hdone : s.master ≠ .done) : op.ring t.master = .slab := by
  obtain h | ⟨-, j, -, -, rfl, -⟩ := h.calls t op p hcall
  · exact absurd h hdone
  · rfl

theorem callStep_with (s : State) (t : Thread) (op : Op) (fails : Bool) (p : Pc Nat) :
    ∃ hand lost sent claimed received, s.callStep t op fails p =
      { s with
        rings := update s.rings (op.ring t.master) ((s.ring t op).step fails p).1
        pc := update s.pc t (op.goOn ((s.ring t op).step fails p).2)
        hand, lost, sent, claimed, received } := by
  obtain ⟨hand, lost, sent, claimed, received, heq⟩ :=
    exchange_eq s t op (op.ring t.master) p ((s.ring t op).step fails p).2
  refine ⟨hand, lost, sent, claimed, received, ?_⟩
  dsimp only [State.callStep]
  rw [heq]
  rfl

theorem callStep_pc (s : State) (t : Thread) (op : Op) (fails : Bool) (p : Pc Nat) :
    (s.callStep t op fails p).pc = update s.pc t (op.goOn ((s.ring t op).step fails p).2) := by
  obtain ⟨_, _, _, _, _, heq⟩ := callStep_with s t op fails p
  rw [heq]

variable {t' : Thread}

theorem callStep_calls (hcall : s.pc t = .call op p) {op' : Op} {p' : Pc Nat}
    (hp : (s.callStep t op fails p).pc t' = .call op' p') : ∃ p'', s.pc t' = .call op' p'' := by
  rw [callStep_pc] at hp
  by_cases ht : t' = t
  · subst ht
    rw [update_self] at hp
    unfold Op.goOn at hp
    cases hnext : ((s.rings (op.ring t'.master)).step fails p).2.pc? with
    | none =>
      rw [hnext] at hp
      cases hp
    | some q =>
      rw [hnext] at hp
      obtain ⟨rfl, -⟩ := ThreadPc.call.inj hp
      exact ⟨p, hcall⟩
  · rw [update_of_ne ht] at hp
    exact ⟨p', hp⟩

theorem State.Inv.callStep (h : s.Inv) (hcall : s.pc t = .call op p)
    (hhand : ∀ y ∈ s.hand ctor, op.item ≠ some y → y ∈ (s.callStep t op fails p).hand ctor)
    (hledger : Ledger (s.callStep t op fails p).books (s.callStep t op fails p).pc) : (s.callStep t op fails p).Inv := by
  have hfinished := h.phase.finished_of_call hcall
  obtain ⟨hand, lost, sent, claimed, received, heq⟩ := callStep_with s t op fails p
  rw [heq] at hhand hledger ⊢
  refine ⟨{ h.phase with
    rings := fun id _ => ⟨(ring_finished h.phase hfinished id).1, ?_⟩
    raw := fun id i hm => ?_
    blank := fun id hle _ => ?_
    calls := fun t' op' p' hp => ?_
    early := fun hdone id hslab => ?_
    filled := fun i hm j hij hj => ?_ }, hledger⟩
  · have hrings := h.phase.call_rings hcall fails id
    rw [← view_setPc] at hrings
    exact hrings
  · exact absurd ((congrArg MasterPc.finished hm).symm.trans hfinished) (idx_ne_three id)
  · exact absurd (hfinished ▸ hle) (Nat.not_le.mpr (idx_lt_three id))
  · have hcall' : (s.callStep t op fails p).pc t' = .call op' p' := by rw [heq]; exact hp
    obtain ⟨p'', hp''⟩ := callStep_calls hcall hcall'
    exact h.phase.calls t' op' p'' hp''
  · change (update s.rings (op.ring t.master) _ id).log = []
    rw [h.phase.call_early hcall hdone, update_of_ne hslab]
    exact h.phase.early hdone id hslab
  · refine hhand _ (h.phase.filled i hm j hij hj) fun hitem => ?_
    -- the slot of the call is one of the earlier ones
    obtain hdone | ⟨i', j', hm', -, rfl, hj'⟩ := h.phase.calls t op p hcall
    · exact nomatch hm.symm.trans hdone
    · obtain rfl := MasterPc.fill.inj (hm.symm.trans hm')
      have hrank : s.master.rank = 8 := by rw [hm]; rfl
      have hpos := messageSize_pos (h.phase.pages (by omega))
      have hj := slotAddr_inj hpos (Option.some.inj hitem)
      omega

variable {r : Queue Nat} {next : Next Nat} {b : Books} {x k : Nat}

theorem State.Inv.callStep_of (h : s.Inv) (hcall : s.pc t = .call op p)
    (hstep : (s.ring t op).step fails p = (r, next)) (hbooks : (s.callStep t op fails p).books = b)
    (hhand : ∀ y ∈ s.hand ctor, op.item ≠ some y → y ∈ b.hand ctor)
    (hledger : Ledger b (update s.pc t (op.goOn next))) : (s.callStep t op fails p).Inv := by
  refine h.callStep hcall (fun y hy hne => ?_) ?_
  · change y ∈ (s.callStep t op fails p).books.hand ctor
    rw [hbooks]
    exact hhand y hy hne
  · rw [hbooks, callStep_pc, hstep]
    exact hledger

theorem goOn_eq_call {op' : Op} {q : Pc Nat} (h : op.goOn next = .call op' q) : op' = op ∧ next.pc? = some q := by
  unfold Op.goOn at h
  cases hnext : next.pc? with
  | none =>
    rw [hnext] at h
    cases h
  | some q' =>
    rw [hnext] at h
    obtain ⟨rfl, rfl⟩ := ThreadPc.call.inj h
    exact ⟨rfl, rfl⟩

theorem callStep_eq (hstep : (s.ring t op).step fails p = (r, next)) : s.callStep t op fails p =
      ((s.exchange t op (op.ring t.master) p next).setRing (op.ring t.master) r).setPc t (op.goOn next) := by
  have hnext : ((s.ring t op).step fails p).2 = next := congrArg Prod.snd hstep
  have hring : ((s.ring t op).step fails p).1 = r := congrArg Prod.fst hstep
  rw [← hnext, ← hring]
  rfl

theorem State.Inv.callStep_silent (h : s.Inv) (hcall : s.pc t = .call op p)
    (hstep : (s.ring t op).step fails p = (r, next))
    (hexchange : s.exchange t op (op.ring t.master) p next = s) (hlog : r.log = (s.ring t op).log)
    (htail : r.tail = (s.ring t op).tail) (hself : ∀ q ∈ next.pc?, s.books.Local t op q) :
    (s.callStep t op fails p).Inv := by
  refine h.callStep_of hcall hstep ?_ (fun y hy _ => hy) (h.ledger.silent fun op' q hq => ?_)
  · rw [callStep_eq hstep, hexchange]
    exact books_setRing_of_same hlog htail
  · obtain ⟨rfl, hnext⟩ := goOn_eq_call hq
    exact hself q hnext

theorem mem_erase_hand {y : Nat} (hy : y ∈ s.hand t') (hne : y ≠ x) :
    y ∈ update s.hand t ((s.hand t).erase x) t' := by
  by_cases ht : t' = t
  · subst ht
    rw [update_self]
    exact (List.mem_erase_of_ne hne).mpr hy
  · rwa [update_of_ne ht]

theorem mem_append_hand {y : Nat} (hy : y ∈ s.hand t') : y ∈ update s.hand t (s.hand t ++ [x]) t' := by
  by_cases ht : t' = t
  · subst ht
    rw [update_self]
    exact List.mem_append_left _ hy
  · rwa [update_of_ne ht]

theorem State.Inv.callStep_claim (h : s.Inv) (hcall : s.pc t = .call op (.enqCas x k))
    (hstep : (s.ring t op).step fails (.enqCas x k) =
      ((s.ring t op).claim x, .go (.enqData x k))) : (s.callStep t op fails (.enqCas x k)).Inv := by
  obtain ⟨hitem, hx⟩ := h.ledger.locals t op _ hcall
  refine h.callStep_of hcall hstep (b := s.books.claim t (op.ring t.master) x) ?_ (fun y hy hne => ?_) (h.ledger.claim hx ?_)
  · rw [callStep_eq hstep]
    refine (books_setRing _ _ _).trans ?_
    have htail : update s.books.tail (op.ring t.master) (s.ring t op).tail = s.books.tail :=
      update_eq_self _ s.books.tail
    exact congrArg (fun tail => ({ s.books.claim t (op.ring t.master) x with tail := tail } : Books)) htail
  · exact mem_erase_hand hy fun heq => hne (hitem.trans (congrArg some heq.symm))
  · intro op' q hq
    obtain ⟨-, hq⟩ := goOn_eq_call hq
    cases hq
    trivial

theorem State.Inv.callStep_take (h : s.Inv) (hcall : s.pc t = .call op (.deqCas k)) (hk : (s.ring t op).tail = k)
    (hstep : (s.ring t op).step fails (.deqCas k) = ((s.ring t op).take, .go (.deqData k))) :
    (s.callStep t op fails (.deqCas k)).Inv := by
  subst hk
  have hring := (ring_finished h.phase (h.phase.finished_of_call hcall) (op.ring t.master)).2
  have hfits := hring.fits t _ (view_of_call hcall)
  have hx := (hring.full _ (hfits.2.2 rfl)).2
  refine h.callStep_of hcall hstep (b := s.books.take t (op.ring t.master)
    ((s.ring t op).data ((s.ring t op).cell (s.ring t op).tail))) ?_ (fun y hy _ => ?_)
    (h.ledger.take hx ?_)
  · rw [callStep_eq hstep]
    refine (books_setRing _ _ _).trans ?_
    have hlog : update s.books.log (op.ring t.master) (s.ring t op).log = s.books.log :=
      update_eq_self _ s.books.log
    exact congrArg (fun log => ({ s.books.take t (op.ring t.master) _ with log := log } : Books)) hlog
  · exact mem_append_hand hy
  · intro op' q hq
    obtain ⟨rfl, hq⟩ := goOn_eq_call hq
    cases hq
    exact h.ledger.taken hx

theorem State.Inv.callStep_lose (h : s.Inv) (hcall : s.pc t = .call op (.enqTest x k))
    (hstep : (s.ring t op).step fails (.enqTest x k) = (s.ring t op, .full)) :
    (s.callStep t op fails (.enqTest x k)).Inv := by
  obtain ⟨hitem, hx⟩ := h.ledger.locals t op _ hcall
  have hlose (hexchange : s.exchange t op (op.ring t.master) (.enqTest x k) .full =
      { s.setHand t ((s.hand t).erase x) with lost := s.lost ++ [x] }) : (s.callStep t op fails (.enqTest x k)).Inv := by
    refine h.callStep_of hcall hstep (b := s.books.lose t x) ?_ (fun y hy hne => ?_) (h.ledger.lose hx)
    · rw [callStep_eq hstep, hexchange]
      exact books_setRing_of_same rfl rfl
    · exact mem_erase_hand hy fun heq => hne (hitem.trans (congrArg some heq.symm))
  cases op with
  | alloc => cases hitem
  | recv => cases hitem
  | send y => exact h.callStep_silent hcall hstep rfl rfl rfl fun q hq => nomatch hq
  | _ =>
    cases hitem
    exact hlose rfl

theorem State.Inv.callStep_popped (h : s.Inv) (hcall : s.pc t = .call op (.deqSeq k x)) :
    (s.callStep t op fails (.deqSeq k x)).Inv := by
  have hring := (ring_finished h.phase (h.phase.finished_of_call hcall) (op.ring t.master)).2
  have hfits := hring.fits t _ (view_of_call hcall)
  have hsilent (hop : op ≠ .recv) : (s.callStep t op fails (.deqSeq k x)).Inv := by
    refine h.callStep_silent hcall rfl ?_ rfl rfl fun q hq => nomatch hq
    cases op with
    | recv => exact absurd rfl hop
    | alloc | free y | send y | fill y => rfl
  by_cases hop : op = .recv
  · subst hop
    refine h.callStep_of hcall rfl (b := s.books.deliver (Op.recv.ring t.master) k x) ?_ (fun y hy _ => hy)
      (h.ledger.deliver (h.ledger.locals t _ _ hcall) hfits.2.2 fun t' ht' op' p' hp' hid hconsumes => ht' ?_)
    · rw [callStep_eq rfl]
      exact books_setRing_of_same rfl rfl
    · -- the positions that consumers of a ring have claimed are different ones
      exact hring.consumed t' t k p' (hid ▸ view_of_call hp') _ (view_of_call hcall) hconsumes rfl
  · exact hsilent hop

theorem State.Inv.call (h : s.Inv) (hcall : s.pc t = .call op p) : (s.callStep t op fails p).Inv := by
  have hlocal := h.ledger.locals t op p hcall
  -- steps that do no more than go on
  have hgo {q : Pc Nat} (hstep : (s.ring t op).step fails p = (s.ring t op, .go q))
      (hexchange : s.exchange t op (op.ring t.master) p (.go q) = s) (hself : s.books.Local t op q) :
      (s.callStep t op fails p).Inv :=
    h.callStep_silent hcall hstep hexchange rfl rfl fun q' hq' => Option.some.inj hq' ▸ hself
  cases p with
  | enqTest y n =>
    by_cases hfree : (s.ring t op).seq ((s.ring t op).cell n) = n
    · exact hgo (if_pos hfree) rfl hlocal
    · by_cases hfull : (s.ring t op).seq ((s.ring t op).cell n) < n
      · exact h.callStep_lose hcall ((if_neg hfree).trans (if_pos hfull))
      · exact hgo ((if_neg hfree).trans (if_neg hfull)) rfl hlocal
  | enqCas y n =>
    by_cases hcas : (s.ring t op).head = n ∧ fails = false
    · exact h.callStep_claim hcall (if_pos hcas)
    · exact hgo (if_neg hcas) rfl hlocal
  | enqData y n => exact h.callStep_silent hcall rfl rfl rfl rfl fun q hq => Option.some.inj hq ▸ trivial
  | enqSeq y n => exact h.callStep_silent hcall rfl rfl rfl rfl fun q hq => nomatch hq
  | deqLoad => exact hgo rfl rfl trivial
  | deqTest n =>
    by_cases hfull : (s.ring t op).seq ((s.ring t op).cell n) = n + 1
    · exact hgo (if_pos hfull) rfl trivial
    · by_cases hempty : (s.ring t op).seq ((s.ring t op).cell n) < n + 1
      · exact h.callStep_silent hcall ((if_neg hfull).trans (if_pos hempty)) rfl rfl rfl fun q hq => nomatch hq
      · exact hgo ((if_neg hfull).trans (if_neg hempty)) rfl trivial
  | deqCas n =>
    by_cases hcas : (s.ring t op).tail = n ∧ fails = false
    · exact h.callStep_take hcall hcas.1 (if_pos hcas)
    · exact hgo (if_neg hcas) rfl trivial
  | deqSeq n y => exact h.callStep_popped hcall
  | _ => exact hgo rfl rfl hlocal

end CallStep

theorem State.Inv.masterStep (h : s.Inv) {n : Nat} (hs' : s' ∈ s.masterStep n s.master) : s'.Inv := by
  cases hm : s.master with
  | offer k =>
    rw [hm] at hs'
    obtain ⟨⟨hslave, hpages⟩, hs'⟩ := Option.ite_none_right_eq_some.mp hs'
    cases hs'
    refine h.setEarly (m := .openShm k) (by rw [hm]; rfl) rfl (fun id i hi => nomatch hm.symm.trans hi) (fun _ _ => nofun)
      (fun k' _ hk' => ?_) (fun hk => ?_) _
    · change 2 * k' < 2 * k + 1 at hk'
      omega
    · change 6 < 2 * k + 1 at hk
      obtain rfl | hlt : k = 3 ∨ 6 < 2 * k := by omega
      · exact hpages rfl
      · exact h.phase.pages (by rw [hm]; exact hlt)
  | openShm k =>
    rw [hm] at hs'
    cases hs'
    have hrank : s.master.rank = 2 * k + 1 := by rw [hm]; rfl
    have hclear : (s.clear k).Inv := by
      refine h.clear (fun hk => ?_) fun hdone => nomatch hm.symm.trans hdone
      have hlt : k < 3 := by
        by_contra hge
        obtain ⟨j, rfl⟩ := Nat.exists_eq_add_of_le' (Nat.le_of_not_lt hge)
        exact hk rfl
      omega
    obtain ⟨hconfig, hmaster, hslave⟩ := clear_same s k
    have hnext : (if k < 3 then .offer (k + 1) else .header .m2s : MasterPc).finished = 0 := by split <;> rfl
    refine hclear.setEarly (by rw [hmaster, hm]; rfl) hnext (fun id i hi => nomatch (hmaster.trans hm).symm.trans hi) (fun id i => ?_)
      (fun k' hk' hlt => ?_) (fun hlt => ?_) (s.clear k).slabAddr
    · split <;> exact nofun
    · rw [hslave]
      refine h.phase.answered k' hk' ?_
      split at hlt
      · change 2 * k' < 2 * (k + 1) at hlt
        omega
      · omega
    · rw [hconfig]
      refine h.phase.pages ?_
      split at hlt
      · change 6 < 2 * (k + 1) at hlt
        omega
      · omega
  | header id =>
    rw [hm] at hs'
    obtain ⟨hsized, hs'⟩ := Option.ite_none_left_eq_some.mp hs'
    exact Option.some.inj hs' ▸ h.header hm hsized
  | seqs id i =>
    rw [hm] at hs'
    change s' ∈ ite _ _ _ at hs'
    split at hs'
    · exact Option.some.inj hs' ▸ h.seq hm
    · rename_i hi
      cases hs'
      cases id with
      | slab => exact h.nextFill hm (Nat.le_of_not_lt hi)
      | _ => exact h.nextHeader hm (Nat.le_of_not_lt hi) rfl
  | fill i =>
    rw [hm] at hs'
    obtain ⟨-, hs'⟩ := Option.ite_none_left_eq_some.mp hs'
    split at hs'
    · rename_i hi
      cases hs'
      refine (h.setFill hm).begin rfl (fun _ => trivial) rfl rfl (Or.inr ⟨i + 1, i, rfl, rfl, rfl, Nat.lt_succ_self i⟩) ?_
      exact ⟨rfl, h.phase.filled i hm i (Nat.le_refl i) hi⟩
    · exact Option.some.inj hs' ▸ h.setDone hm
  | done =>
    rw [hm] at hs'
    cases hs'

theorem Phase.rank_of_open (h : Phase s) (hslave : s.slave = .openShm k) (hk : k < 3) : s.master.rank < 8 := by
  have hanswered := h.answered (k + 1) (by omega)
  rw [hslave] at hanswered
  change _ → 2 * (k + 1) < 2 * k + 1 at hanswered
  omega

theorem State.Inv.slaveStep (h : s.Inv) (hsafe : Safe s .slave) (hs' : s' ∈ s.slaveStep s.slave) : s'.Inv := by
  unfold Safe at hsafe
  cases hslave : s.slave with
  | connect k =>
    rw [hslave] at hs'
    obtain ⟨-, hs'⟩ := Option.ite_none_right_eq_some.mp hs'
    cases hs'
    refine h.setSlave ?_ (fun _ hk => nomatch hk) (fun k' hk' => ?_) fun hdone => nomatch hdone
    · rw [hslave]
      exact Nat.le_succ _
    · obtain rfl := SlavePc.openShm.inj hk'
      exact h.phase.connects k hslave
  | openShm k =>
    rw [hslave] at hs'
    cases hs'
    have hle := h.phase.opens k hslave
    have hdone : s.master ≠ .done := by
      intro hdone
      obtain hlt | rfl := Nat.lt_or_eq_of_le hle
      · have hrank := h.phase.rank_of_open hslave hlt
        rw [hdone] at hrank
        exact Nat.lt_irrefl 8 hrank
      · rw [hslave] at hsafe
        exact hsafe hdone
    have hclear : (s.clear k).Inv := by
      refine h.clear (fun hk => ?_) hdone
      obtain hlt | rfl := Nat.lt_or_eq_of_le hle
      · exact h.phase.rank_of_open hslave hlt
      · exact absurd rfl hk
    obtain ⟨-, -, hsame⟩ := clear_same s k
    refine hclear.setSlave ?_ (fun k' hk' => ?_) (fun k' hk' => ?_) fun hk' => ?_
    · rw [hsame, hslave]
      split
      · exact Nat.le_succ _
      · change 2 * k + 1 ≤ 8
        omega
    · split at hk'
      · have heq := SlavePc.connect.inj hk'
        omega
      · cases hk'
    · split at hk' <;> cases hk'
    · split at hk' <;> cases hk'
  | sleep =>
    rw [hslave] at hs' hsafe
    cases hs'
    refine h.setSlave ?_ (fun _ hk => nomatch hk) (fun _ hk => nomatch hk) fun _ => hsafe
    rw [hslave]
    exact Nat.le_succ 8
  | done =>
    rw [hslave] at hs'
    cases hs'

theorem State.Inv.beginStep (h : s.Inv) {op : Op} {p : Pc Nat} (hs' : s' ∈ s.begin t op p) (hfits : ∀ id, Fits (s.rings id) p)
    (hproduces : p.produces = none) (hconsumes : p.consumes = none) (hlocal : s.books.Local t op p) : s'.Inv := by
  obtain ⟨⟨hready, -⟩, hs'⟩ := Option.ite_none_right_eq_some.mp hs'
  have hdone := h.ready hready
  exact Option.some.inj hs' ▸ State.Inv.begin h (by rw [hdone]; rfl) hfits hproduces hconsumes (Or.inl hdone) hlocal

theorem State.Inv.step (h : s.Inv) {e : Event} (hsafe : Safe s e) (hs' : s' ∈ step s e) : s'.Inv := by
  cases e with
  | master n => exact h.masterStep hs'
  | slave => exact h.slaveStep hsafe hs'
  | alloc t => exact h.beginStep hs' (fun _ => trivial) rfl rfl trivial
  | recv t => exact h.beginStep hs' (fun _ => trivial) rfl rfl trivial
  | write t slot bytes =>
    obtain ⟨⟨-, hidle, hslot, -⟩, hs'⟩ := Option.ite_none_right_eq_some.mp hs'
    cases hs'
    exact ⟨{ h.phase with raw := fun id i hm => { h.phase.raw id i hm with } }, h.ledger.write hslot hidle bytes⟩
  | give t t' slot =>
    obtain ⟨⟨hready, hidle, hslot, hne, -⟩, hs'⟩ := Option.ite_none_right_eq_some.mp hs'
    cases hs'
    have hdone := h.ready hready
    refine ⟨{ h.phase with
      raw := fun id i hm => { h.phase.raw id i hm with }
      filled := fun i hm => nomatch hdone.symm.trans hm }, h.ledger.give hne hslot hidle⟩
  | go t fails =>
    change s' ∈ s.go t fails at hs'
    unfold State.go at hs'
    cases hcall : s.pc t with
    | idle =>
      rw [hcall] at hs'
      cases hs'
    | call op p =>
      rw [hcall] at hs'
      obtain ⟨-, hs'⟩ := Option.ite_none_right_eq_some.mp hs'
      exact Option.some.inj hs' ▸ h.call hcall
  | _ =>
    obtain ⟨hslot, hs'⟩ := Option.ite_none_right_eq_some.mp hs'
    exact h.beginStep hs' (fun _ => trivial) rfl rfl ⟨rfl, hslot⟩

theorem inside_of_mem {slot : Nat} (hslot : slot ∈ s.slotAddrs) :
    s.slabAddr ≤ slot ∧ slot + s.config.messageSize ≤ s.slabAddr + s.config.slabBytes := by
  obtain ⟨i, hi, rfl⟩ := List.mem_map.mp hslot
  refine ⟨Nat.le_add_right _ _, ?_⟩
  have hrow : (i + 1) * s.config.messageSize ≤ s.config.slabSlots * s.config.messageSize :=
    Nat.mul_le_mul_right _ (List.mem_range.mp hi)
  have hbytes : s.config.slabSlots * s.config.messageSize ≤ s.config.messageSize * s.config.queueSize * 2 := by
    rw [Nat.mul_assoc, Nat.mul_comm]
    exact Nat.mul_le_mul_left _ (Nat.mod_le _ _)
  have hround : s.config.messageSize * s.config.queueSize * 2 ≤ s.config.slabBytes := by
    unfold Config.slabBytes Config.pageSize
    omega
  rw [Nat.succ_mul] at hrow
  omega

theorem State.Inv.fine (h : s.Inv) : s.Fine where
  once t := h.ledger.placed.nodup (.hand t)
  apart t t' slot hslot hslot' := Place.hand.inj (h.ledger.placed.unique (.hand t) (.hand t') slot hslot hslot')
  inside t slot hslot := by
    have hknown : slot ∈ s.slots := h.ledger.placed.sound (.hand t) slot hslot
    rw [h.phase.slots] at hknown
    split at hknown
    · exact inside_of_mem hknown
    · cases hknown
  order := h.ledger.claimed
  single := h.ledger.single
  intact id m hm := by
    obtain ⟨hbelow, hlog, hsent⟩ := h.ledger.intact id m hm
    refine ⟨?_, hlog, hsent⟩
    rw [show s.claimed id = List.range (s.rings id).tail from h.ledger.claimed id]
    exact List.mem_range.mpr hbelow

/-- If the slave clears the slab before the constructor of the master returns, and sleeps for long enough, no slot is in
two hands and messages arrive intact. -/
theorem messages_intact_of_safe (config : Config) (es : List Event) (h : Throughout step Safe (State.init config) es) :
    Throughout step Holds (State.init config) es :=
  Throughout.imp (I := State.Inv) (fun _ _ hinv hsafe _ hs' => (hinv.step hsafe hs').fine)
    (fun _ _ _ hinv hsafe hs' => hinv.step hsafe hs') (init_inv config) h

instance (s : State) (e : Event) : Decidable (Safe s e) := by
  unfold Safe
  repeat' split
  all_goals infer_instance

def negotiate : List Event := [.slave, .master 0, .master 0]

def buildEvents : List Event :=
  List.replicate 14 (.master 0) ++ (List.replicate 4 (.master 0 :: List.replicate 5 (.go ctor false))).flatten ++ [.master 0]

def callOf (t : Thread) (e : Event) : List Event := e :: List.replicate 5 (.go t false)

def sendEvents : List Event :=
  callOf ctor (.alloc ctor) ++ [.write ctor vaddrBase [1, 2, 3, 4, 5, 6, 7, 8]] ++ callOf ctor (.send ctor vaddrBase)

def channelEvents : List Event :=
  (List.replicate 4 (negotiate ++ [.slave])).flatten ++ buildEvents ++ [.slave] ++ sendEvents ++ callOf ⟨false, 0⟩ (.recv ⟨false, 0⟩)

theorem messages_intact_channel :
    (runs step (.init ⟨0, 1⟩) channelEvents).map (fun s => s.received .m2s) = some [(0, vaddrBase, [1, 2, 3, 4, 5, 6, 7, 8])] ∧
      Throughout step Holds (.init ⟨0, 1⟩) channelEvents :=
  ⟨by decide +kernel, messages_intact_of_safe ⟨0, 1⟩ channelEvents (by decide +kernel)⟩

def lateEvents : List Event :=
  (List.replicate 3 (negotiate ++ [.slave])).flatten ++ negotiate ++ buildEvents ++ sendEvents ++ [.slave, .slave] ++
    callOf ⟨false, 0⟩ (.recv ⟨false, 0⟩)

/-- The message arrives with zeros for its bytes. -/
theorem not_messages_intact : ¬ Throughout step Holds (.init ⟨0, 1⟩) lateEvents := by
  intro h
  have hend : (runs step (.init ⟨0, 1⟩) lateEvents).map (fun s => (s.received .m2s, s.sent .m2s)) =
      some ([(0, vaddrBase, List.replicate 8 0)], [[1, 2, 3, 4, 5, 6, 7, 8]]) := by decide +kernel
  obtain ⟨s, hs, heq⟩ := Option.map_eq_some_iff.mp hend
  obtain ⟨hreceived, hsent⟩ := Prod.mk.inj heq
  have hintact := (h.reached (init_inv _).fine hs).intact .m2s (0, vaddrBase, List.replicate 8 0)
  rw [hreceived, hsent] at hintact
  exact absurd (hintact (List.mem_singleton_self _)).2.2 (by decide)

end Comanche.Core.Uipc
