import Comanche.Core.Uipc

/-!
# The slots of a channel

What matters of a channel for its slots is kept in books.
-/

namespace Comanche.Core.Uipc

open Lib Lib.MpmcRing
open Function (forall_update_iff update update_of_ne update_self)

structure Books where
  log : RingId → List Nat
  tail : RingId → Nat
  hand : Thread → List Nat
  lost : List Nat
  slots : List Nat
  mem : Nat → Bytes
  sent : RingId → List Bytes
  claimed : RingId → List Nat
  received : RingId → List (Nat × Nat × Bytes)

def State.books (s : State) : Books :=
  ⟨fun id => (s.rings id).log, fun id => (s.rings id).tail, s.hand, s.lost, s.slots, s.mem, s.sent, s.claimed, s.received⟩

inductive Place where
  | ring (id : RingId)
  | hand (t : Thread)
  | lost
  deriving DecidableEq

namespace Books

def held (b : Books) : Place → List Nat
  | .ring id => (b.log id).drop (b.tail id)
  | .hand t => b.hand t
  | .lost => b.lost

def setHand (b : Books) (t : Thread) (hand : List Nat) : Books := { b with hand := update b.hand t hand }

def claim (b : Books) (t : Thread) (id : RingId) (x : Nat) : Books :=
  { b.setHand t ((b.hand t).erase x) with
    log := update b.log id (b.log id ++ [x])
    sent := update b.sent id (b.sent id ++ [b.mem x]) }

def take (b : Books) (t : Thread) (id : RingId) (x : Nat) : Books :=
  { b.setHand t (b.hand t ++ [x]) with
    tail := update b.tail id (b.tail id + 1)
    claimed := update b.claimed id (b.claimed id ++ [b.tail id]) }

def lose (b : Books) (t : Thread) (x : Nat) : Books := { b.setHand t ((b.hand t).erase x) with lost := b.lost ++ [x] }

def deliver (b : Books) (id : RingId) (k x : Nat) : Books :=
  { b with received := update b.received id (b.received id ++ [(k, x, b.mem x)]) }

def write (b : Books) (slot : Nat) (bytes : Bytes) : Books := { b with mem := update b.mem slot bytes }

def give (b : Books) (t t' : Thread) (slot : Nat) : Books :=
  (b.setHand t ((b.hand t).erase slot)).setHand t' (b.hand t' ++ [slot])

structure Taken (b : Books) (t : Thread) (op : Op) (k : Nat) : Prop where
  item : ∃ x, (b.log (op.ring t.master))[k]? = some x ∧ x ∈ b.hand t ∧
    (op = .recv → (b.sent (op.ring t.master))[k]? = some (b.mem x))
  below : k < b.tail (op.ring t.master)
  fresh : k ∉ (b.received (op.ring t.master)).map Prod.fst

def Local (b : Books) (t : Thread) (op : Op) : Pc Nat → Prop
  | .enqLoad x | .enqTest x _ | .enqCas x _ => op.item = some x ∧ x ∈ b.hand t
  | .deqData k | .deqSeq k _ => b.Taken t op k
  | .enqData _ _ | .enqSeq _ _ | .deqLoad | .deqTest _ | .deqCas _ => True

end Books

structure Ledger (b : Books) (pc : Thread → ThreadPc) : Prop where
  sentLength : ∀ id, (b.sent id).length = (b.log id).length
  behind : ∀ id, b.tail id ≤ (b.log id).length
  placed : Placed (· ∈ b.slots) b.held
  bytes : ∀ id, id ≠ .slab → ∀ k x, b.tail id ≤ k → (b.log id)[k]? = some x → (b.sent id)[k]? = some (b.mem x)
  locals : ∀ t op p, pc t = .call op p → b.Local t op p
  claimed : ∀ id, b.claimed id = List.range (b.tail id)
  single : ∀ id, ((b.received id).map Prod.fst).Nodup
  intact : ∀ id, ∀ m ∈ b.received id, m.1 < b.tail id ∧ (b.log id)[m.1]? = some m.2.1 ∧ (b.sent id)[m.1]? = some m.2.2

variable {b : Books} {pc : Thread → ThreadPc} {t t' : Thread} {id : RingId} {op : Op} {x k : Nat} {pc' : ThreadPc}

theorem recv_ring_ne_slab (master : Bool) : Op.recv.ring master ≠ .slab := by
  cases master <;> decide

theorem getElem?_update_append {β : Type} (f : RingId → List β) (y : β) {id' : RingId} {k : Nat} {z : β}
    (h : (f id')[k]? = some z) : (update f id (f id ++ [y]) id')[k]? = some z := by
  by_cases hid : id' = id
  · subst hid
    rw [update_self, List.getElem?_append_left (List.getElem?_eq_some_iff.mp h).1, h]
  · rw [update_of_ne hid, h]

theorem Books.Local.imp {b' : Books} {p : Pc Nat} (h : b.Local t op p) (hhand : ∀ x ∈ b.hand t, x ∈ b'.hand t)
    (htaken : ∀ k, p.consumes = some k → b.Taken t op k → b'.Taken t op k) : b'.Local t op p := by
  cases p with
  | enqLoad x | enqTest x n | enqCas x n => exact ⟨h.1, hhand x h.2⟩
  | deqData k => exact htaken k rfl h
  | deqSeq k x => exact htaken k rfl h
  | enqData x n | enqSeq x n | deqLoad | deqTest n | deqCas n => trivial

theorem Books.Local.mono {b' : Books} {p : Pc Nat} (h : b.Local t op p) (hhand : ∀ x ∈ b.hand t, x ∈ b'.hand t)
    (hlog : ∀ id (k x : Nat), (b.log id)[k]? = some x → (b'.log id)[k]? = some x)
    (hsent : ∀ id (k : Nat) bytes, (b.sent id)[k]? = some bytes → (b'.sent id)[k]? = some bytes)
    (hmem : ∀ x ∈ b.hand t, b'.mem x = b.mem x) (htail : ∀ id, b.tail id ≤ b'.tail id)
    (hreceived : ∀ id, ∀ k, k ∈ (b'.received id).map Prod.fst → k ∈ (b.received id).map Prod.fst) :
    b'.Local t op p := by
  refine h.imp hhand fun k _ h => ?_
  obtain ⟨⟨x, hx, hmemx, hbytes⟩, hbelow, hfresh⟩ := h
  refine ⟨⟨x, hlog _ k x hx, hhand x hmemx, fun hop => ?_⟩, Nat.lt_of_lt_of_le hbelow (htail _), fun hk => hfresh (hreceived _ k hk)⟩
  rw [hmem x hmemx]
  exact hsent _ k _ (hbytes hop)

namespace Ledger

theorem locals_update {b' : Books} (hself : ∀ op p, pc' = .call op p → b'.Local t op p)
    (hothers : ∀ t', t' ≠ t → ∀ op p, pc t' = .call op p → b'.Local t' op p) (t' : Thread) (op : Op) (p : Pc Nat)
    (h : update pc t pc' t' = .call op p) : b'.Local t' op p := by
  exact (forall_update_iff pc fun t' pc' => ∀ op p, pc' = .call op p → b'.Local t' op p).mpr ⟨hself, hothers⟩ t' op p h

theorem silent (h : Ledger b pc) (hself : ∀ op p, pc' = .call op p → b.Local t op p) : Ledger b (update pc t pc') :=
  { h with locals := locals_update hself fun t' _ => h.locals t' }

theorem moves_of_hand {b' : Books} {q : Place} (hq : q ≠ .hand t) (hx : x ∈ b.hand t)
    (hhand : b'.hand = update b.hand t ((b.hand t).erase x)) (htarget : (b'.held q).Perm ([x] ++ b.held q))
    (hother : ∀ r, r ≠ q → (∀ t, r ≠ .hand t) → b'.held r = b.held r)
    (hhands : ∀ t', t' ≠ t → .hand t' ≠ q → b'.hand t' = b.hand t') : Placed.Moves (.hand t) q [x] b.held b'.held := by
  refine ⟨hq.symm, ?_, htarget, fun r hr hr' => ?_⟩
  · change (b.hand t).Perm ([x] ++ b'.hand t)
    rw [hhand, update_self]
    exact List.perm_cons_erase hx
  · cases r with
    | hand t' => exact hhands t' (fun heq => hr (congrArg Place.hand heq)) hr'
    | _ => exact hother _ hr' fun _ => nofun

theorem moves_claim (h : Ledger b pc) (hx : x ∈ b.hand t) :
    Placed.Moves (.hand t) (.ring id) [x] b.held (b.claim t id x).held := by
  refine moves_of_hand nofun hx rfl ?_ (fun r hr hhand => ?_) fun t' ht' _ => update_of_ne ht' ..
  · change (List.drop (b.tail id) (update b.log id (b.log id ++ [x]) id)).Perm ([x] ++ List.drop (b.tail id) (b.log id))
    rw [update_self, List.drop_append_of_le_length (h.behind id)]
    exact List.perm_append_comm
  · cases r with
    | ring id' => exact congrArg (List.drop (b.tail id')) (update_of_ne (fun heq => hr (congrArg Place.ring heq)) ..)
    | hand t' => exact absurd rfl (hhand t')
    | lost => rfl

theorem claim (h : Ledger b pc) (hx : x ∈ b.hand t) (hself : ∀ op p, pc' = .call op p → (b.claim t id x).Local t op p) :
    Ledger (b.claim t id x) (update pc t pc') where
  sentLength id' := by
    by_cases hid : id' = id
    · subst hid
      change (update b.sent id' _ id').length = (update b.log id' _ id').length
      rw [update_self, update_self, List.length_append, List.length_append, h.sentLength]
      rfl
    · change (update b.sent id _ id').length = (update b.log id _ id').length
      rw [update_of_ne hid, update_of_ne hid, h.sentLength]
  behind := (forall_update_iff b.log fun id' log => b.tail id' ≤ log.length).mpr
    ⟨by rw [List.length_append]; exact Nat.le_add_right_of_le (h.behind id), fun id' _ => h.behind id'⟩
  placed := h.placed.move (h.moves_claim hx)
  bytes id' hslab k y hk hy := by
    by_cases hold : k < (b.log id').length
    · obtain ⟨y', hy'⟩ : ∃ y', (b.log id')[k]? = some y' := ⟨_, List.getElem?_eq_getElem hold⟩
      obtain rfl := Option.some.inj ((getElem?_update_append b.log x hy').symm.trans hy)
      exact getElem?_update_append b.sent (b.mem x) (h.bytes id' hslab k y' hk hy')
    · -- the new position
      obtain ⟨hlt, -⟩ := List.getElem?_eq_some_iff.mp hy
      by_cases hid : id' = id
      · subst hid
        change (update b.log id' (b.log id' ++ [x]) id')[k]? = some y at hy
        change k < (update b.log id' (b.log id' ++ [x]) id').length at hlt
        change (update b.sent id' (b.sent id' ++ [b.mem x]) id')[k]? = some (b.mem y)
        rw [update_self] at hy hlt ⊢
        have hk' : k = (b.log id').length := by
          rw [List.length_append, List.length_singleton] at hlt
          omega
        rw [hk', List.getElem?_concat_length] at hy
        rw [hk', ← h.sentLength, List.getElem?_concat_length, Option.some.inj hy]
      · change k < (update b.log id _ id').length at hlt
        rw [update_of_ne hid] at hlt
        exact absurd hlt hold
  locals := locals_update hself fun t' ht' op p hp => by
    refine (h.locals t' op p hp).mono (fun y hy => ?_) (fun _ _ _ => getElem?_update_append b.log x)
      (fun _ _ _ => getElem?_update_append b.sent (b.mem x)) (fun _ _ => rfl) (fun _ => Nat.le_refl _) fun _ _ hk => hk
    change y ∈ update b.hand t _ t'
    rwa [update_of_ne ht']
  claimed := h.claimed
  single := h.single
  intact id' m hm := by
    obtain ⟨hbelow, hlog, hsent⟩ := h.intact id' m hm
    exact ⟨hbelow, getElem?_update_append b.log x hlog, getElem?_update_append b.sent (b.mem x) hsent⟩

theorem moves_take (hx : (b.log id)[b.tail id]? = some x) :
    Placed.Moves (.ring id) (.hand t) [x] b.held (b.take t id x).held := by
  obtain ⟨hlt, hget⟩ := List.getElem?_eq_some_iff.mp hx
  refine ⟨nofun, ?_, ?_, fun r hr hr' => ?_⟩
  · change (List.drop (b.tail id) (b.log id)).Perm ([x] ++ List.drop (update b.tail id (b.tail id + 1) id) (b.log id))
    rw [update_self, List.drop_eq_getElem_cons hlt, hget]
    exact List.Perm.refl _
  · change (update b.hand t (b.hand t ++ [x]) t).Perm ([x] ++ b.hand t)
    rw [update_self]
    exact List.perm_append_comm
  · cases r with
    | ring id' => exact congrArg (List.drop · (b.log id')) (update_of_ne (fun heq => hr (congrArg Place.ring heq)) ..)
    | hand t' => exact update_of_ne (fun heq => hr' (congrArg Place.hand heq)) ..
    | lost => rfl

theorem tail_le_take (id' : RingId) : b.tail id' ≤ (b.take t id x).tail id' := by
  exact (forall_update_iff b.tail fun id' n => b.tail id' ≤ n).mpr ⟨Nat.le_succ _, fun _ _ => le_rfl⟩ id'

theorem taken (h : Ledger b pc) (hx : (b.log (op.ring t.master))[b.tail (op.ring t.master)]? = some x) :
    (b.take t (op.ring t.master) x).Taken t op (b.tail (op.ring t.master)) := by
  refine ⟨⟨x, hx, ?_, fun hop => ?_⟩, ?_, fun hk => ?_⟩
  · change x ∈ update b.hand t _ t
    rw [update_self]
    exact List.mem_append_right _ (List.mem_singleton.mpr rfl)
  · subst hop
    exact h.bytes _ (recv_ring_ne_slab t.master) _ x (Nat.le_refl _) hx
  · change _ < update b.tail _ _ _
    rw [update_self]
    exact Nat.lt_succ_self _
  · obtain ⟨m, hm, hk⟩ := List.mem_map.mp hk
    exact Nat.lt_irrefl _ (hk ▸ (h.intact _ m hm).1)

theorem take (h : Ledger b pc) (hx : (b.log id)[b.tail id]? = some x)
    (hself : ∀ op p, pc' = .call op p → (b.take t id x).Local t op p) : Ledger (b.take t id x) (update pc t pc') where
  sentLength := h.sentLength
  behind := (forall_update_iff b.tail fun id' tail => tail ≤ (b.log id').length).mpr
    ⟨(List.getElem?_eq_some_iff.mp hx).1, fun id' _ => h.behind id'⟩
  placed := h.placed.move (moves_take hx)
  bytes id' hslab k y hk hy := h.bytes id' hslab k y (Nat.le_trans (tail_le_take id') hk) hy
  locals := locals_update hself fun t' ht' op p hp => by
    refine (h.locals t' op p hp).mono (fun y hy => ?_) (fun _ _ _ hk => hk) (fun _ _ _ hk => hk) (fun _ _ => rfl) tail_le_take
      fun _ _ hk => hk
    change y ∈ update b.hand t _ t'
    rwa [update_of_ne ht']
  claimed id' := by
    change update b.claimed id _ id' = List.range (update b.tail id _ id')
    by_cases hid : id' = id
    · subst hid
      rw [update_self, update_self, h.claimed, List.range_succ]
    · rw [update_of_ne hid, update_of_ne hid, h.claimed]
  single := h.single
  intact id' m hm := (h.intact id' m hm).imp_left fun hbelow => Nat.lt_of_lt_of_le hbelow (tail_le_take id')

theorem moves_lose (hx : x ∈ b.hand t) : Placed.Moves (.hand t) .lost [x] b.held (b.lose t x).held := by
  refine moves_of_hand nofun hx rfl List.perm_append_comm (fun r hr hhand => ?_) fun t' ht' _ => update_of_ne ht' ..
  cases r with
  | ring id' => rfl
  | hand t' => exact absurd rfl (hhand t')
  | lost => exact absurd rfl hr

theorem lose (h : Ledger b pc) (hx : x ∈ b.hand t) : Ledger (b.lose t x) (update pc t .idle) :=
  { h with
    placed := h.placed.move (moves_lose hx)
    locals := locals_update (fun op p hp => nomatch hp) fun t' ht' op p hp => by
      refine (h.locals t' op p hp).mono (fun y hy => ?_) (fun _ _ _ hk => hk) (fun _ _ _ hk => hk) (fun _ _ => rfl)
        (fun _ => Nat.le_refl _) fun _ _ hk => hk
      change y ∈ update b.hand t _ t'
      rwa [update_of_ne ht'] }

theorem deliver (h : Ledger b pc) (htaken : b.Taken t .recv k) (hx : (b.log (Op.recv.ring t.master))[k]? = some x)
    (hothers : ∀ t', t' ≠ t → ∀ op p, pc t' = .call op p → op.ring t'.master = Op.recv.ring t.master → p.consumes ≠ some k) :
    Ledger (b.deliver (Op.recv.ring t.master) k x) (update pc t .idle) := by
  refine { h with locals := ?_, single := ?_, intact := ?_ }
  · refine locals_update (fun op p hp => nomatch hp) fun t' ht' op p hp => ?_
    refine (h.locals t' op p hp).imp (fun _ hy => hy) fun k' hk' htaken => ⟨htaken.item, htaken.below, fun hmem => ?_⟩
    change k' ∈ (update b.received _ _ _).map Prod.fst at hmem
    by_cases hid : op.ring t'.master = Op.recv.ring t.master
    · rw [hid, update_self, List.map_append, List.mem_append] at hmem
      obtain hmem | hmem := hmem
      · exact htaken.fresh (hid ▸ hmem)
      · exact hothers t' ht' op p hp hid (hk'.trans (congrArg some (List.mem_singleton.mp hmem)))
    · rw [update_of_ne hid] at hmem
      exact htaken.fresh hmem
  · refine (forall_update_iff b.received fun _ l => (l.map Prod.fst).Nodup).mpr ⟨?_, fun id' _ => h.single id'⟩
    rw [List.map_append]
    refine List.nodup_append.mpr ⟨h.single _, List.nodup_singleton _, fun k' hk' k'' hk'' heq => ?_⟩
    have hk : k' = k := heq.trans (List.mem_singleton.mp hk'')
    exact htaken.fresh (hk ▸ hk')
  · refine (forall_update_iff b.received fun id' l => ∀ m ∈ l, m.1 < b.tail id' ∧ (b.log id')[m.1]? = some m.2.1 ∧
      (b.sent id')[m.1]? = some m.2.2).mpr ⟨fun m hm => ?_, fun id' _ => h.intact id'⟩
    obtain hm | hm := List.mem_append.mp hm
    · exact h.intact _ m hm
    · obtain rfl := List.mem_singleton.mp hm
      obtain ⟨y, hy, -, hbytes⟩ := htaken.item
      obtain rfl := Option.some.inj (hy.symm.trans hx)
      exact ⟨htaken.below, hx, hbytes rfl⟩

theorem write (h : Ledger b pc) (hx : x ∈ b.hand t) (hidle : pc t = .idle) (bytes : Bytes) : Ledger (b.write x bytes) pc := by
  refine { h with bytes := fun id' hslab k y hk hy => ?_, locals := fun t' op p hp => ?_ }
  · -- an item of a ring is not in the hands of a thread
    have hring : y ∈ b.held (.ring id') := by
      refine List.mem_of_getElem? (i := k - b.tail id') ?_
      rw [Books.held, List.getElem?_drop, Nat.add_sub_cancel' (show b.tail id' ≤ k from hk)]
      exact hy
    have hne : y ≠ x := by
      rintro rfl
      exact Place.noConfusion (h.placed.unique _ _ y hring (show y ∈ b.held (.hand t) from hx))
    change (b.sent id')[k]? = some (update b.mem x bytes y)
    rw [update_of_ne hne]
    exact h.bytes id' hslab k y hk hy
  · refine (h.locals t' op p hp).mono (fun _ hy => hy) (fun _ _ _ hk => hk) (fun _ _ _ hk => hk) (fun y hy => ?_)
      (fun _ => Nat.le_refl _) fun _ _ hk => hk
    refine update_of_ne ?_ ..
    rintro rfl
    have hplace := h.placed.unique _ _ y (show y ∈ b.held (.hand t') from hy) (show y ∈ b.held (.hand t) from hx)
    cases hplace
    cases hidle.symm.trans hp

theorem moves_give (hne : t' ≠ t) (hx : x ∈ b.hand t) : Placed.Moves (.hand t) (.hand t') [x] b.held (b.give t t' x).held := by
  refine ⟨fun heq => hne (Place.hand.inj heq).symm, ?_, ?_, fun r hr hr' => ?_⟩
  · change (b.hand t).Perm ([x] ++ update (update b.hand t _) t' _ t)
    rw [update_of_ne hne.symm, update_self]
    exact List.perm_cons_erase hx
  · change (update (update b.hand t _) t' _ t').Perm ([x] ++ b.hand t')
    rw [update_self]
    exact List.perm_append_comm
  · cases r with
    | ring id' => rfl
    | hand t'' =>
      change update (update b.hand t _) t' _ t'' = b.hand t''
      rw [update_of_ne fun heq => hr' (congrArg Place.hand heq), update_of_ne fun heq => hr (congrArg Place.hand heq)]
    | lost => rfl

theorem give (h : Ledger b pc) (hne : t' ≠ t) (hx : x ∈ b.hand t) (hidle : pc t = .idle) : Ledger (b.give t t' x) pc := by
  refine { h with placed := h.placed.move (moves_give hne hx), locals := fun t'' op p hp => ?_ }
  refine (h.locals t'' op p hp).mono (fun y hy => ?_) (fun _ _ _ hk => hk) (fun _ _ _ hk => hk) (fun _ _ => rfl)
    (fun _ => Nat.le_refl _) fun _ _ hk => hk
  have ht : t'' ≠ t := by
    rintro rfl
    cases hidle.symm.trans hp
  change y ∈ update (update b.hand t _) t' _ t''
  by_cases ht' : t'' = t'
  · subst ht'
    rw [update_self]
    exact List.mem_append_left _ hy
  · rwa [update_of_ne ht', update_of_ne ht]

theorem setMem (h : Ledger b pc) (hlog : ∀ id, id ≠ .slab → b.log id = []) (hcalls : ∀ t op p, pc t = .call op p → op ≠ .recv)
    (mem : Nat → Bytes) : Ledger { b with mem := mem } pc := by
  refine { h with bytes := fun id hslab k x _ hx => ?_, locals := fun t op p hp => ?_ }
  · change (b.log id)[k]? = some x at hx
    rw [hlog id hslab] at hx
    cases hx
  · refine (h.locals t op p hp).imp (fun _ hx => hx) fun k _ htaken => ?_
    obtain ⟨x, hx, hhand, -⟩ := htaken.item
    exact ⟨⟨x, hx, hhand, fun hop => absurd hop (hcalls t op p hp)⟩, htaken.below, htaken.fresh⟩

theorem supply (h : Ledger b pc) (hslots : b.slots = []) (hidle : ∀ t, pc t = .idle) {slots : List Nat} (hnodup : slots.Nodup)
    (t : Thread) : Ledger { b.setHand t slots with slots := slots } pc := by
  refine { h with placed := ?_, locals := fun t' op p hp => nomatch (hidle t').symm.trans hp }
  have hempty (p : Place) : b.held p = [] := by
    refine List.eq_nil_iff_forall_not_mem.mpr fun x hx => ?_
    have hknown := h.placed.sound p x hx
    rw [hslots] at hknown
    cases hknown
  have hother (p : Place) (hp : p ≠ .hand t) : Books.held { b.setHand t slots with slots := slots } p = [] := by
    cases p with
    | ring id => exact hempty (.ring id)
    | hand t' => exact (update_of_ne (fun heq => hp (congrArg Place.hand heq)) ..).trans (hempty (.hand t'))
    | lost => exact hempty .lost
  have hself : Books.held { b.setHand t slots with slots := slots } (.hand t) = slots := update_self ..
  have honly (p : Place) (x : Nat) (hx : x ∈ Books.held { b.setHand t slots with slots := slots } p) : p = .hand t := by
    by_contra hp
    rw [hother p hp] at hx
    cases hx
  refine ⟨fun p => ?_, fun p x hx => ?_, fun p q x hx hx' => (honly p x hx).trans (honly q x hx').symm, fun x hx => ⟨.hand t, ?_⟩⟩
  · by_cases hp : p = .hand t
    · rw [hp, hself]
      exact hnodup
    · rw [hother p hp]
      exact List.nodup_nil
  · rwa [honly p x hx, hself] at hx
  · rwa [hself]

end Ledger

end Comanche.Core.Uipc
