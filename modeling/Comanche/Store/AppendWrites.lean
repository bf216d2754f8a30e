import Comanche.Store.AppendStore

/-!
# The writes of puts

A put issues the write of its object and waits for it on a semaphore that its thread keeps.
-/

namespace Comanche.Store.Append

open Lib Lib.SqlText
open Function (update)

/-- The `put` of data and that of io memory, each with a semaphore of its own. -/
inductive Overload where
  | data
  | iob
  deriving DecidableEq

/-- `pending` are the writes that the device has not completed, and `waiting` that of the put which waits. -/
structure Thread where
  store : AppendStore
  sem : Overload → Nat
  issued : Nat
  pending : List (Nat × Overload)
  waiting : Option (Nat × Overload)

def Thread.start (store : AppendStore) : Thread := ⟨store, fun _ => 0, 0, [], none⟩

inductive PutEvent where
  | put (o : Overload) (key metadata : List Char) (payload : Payload)
  | complete (write : Nat × Overload)
  | wake

namespace Thread

/-- A put that does not throw for want of blocks, and does not only reserve them, issues a write. -/
def Issues (t : Thread) (payload : Payload) : Prop :=
  (t.store.header.allocate t.store.vol.blockSize payload.len).isSome ∧ payload.iob.isSome

instance (t : Thread) (payload : Payload) : Decidable (t.Issues payload) := inferInstanceAs (Decidable (_ ∧ _))

/-- The row is inserted after the write was issued. -/
def put (t : Thread) (o : Overload) (key metadata : List Char) (payload : Payload) : Thread :=
  if t.Issues payload then { t with
    store := (t.store.put key metadata payload).2
    issued := t.issued + 1
    pending := (t.issued, o) :: t.pending
    waiting := if (t.store.put key metadata payload).1 = .ok then some (t.issued, o) else none }
  else { t with store := (t.store.put key metadata payload).2 }

/-- A put that wakes returns, and that of data frees the buffer. -/
def step (t : Thread) : PutEvent → Option Thread
  | .put o key metadata payload => if t.waiting.isSome then none else some (t.put o key metadata payload)
  | .complete write =>
    if write ∈ t.pending then some { t with
      sem := update t.sem write.2 (t.sem write.2 + 1)
      pending := t.pending.erase write }
    else none
  | .wake => t.waiting.bind fun write =>
    if 0 < t.sem write.2 then some { t with sem := update t.sem write.2 (t.sem write.2 - 1), waiting := none } else none

/-- A put that returns has its own write completed. -/
def Completed (t : Thread) : PutEvent → Prop
  | .wake => ∀ write ∈ t.waiting, 0 < t.sem write.2 → write ∉ t.pending
  | .put .. | .complete _ => True

/-- The row of an object that is written is one for the table: the quotes in its texts are written twice, and no row has
its key. -/
def Accepted (t : Thread) : PutEvent → Prop
  | .put _ key metadata payload => t.Issues payload →
    ∃ id m, key = escape id ∧ metadata = escape m ∧ id ∉ t.store.rows.map Row.id
  | .complete _ | .wake => True

inductive Inv (t : Thread) : Prop
  | idle (hwaiting : t.waiting = none) (hpending : t.pending = []) (hsem : ∀ o, t.sem o = 0)
  | writes (write : Nat × Overload) (hwaiting : t.waiting = some write) (hpending : t.pending = [write])
      (hsem : ∀ o, t.sem o = 0)
  | written (write : Nat × Overload) (hwaiting : t.waiting = some write) (hpending : t.pending = [])
      (hsem : t.sem = update (fun _ => 0) write.2 1)

variable {t t' : Thread} {e : PutEvent}

theorem append_ok {s : AppendStore} {id m : List Char} (hid : id ∉ s.rows.map Row.id) (payload : Payload)
    (res : Nat × Nat × Header) : (s.append (escape id) (escape m) payload (some res)).1 = .ok := by
  obtain ⟨lba, n, header⟩ := res
  unfold AppendStore.append
  dsimp only
  rw [execute_insertText]
  unfold insert
  rw [if_neg hid]
  rfl

theorem Accepted.put_ok {o : Overload} {key metadata : List Char} {payload : Payload}
    (haccepted : t.Accepted (.put o key metadata payload)) (hissues : t.Issues payload) :
    (t.store.put key metadata payload).1 = .ok := by
  obtain ⟨id, m, rfl, rfl, hid⟩ := haccepted hissues
  obtain ⟨res, hres⟩ := Option.isSome_iff_exists.mp hissues.1
  unfold AppendStore.put
  rw [hres]
  exact append_ok hid payload res

theorem Inv.completed (h : t.Inv) (e : PutEvent) : t.Completed e := by
  cases e with
  | put | complete => trivial
  | wake =>
    intro write hwrite hpos
    cases h with
    | idle hwaiting =>
      rw [hwaiting] at hwrite
      cases hwrite
    | writes _ _ _ hsem => exact absurd (hsem write.2) (Nat.ne_of_gt hpos)
    | written _ _ hpending => exact hpending ▸ List.not_mem_nil

theorem Inv.step (h : t.Inv) (haccepted : t.Accepted e) (hs : t' ∈ t.step e) : t'.Inv := by
  cases e with
  | put o key metadata payload =>
    obtain ⟨hwait, hs⟩ := Option.ite_none_left_eq_some.mp hs
    cases hs
    cases h with
    | writes _ hwaiting | written _ hwaiting => exact absurd (by simp [hwaiting]) hwait
    | idle hwaiting hpending hsem =>
      unfold Thread.put
      split
      · next hissues => exact .writes (t.issued, o) (if_pos (haccepted.put_ok hissues)) (by rw [hpending]) hsem
      · exact .idle hwaiting hpending hsem
  | complete write =>
    obtain ⟨hmem, hs⟩ := Option.ite_none_right_eq_some.mp hs
    cases hs
    cases h with
    | idle _ hpending | written _ _ hpending =>
      rw [hpending] at hmem
      cases hmem
    | writes w hwaiting hpending hsem =>
      rw [hpending] at hmem
      obtain rfl := List.mem_singleton.mp hmem
      refine .written write hwaiting (by simp [hpending]) ?_
      rw [hsem, funext hsem]
  | wake =>
    obtain ⟨write, hwrite, hs⟩ := Option.bind_eq_some_iff.mp hs
    obtain ⟨hpos, hs⟩ := Option.ite_none_right_eq_some.mp hs
    cases hs
    cases h with
    | idle hwaiting =>
      rw [hwaiting] at hwrite
      cases hwrite
    | writes _ _ _ hsem => exact absurd (hsem write.2) (Nat.ne_of_gt hpos)
    | written w hwaiting hpending hsem =>
      obtain rfl : w = write := Option.some.inj (hwaiting.symm.trans hwrite)
      refine .idle rfl hpending fun o => ?_
      simp only [hsem, Function.update_self, Function.update_idem]
      by_cases ho : o = w.2
      · rw [ho, Function.update_self]
      · rw [Function.update_of_ne ho]

end Thread

/-- A put returns after its own write in every run in which the table takes the row of every object that is written. -/
theorem puts_complete_of_accepted (store : AppendStore) (es : List PutEvent)
    (haccepted : Throughout Thread.step Thread.Accepted (.start store) es) :
    Throughout Thread.step Thread.Completed (.start store) es :=
  haccepted.imp (I := Thread.Inv) (fun _ e h _ => h.completed e) (fun _ _ _ h => h.step) (.idle rfl rfl fun _ => rfl)

def writtenByte : Payload := ⟨1, some fun _ => 7, Nat.one_pos, oneByte.lt⟩

theorem puts_complete_two : Throughout Thread.step Thread.Completed (.start (.format smallVolume fun _ => 0))
      [.put .data ['a'] [] writtenByte, .complete (0, .data), .wake, .put .data ['b'] [] writtenByte,
        .complete (1, .data), .wake] := by
  have hrows : ∀ t₁ ∈ (Thread.start (.format smallVolume fun _ => 0)).step (.put .data ['a'] [] writtenByte),
      ∀ t₂ ∈ t₁.step (.complete (0, .data)), ∀ t₃ ∈ t₂.step .wake, ['b'] ∉ t₃.store.rows.map Row.id := by
    decide +kernel
  refine puts_complete_of_accepted _ _ ⟨fun _ => ⟨['a'], [], rfl, rfl, List.not_mem_nil⟩, fun t₁ h₁ =>
    ⟨trivial, fun t₂ h₂ => ⟨trivial, fun t₃ h₃ => ⟨fun _ => ⟨['b'], [], rfl, rfl, hrows t₁ h₁ t₂ h₂ t₃ h₃⟩, ?_⟩⟩⟩⟩
  exact fun _ _ => ⟨trivial, fun _ _ => ⟨trivial, fun _ _ => trivial⟩⟩

/-- The second put of a key throws with its write issued, and the put that follows returns when that write is
complete. -/
theorem not_puts_complete_again : ¬ Throughout Thread.step Thread.Completed
      (.start (.format smallVolume fun _ => 0))
      [.put .data ['a'] [] writtenByte, .complete (0, .data), .wake, .put .data ['a'] [] writtenByte,
        .put .data ['b'] [] writtenByte, .complete (1, .data), .wake] := by
  rintro ⟨-, hrest⟩
  obtain ⟨-, hrest⟩ := hrest _ (Option.get_mem (by decide +kernel))
  obtain ⟨-, hrest⟩ := hrest _ (Option.get_mem (by decide +kernel))
  obtain ⟨-, hrest⟩ := hrest _ (Option.get_mem (by decide +kernel))
  obtain ⟨-, hrest⟩ := hrest _ (Option.get_mem (by decide +kernel))
  obtain ⟨-, hrest⟩ := hrest _ (Option.get_mem (by decide +kernel))
  obtain ⟨hcompleted, -⟩ := hrest _ (Option.get_mem (by decide +kernel))
  exact hcompleted (2, .data) (by decide +kernel) (by decide +kernel) (by decide +kernel)

end Comanche.Store.Append
