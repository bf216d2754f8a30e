import Comanche.Hstore.KeyLock
import Comanche.Dawn.Answer

/-!
# Reads of an hstore pool

What GET and INFO requests do to a pool of an hstore back end.
-/

namespace Comanche.Dawn

open Lib
open Hstore (Config HopHash Act KeyMap Kept Unhindered)

/-- A table of strings. A key is built from the bytes of the request. -/
structure StringConfig (K : Type) extends Config K (List UInt8) (List UInt8) where
  make : List UInt8 → K
  key_make : ∀ k, key (make k) = k

inductive Attribute where
  | valueLen
  | count
  | crc32
  | autoHashtableExpansion
  | percentUsed
  deriving DecidableEq

def eNotSupported : Status := -15

/-- The fields of `Message_INFO_response` that the handler sets. -/
structure InfoResponse where
  status : Status
  value : Nat

inductive Thrown where
  | shard (e : Exc)
  | store (e : Hstore.Exc)

section Pool

variable {K : Type} [Inhabited K] (cfg : StringConfig K)

def holds (p : HopHash K (List UInt8)) (k : List UInt8) : Option (List UInt8) :=
  (Hstore.locateKey cfg.toConfig p.table k (Hstore.bucket cfg.toConfig p.table k)).map
    fun j => (p.table.value j).2

/-- `hstore::lock` with `STORE_LOCK_READ` and a length of zero. The call answers `S_OK`, with a handle or
with `KEY_NONE`. -/
def readLock (k : List UInt8) : Act K (List UInt8) Bool :=
  Hstore.lock cfg.toConfig (cfg.make k, []) false

def getAttribute (k : List UInt8) : Attribute → Act K (List UInt8) (Status × List Nat)
  | .valueLen =>
      Action.handle
        (do
          let v ← Hstore.at_ cfg.toConfig k
          return (sOk, [v.length]))
        fun e => if e = .outOfRange then return (eKeyNotFound, []) else Action.fail e
  | .autoHashtableExpansion => return (sOk, [cfg.autoResize.toNat])
  | .count | .crc32 | .percentUsed => return (eNotSupported, [])

def readCrc32 (crc32 : List UInt8 → Nat) (k : List UInt8) : Act K (List UInt8) InfoResponse := do
  let granted ← readLock cfg k
  if granted then
    let bytes ← Action.read fun p => (holds cfg p k).getD []
    Hstore.unlock cfg.toConfig k
    return ⟨sOk, crc32 bytes⟩
  else return ⟨toInt8 eFail, 0⟩

/-- The part of `process_info_request` between the construction of the response and its posting. The key of
the message is read up to its first zero byte. -/
def processInfo (crc32 : List UInt8 → Nat) (data : List UInt8) :
    Attribute → Act K (List UInt8) InfoResponse
  | .count => do
      let t ← Hstore.getTable
      -- The status stays what the constructor of the message left there.
      return ⟨toInt8 0xFE, t.size⟩
  | .valueLen => do
      let (hr, v) ← getAttribute cfg (cString data) .valueLen
      return ⟨toInt8 hr, if hr = sOk ∧ v.length = 1 then v.headD 0 else 0⟩
  | attr => do
      let (hr, v) ← getAttribute cfg (cString data) attr
      if hr = sOk ∧ v.length = 1 then return ⟨toInt8 hr, v.headD 0⟩
      else if attr = .crc32 then readCrc32 cfg crc32 (cString data)
      else return ⟨toInt8 eFail, 0⟩

structure Handled (K : Type) where
  work : Work
  pool : HopHash K (List UInt8)
  thrown : Option Thrown

def release (k : List UInt8) (unlocked : Bool) (p : HopHash K (List UInt8)) : HopHash K (List UInt8) :=
  if unlocked then (Hstore.unlock cfg.toConfig k).final p else p

/-- A GET on the pool `p`. The store answers with this handle and this address. -/
def handleGet (w : Work) (authId : Nat) (buf : IOResponse) (m : IORequest) (handle base : Nat)
    (p : HopHash K (List UInt8)) : Handled K :=
  match w.conn.allocate with
  | .error e => ⟨w, p, some (.shard e)⟩
  | .ok (iob, conn) =>
    let w := { w with conn }
    if Work.Scbe m then ⟨w.get iob (buf.construct authId) m default, p, none⟩
    else
      let p' := (readLock cfg m.key).final p
      match (readLock cfg m.key).result p with
      | .error e => ⟨w.call (.lock m.poolId m.key false 0), p', some (.store e)⟩
      | .ok granted =>
        let w' := w.get iob (buf.construct authId) m
          ⟨sOk, if granted then some handle else none, base, (holds cfg p' m.key).getD []⟩
        ⟨w', release cfg m.key (.unlock m.poolId handle ∈ w'.calls.drop w.calls.length) p', none⟩

def handleInfo (w : Work) (crc32 : List UInt8 → Nat) (attr : Attribute) (data : List UInt8) (len : Nat)
    (p : HopHash K (List UInt8)) : Handled K :=
  match w.conn.allocate with
  | .error e => ⟨w, p, some (.shard e)⟩
  | .ok (iob, conn) =>
    match (processInfo cfg crc32 data attr).exec p with
    | (.error e, p') => ⟨{ w with conn }, p', some (.store e)⟩
    | (.ok _, p') => ⟨{ w with conn := conn.postSendBuffer iob len false }, p', none⟩

end Pool

inductive ReadRequest where
  | get (authId : Nat) (buf : IOResponse) (m : IORequest) (handle base : Nat)
  | info (crc32 : List UInt8 → Nat) (attr : Attribute) (data : List UInt8) (len : Nat)

section Requests

variable {K : Type} [Inhabited K] (cfg : StringConfig K) (w : Work) (p : HopHash K (List UInt8))

def ReadRequest.handle : ReadRequest → Handled K
  | .get authId buf m handle base => handleGet cfg w authId buf m handle base p
  | .info crc32 attr data len => handleInfo cfg w crc32 attr data len p

def Handled.Answers (h : Handled K) (w : Work) (status : Status) : Prop :=
  ∃ r body, h.work.wire = w.wire ++ [.response r body] ∧ r.status = toInt8 status

/-- The pool is as before, and a GET of a key that is not there is answered so. -/
def ReadRequest.ReadsOnly (req : ReadRequest) : Prop :=
  (∀ k, holds cfg (req.handle cfg w p).pool k = holds cfg p k) ∧
    match req with
    | .get _ _ m _ _ => holds cfg p m.key = none → (req.handle cfg w p).Answers w eKeyNotFound
    | .info .. => True

/-- The key that a request reads through `lock`, or whose absence it has to report. -/
def ReadRequest.key : ReadRequest → Option (List UInt8)
  | .get _ _ m _ _ => some m.key
  | .info _ .crc32 data _ => some (cString data)
  | .info .. => none

def ReadRequest.Present (req : ReadRequest) : Prop :=
  ∀ k ∈ req.key, holds cfg p k ≠ none

/-- Entering the key meets no obstacle: there is room, no held mutex in the way, and no exception. -/
def ReadRequest.Enterable (handles : List (List UInt8 × Bool)) (req : ReadRequest) : Prop :=
  ∀ k ∈ req.key, Unhindered cfg.toConfig handles p (cfg.make k, []) ∧
    ∃ granted, (readLock cfg k).result p = .ok granted

end Requests

section Table

variable {K κ V : Type} [DecidableEq κ] {cfg : Config K κ V} {w : HopHash K V} {k : κ}

theorem at_table : Sat (Hstore.at_ cfg k) w (fun _ => True)
      (fun _ w' => Hstore.locateKey cfg w.table k (Hstore.bucket cfg w.table k) ≠ none ∧ w'.table = w.table)
      (fun e w' => e = .outOfRange ∧
        Hstore.locateKey cfg w.table k (Hstore.bucket cfg w.table k) = none ∧ w'.table = w.table) := by
  refine Hstore.sat_getTable_bind (Hstore.sat_call_bind trivial (Hstore.sat_call_bind trivial ?_))
  cases hlocate : Hstore.locateKey cfg w.table k (Hstore.bucket cfg w.table k) with
  | none => exact Sat.fail trivial ⟨rfl, rfl, rfl⟩
  | some j => exact Sat.pure trivial ⟨by simp, rfl⟩

theorem lockContentOf_table (admits : Int → Bool) (take : Nat → Hstore.Call K V) (unique : Bool) :
    Sat (Hstore.lockContentOf cfg admits take unique k) w (fun _ => True)
      (fun _ w' => w'.table = w.table) (fun _ _ => False) := by
  refine Hstore.sat_getTable_bind (Hstore.sat_call_bind trivial ?_)
  cases Hstore.locateKey cfg w.table k (Hstore.bucket cfg w.table k) with
  | none => exact Hstore.sat_call_bind trivial (Sat.pure trivial rfl)
  | some j =>
    refine Sat.bind (Sat.read trivial ?_)
    dsimp only
    split
    · exact Hstore.sat_call_bind trivial (Hstore.sat_call_bind trivial
        (Hstore.sat_call_bind trivial (Sat.pure trivial rfl)))
    · exact Hstore.sat_call_bind trivial (Sat.pure trivial rfl)

theorem tryLock_table (exclusive : Bool) :
    Sat (Hstore.tryLock cfg exclusive k) w (fun _ => True) (fun _ w' => w'.table = w.table) (fun _ _ => False) := by
  cases exclusive with
  | true => exact lockContentOf_table (fun state => state == 0) .lockContent true
  | false => exact lockContentOf_table (fun state => decide (0 ≤ state)) .lockContentShared false

theorem unlock_table :
    Sat (Hstore.unlock cfg k) w (fun _ => True) (fun _ w' => w'.table = w.table) (fun _ _ => False) := by
  refine Hstore.sat_getTable_bind (Hstore.sat_call_bind trivial ?_)
  cases Hstore.locateKey cfg w.table k (Hstore.bucket cfg w.table k) with
  | none => exact Hstore.sat_call trivial trivial rfl
  | some j =>
    refine Sat.bind (Sat.read trivial ?_)
    dsimp only
    split
    · exact Hstore.sat_call_bind trivial (Hstore.sat_call_bind trivial (Hstore.sat_call trivial trivial rfl))
    · exact Hstore.sat_call_bind trivial (Hstore.sat_call trivial trivial rfl)

variable [Inhabited K] [Inhabited V]

theorem lock_table {kv : K × V} (exclusive : Bool) (hpresent : Hstore.locateKey cfg w.table (cfg.key kv.1)
      (Hstore.bucket cfg w.table (cfg.key kv.1)) ≠ none) :
    Sat (Hstore.lock cfg kv exclusive) w (fun _ => True) (fun _ w' => w'.table = w.table) (fun _ _ => False) := by
  refine Sat.handle (Sat.bind (at_table.imp ?_ ?_))
  · rintro - w₁ ⟨-, htable⟩
    rw [← htable]
    exact (tryLock_table exclusive).imp (fun _ _ h => h) fun _ _ h => h.elim
  · rintro e w₁ ⟨-, habsent, -⟩
    exact absurd habsent hpresent

variable {handles : List (κ × Bool)} {m : KeyMap κ V}

theorem lock_enters (h : Kept cfg handles m w) {kv : K × V} (hclear : Unhindered cfg handles w kv)
    (hk : cfg.key kv.1 ∉ m) (exclusive : Bool) : Sat (Hstore.lock cfg kv exclusive) w (fun _ => True)
      (fun r w' => r = true ∧ ∃ handles', Kept cfg handles' (m.insert (cfg.key kv.1) kv.2) w') (fun _ _ => True) := by
  refine Sat.handle (Sat.bind ((Hstore.at_kept h).imp ?_ ?_))
  · rintro - w₁ ⟨hmem, -, -⟩
    exact absurd hmem hk
  · rintro e w₁ ⟨rfl, -, htable, h₁⟩
    rw [if_pos rfl]
    refine Sat.bind ((Hstore.emplace_kept h₁ (hclear.of_table h h₁ htable)).imp ?_ fun _ _ _ => trivial)
    rintro ⟨j, inserted⟩ w₂ h₂
    cases inserted with
    | false =>
      rw [if_neg (by simp)] at h₂
      exact absurd h₂.1 hk
    | true =>
      rw [if_pos rfl] at h₂
      change Sat (Hstore.tryLock cfg exclusive (cfg.key kv.1)) w₂ _ _ _
      refine (Hstore.tryLock_sat h₂.1 exclusive).imp ?_ (fun _ _ h => h.elim)
      rintro r w₃ ⟨-, hr, h₃⟩
      -- Nobody holds a handle of a key that was not there.
      have hfree : Hstore.lockState handles (cfg.key kv.1) = 0 :=
        Hstore.lockState_eq_zero_iff.mpr fun b hb => hk (h.present _ hb)
      have hadmitted : Hstore.admitted handles exclusive (cfg.key kv.1) = true := by
        unfold Hstore.admitted
        rw [hfree]
        cases exclusive <;> rfl
      have htrue : r = true := by
        rw [hr, hadmitted, Bool.and_true, decide_eq_true_eq, Finmap.mem_insert]
        exact Or.inl rfl
      rw [htrue, if_pos rfl] at h₃
      exact ⟨htrue, _, h₃⟩

end Table

section Requests

variable {K : Type} {cfg : StringConfig K} {w : Work} {p p' : HopHash K (List UInt8)}
  {k : List UInt8}

theorem holds_of_table (h : p'.table = p.table) : holds cfg p' k = holds cfg p k := by
  unfold holds
  rw [h]

theorem holds_eq_none_iff : holds cfg p k = none ↔ Hstore.locateKey cfg.toConfig p.table k
      (Hstore.bucket cfg.toConfig p.table k) = none := by
  unfold holds
  rw [Option.map_eq_none_iff]

variable {handles : List (List UInt8 × Bool)} {m : KeyMap (List UInt8) (List UInt8)} {crc32 : List UInt8 → Nat} {data : List UInt8} {authId base handle : Nat} {buf : IOResponse}

theorem holds_of_kept (h : Kept cfg.toConfig handles m p) : holds cfg p k = m.lookup k := by
  have hrep := h.stands.wellFormed.represents
  unfold holds
  cases hlocate : Hstore.locateKey cfg.toConfig p.table k (Hstore.bucket cfg.toConfig p.table k) with
  | none => exact (Finmap.lookup_eq_none.mpr (hrep.locateKey_eq_none hlocate)).symm
  | some j =>
    obtain ⟨-, -, -, -, hlookup⟩ := hrep.locateKey_eq_some hlocate
    exact hlookup.symm

theorem getAttribute_valueLen_table :
    Sat (getAttribute cfg k .valueLen) p (fun _ => True) (fun _ p' => p'.table = p.table)
      (fun _ p' => p'.table = p.table) := by
  refine Sat.handle (Sat.bind (at_table.imp ?_ ?_))
  · rintro v p₁ ⟨-, htable⟩
    exact Sat.pure trivial htable
  · rintro e p₁ ⟨rfl, -, htable⟩
    rw [if_pos rfl]
    exact Sat.pure trivial htable

theorem final_table_of_sat {α : Type} {act : Act K (List UInt8) α}
    (h : Sat act p (fun _ => True) (fun _ p' => p'.table = p.table) (fun _ p' => p'.table = p.table)) :
    (act.final p).table = p.table := by
  have h' := h.2
  split at h'
  · exact h'
  · exact h'

theorem release_table (unlocked : Bool) : (release cfg k unlocked p).table = p.table := by
  unfold release
  split
  · exact final_table_of_sat (unlock_table.imp (fun _ _ h => h) fun _ _ h => h.elim)
  · rfl

variable [Inhabited K]

theorem readLock_table (hpresent : holds cfg p k ≠ none) :
    Sat (readLock cfg k) p (fun _ => True) (fun _ p' => p'.table = p.table) (fun _ _ => False) := by
  refine lock_table false ?_
  rw [cfg.key_make]
  exact fun hnone => hpresent (holds_eq_none_iff.mpr hnone)

theorem readLock_enters (h : Kept cfg.toConfig handles m p)
    (hclear : Unhindered cfg.toConfig handles p (cfg.make k, [])) (habsent : holds cfg p k = none) :
    Sat (readLock cfg k) p (fun _ => True) (fun r p' => r = true ∧ holds cfg p' k = some []) (fun _ _ => True) := by
  have hk : k ∉ m := by
    rw [holds_of_kept h] at habsent
    exact Finmap.lookup_eq_none.mp habsent
  have hsat := lock_enters h hclear (by rw [cfg.key_make]; exact hk) false
  refine hsat.imp ?_ fun _ _ _ => trivial
  rintro r p' ⟨hr, handles', h'⟩
  rw [cfg.key_make] at h'
  rw [holds_of_kept h', Finmap.lookup_insert]
  exact ⟨hr, rfl⟩

theorem readCrc32_table (hpresent : holds cfg p k ≠ none) :
    Sat (readCrc32 cfg crc32 k) p (fun _ => True) (fun _ p' => p'.table = p.table)
      (fun _ p' => p'.table = p.table) := by
  refine Sat.bind ((readLock_table hpresent).imp ?_ fun _ _ h => h.elim)
  intro granted p₁ htable
  split
  · refine Sat.bind (Sat.read trivial (Sat.bind ?_))
    refine unlock_table.imp ?_ fun _ _ h => h.elim
    intro _ p₂ htable₂
    exact Sat.pure trivial (htable₂.trans htable)
  · exact Sat.pure trivial htable

theorem readCrc32_enters (h : Kept cfg.toConfig handles m p)
    (hclear : Unhindered cfg.toConfig handles p (cfg.make k, [])) (habsent : holds cfg p k = none)
    {granted : Bool} (hok : (readLock cfg k).result p = .ok granted) :
    Sat (readCrc32 cfg crc32 k) p (fun _ => True) (fun _ p' => holds cfg p' k = some []) (fun _ _ => False) := by
  have hlock : Sat (readLock cfg k) p (fun _ => True)
      (fun r p' => r = true ∧ holds cfg p' k = some []) (fun _ _ => False) := by
    refine ⟨fun _ _ => trivial, ?_⟩
    have hsat := (readLock_enters h hclear habsent).of_ok hok
    rw [hok]
    exact hsat
  refine Sat.bind (hlock.imp ?_ fun _ _ h => h.elim)
  rintro r p₁ ⟨rfl, hentered⟩
  rw [if_pos rfl]
  refine Sat.bind (Sat.read trivial (Sat.bind ?_))
  refine unlock_table.imp ?_ fun _ _ h => h.elim
  intro _ p₂ htable
  refine Sat.pure trivial ?_
  rw [holds_of_table htable]
  exact hentered

theorem processInfo_table {attr : Attribute} (hpresent : attr = .crc32 → holds cfg p (cString data) ≠ none) :
    Sat (processInfo cfg crc32 data attr) p (fun _ => True) (fun _ p' => p'.table = p.table)
      (fun _ p' => p'.table = p.table) := by
  cases attr with
  | count => exact Hstore.sat_getTable_bind (Sat.pure trivial rfl)
  | valueLen =>
    refine Sat.bind (getAttribute_valueLen_table.imp ?_ fun _ _ h => h)
    intro r p₁ htable
    exact Sat.pure trivial htable
  | crc32 => exact Sat.bind (Sat.pure trivial (readCrc32_table (hpresent rfl)))
  | _ => exact Sat.bind (Sat.pure trivial (Sat.pure trivial rfl))

theorem handleGet_work {m : IORequest}
    (hop : m.op = .get) (hthrown : (handleGet cfg w authId buf m handle base p).thrown = none) :
    ∃ a, w.processMessageIORequest authId buf m a = ((handleGet cfg w authId buf m handle base p).work, none) := by
  unfold handleGet at hthrown ⊢
  unfold Work.processMessageIORequest
  cases hallocate : w.conn.allocate with
  | error e =>
    rw [hallocate] at hthrown
    cases hthrown
  | ok r =>
    rw [hallocate] at hthrown
    dsimp only at hthrown ⊢
    simp only [Work.otherOps, hop]
    by_cases hscbe : Work.Scbe m = true
    · rw [if_pos hscbe]
      exact ⟨default, rfl⟩
    · rw [if_neg hscbe] at hthrown ⊢
      cases hres : (readLock cfg m.key).result p with
      | error e =>
        rw [hres] at hthrown
        cases hthrown
      | ok granted =>
        exact ⟨⟨sOk, sOk, ⟨sOk, if granted then some handle else none, base,
          (holds cfg ((readLock cfg m.key).final p) m.key).getD []⟩, default⟩, rfl⟩

theorem handleGet_present {m : IORequest} (hpresent : holds cfg p m.key ≠ none) :
    (handleGet cfg w authId buf m handle base p).pool.table = p.table := by
  unfold handleGet
  cases w.conn.allocate with
  | error e => rfl
  | ok r =>
    dsimp only
    split
    · rfl
    · have hsat := readLock_table hpresent
      cases hres : (readLock cfg m.key).result p with
      | error e => exact (hsat.of_error hres).elim
      | ok granted =>
        exact (release_table _).trans (hsat.of_ok hres)

theorem handleGet_enters {map : KeyMap (List UInt8) (List UInt8)} {m : IORequest}
    (h : Kept cfg.toConfig handles map p) (hclear : Unhindered cfg.toConfig handles p (cfg.make m.key, []))
    (hreads : (ReadRequest.get authId buf m handle base).ReadsOnly cfg w p) : holds cfg p m.key ≠ none := by
  intro habsent
  obtain ⟨hsame, hanswers⟩ := hreads
  obtain ⟨r, body, hwire, hstatus⟩ := hanswers habsent
  have hsame := hsame m.key
  change holds cfg (handleGet cfg w authId buf m handle base p).pool m.key = _ at hsame
  change (handleGet cfg w authId buf m handle base p).work.wire = _ at hwire
  unfold handleGet at hsame hwire
  cases hallocate : w.conn.allocate with
  | error e =>
    rw [hallocate] at hwire
    simp at hwire
  | ok a =>
    rw [hallocate] at hsame hwire
    dsimp only at hsame hwire
    by_cases hscbe : Work.Scbe m = true
    · -- The store is not asked, and the answer is `S_OK`.
      rw [if_pos hscbe] at hwire
      unfold Work.get at hwire
      rw [if_pos hscbe] at hwire
      simp [IOResponse.posted] at hwire
      rw [← hwire.1] at hstatus
      change toInt8 sOk = toInt8 eKeyNotFound at hstatus
      exact absurd hstatus (by decide)
    · rw [if_neg hscbe] at hsame hwire
      cases hres : (readLock cfg m.key).result p with
      | error e =>
        rw [hres] at hwire
        simp at hwire
      | ok granted =>
        have hentered := (readLock_enters h hclear habsent).of_ok hres
        rw [hres] at hsame
        dsimp only at hsame
        rw [holds_of_table (release_table _), hentered.2, habsent] at hsame
        cases hsame

theorem handleInfo_table {attr : Attribute} {len : Nat} (hpresent : attr = .crc32 → holds cfg p (cString data) ≠ none) :
    (handleInfo cfg w crc32 attr data len p).pool.table = p.table := by
  have htable : ((processInfo cfg crc32 data attr).final p).table = p.table :=
    final_table_of_sat (processInfo_table hpresent)
  unfold handleInfo Action.exec
  cases w.conn.allocate with
  | error e => rfl
  | ok a =>
    cases (processInfo cfg crc32 data attr).result p with
    | error e => exact htable
    | ok r => exact htable

theorem handleInfo_enters {map : KeyMap (List UInt8) (List UInt8)} {len : Nat}
    {granted : Bool} (h : Kept cfg.toConfig handles map p)
    (hclear : Unhindered cfg.toConfig handles p (cfg.make (cString data), []))
    (hok : (readLock cfg (cString data)).result p = .ok granted) (hfree : w.conn.free ≠ [])
    (hreads : (ReadRequest.info crc32 .crc32 data len).ReadsOnly cfg w p) : holds cfg p (cString data) ≠ none := by
  intro habsent
  have hsat : Sat (processInfo cfg crc32 data .crc32) p (fun _ => True)
      (fun _ p' => holds cfg p' (cString data) = some []) (fun _ _ => False) :=
    Sat.bind (Sat.pure trivial (readCrc32_enters h hclear habsent hok))
  have hsame := hreads.1 (cString data)
  change holds cfg (handleInfo cfg w crc32 .crc32 data len p).pool (cString data) = _ at hsame
  unfold handleInfo Action.exec Connection.allocate at hsame
  cases hw : w.conn.free with
  | nil => exact hfree hw
  | cons iob free =>
    rw [hw] at hsame
    cases hres : (processInfo cfg crc32 data .crc32).result p with
    | error e => exact (hsat.of_error hres).elim
    | ok r =>
      rw [hres] at hsame
      dsimp only at hsame
      rw [hsat.of_ok hres, habsent] at hsame
      cases hsame

/-- A read leaves the pool as it is if its key is there; and if it does, then its key is there, as long as
nothing keeps the store from entering the key. -/
theorem readsOnly_of_present (cfg : StringConfig K) (w : Work) (p : HopHash K (List UInt8)) (req : ReadRequest) :
    (req.Present cfg p → req.ReadsOnly cfg w p) ∧
      ∀ handles map, Kept cfg.toConfig handles map p → req.Enterable cfg p handles →
        w.conn.free ≠ [] → req.ReadsOnly cfg w p → req.Present cfg p := by
  cases req with
  | get authId buf m handle base =>
    refine ⟨fun hpresent => ?_, fun handles map h henter _ hreads => ?_⟩
    · have hkey := hpresent m.key rfl
      exact ⟨fun k => holds_of_table (handleGet_present hkey), fun habsent => absurd habsent hkey⟩
    · rintro k ⟨⟩
      exact handleGet_enters h (henter m.key rfl).1 hreads
  | info crc32 attr data len =>
    refine ⟨fun hpresent => ?_, fun handles map h henter hfree hreads => ?_⟩
    · refine ⟨fun k => holds_of_table (handleInfo_table ?_), trivial⟩
      rintro rfl
      exact hpresent (cString data) rfl
    · intro k hk
      cases attr with
      | crc32 =>
        obtain ⟨hclear, granted, hok⟩ := henter (cString data) rfl
        cases hk
        exact handleInfo_enters h hclear hok hfree hreads
      | _ => cases hk

end Requests

def byteConfig : StringConfig (List UInt8) where
  key := id
  hf k := BitVec.ofNat 64 (k.headD 0).toNat
  images _ _ := []
  ones := Hstore.Owner.maskAllOnes
  autoResize := true
  make := id
  key_make _ := rfl

/-- In an empty pool a GET enters the key it asks for, with an empty value. -/
theorem not_readsOnly_absent : ¬ (ReadRequest.get 7 default
        { (default : IORequest) with op := .get, poolId := 1, keyLen := 1, data := [97] }
        5 0x1000).ReadsOnly byteConfig (Work.start .fresh (fun _ => none) none)
      (Hstore.created byteConfig.toConfig 1) := by
  rintro ⟨hsame, -⟩
  have hkey := hsame [97]
  rw [Hstore.created_eq] at hkey
  revert hkey
  decide +kernel

end Comanche.Dawn
