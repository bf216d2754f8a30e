import Comanche.Dawn.Shard

/-!
# The answer to an I/O request

Every path of `process_message_IO_request` to its post.
-/

namespace Comanche.Dawn

open Lib

def responses (wire : List Posted) : List IOResponse :=
  wire.filterMap fun
    | .response r _ => some r
    | .value _ => none

def Sent (wire : List Posted) (bytes : List UInt8) : Prop :=
  .value bytes ∈ wire ∨ ∃ r, .response r bytes ∈ wire

namespace Work

def start (conn : Connection) (locked : Nat → Option LockInfo)
    (index : Option (Nat → Option (List (List UInt8)))) : Work :=
  ⟨conn, locked, index, [], []⟩

def Performed (w w' : Work) (m : IORequest) (a : StoreAnswer) : Prop :=
  match m.op with
  | .put => .put m.poolId m.key m.value m.flags ∈ w'.calls ∧ a.put = sOk
  | .erase => .erase m.poolId m.key ∈ w'.calls ∧ a.erase = sOk
  | .get =>
    .lock m.poolId m.key false 0 ∈ w'.calls ∧ a.lock.rc = sOk ∧ a.lock.handle.isSome ∧
      Sent w'.wire a.lock.bytes
  | .putAdvance =>
    .lock m.poolId m.key true m.valLen ∈ w'.calls ∧ a.lock.rc = sOk ∧ a.lock.handle.isSome ∧
      a.lock.bytes.length = m.valLen ∧ w'.conn.postedValue.map ValueBuffer.base = some a.lock.base ∧
      w'.conn.valueOutstanding
  | .configure =>
    if (cString m.data).take 10 = bytesOf "AddIndex::" then
      (cString m.data).drop 10 = bytesOf "VolatileTree" ∧ (w'.lookupIndex m.poolId).isSome ∧
        (a.configure.mapKeys = sOk ∨ a.configure.map = sOk)
    else cString m.data = bytesOf "RemoveIndex::" ∧ (w.lookupIndex m.poolId).isSome ∧
      w'.lookupIndex m.poolId = none

/-- The handler returns and has posted one response, with the identifier of the request and a status that
is `S_OK` exactly when the request was performed. -/
def Answered (w : Work) (authId : Nat) (buf : IOResponse) (m : IORequest) (a : StoreAnswer) : Prop :=
  (w.processMessageIORequest authId buf m a).2 = none ∧
    ∃ r, responses (w.processMessageIORequest authId buf m a).1.wire = [r] ∧ r.requestId = m.requestId ∧
      (r.status = sOk ↔ w.Performed (w.processMessageIORequest authId buf m a).1 m a)

def Fits (status : Status) : Prop := toInt8 status = sOk → status = sOk

def TooLong (m : IORequest) (bytes : List UInt8) : Prop :=
  (isDirect m = true ∨ twoStageThreshold ≤ bytes.length) ∧ m.valLen < bytes.length

instance TooLong.decidable (m : IORequest) (bytes : List UInt8) : Decidable (TooLong m bytes) :=
  inferInstanceAs (Decidable (_ ∧ _))

/-- The paths that lead to a proper answer; of those that do not set the identifier, only when the buffer
happens to hold it. -/
def Answerable (w : Work) (buf : IOResponse) (m : IORequest) (a : StoreAnswer) : Prop :=
  w.conn.free ≠ [] ∧
    match m.op with
    | .put => Scbe m = false ∧ Fits a.put
    | .erase => Fits a.erase
    | .get =>
      Scbe m = false ∧
        if a.lock.handle = none ∨ a.lock.rc = eFail ∨ TooLong m a.lock.bytes then
          buf.requestId = m.requestId
        else a.lock.rc = sOk
    | .putAdvance =>
      m.flags &&& flagsDontStomp = 0 ∧ a.lock.handle.isSome ∧ a.lock.rc = sOk ∧
        a.lock.bytes.length = m.valLen
    | .configure =>
      if cString m.data = bytesOf "AddIndex::VolatileTree" then
        a.configure.loaded = true ∧
          (a.configure.mapKeys = sOk ∨ Fits a.configure.map)
      else cString m.data = bytesOf "RemoveIndex::" → w.index.isSome

variable {w w' : Work} {authId : Nat} {buf r : IOResponse} {m : IORequest} {a : StoreAnswer}

theorem answered_iff (hres : w.processMessageIORequest authId buf m a = (w', none)) (hwire : responses w'.wire = [r]) :
    w.Answered authId buf m a ↔ r.requestId = m.requestId ∧ (r.status = sOk ↔ w.Performed w' m a) := by
  unfold Answered
  rw [hres]
  constructor
  · rintro ⟨-, r', hr', hid, hstatus⟩
    obtain rfl : r' = r := by simpa [hwire] using hr'.symm
    exact ⟨hid, hstatus⟩
  · rintro ⟨hid, hstatus⟩
    exact ⟨rfl, r, hwire, hid, hstatus⟩

theorem not_answered {e : Exc} (hres : w.processMessageIORequest authId buf m a = (w', some e)) :
    ¬ w.Answered authId buf m a := by
  intro hanswered
  have hnone := hanswered.1
  rw [hres] at hnone
  cases hnone

@[simp] theorem responses_posted (len : Nat) (value : List UInt8) : responses [r.posted len value] = [r] := rfl

theorem sendResponse_answered {iob : Nat} {status : Status}
    (hres : w.processMessageIORequest authId buf m a = (w'.sendResponse iob r m status, none))
    (hwire : w'.wire = []) : w.Answered authId buf m a ↔
      (toInt8 status = sOk ↔ w.Performed (w'.sendResponse iob r m status) m a) := by
  have hresp : responses (w'.sendResponse iob r m status).wire =
      [{ r with requestId := m.requestId }.setStatus status] := by
    unfold sendResponse
    rw [(w'.postResponse_fields _ _ _ _).2.2.2.2, hwire]
    rfl
  rw [answered_iff hres hresp]
  exact and_iff_right rfl

structure Begun (w w₁ : Work) (iob authId : Nat) (buf : IOResponse) (m : IORequest) (a : StoreAnswer) :
    Prop where
  putAdvance : m.op = .putAdvance →
    w.processMessageIORequest authId buf m a = w₁.putAdvance iob authId buf m a
  otherOps : m.op ≠ .putAdvance →
    w.processMessageIORequest authId buf m a = w₁.otherOps iob authId buf m a
  index : w₁.index = w.index
  calls : w₁.calls = []
  wire : w₁.wire = []

theorem begun_of_free {conn : Connection} {iob : Nat} {free : List Nat} (hfree : conn.free = iob :: free)
    (locked : Nat → Option LockInfo) (index : Option (Nat → Option (List (List UInt8)))) (authId : Nat)
    (buf : IOResponse) (m : IORequest) (a : StoreAnswer) :
    Begun (start conn locked index) (start { conn with free } locked index) iob authId buf m a := by
  have halloc : conn.allocate = .ok (iob, { conn with free }) := by
    unfold Connection.allocate
    rw [hfree]
  refine ⟨fun hop => ?_, fun hop => ?_, rfl, rfl, rfl⟩
  · simp only [processMessageIORequest, start, halloc, if_pos hop]
  · simp only [processMessageIORequest, start, halloc, if_neg hop]

variable {w₁ : Work} {iob : Nat}

attribute [local simp] Performed addLockedValue

theorem Begun.put (h : Begun w w₁ iob authId buf m a) (hop : m.op = .put) :
    w.Answered authId buf m a ↔ Scbe m = false ∧ Fits a.put := by
  have hres : w.processMessageIORequest authId buf m a =
      ((w₁.put m a).1.sendResponse iob (buf.construct authId) m (w₁.put m a).2, none) := by
    rw [h.otherOps (by simp [hop])]
    simp only [Work.otherOps, hop]
  cases hscbe : Scbe m with
  | true =>
    have hput : w₁.put m a = (w₁, sOk) := if_pos hscbe
    rw [hput] at hres
    rw [sendResponse_answered hres h.wire]
    -- the store was not called
    refine iff_of_false (fun hiff => ?_) (by simp)
    have hperformed := hiff.mp rfl
    simp [hop, sendResponse, h.calls] at hperformed
  | false =>
    have hput : w₁.put m a = ((w₁.call (.put m.poolId m.key m.value m.flags)).addIndexKey m.poolId m.key, a.put) :=
      if_neg (by simp [hscbe])
    rw [hput] at hres
    rw [sendResponse_answered hres (by simp [h.wire])]
    have hperformed : w.Performed (((w₁.call (.put m.poolId m.key m.value m.flags)).addIndexKey
        m.poolId m.key).sendResponse iob (buf.construct authId) m a.put) m a ↔ a.put = sOk := by
      simp [hop, sendResponse]
    rw [hperformed, and_iff_right rfl]
    exact ⟨fun hiff => hiff.mp, fun hfits => ⟨hfits, fun hok => by rw [hok]; rfl⟩⟩

theorem Begun.erase (h : Begun w w₁ iob authId buf m a) (hop : m.op = .erase) :
    w.Answered authId buf m a ↔ Fits a.erase := by
  have hstatus : (w₁.erase m a).2 = a.erase := by
    unfold Work.erase
    split
    · rfl
    · rfl
  have hfields : (w₁.erase m a).1.wire = [] ∧ (w₁.erase m a).1.calls = [.erase m.poolId m.key] := by
    unfold Work.erase
    split
    · simp [h.wire, h.calls]
    · simp [h.wire, h.calls]
  have hres : w.processMessageIORequest authId buf m a =
      ((w₁.erase m a).1.sendResponse iob (buf.construct authId) m a.erase, none) := by
    rw [h.otherOps (by simp [hop])]
    simp only [Work.otherOps, hop, hstatus]
  rw [sendResponse_answered hres hfields.1]
  have hperformed : w.Performed ((w₁.erase m a).1.sendResponse iob (buf.construct authId) m a.erase) m a ↔
      a.erase = sOk := by
    simp [hop, sendResponse, hfields.2]
  rw [hperformed]
  exact ⟨fun hiff => hiff.mp, fun hfits => ⟨hfits, fun hok => by rw [hok]; rfl⟩⟩

theorem failed_answered {len : Nat} {status : Status} (hstatus : toInt8 status ≠ sOk)
    (hres : w.processMessageIORequest authId buf m a =
      (w'.postResponse iob len ((buf.construct authId).setStatus status) none, none)) (hwire : w'.wire = [])
    (hperformed : ¬ w.Performed (w'.postResponse iob len ((buf.construct authId).setStatus status) none) m a) :
    w.Answered authId buf m a ↔ buf.requestId = m.requestId := by
  have hresp : responses (w'.postResponse iob len ((buf.construct authId).setStatus status) none).wire =
      [(buf.construct authId).setStatus status] := by
    simp [hwire]
  rw [answered_iff hres hresp]
  exact and_iff_left (iff_of_false hstatus hperformed)

theorem delivered_answered (hop : m.op = .get) (hres : w.processMessageIORequest authId buf m a = (w', none))
    (hwire : responses w'.wire = [r]) (hid : r.requestId = m.requestId) (hstatus : r.status = sOk)
    (hlock : .lock m.poolId m.key false 0 ∈ w'.calls) (hsent : Sent w'.wire a.lock.bytes)
    (hhandle : a.lock.handle.isSome) : w.Answered authId buf m a ↔ a.lock.rc = sOk := by
  rw [answered_iff hres hwire]
  simp [hop, hid, hstatus, hlock, hsent, hhandle]

theorem not_sent {bytes : List UInt8} (hbytes : bytes ≠ []) : ¬ Sent [r.posted ioResponseSize []] bytes := by
  rintro (hvalue | ⟨r', hresponse⟩)
  · simp [IOResponse.posted] at hvalue
  · simp only [IOResponse.posted, List.mem_singleton, Posted.response.injEq] at hresponse
    exact hbytes (by simpa using hresponse.2)

theorem getTwoStage_answered {w₂ : Work} {handle : Nat} (hop : m.op = .get)
    (hres : w.processMessageIORequest authId buf m a =
      (w₂.getTwoStage iob (buf.construct authId) m handle a.lock.base a.lock.bytes, none))
    (hwire : w₂.wire = []) (hlock : .lock m.poolId m.key false 0 ∈ w₂.calls) (hhandle : a.lock.handle.isSome) :
    w.Answered authId buf m a ↔
      if m.valLen < a.lock.bytes.length then buf.requestId = m.requestId else a.lock.rc = sOk := by
  unfold getTwoStage at hres
  split
  case isTrue hlong =>
    rw [if_pos hlong] at hres
    refine failed_answered (by decide) hres (by simp [hwire]) fun hperformed => ?_
    simp only [Performed, hop] at hperformed
    have hbytes : a.lock.bytes ≠ [] := List.ne_nil_of_length_pos (by omega)
    exact not_sent hbytes (by simpa [hwire] using hperformed.2.2.2)
  case isFalse hlong =>
    rw [if_neg hlong] at hres
    dsimp only at hres
    split at hres
    · refine delivered_answered hop hres (r := { buf.construct authId with
        dataLen := a.lock.bytes.length, requestId := m.requestId }.setStatus sOk) ?_ rfl rfl ?_ ?_ hhandle
      · simp [hwire]
      · simpa using hlock
      · exact Or.inr ⟨{ buf.construct authId with
          dataLen := a.lock.bytes.length, requestId := m.requestId }.setStatus sOk,
          by simp [hwire, IOResponse.posted]⟩
    · refine delivered_answered hop hres (r := ({ buf.construct authId with
        dataLen := a.lock.bytes.length, requestId := m.requestId }.setStatus sOk).setTwostageBit)
        ?_ rfl rfl ?_ ?_ hhandle
      · simp [hwire, post, responses, IOResponse.posted]
      · simpa [post] using hlock
      · exact Or.inl (by simp [post])

theorem Begun.get (h : Begun w w₁ iob authId buf m a) (hop : m.op = .get) : w.Answered authId buf m a ↔ Scbe m = false ∧
      if a.lock.handle = none ∨ a.lock.rc = eFail ∨ TooLong m a.lock.bytes then
        buf.requestId = m.requestId else a.lock.rc = sOk := by
  have hres : w.processMessageIORequest authId buf m a = (w₁.get iob (buf.construct authId) m a.lock, none) := by
    rw [h.otherOps (by simp [hop])]
    simp only [Work.otherOps, hop]
  unfold Work.get at hres
  cases hscbe : Scbe m with
  | true =>
    rw [if_pos hscbe] at hres
    rw [answered_iff hres (r := { buf.construct authId with
      dataLen := 0, requestId := m.requestId }.setStatus sOk) (by simp [h.wire])]
    refine iff_of_false (fun hiff => ?_) (by simp)
    have hperformed := hiff.2.mp rfl
    simp [hop, h.calls] at hperformed
  | false =>
    rw [if_neg (by simp [hscbe])] at hres
    rw [and_iff_right rfl]
    cases hhandle : a.lock.handle with
    | none =>
      rw [hhandle] at hres
      rw [if_pos (Or.inl rfl)]
      refine failed_answered (by decide) hres (by simp [h.wire]) fun hperformed => ?_
      simp [hop, hhandle] at hperformed
    | some handle =>
      rw [hhandle] at hres
      dsimp only at hres
      have hsome : a.lock.handle.isSome := by simp [hhandle]
      by_cases hfail : a.lock.rc = eFail
      · rw [if_pos hfail] at hres
        rw [if_pos (Or.inr (Or.inl hfail))]
        refine failed_answered (by decide) hres (by simp [h.wire]) fun hperformed => ?_
        simp [hop, hfail, eFail, sOk] at hperformed
      · rw [if_neg hfail] at hres
        have hcond : (some handle = none ∨ a.lock.rc = eFail ∨ TooLong m a.lock.bytes) ↔
            TooLong m a.lock.bytes := by simp [hfail]
        rw [if_congr hcond rfl rfl]
        by_cases hinline : isDirect m = false ∧ a.lock.bytes.length < twoStageThreshold
        · rw [if_pos (by simpa using hinline)] at hres
          have hshort : ¬ TooLong m a.lock.bytes := by
            rintro ⟨hdirect | hlong, -⟩
            · simp [hinline.1] at hdirect
            · omega
          rw [if_neg hshort]
          refine delivered_answered hop hres (r := { buf.construct authId with
            data := writeAt (buf.construct authId).data 0 a.lock.bytes
            dataLen := a.lock.bytes.length
            requestId := m.requestId }.setStatus sOk) ?_ rfl rfl ?_ ?_ hsome
          · simp [h.wire]
          · simp
          · exact Or.inr ⟨{ buf.construct authId with
              data := writeAt (buf.construct authId).data 0 a.lock.bytes
              dataLen := a.lock.bytes.length
              requestId := m.requestId }.setStatus sOk,
              by simp [h.wire, IOResponse.posted, IOResponse.setStatus, writeAt_zero]⟩
        · rw [if_neg (by simpa using hinline)] at hres
          rw [getTwoStage_answered hop hres (by simp [h.wire]) (by simp) hsome]
          have hlong : m.valLen < a.lock.bytes.length ↔ TooLong m a.lock.bytes := by
            unfold TooLong
            refine ⟨fun hlt => ⟨?_, hlt⟩, And.right⟩
            by_contra hnot
            rw [not_or] at hnot
            exact hinline ⟨by simpa using hnot.1, by omega⟩
          rw [if_congr hlong rfl rfl]

theorem Begun.putAdvance_answered (h : Begun w w₁ iob authId buf m a) (hop : m.op = .putAdvance) :
    w.Answered authId buf m a ↔ m.flags &&& flagsDontStomp = 0 ∧ a.lock.handle.isSome ∧ a.lock.rc = sOk ∧
      a.lock.bytes.length = m.valLen := by
  have hres := h.putAdvance hop
  have hjump : ∀ w₂ : Work, w₂.otherOps iob authId buf m a = (w₂, some .operationNotImplemented) := by
    intro w₂
    simp only [Work.otherOps, hop]
  unfold Work.putAdvance at hres
  simp only [hjump] at hres
  by_cases hflags : m.flags &&& flagsDontStomp = 0
  · rw [if_neg (not_not.mpr hflags)] at hres
    cases hhandle : a.lock.handle with
    | none =>
      rw [hhandle] at hres
      exact iff_of_false (not_answered hres) (by simp)
    | some handle =>
      rw [hhandle] at hres
      dsimp only at hres
      by_cases hfail : a.lock.rc = eFail
      · rw [if_pos hfail] at hres
        exact iff_of_false (not_answered hres) (by simp [hfail, eFail, sOk])
      · rw [if_neg hfail] at hres
        by_cases hlen : a.lock.bytes.length = m.valLen
        · rw [if_neg (not_not.mpr hlen)] at hres
          rw [answered_iff hres (r := { buf.construct authId with
            requestId := m.requestId }.setStatus sOk)
            (by simp [post, h.wire])]
          simp [hop, hhandle, hlen, hflags, post, Connection.setPendingValue, Connection.postSendBuffer, Connection.newValueBuffer, Connection.postValueBuffer, Connection.setState, Connection.freeBuffer, IOResponse.setStatus, toInt8, sOk, IOResponse.construct, ioResponseSize, Connection.injectSize]
        · rw [if_pos hlen] at hres
          exact iff_of_false (not_answered hres) (by simp [hlen])
  · rw [if_pos hflags] at hres
    exact iff_of_false (not_answered hres) (by simp [hflags])

theorem addIndex_command (command : List UInt8) : command = bytesOf "AddIndex::VolatileTree" ↔
      command.take 10 = bytesOf "AddIndex::" ∧ command.drop 10 = bytesOf "VolatileTree" := by
  constructor
  · rintro rfl
    decide
  · rintro ⟨htake, hdrop⟩
    rw [← List.take_append_drop 10 command, htake, hdrop]
    decide

theorem Begun.configure (h : Begun w w₁ iob authId buf m a) (hop : m.op = .configure) : w.Answered authId buf m a ↔
      if cString m.data = bytesOf "AddIndex::VolatileTree" then
        a.configure.loaded = true ∧ (a.configure.mapKeys = sOk ∨ Fits a.configure.map)
      else cString m.data = bytesOf "RemoveIndex::" → w.index.isSome := by
  have hres := h.otherOps (by simp [hop])
  simp only [Work.otherOps, hop] at hres
  -- a command that is refused is not performed
  have hrefused : w₁.processConfigure m a.configure = (w₁, .ok eBadParam) →
      (¬ w.Performed (w₁.sendResponse iob (buf.construct authId) m eBadParam) m a) →
      w.Answered authId buf m a := by
    intro hconfigure hperformed
    rw [hconfigure] at hres
    rw [sendResponse_answered hres h.wire]
    exact iff_of_false (by decide) hperformed
  unfold processConfigure at hres hrefused
  by_cases htake : (cString m.data).take 10 = bytesOf "AddIndex::"
  · have hremove : cString m.data ≠ bytesOf "RemoveIndex::" := by
      intro heq
      rw [heq] at htake
      exact absurd htake (by decide)
    by_cases hdrop : (cString m.data).drop 10 = bytesOf "VolatileTree"
    · rw [if_pos ((addIndex_command _).mpr ⟨htake, hdrop⟩)]
      simp only [if_pos htake, if_pos hdrop, addIndex] at hres
      cases hloaded : a.configure.loaded with
      | false =>
        rw [hloaded] at hres
        exact iff_of_false (not_answered hres) (by simp)
      | true =>
        rw [hloaded] at hres
        simp only [if_true] at hres
        rw [sendResponse_answered hres h.wire, and_iff_right rfl]
        by_cases hkeys : a.configure.mapKeys = sOk
        · simp [hop, htake, hdrop, hkeys, sendResponse, lookupIndex, toInt8, sOk]
        · have hperformed : ∀ w₂ : Work, (w₂.lookupIndex m.poolId).isSome →
              (w.Performed w₂ m a ↔ a.configure.map = sOk) := by
            intro w₂ hlookup
            simp [hop, htake, hdrop, hkeys, hlookup]
          rw [hperformed _ (by simp [sendResponse, lookupIndex]), or_iff_right hkeys, if_neg hkeys]
          exact ⟨fun hiff => hiff.mp, fun hfits => ⟨hfits, fun hok => by rw [hok]; rfl⟩⟩
    · rw [if_neg fun heq => hdrop ((addIndex_command _).mp heq).2]
      refine iff_of_true (hrefused ?_ ?_) fun heq => absurd heq hremove
      · simp [htake, hdrop]
      · simp [hop, htake, hdrop]
  · rw [if_neg fun heq => htake ((addIndex_command _).mp heq).1]
    by_cases hremove : cString m.data = bytesOf "RemoveIndex::"
    · simp only [if_neg htake, if_pos hremove, removeIndex] at hres hrefused
      cases hindex : w.index with
      | none =>
        rw [h.index, hindex] at hres
        exact iff_of_false (not_answered hres) (by simp [hremove])
      | some index =>
        rw [h.index, hindex] at hres hrefused
        refine iff_of_true ?_ fun _ => rfl
        cases hkeys : index m.poolId with
        | none =>
          simp only [hkeys] at hrefused
          refine hrefused trivial ?_
          simp [hop, htake, lookupIndex, hindex, hkeys]
        | some keys =>
          simp only [hkeys] at hres
          rw [sendResponse_answered hres h.wire]
          simp only [Performed, hop, if_neg htake]
          simp [hremove, lookupIndex, hindex, hkeys, sendResponse, toInt8, sOk]
    · refine iff_of_true (hrefused ?_ ?_) fun heq => absurd heq hremove
      · simp [htake, hremove]
      · simp [hop, htake, hremove]

end Work

/-- Whatever the store answers and the buffer held, a request gets its one answer exactly when it is answerable. -/
theorem answered_iff_answerable (conn : Connection) (locked : Nat → Option LockInfo)
    (index : Option (Nat → Option (List (List UInt8)))) (authId : Nat) (buf : IOResponse) (m : IORequest)
    (a : StoreAnswer) : (Work.start conn locked index).Answered authId buf m a ↔
      (Work.start conn locked index).Answerable buf m a := by
  cases hfree : conn.free with
  | nil =>
    have halloc : conn.allocate = .error .noBuffersRemaining := by
      unfold Connection.allocate
      rw [hfree]
    have hres : (Work.start conn locked index).processMessageIORequest authId buf m a =
        (Work.start conn locked index, some .noBuffersRemaining) := by
      simp only [Work.processMessageIORequest, Work.start, halloc]
    exact iff_of_false (Work.not_answered hres) fun h => h.1 hfree
  | cons iob free =>
    have hbegun := Work.begun_of_free hfree locked index authId buf m a
    have hne : (Work.start conn locked index).conn.free ≠ [] := by simp [Work.start, hfree]
    unfold Work.Answerable
    rw [and_iff_right hne]
    cases hop : m.op with
    | put => exact hbegun.put hop
    | get => exact hbegun.get hop
    | putAdvance => exact hbegun.putAdvance_answered hop
    | erase => exact hbegun.erase hop
    | configure => exact hbegun.configure hop

/-- The first stage of a put for a value that exists with another length: the error jumps into the tests
of the other operations and ends in an exception. -/
theorem not_answered_putAdvance : ¬ (Work.start .fresh (fun _ => none) none).Answered 7 default
      { (default : IORequest) with op := .putAdvance, poolId := 1, requestId := 42, valLen := 8 }
      { (default : StoreAnswer) with lock := ⟨sOk, some 5, 0x1000, [1, 2, 3, 4]⟩ } := by
  rintro ⟨hnone, -⟩
  exact absurd hnone (by decide)

end Comanche.Dawn
