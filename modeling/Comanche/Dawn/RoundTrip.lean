import Comanche.Dawn.ClientRequests
import Comanche.Dawn.Answer

/-!
# The round trip of a value

The three ways of the client to read a value, up to what they leave in their output arguments.
-/

namespace Comanche.Dawn

open Lib

/-- The session that a request meets: its connection, the shard, and what the buffers for the request and
the response held before. -/
structure Server where
  conn : Connection
  locked : Nat → Option LockInfo
  index : Option (Nat → Option (List (List UInt8)))
  authId : Nat
  recvBuf : List UInt8
  sendBuf : IOResponse

/-- What is posted in answer to a packet, over a store with these answers for a key, unless the packet does
not arrive or the handler throws. -/
def Server.serve (s : Server) (p : Packet) (store : List UInt8 → StoreAnswer) : Option (List Posted) :=
  match p.receive s.recvBuf with
  | none => none
  | some m =>
    match (Work.start s.conn s.locked s.index).processMessageIORequest s.authId s.sendBuf m
      (store m.key) with
    | (w, none) => some w.wire
    | (_, some _) => none

/-- A way to read, with the output arguments as they are before: the string; the length that belongs to
the pointer; the registered memory, whose length the caller gives. -/
inductive GetCall where
  | string (old : List UInt8)
  | buffer (oldLen : Nat)
  | direct (region : List UInt8)

structure GetResult where
  status : Status
  value : List UInt8
  valueLen : Nat
  deriving DecidableEq

namespace GetCall

def call (key : List UInt8) : GetCall → ClientCall
  | string _ => .getString key
  | buffer _ => .getBuffer key
  | direct region => .getDirect key region.length

def untouched (status : Status) : GetCall → GetResult
  | string old => ⟨status, old, old.length⟩
  | buffer oldLen => ⟨status, [], oldLen⟩
  | direct region => ⟨status, region, region.length⟩

def response (iobr : List UInt8) : Posted → Option IOResponse
  | .response r body =>
    if ioResponseSize + body.length ≤ bufferLen then some { r with data := writeAt iobr 0 body } else none
  | .value _ => none

def following (len : Nat) : List Posted → Option (List UInt8)
  | .value bytes :: _ => if bytes.length ≤ len then some bytes else none
  | _ => none

def finish (r : IOResponse) (rest : List Posted) : GetCall → GetResult
  | string old =>
    -- `reserve` throws for a length with the bit set; the value goes in front of what the string holds
    if r.isSetTwostageBit then (string old).untouched eFail
    else ⟨r.status, readAt r.data 0 r.dataLen ++ old, (readAt r.data 0 r.dataLen ++ old).length⟩
  | buffer oldLen =>
    if r.status ≠ sOk then (buffer oldLen).untouched r.status
    else if r.isSetTwostageBit then
      -- the length is not reported
      match following r.dataLength rest with
      | some bytes => ⟨r.status, bytes, oldLen⟩
      | none => (buffer oldLen).untouched eFail
    else ⟨r.status, readAt r.data 0 r.dataLen, r.dataLen⟩
  | direct region =>
    if r.status ≠ sOk then (direct region).untouched r.status
    else if r.isSetTwostageBit then
      match following region.length rest with
      | some bytes => ⟨r.status, writeAt region 0 bytes, r.dataLength⟩
      | none => ⟨eFail, region, r.dataLength⟩
    else ⟨r.status, writeAt region 0 (readAt r.data 0 r.dataLen), r.dataLength⟩

def received (c : GetCall) (iobr : List UInt8) : List Posted → GetResult
  | first :: rest =>
    match response iobr first with
    | some r => c.finish r rest
    | none => c.untouched eFail
  | [] => c.untouched eFail

def run (c : GetCall) (cl : Client) (pool : Nat) (key iobr : List UInt8) (s : Server)
    (store : List UInt8 → StoreAnswer) : GetResult :=
  match cl.send pool (c.call key) with
  | .error status => c.untouched status
  | .ok p =>
    match s.serve p store with
    | some wire => c.received iobr wire
    | none => c.untouched eFail

/-- The value is there, with its length; memory that is too short is left alone and an error is
returned. -/
def Delivers (c : GetCall) (v : List UInt8) (res : GetResult) : Prop :=
  match c with
  | string _ | buffer _ => res = ⟨sOk, v, v.length⟩
  | direct region =>
    if v.length ≤ region.length then
      res.status = sOk ∧ res.valueLen = v.length ∧ res.value = v ++ region.drop v.length
    else res.status ≠ sOk ∧ res.value = region

/-- A string is empty before and its value is copied; the request buffer has no bit left that makes the get direct; the
store is asked, or a string stays as it is; the memory of a direct get is not longer than a message. -/
def Clean (c : GetCall) (cl : Client) (v : List UInt8) : Prop :=
  match c with
  | string old =>
    if Work.Scbe (cl.mark cl.iobs) then old = v
    else old = [] ∧ v.length < twoStageThreshold ∧ Work.isDirect cl.iobs = false
  | buffer oldLen =>
    Work.Scbe (cl.mark cl.iobs) = false ∧ (Work.isDirect cl.iobs = false ∨ oldLen = v.length)
  | direct region => v.length ≤ region.length → region.length ≤ cl.maxMessageSize

end GetCall

variable {w w₁ : Work} {iob authId pool : Nat} {buf r : IOResponse} {m : IORequest} {a : StoreAnswer}
  {bytes v key iobr : List UInt8} {wire : List Posted} {cl : Client} {p : Packet} {s : Server}

inductive GetReply (m : IORequest) (bytes : List UInt8) : List Posted → Prop
  | shortCircuit (r : IOResponse) (hscbe : Work.Scbe m = true) (hstatus : r.status = sOk)
      (hlen : r.dataLen = 0) : GetReply m bytes [.response r []]
  | whole (r : IOResponse) (hscbe : Work.Scbe m = false) (hdirect : Work.isDirect m = false)
      (hroom : bytes.length < twoStageThreshold ∨ bytes.length ≤ m.valLen) (hstatus : r.status = sOk)
      (hlen : r.dataLen = bytes.length) : GetReply m bytes [.response r bytes]
  | tooLong (r : IOResponse) (hscbe : Work.Scbe m = false)
      (hlong : Work.TooLong m bytes) (hstatus : r.status = eInsufficientSpace)
      (hlen : r.dataLen = 0) : GetReply m bytes [.response r []]
  | twoStage (r : IOResponse) (hscbe : Work.Scbe m = false)
      (hdirect : Work.isDirect m = true ∨ bufferLen - ioResponseSize < bytes.length)
      (hroom : bytes.length ≤ m.valLen) (hstatus : r.status = sOk)
      (hlen : r.dataLen = bytes.length ||| 2 ^ 63) : GetReply m bytes [.response r [], .value bytes]

theorem Work.Begun.get_reply (h : Begun w w₁ iob authId buf m a) (hop : m.op = .get) {handle : Nat}
    (hhandle : a.lock.handle = some handle) (hrc : a.lock.rc = sOk) :
    (w.processMessageIORequest authId buf m a).2 = none ∧
      GetReply m a.lock.bytes (w.processMessageIORequest authId buf m a).1.wire := by
  have hres : w.processMessageIORequest authId buf m a = (w₁.get iob (buf.construct authId) m a.lock, none) := by
    rw [h.otherOps (by simp [hop])]
    simp only [Work.otherOps, hop]
  have hfail : a.lock.rc ≠ eFail := by
    rw [hrc]
    decide
  rw [hres]
  refine ⟨rfl, ?_⟩
  unfold Work.get
  cases hscbe : Scbe m with
  | true =>
    simp only [if_true, (Work.postResponse_fields _ _ _ _ _).2.2.2.2, h.wire]
    exact .shortCircuit _ hscbe rfl rfl
  | false =>
    simp only [Bool.false_eq_true, if_false, hhandle, if_neg hfail]
    by_cases hinline : isDirect m = false ∧ a.lock.bytes.length < twoStageThreshold
    · rw [if_pos (by simpa using hinline)]
      have hwire : ((w₁.call (.lock m.poolId m.key false 0)).call (.unlock m.poolId handle)).wire = [] := by
        simp [h.wire]
      rw [(Work.postResponse_fields _ _ _ _ _).2.2.2.2, hwire]
      have hbody : ∀ r : IOResponse, r.data = writeAt (buf.construct authId).data 0 a.lock.bytes →
          r.posted (ioResponseSize + a.lock.bytes.length) [] = .response r a.lock.bytes := by
        intro r hdata
        simp [IOResponse.posted, hdata, writeAt_zero]
      simp only [Option.elim, List.nil_append]
      rw [hbody _ rfl]
      exact .whole _ hscbe hinline.1 (Or.inl hinline.2) rfl rfl
    · rw [if_neg (by simpa using hinline)]
      have hwire : (w₁.call (.lock m.poolId m.key false 0)).wire = [] := by simp [h.wire]
      have hlarge : isDirect m = true ∨ twoStageThreshold ≤ a.lock.bytes.length := by
        by_contra hnot
        rw [not_or] at hnot
        exact hinline ⟨by simpa using hnot.1, by omega⟩
      unfold getTwoStage
      by_cases hlong : m.valLen < a.lock.bytes.length
      · rw [if_pos hlong]
        simp only [(Work.postResponse_fields _ _ _ _ _).2.2.2.2, (Work.call_fields _ _).2.2.2.2, h.wire]
        exact .tooLong _ hscbe ⟨hlarge, hlong⟩ rfl rfl
      · rw [if_neg hlong]
        dsimp only
        by_cases htogether : isDirect m = false ∧ a.lock.bytes.length ≤ bufferLen - ioResponseSize
        · rw [if_pos (by simpa using htogether)]
          simp only [(Work.postResponse_fields _ _ _ _ _).2.2.2.2, addLockedValue, hwire]
          exact .whole _ hscbe htogether.1 (Or.inr (by omega)) rfl rfl
        · rw [if_neg (by simpa using htogether)]
          have hdirect : isDirect m = true ∨ bufferLen - ioResponseSize < a.lock.bytes.length := by
            by_contra hnot
            rw [not_or] at hnot
            exact htogether ⟨by simpa using hnot.1, by omega⟩
          simp only [post, (Work.postResponse_fields _ _ _ _ _).2.2.2.2, addLockedValue, hwire]
          exact .twoStage _ hscbe hdirect (by omega) rfl rfl

theorem Packet.receive_fields {recvBuf : List UInt8} (hm : p.receive recvBuf = some m) :
    m.op = p.request.op ∧ m.resvd = p.request.resvd ∧ m.valLen = p.request.valLen := by
  unfold Packet.receive at hm
  split at hm
  · cases hm
    exact ⟨rfl, rfl, rfl⟩
  · cases hm

theorem isDirect_mark (cl : Client) (m : IORequest) : Work.isDirect (cl.mark m) = Work.isDirect m := by
  unfold Client.mark
  split
  · have hbits : (m.resvd ||| msgResvdScbe) &&& msgResvdDirect = m.resvd &&& msgResvdDirect := by
      rw [Nat.and_or_distrib_right]
      exact Nat.or_zero _
    simp only [Work.isDirect, hbits]
  · rfl

theorem bits_congr {m m' : IORequest} (hresvd : m.resvd = m'.resvd) :
    Work.Scbe m = Work.Scbe m' ∧ Work.isDirect m = Work.isDirect m' := by
  simp only [Work.Scbe, Work.isDirect, hresvd, and_self]

theorem Client.mark_congr (cl : Client) {m m' : IORequest} (hresvd : m.resvd = m'.resvd) :
    (cl.mark m).resvd = (cl.mark m').resvd ∧ (cl.mark m).op = m.op := by
  unfold Client.mark
  split
  · exact ⟨by rw [hresvd], rfl⟩
  · exact ⟨hresvd, rfl⟩

theorem IORequest.ofKeyValue_of_fits (req : IORequest) (authId requestId pool : Nat) (op : Op)
    (key v : List UInt8) (flags : Nat) (hfits : key.length + v.length + 1 + ioRequestSize ≤ bufferLen) :
    ∃ m, req.ofKeyValue bufferLen authId requestId pool op key v flags = .ok m ∧ m.op = op ∧
      m.resvd = req.resvd ∧ m.valLen = v.length := by
  unfold ofKeyValue setKeyAndValue
  rw [if_neg (by omega)]
  exact ⟨_, rfl, rfl, rfl, rfl⟩

theorem IORequest.ofStringLen_of_fits (req : IORequest) (authId requestId pool : Nat) (op : Op)
    (key : List UInt8) (valueLen flags : Nat) (hfits : key.length + 1 + ioRequestSize ≤ bufferLen) :
    ∃ m, req.ofStringLen bufferLen authId requestId pool op key valueLen flags = .ok m ∧ m.op = op ∧
      m.resvd = req.resvd := by
  unfold ofStringLen ofKeyLen setKeyValueLen
  rw [if_neg (by omega)]
  exact ⟨_, rfl, rfl, rfl⟩

theorem Client.sends_of_ok {r : Except ApiExc IORequest} (hr : r = .ok m) (f : IORequest → IORequest) :
    Client.sends (f <$> r) [] = .ok ((f m).packet []) := by
  rw [hr]
  rfl

structure Arrives (cl : Client) (pool : Nat) (c : ClientCall) (recvBuf key : List UInt8) (m : IORequest) :
    Prop where
  sent : ∃ p, cl.send pool c = .ok p ∧ p.receive recvBuf = some m
  key : m.key = key
  op : m.op = .get

theorem cString_length_le (bytes : List UInt8) : (cString bytes).length ≤ bytes.length :=
  (List.takeWhile_sublist _).length_le

section Arrives

variable (cl : Client) (pool : Nat) (recvBuf : List UInt8) (hfits : key.length + 1 + ioRequestSize ≤ bufferLen)
include hfits

theorem Client.getString_arrives :
    ∃ m, Arrives cl pool (.getString key) recvBuf key m ∧ Work.Scbe m = Work.Scbe (cl.mark cl.iobs) ∧
      Work.isDirect m = Work.isDirect cl.iobs ∧ m.valLen = 0 := by
  obtain ⟨m, hm, hop, hresvd, hval⟩ := cl.iobs.ofKeyValue_of_fits cl.authId (cl.requestId + 1) pool .get
    key [] 0 (by simpa using hfits)
  have hp : cl.send pool (.getString key) = .ok ((cl.mark m).packet []) := Client.sends_of_ok hm cl.mark
  obtain ⟨hpacket, hlen, -⟩ := Client.sends_ofKeyValue cl.mark_keepsLayout hp
  obtain ⟨m', hm', hkey, -⟩ := hpacket.receive recvBuf hlen
  obtain ⟨hop', hresvd', hval'⟩ := Packet.receive_fields hm'
  obtain ⟨hmark, hmarkOp⟩ := cl.mark_congr hresvd
  have hbits := bits_congr (hresvd'.trans hmark)
  exact ⟨m', ⟨⟨_, hp, hm'⟩, hkey, hop'.trans (hmarkOp.trans hop)⟩, hbits.1,
    hbits.2.trans (isDirect_mark cl cl.iobs), hval'.trans ((cl.mark_valLen m).trans hval)⟩

variable (hzero : 0 ∉ key)
include hzero

theorem Client.converted_arrives {f : IORequest → IORequest} (hf : KeepsLayout f) {c : ClientCall} (hc : cl.send pool c = Client.sends (f <$> cl.iobs.ofStringLen bufferLen cl.authId
      (cl.requestId + 1) pool .get (cString key) key.length 0) []) (hop : ∀ m, (f m).op = m.op) :
    ∃ m m₀, Arrives cl pool c recvBuf key m ∧ m₀.resvd = cl.iobs.resvd ∧ m.resvd = (f m₀).resvd ∧
      m.valLen = (f m₀).valLen := by
  have hlen := cString_length_le key
  obtain ⟨m₀, hm₀, hop₀, hresvd⟩ := cl.iobs.ofStringLen_of_fits cl.authId (cl.requestId + 1) pool .get
    (cString key) key.length 0 (by omega)
  have hp := Client.sends_of_ok hm₀ f
  obtain ⟨m, hm, hkey⟩ := (Client.decoded_cString hf hp recvBuf).mpr hzero
  obtain ⟨hop', hresvd', hval'⟩ := Packet.receive_fields hm
  exact ⟨m, m₀, ⟨⟨_, hc.trans hp, hm⟩, hkey, hop'.trans ((hop m₀).trans hop₀)⟩, hresvd, hresvd', hval'⟩

theorem Client.getBuffer_arrives :
    ∃ m, Arrives cl pool (.getBuffer key) recvBuf key m ∧ Work.Scbe m = Work.Scbe (cl.mark cl.iobs) ∧
      Work.isDirect m = Work.isDirect cl.iobs ∧ m.valLen = bufferLen - ioResponseSize := by
  obtain ⟨m, m₀, harrives, hresvd, hresvd', hval⟩ := cl.converted_arrives pool recvBuf hfits hzero
    (f := fun m => cl.mark { m with valLen := bufferLen - ioResponseSize })
    (fun m => cl.mark_keepsLayout { m with valLen := bufferLen - ioResponseSize }) (c := .getBuffer key) rfl fun m => (cl.mark_congr (m := { m with valLen := _ }) rfl).2
  have hmark := cl.mark_congr (show { m₀ with valLen := bufferLen - ioResponseSize }.resvd =
    cl.iobs.resvd from hresvd)
  have hbits := bits_congr (hresvd'.trans hmark.1)
  exact ⟨m, harrives, hbits.1, hbits.2.trans (isDirect_mark cl cl.iobs),
    hval.trans (cl.mark_valLen { m₀ with valLen := bufferLen - ioResponseSize })⟩

theorem Client.getDirect_arrives {len : Nat} (hlen : len ≠ 0) (hmax : len ≤ cl.maxMessageSize) : ∃ m, Arrives cl pool (.getDirect key len) recvBuf key m ∧ Work.Scbe m = false ∧
      Work.isDirect m = true ∧ m.valLen = len := by
  have hc : cl.send pool (.getDirect key len) = Client.sends ((fun m => { m with
      resvd := msgResvdDirect, valLen := len }) <$> cl.iobs.ofStringLen bufferLen cl.authId
      (cl.requestId + 1) pool .get (cString key) key.length 0) [] := by
    unfold Client.send Client.getDirect
    simp only [if_neg hlen, if_neg (show ¬ cl.maxMessageSize < len by omega)]
  have hf : KeepsLayout fun m => { m with resvd := msgResvdDirect, valLen := len } :=
    fun _ => ⟨rfl, rfl, rfl⟩
  obtain ⟨m, m₀, harrives, -, hresvd, hval⟩ := cl.converted_arrives pool recvBuf hfits hzero hf hc fun _ => rfl
  refine ⟨m, harrives, ?_, ?_, hval⟩
  · simp only [Work.Scbe, hresvd]
    decide
  · simp only [Work.isDirect, hresvd]
    decide

end Arrives

open GetCall

theorem or_twostage {n : Nat} (hn : n < 2 ^ 63) : (n ||| 2 ^ 63).testBit 63 = true ∧ (n ||| 2 ^ 63) % 2 ^ 63 = n := by
  refine ⟨by rw [Nat.testBit_or, Nat.testBit_two_pow_self, Bool.or_true], ?_⟩
  rw [Nat.or_mod_two_pow, Nat.mod_self, Nat.or_zero, Nat.mod_eq_of_lt hn]

variable {c : GetCall} {store : List UInt8 → StoreAnswer}

theorem GetCall.response_of_fits (body : List UInt8) (hfits : body.length ≤ bufferLen - ioResponseSize)
    (r : IOResponse) (iobr : List UInt8) :
    ∃ r', response iobr (.response r body) = some r' ∧ r'.status = r.status ∧
      r'.dataLen = r.dataLen ∧ r'.data = writeAt iobr 0 body := by
  have hsize : ioResponseSize ≤ bufferLen := by decide
  exact ⟨_, if_pos (by omega), rfl, rfl, rfl⟩

theorem GetCall.run_of_arrives (harrives : Arrives cl pool (c.call key) s.recvBuf key m)
    (hfree : s.conn.free ≠ []) {handle : Nat} (hhandle : (store key).lock.handle = some handle)
    (hrc : (store key).lock.rc = sOk) (iobr : List UInt8) : ∃ wire, GetReply m (store key).lock.bytes wire ∧
      c.run cl pool key iobr s store = c.received iobr wire := by
  obtain ⟨p, hp, hm⟩ := harrives.sent
  obtain ⟨iob, free, hcons⟩ := List.exists_cons_of_ne_nil hfree
  have hbegun := Work.begun_of_free hcons s.locked s.index s.authId s.sendBuf m (store key)
  obtain ⟨hnone, hreply⟩ := hbegun.get_reply harrives.op hhandle hrc
  refine ⟨_, hreply, ?_⟩
  have hserve : s.serve p store = some ((Work.start s.conn s.locked s.index).processMessageIORequest
      s.authId s.sendBuf m (store key)).1.wire := by
    unfold Server.serve
    rw [hm]
    simp only [harrives.key]
    generalize (Work.start s.conn s.locked s.index).processMessageIORequest s.authId s.sendBuf m
      (store key) = res at hnone
    obtain ⟨w', e⟩ := res
    obtain rfl : e = none := hnone
    rfl
  unfold run
  rw [hp]
  simp only [hserve]

section

attribute [local simp] finish

theorem GetCall.received_whole (hstatus : r.status = sOk) (hlen : r.dataLen = v.length)
    (hv : v.length ≤ bufferLen - ioResponseSize) (c : GetCall) (iobr : List UInt8) :
    c.received iobr [.response r v] = match c with
      | .string old => ⟨sOk, v ++ old, (v ++ old).length⟩
      | .buffer _ => ⟨sOk, v, v.length⟩
      | .direct region => ⟨sOk, writeAt region 0 v, v.length⟩ := by
  obtain ⟨r', hr', hstatus', hlen', hdata⟩ := response_of_fits v hv r iobr
  rw [hstatus] at hstatus'
  rw [hlen] at hlen'
  have hbound : bufferLen - ioResponseSize < 2 ^ 63 := by decide
  have hbit : r'.isSetTwostageBit = false :=
    Nat.testBit_lt_two_pow (show r'.dataLen < 2 ^ 63 by omega)
  have hread : readAt r'.data 0 v.length = v := by rw [hdata, writeAt_zero, readAt_zero]
  have hmod : r'.dataLength = v.length := by
    unfold IOResponse.dataLength
    rw [hlen', Nat.mod_eq_of_lt (by omega)]
  simp only [received, hr']
  cases c with
  | direct region => simp [hbit, hstatus', hread, hlen', hmod]
  | _ => simp [hbit, hstatus', hread, hlen']

theorem GetCall.received_empty (hlen : r.dataLen = 0) (c : GetCall) (iobr : List UInt8)
    (hdirect : r.status = sOk → ∀ region, c ≠ .direct region) : c.received iobr [.response r []] =
      if r.status = sOk then match c with
        | .buffer _ => ⟨sOk, [], 0⟩
        | c => c.untouched sOk
      else c.untouched r.status := by
  obtain ⟨r', hr', hstatus', hlen', -⟩ := response_of_fits [] (Nat.zero_le _) r iobr
  rw [hlen] at hlen'
  have hbit : r'.isSetTwostageBit = false :=
    Nat.testBit_lt_two_pow (show r'.dataLen < 2 ^ 63 by omega)
  have hread : readAt r'.data 0 0 = [] := by simp [readAt]
  simp only [received, hr']
  by_cases hstatus : r.status = sOk
  · rw [if_pos hstatus]
    rw [hstatus] at hstatus'
    cases c with
    | string old => simp [untouched, hbit, hstatus', hread, hlen']
    | buffer oldLen => simp [hbit, hstatus', hread, hlen']
    | direct region => exact absurd rfl (hdirect hstatus region)
  · rw [if_neg hstatus]
    cases c with
    | string old => simp [untouched, hbit, hread, hlen', hstatus']
    | _ => simp [hstatus, hstatus']

theorem GetCall.received_twoStage (hstatus : r.status = sOk) (hlen : r.dataLen = v.length ||| 2 ^ 63)
    (hv : v.length ≤ bufferLen - ioResponseSize) (c : GetCall) (iobr : List UInt8) :
    c.received iobr [.response r [], .value v] = match c with
      | .string old => (string old).untouched eFail
      | .buffer oldLen => ⟨sOk, v, oldLen⟩
      | .direct region =>
        if v.length ≤ region.length then ⟨sOk, writeAt region 0 v, v.length⟩
        else ⟨eFail, region, v.length⟩ := by
  obtain ⟨r', hr', hstatus', hlen', -⟩ := response_of_fits [] (Nat.zero_le _) r iobr
  have hbound : bufferLen - ioResponseSize < 2 ^ 63 := by decide
  obtain ⟨hbit, hlength⟩ := or_twostage (n := v.length) (by omega)
  rw [← hlen, ← hlen'] at hbit hlength
  rw [hstatus] at hstatus'
  have hdata : r'.dataLength = v.length := hlength
  simp only [received, hr']
  cases c with
  | string old => simp [IOResponse.isSetTwostageBit, hbit]
  | buffer oldLen =>
    simp [IOResponse.isSetTwostageBit, hdata, hbit, hstatus', following]
  | direct region =>
    by_cases hregion : v.length ≤ region.length
    · simp [IOResponse.isSetTwostageBit, hdata, hbit, hstatus', following, hregion]
    · simp [IOResponse.isSetTwostageBit, hdata, hbit, hstatus', following, hregion]

end

section Delivers

variable {m : IORequest} {region : List UInt8}

theorem GetReply.string_iff (h : GetReply m v wire) (hval : m.valLen = 0) (hpos : 1 ≤ v.length)
    (hv : v.length ≤ bufferLen - ioResponseSize) (old iobr : List UInt8) :
    (string old).received iobr wire = ⟨sOk, v, v.length⟩ ↔ if Work.Scbe m then old = v
      else old = [] ∧ v.length < twoStageThreshold ∧ Work.isDirect m = false := by
  cases h with
  | shortCircuit r hscbe hstatus hlen =>
    rw [received_empty hlen _ _ (by simp), if_pos hstatus, if_pos hscbe]
    simp only [untouched, GetResult.mk.injEq, true_and]
    exact ⟨And.left, fun h => ⟨h, by rw [h]⟩⟩
  | whole r hscbe hdirect hroom hstatus hlen =>
    have hsmall : v.length < twoStageThreshold := by omega
    rw [received_whole hstatus hlen hv]
    simp [hsmall, hscbe, hdirect]
  | tooLong r hscbe hlong hstatus hlen =>
    have hne : r.status ≠ sOk := by
      rw [hstatus]
      decide
    rw [received_empty hlen _ _ (by simp), if_neg hne, if_neg (by simp [hscbe])]
    -- the value is refused for the bit or for its length
    refine iff_of_false (by simp [untouched, hne]) fun hclean => ?_
    rcases hlong.1 with hdirect | hlarge
    · exact absurd hclean.2.2 (by simp [hdirect])
    · exact absurd hclean.2.1 (by omega)
  | twoStage r hscbe hdirect hroom hstatus hlen => omega

theorem GetReply.buffer_iff (h : GetReply m v wire) (hval : m.valLen = bufferLen - ioResponseSize)
    (hpos : 1 ≤ v.length) (hv : v.length ≤ bufferLen - ioResponseSize) (oldLen : Nat) (iobr : List UInt8) :
    (buffer oldLen).received iobr wire = ⟨sOk, v, v.length⟩ ↔
      Work.Scbe m = false ∧ (Work.isDirect m = false ∨ oldLen = v.length) := by
  cases h with
  | shortCircuit r hscbe hstatus hlen =>
    rw [received_empty hlen _ _ (by simp), if_pos hstatus]
    refine iff_of_false ?_ (by simp [hscbe])
    simp only [GetResult.mk.injEq, not_and]
    omega
  | whole r hscbe hdirect hroom hstatus hlen =>
    rw [received_whole hstatus hlen hv]
    exact iff_of_true rfl ⟨hscbe, Or.inl hdirect⟩
  | tooLong r hscbe hlong hstatus hlen =>
    have hroom := hlong.2
    omega
  | twoStage r hscbe hdirect hroom hstatus hlen =>
    have hbit : Work.isDirect m = true := hdirect.resolve_right (by omega)
    rw [received_twoStage hstatus hlen hv]
    simp [hscbe, hbit]

theorem GetReply.direct_delivers (h : GetReply m v wire) (hscbe : Work.Scbe m = false)
    (hdirect : Work.isDirect m = true) (hval : m.valLen = region.length)
    (hv : v.length ≤ bufferLen - ioResponseSize) (iobr : List UInt8) :
    (direct region).Delivers v ((direct region).received iobr wire) := by
  cases h with
  | shortCircuit r hscbe' => simp [hscbe] at hscbe'
  | whole r _ hdirect' => simp [hdirect] at hdirect'
  | tooLong r _ hlong hstatus hlen =>
    have hshort : ¬ v.length ≤ region.length := by
      have := hlong.2
      omega
    have hne : r.status ≠ sOk := by
      rw [hstatus]
      decide
    rw [received_empty hlen _ _ fun hok => absurd hok hne, if_neg hne]
    simp only [Delivers, if_neg hshort]
    exact ⟨hne, rfl⟩
  | twoStage r _ _ hroom hstatus hlen =>
    have hfits : v.length ≤ region.length := by omega
    rw [received_twoStage hstatus hlen hv]
    simp only [Delivers, if_pos hfits]
    exact ⟨trivial, trivial, writeAt_zero _ _⟩

theorem GetCall.direct_untouched_iff {status : Status} (hstatus : status ≠ sOk) :
    (direct region).Delivers v ((direct region).untouched status) ↔ ¬ v.length ≤ region.length := by
  by_cases hfits : v.length ≤ region.length
  · refine iff_of_false ?_ (not_not_intro hfits)
    simp [Delivers, untouched, hfits, hstatus]
  · refine iff_of_true ?_ hfits
    simp [Delivers, untouched, hfits, hstatus]

theorem GetCall.run_of_error {status : Status} (hsend : cl.send pool (c.call key) = .error status) :
    c.run cl pool key iobr s store = c.untouched status := by
  simp only [run, hsend]

end Delivers

/-- A value that is stored comes back as it is exactly when the read is clean, whichever way the shard
transfers it. -/
theorem delivers_iff_clean (cl : Client) (pool : Nat) (key iobr v : List UInt8) (s : Server)
    (store : List UInt8 → StoreAnswer) (handle : Nat)
    (hfits : key.length + 1 + ioRequestSize ≤ bufferLen) (hzero : 0 ∉ key) (hfree : s.conn.free ≠ [])
    (hrc : (store key).lock.rc = sOk) (hhandle : (store key).lock.handle = some handle)
    (hbytes : (store key).lock.bytes = v) (hpos : 1 ≤ v.length)
    (hv : v.length ≤ bufferLen - ioResponseSize) (c : GetCall) :
    c.Delivers v (c.run cl pool key iobr s store) ↔ c.Clean cl v := by
  cases c with
  | string old =>
    obtain ⟨m, harrives, hscbe, hdirect, hval⟩ := cl.getString_arrives pool s.recvBuf hfits
    obtain ⟨wire, hreply, hrun⟩ :=
      run_of_arrives (c := .string old) harrives hfree hhandle hrc iobr
    rw [hbytes] at hreply
    simp only [Delivers, Clean, hrun, ← hscbe, ← hdirect]
    exact hreply.string_iff hval hpos hv old iobr
  | buffer oldLen =>
    obtain ⟨m, harrives, hscbe, hdirect, hval⟩ := cl.getBuffer_arrives pool s.recvBuf hfits hzero
    obtain ⟨wire, hreply, hrun⟩ :=
      run_of_arrives (c := .buffer oldLen) harrives hfree hhandle hrc iobr
    rw [hbytes] at hreply
    simp only [Delivers, Clean, hrun, ← hscbe, ← hdirect]
    exact hreply.buffer_iff hval hpos hv oldLen iobr
  | direct region =>
    -- the client refuses a length of zero and one above the limit of the transport
    by_cases hempty : region.length = 0
    · have hsend : cl.send pool ((direct region).call key) = .error eBadParam := by
        simp only [call, Client.send, Client.getDirect, if_pos hempty]
      rw [run_of_error hsend, direct_untouched_iff (by decide)]
      exact iff_of_true (by omega) fun h => by omega
    · by_cases hmax : region.length ≤ cl.maxMessageSize
      · obtain ⟨m, harrives, hscbe, hdirect, hval⟩ :=
          cl.getDirect_arrives pool s.recvBuf hfits hzero hempty hmax
        obtain ⟨wire, hreply, hrun⟩ :=
          run_of_arrives (c := .direct region) harrives hfree hhandle hrc iobr
        rw [hbytes] at hreply
        rw [hrun]
        exact iff_of_true (hreply.direct_delivers hscbe hdirect hval hv iobr) fun _ => hmax
      · have hsend : cl.send pool ((direct region).call key) = .error eTooLarge := by
          simp only [call, Client.send, Client.getDirect, if_neg hempty,
            if_pos (show cl.maxMessageSize < region.length by omega)]
        rw [run_of_error hsend, direct_untouched_iff (by decide)]
        exact ⟨fun hshort hroom => absurd hroom hshort, fun hclean hroom => hmax (hclean hroom)⟩

theorem delivers_direct_four : (direct [9, 9, 9, 9, 9, 9]).Delivers [1, 2, 3, 4]
      ((direct [9, 9, 9, 9, 9, 9]).run ⟨7, 0, false, 2 ^ 30, default⟩ 1 [97] []
        ⟨.fresh, fun _ => none, none, 7, [], default⟩
        fun _ => { (default : StoreAnswer) with lock := ⟨sOk, some 5, 0x1000, [1, 2, 3, 4]⟩ }) :=
  (delivers_iff_clean ⟨7, 0, false, 2 ^ 30, default⟩ 1 [97] [] [1, 2, 3, 4]
    ⟨.fresh, fun _ => none, none, 7, [], default⟩
    (fun _ => { (default : StoreAnswer) with lock := ⟨sOk, some 5, 0x1000, [1, 2, 3, 4]⟩ }) 5
    (by decide) (by decide) (by decide) rfl rfl rfl (by decide) (by decide) _).mpr fun _ => by decide

/-- A string that holds a byte before: the value is put in front of it. -/
theorem not_delivers_string_used : ¬ (string [9]).Delivers [1, 2, 3, 4]
      ((string [9]).run ⟨7, 0, false, 2 ^ 30, default⟩ 1 [97] [] ⟨.fresh, fun _ => none, none, 7, [], default⟩
        fun _ => { (default : StoreAnswer) with lock := ⟨sOk, some 5, 0x1000, [1, 2, 3, 4]⟩ }) := by
  have hrun : (string [9]).run ⟨7, 0, false, 2 ^ 30, default⟩ 1 [97] []
      ⟨.fresh, fun _ => none, none, 7, [], default⟩
      (fun _ => { (default : StoreAnswer) with lock := ⟨sOk, some 5, 0x1000, [1, 2, 3, 4]⟩ }) =
        ⟨sOk, [1, 2, 3, 4, 9], 5⟩ := by decide +kernel
  rw [hrun]
  simp [Delivers]

end Comanche.Dawn
