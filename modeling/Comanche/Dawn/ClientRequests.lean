import Comanche.Dawn.Protocol

/-!
# What the client sends and what the shard decodes

The calls of `Connection_handler` in `connection.cpp` up to the send, against the one decoder of
`process_message_IO_request`.
-/

namespace Comanche.Dawn

open Lib

structure Client where
  authId : Nat
  /-- `_request_id`, before it is counted up. -/
  requestId : Nat
  shortCircuit : Bool
  maxMessageSize : Nat
  iobs : IORequest

/-- Memory that is registered under a handle, from its start on and beyond its end, and the numbers of its bytes that
the fabric provider sends: the client compares no length with that of the registration. -/
structure Registered where
  memory : Nat → UInt8
  sendable : Nat → Bool

def Registered.bytes (r : Registered) (n : Nat) : List UInt8 := (List.range n).map r.memory

@[simp] theorem Registered.length_bytes (r : Registered) (n : Nat) : (r.bytes n).length = n := by
  simp [Registered.bytes]

/-- The operations. Of a direct put, `region` is the memory of the handle; `value` is the memory at the pointer of the
caller. -/
inductive ClientCall where
  | put (key value : List UInt8) (flags : Nat)
  | putDirect (key value : List UInt8) (region : Option Registered) (flags : Nat)
  | twoStagePutDirect (key value : List UInt8) (flags : Nat)
  | getString (key : List UInt8)
  | getBuffer (key : List UInt8)
  | getDirect (key : List UInt8) (outValueLen : Nat)
  | erase (key : List UInt8)

namespace Client

variable (cl : Client) (pool : Nat)

/-- An exception of a constructor is caught and becomes `E_FAIL`. -/
def sends (r : Except ApiExc IORequest) (extra : List UInt8) : Except Status Packet :=
  match r with
  | .ok m => .ok (m.packet extra)
  | .error _ => .error eFail

def mark (m : IORequest) : IORequest :=
  if cl.shortCircuit then { m with resvd := m.resvd ||| msgResvdScbe } else m

def put (key value : List UInt8) (flags : Nat) : Except Status Packet :=
  if bufferLen < key.length + value.length + ioRequestSize then .error eTooLarge
  else sends (cl.mark <$> cl.iobs.ofKeyValue bufferLen cl.authId (cl.requestId + 1) pool .put key value
    flags) []

def twoStagePutDirect (key value : List UInt8) (flags : Nat) : Except Status Packet :=
  sends (cl.iobs.ofKeyLen bufferLen cl.authId (cl.requestId + 1) pool .putAdvance key value.length flags) []

def putDirect (key value : List UInt8) (region : Option Registered) (flags : Nat) : Except Status Packet :=
  match region with
  | none => .error eBadParam
  | some region =>
    if pool = 0 then .error eInval
    else if bufferLen < key.length + value.length + ioRequestSize then
      if cl.maxMessageSize < value.length then .error eTooLarge
      else cl.twoStagePutDirect pool key value flags
    else if region.sendable value.length then
      -- the second buffer is the registered one, with its length set to that of the value
      sends (cl.mark <$> cl.iobs.ofKeyLen bufferLen cl.authId (cl.requestId + 1) pool .put key
        value.length flags) (region.bytes value.length)
    else .error eFail

/-- `get` into a string: the constructor with two strings, of which the second one is empty. -/
def getString (key : List UInt8) : Except Status Packet :=
  sends (cl.mark <$> cl.iobs.ofKeyValue bufferLen cl.authId (cl.requestId + 1) pool .get key [] 0) []

/-- `get` into memory that the client allocates. -/
def getBuffer (key : List UInt8) : Except Status Packet :=
  sends ((fun m => cl.mark { m with valLen := bufferLen - ioResponseSize }) <$>
    cl.iobs.ofStringLen bufferLen cl.authId (cl.requestId + 1) pool .get (cString key) key.length 0) []

def getDirect (key : List UInt8) (outValueLen : Nat) : Except Status Packet :=
  if outValueLen = 0 then .error eBadParam
  else if cl.maxMessageSize < outValueLen then .error eTooLarge
  else sends ((fun m => { m with resvd := msgResvdDirect, valLen := outValueLen }) <$>
    cl.iobs.ofStringLen bufferLen cl.authId (cl.requestId + 1) pool .get (cString key) key.length 0) []

def erase (key : List UInt8) : Except Status Packet :=
  sends (cl.iobs.ofStringLen bufferLen cl.authId (cl.requestId + 1) pool .erase (cString key) key.length 0)
    []

/-- The packet of a call, or the status that it returns without sending one. -/
def send : ClientCall → Except Status Packet
  | .put key value flags => cl.put pool key value flags
  | .putDirect key value region flags => cl.putDirect pool key value region flags
  | .twoStagePutDirect key value flags => cl.twoStagePutDirect pool key value flags
  | .getString key => cl.getString pool key
  | .getBuffer key => cl.getBuffer pool key
  | .getDirect key outValueLen => cl.getDirect pool key outValueLen
  | .erase key => cl.erase pool key

end Client

namespace ClientCall

def key : ClientCall → List UInt8
  | put key _ _ | putDirect key _ _ _ | twoStagePutDirect key _ _ | getString key | getBuffer key
  | getDirect key _ | erase key => key

def value : ClientCall → Option (List UInt8)
  | put _ value _ => some value
  | putDirect key value _ _ =>
    if bufferLen < key.length + value.length + ioRequestSize then none else some value
  | _ => none

def Decoded (c : ClientCall) (buf : List UInt8) (p : Packet) : Prop :=
  ∃ m, p.receive buf = some m ∧ m.key = c.key ∧ ∀ v ∈ c.value, m.value = v

/-- Where the key is converted it has no zero, and a direct put in one packet leaves room for the zero
behind the key and has its value at the start of the registered memory. -/
def Plain : ClientCall → Prop
  | putDirect key value region _ =>
    key.length + value.length + ioRequestSize ≤ bufferLen →
      key.length + value.length + ioRequestSize < bufferLen ∧
        ∀ r ∈ region, r.bytes value.length = value
  | getBuffer key | getDirect key _ | erase key => 0 ∉ key
  | _ => True

end ClientCall

variable {key value extra buf tail : List UInt8} {m : IORequest} {p : Packet} {cl : Client} {pool : Nat}
  {c : ClientCall}

variable {buf : IORequest} {authId flags requestId valueLen : Nat} {op : Op} {f : IORequest → IORequest}

theorem IORequest.ofKeyValue_eq_ok {bufferSize poolId : Nat}
    (hm : buf.ofKeyValue bufferSize authId requestId poolId op key value flags = .ok m) :
    key.length + value.length + 1 + ioRequestSize ≤ bufferSize ∧ m.keyLen = key.length ∧
      m.valLen = value.length ∧ m.msgLen = ioRequestSize + key.length + value.length + 1 ∧
      ∃ rest, m.data = key ++ [0] ++ value ++ rest := by
  unfold ofKeyValue setKeyAndValue at hm
  split at hm
  case isTrue => cases hm
  case isFalse hfits =>
    cases hm
    refine ⟨by omega, rfl, rfl, rfl, ((buf.data.drop key.length).drop 1).drop value.length, ?_⟩
    have hlen : key.length + 1 = (key ++ [0]).length := by simp
    change writeAt (writeAt (writeAt buf.data 0 key) key.length [0]) (key.length + 1) value = _
    rw [writeAt_zero, writeAt_append, hlen, writeAt_append]
    rfl

theorem IORequest.ofKeyLen_eq_ok {bufferSize poolId : Nat}
    (hm : buf.ofKeyLen bufferSize authId requestId poolId op key valueLen flags = .ok m) :
    key.length + 1 + ioRequestSize ≤ bufferSize ∧ m.keyLen = key.length ∧ m.valLen = valueLen ∧
      m.msgLen = ioRequestSize + key.length + 1 ∧ ∃ rest, m.data = key ++ [0] ++ rest := by
  unfold ofKeyLen setKeyValueLen at hm
  split at hm
  case isTrue => cases hm
  case isFalse hfits =>
    cases hm
    refine ⟨by omega, rfl, rfl, rfl, (buf.data.drop key.length).drop 1, ?_⟩
    change writeAt (writeAt buf.data 0 key) key.length [0] = _
    rw [writeAt_zero, writeAt_append]
    rfl

structure Packet.Encodes (p : Packet) (key tail : List UInt8) : Prop where
  keyLen : p.request.keyLen = key.length
  body : p.body = key ++ [0] ++ tail

theorem Packet.Encodes.receive (h : p.Encodes key tail) (buf : List UInt8)
    (hfits : key.length + tail.length + ioRequestSize < bufferLen) :
    ∃ m, p.receive buf = some m ∧ m.key = key ∧ (p.request.valLen = tail.length → m.value = tail) := by
  have hlen : ioRequestSize + p.body.length ≤ bufferLen := by
    rw [h.body]
    simp only [List.length_append, List.length_singleton]
    omega
  refine ⟨_, if_pos hlen, ?_, fun hval => ?_⟩
  · change readAt (writeAt buf 0 p.body) 0 p.request.keyLen = key
    rw [writeAt_zero, h.body, h.keyLen, List.append_assoc, List.append_assoc, readAt_zero]
  · change readAt (writeAt buf 0 p.body) (p.request.keyLen + 1) p.request.valLen = tail
    have hoff : key.length + 1 = (key ++ [0]).length := by simp
    rw [writeAt_zero, h.body, h.keyLen, hval, hoff, readAt_append]

theorem Packet.Encodes.receive_eq_none (h : p.Encodes key tail) (buf : List UInt8)
    (hlong : bufferLen ≤ key.length + tail.length + ioRequestSize) : p.receive buf = none := by
  refine if_neg ?_
  rw [h.body]
  simp only [List.length_append, List.length_singleton]
  omega

theorem IORequest.packet_encodes (hkey : m.keyLen = key.length)
    (hlen : m.msgLen = ioRequestSize + key.length + value.length + 1) {rest : List UInt8}
    (hdata : m.data = key ++ [0] ++ value ++ rest) (extra : List UInt8) :
    (m.packet extra).Encodes key (value ++ extra) := by
  refine ⟨hkey, ?_⟩
  change m.data.take (m.msgLen - ioRequestSize) ++ extra = _
  have htake : m.msgLen - ioRequestSize = (key ++ [0] ++ value).length := by
    simp only [List.length_append, List.length_singleton]
    omega
  rw [hdata, htake, List.take_left', List.append_assoc]
  rfl

theorem Client.sends_eq_ok {r : Except ApiExc IORequest} (hp : Client.sends r extra = .ok p) :
    ∃ m, r = .ok m ∧ p = m.packet extra := by
  cases r with
  | ok m => exact ⟨m, rfl, (Except.ok.inj hp).symm⟩
  | error e => cases hp

theorem Client.map_eq_ok {r : Except ApiExc IORequest} (hm : f <$> r = .ok m) : ∃ m', r = .ok m' ∧ m = f m' := by
  cases r with
  | ok m' => exact ⟨m', rfl, (Except.ok.inj hm).symm⟩
  | error e => cases hm

def KeepsLayout (f : IORequest → IORequest) : Prop :=
  ∀ m, (f m).keyLen = m.keyLen ∧ (f m).msgLen = m.msgLen ∧ (f m).data = m.data

theorem Client.mark_keepsLayout (cl : Client) : KeepsLayout cl.mark := by
  intro m
  unfold Client.mark
  split
  · exact ⟨rfl, rfl, rfl⟩
  · exact ⟨rfl, rfl, rfl⟩

theorem Client.mark_valLen (cl : Client) (m : IORequest) : (cl.mark m).valLen = m.valLen := by
  unfold Client.mark
  split
  · rfl
  · rfl

theorem Client.sends_ofKeyValue (hf : KeepsLayout f)
    (hp : Client.sends (f <$> buf.ofKeyValue bufferLen authId requestId pool op key value flags) [] = .ok p) :
    p.Encodes key value ∧ key.length + value.length + ioRequestSize < bufferLen ∧
      ∃ m, p.request = f m ∧ m.valLen = value.length := by
  obtain ⟨_, hfm, rfl⟩ := Client.sends_eq_ok hp
  obtain ⟨m, hm, rfl⟩ := Client.map_eq_ok hfm
  obtain ⟨hfits, hkey, hval, hlen, rest, hdata⟩ := IORequest.ofKeyValue_eq_ok hm
  obtain ⟨hkey', hlen', hdata'⟩ := hf m
  have hpacket := IORequest.packet_encodes (hkey'.trans hkey) (hlen'.trans hlen) (hdata'.trans hdata) []
  rw [List.append_nil] at hpacket
  exact ⟨hpacket, by omega, m, rfl, hval⟩

theorem Client.sends_ofKeyLen (hf : KeepsLayout f)
    (hp : Client.sends (f <$> buf.ofKeyLen bufferLen authId requestId pool op key valueLen flags) extra = .ok p) :
    p.Encodes key extra ∧ key.length + ioRequestSize < bufferLen ∧ ∃ m, p.request = f m ∧ m.valLen = valueLen := by
  obtain ⟨_, hfm, rfl⟩ := Client.sends_eq_ok hp
  obtain ⟨m, hm, rfl⟩ := Client.map_eq_ok hfm
  obtain ⟨hfits, hkey, hval, hlen, rest, hdata⟩ := IORequest.ofKeyLen_eq_ok hm
  obtain ⟨hkey', hlen', hdata'⟩ := hf m
  have hdata'' : (f m).data = key ++ [0] ++ [] ++ rest := by rw [hdata', hdata, List.append_nil]
  have hlen'' : (f m).msgLen = ioRequestSize + key.length + ([] : List UInt8).length + 1 := hlen'.trans hlen
  have hpacket := IORequest.packet_encodes (hkey'.trans hkey) hlen'' hdata'' extra
  rw [List.nil_append] at hpacket
  exact ⟨hpacket, by omega, m, rfl, hval⟩

theorem Client.decoded_put (hp : cl.put pool key value flags = .ok p) (buf : List UInt8) :
    (ClientCall.put key value flags).Decoded buf p := by
  unfold Client.put at hp
  split at hp
  case isTrue => cases hp
  case isFalse =>
    obtain ⟨hpacket, hfits, m, hreq, hval⟩ := Client.sends_ofKeyValue cl.mark_keepsLayout hp
    obtain ⟨m', hm', hkey, hvalue⟩ := hpacket.receive buf hfits
    refine ⟨m', hm', hkey, fun v hv => ?_⟩
    obtain rfl : value = v := Option.some.inj hv
    exact hvalue (by rw [hreq, cl.mark_valLen, hval])

theorem Client.decoded_twoStagePutDirect (hp : cl.twoStagePutDirect pool key value flags = .ok p) (buf : List UInt8) :
    ∃ m, p.receive buf = some m ∧ m.key = key := by
  unfold Client.twoStagePutDirect at hp
  rw [← id_map (cl.iobs.ofKeyLen _ _ _ _ _ _ _ _)] at hp
  obtain ⟨hpacket, hfits, -⟩ := Client.sends_ofKeyLen (fun _ => ⟨rfl, rfl, rfl⟩) hp
  obtain ⟨m, hm, hkey, -⟩ := hpacket.receive buf (by simpa using hfits)
  exact ⟨m, hm, hkey⟩

theorem Client.decoded_cString (hf : KeepsLayout f) {req : IORequest}
    (hp : Client.sends (f <$> req.ofStringLen bufferLen authId requestId pool op (cString key) valueLen 0) []
      = .ok p) (buf : List UInt8) : (∃ m, p.receive buf = some m ∧ m.key = key) ↔ 0 ∉ key := by
  obtain ⟨hpacket, hfits, -⟩ := Client.sends_ofKeyLen hf hp
  obtain ⟨m, hm, hkey, -⟩ := hpacket.receive buf (by simpa using hfits)
  rw [← cString_eq_self_iff]
  constructor
  · rintro ⟨m', hm', hkey'⟩
    obtain rfl : m = m' := Option.some.inj (hm.symm.trans hm')
    exact hkey.symm.trans hkey'
  · intro heq
    exact ⟨m, hm, hkey.trans heq⟩

theorem ClientCall.decoded_of_none (hvalue : c.value = none) (buf : List UInt8) :
    c.Decoded buf p ↔ ∃ m, p.receive buf = some m ∧ m.key = c.key := by
  unfold ClientCall.Decoded
  rw [hvalue]
  simp

theorem Client.decoded_putDirect {region : Registered} (hshort : key.length + value.length + ioRequestSize ≤ bufferLen)
    (hp : Client.sends (cl.mark <$> cl.iobs.ofKeyLen bufferLen cl.authId (cl.requestId + 1) pool .put key
      value.length flags) (region.bytes value.length) = .ok p) (buf : List UInt8) :
    (ClientCall.putDirect key value (some region) flags).Decoded buf p ↔
      key.length + value.length + ioRequestSize < bufferLen ∧ region.bytes value.length = value := by
  obtain ⟨hpacket, -, m, hreq, hval⟩ := Client.sends_ofKeyLen cl.mark_keepsLayout hp
  have hsome : (ClientCall.putDirect key value (some region) flags).value = some value :=
    if_neg (by omega)
  unfold ClientCall.Decoded
  rw [hsome]
  by_cases hfits : key.length + value.length + ioRequestSize < bufferLen
  · obtain ⟨m', hm', hkey, hvalue⟩ := hpacket.receive buf (by rwa [region.length_bytes])
    have hvalue' : m'.value = region.bytes value.length :=
      hvalue (by rw [hreq, cl.mark_valLen, hval, region.length_bytes])
    constructor
    · rintro ⟨m₁, hm₁, -, hv⟩
      obtain rfl : m' = m₁ := Option.some.inj (hm'.symm.trans hm₁)
      exact ⟨hfits, hvalue'.symm.trans (hv value rfl)⟩
    · rintro ⟨-, heq⟩
      refine ⟨m', hm', hkey, fun v hv => ?_⟩
      obtain rfl : value = v := Option.some.inj hv
      exact hvalue'.trans heq
  · have hnone := hpacket.receive_eq_none buf (by rw [region.length_bytes]; omega)
    refine iff_of_false ?_ fun h => hfits h.1
    rintro ⟨m', hm', -⟩
    rw [hnone] at hm'
    cases hm'

/-- The shard decodes the key and the value of the caller exactly when the call is plain. -/
theorem decoded_iff_plain (cl : Client) (pool : Nat) (c : ClientCall) (p : Packet)
    (hp : cl.send pool c = .ok p) (buf : List UInt8) : c.Decoded buf p ↔ c.Plain := by
  cases c with
  | put key value flags => exact iff_of_true (Client.decoded_put hp buf) trivial
  | putDirect key value region flags =>
    cases region with
    | none => cases hp
    | some region =>
      unfold Client.send Client.putDirect at hp
      dsimp only at hp
      split_ifs at hp with hpool hlarge hmax hregion
      · have hnone : (ClientCall.putDirect key value (some region) flags).value = none := if_pos hlarge
        refine iff_of_true ((ClientCall.decoded_of_none hnone buf).mpr ?_) fun hle => ?_
        · exact Client.decoded_twoStagePutDirect hp buf
        · exact absurd hlarge (by omega)
      · rw [Client.decoded_putDirect (by omega) hp buf]
        simp only [ClientCall.Plain, Option.mem_some_iff, forall_eq']
        exact ⟨fun h _ => h, fun h => h (by omega)⟩
  | twoStagePutDirect key value flags =>
    exact iff_of_true ((ClientCall.decoded_of_none rfl buf).mpr (Client.decoded_twoStagePutDirect hp buf))
      trivial
  | getString key =>
    obtain ⟨hpacket, hfits, -⟩ := Client.sends_ofKeyValue cl.mark_keepsLayout hp
    obtain ⟨m, hm, hkey, -⟩ := hpacket.receive buf hfits
    exact iff_of_true ((ClientCall.decoded_of_none rfl buf).mpr ⟨m, hm, hkey⟩) trivial
  | getBuffer key =>
    rw [ClientCall.decoded_of_none rfl buf]
    refine Client.decoded_cString (fun m => ?_) hp buf
    exact cl.mark_keepsLayout { m with valLen := bufferLen - ioResponseSize }
  | getDirect key outValueLen =>
    rw [ClientCall.decoded_of_none rfl buf]
    unfold Client.send Client.getDirect at hp
    dsimp only at hp
    split_ifs at hp
    refine Client.decoded_cString (fun m => ?_) hp buf
    exact ⟨rfl, rfl, rfl⟩
  | erase key =>
    rw [ClientCall.decoded_of_none rfl buf]
    have hp' : Client.sends (id <$> cl.iobs.ofStringLen bufferLen cl.authId (cl.requestId + 1) pool .erase
        (cString key) key.length 0) [] = .ok p := by
      rw [id_map]
      exact hp
    exact Client.decoded_cString (fun _ => ⟨rfl, rfl, rfl⟩) hp' buf

theorem decoded_put_zero : ∃ p, (⟨7, 0, false, 2 ^ 30, default⟩ : Client).send 1 (.put [97, 0, 98] [1, 2] 0) = .ok p ∧
      (ClientCall.put [97, 0, 98] [1, 2] 0).Decoded [] p :=
  ⟨_, rfl, (decoded_iff_plain ⟨7, 0, false, 2 ^ 30, default⟩ 1 (.put [97, 0, 98] [1, 2] 0) _ rfl []).mpr
    trivial⟩

/-- The key of an erase is converted to a string that ends at its zero: the shard erases another key. -/
theorem not_decoded_erase_zero : ∃ p, (⟨7, 0, false, 2 ^ 30, default⟩ : Client).send 1 (.erase [97, 0, 98]) = .ok p ∧
      ¬ (ClientCall.erase [97, 0, 98]).Decoded [] p := by
  refine ⟨_, rfl, ?_⟩
  rintro ⟨m, hm, hkey, -⟩
  have hm' : m.key = [97] := by
    rw [← Option.some.inj hm]
    decide
  exact absurd (hm'.symm.trans hkey) (by decide)

/-- `OP_PUT_ADVANCE`, read as the status that has the same byte of the message. -/
def opPutAdvance : Status := 6

/-- The value follows the request in a message of its own. -/
def ClientCall.TwoStage : ClientCall → Prop
  | putDirect key value _ _ => bufferLen < key.length + value.length + ioRequestSize
  | _ => False

instance : (c : ClientCall) → Decidable c.TwoStage
  | .putDirect _ _ _ _ => inferInstanceAs (Decidable (_ < _))
  | .put .. | .twoStagePutDirect .. | .getString _ | .getBuffer _ | .getDirect .. | .erase _ => isFalse id

/-- Whether the provider sends the value of a two-stage put. -/
def ClientCall.valueSent : ClientCall → Bool
  | putDirect _ value region _ => region.all (·.sendable value.length)
  | _ => true

/-- What a put returns when the response has the status `answer`. A two-stage put that is refused returns
`msg->status` of its own request. -/
def Client.putStatus (cl : Client) (pool : Nat) (c : ClientCall) (answer : Status) : Status :=
  match cl.send pool c with
  | .error status => status
  | .ok _ =>
    if c.TwoStage then if answer ≠ sOk then opPutAdvance else if c.valueSent then sOk else eFail
    else answer

/-- A packet fits in a buffer unless the value follows it, without one only `E_TOO_LARGE` is returned, and
what is returned with one is the status of the server, as far as one of the two is not `S_OK`. -/
def Client.Truthful (cl : Client) (pool : Nat) (answer : Status) (c : ClientCall) : Prop :=
  match cl.send pool c with
  | .error status => status = eTooLarge
  | .ok p => (c.TwoStage ∨ ioRequestSize + p.body.length ≤ bufferLen) ∧
      (cl.putStatus pool c answer = sOk → answer = sOk) ∧ (answer ≠ sOk → cl.putStatus pool c answer = answer)

/-- There is room for the zero behind the key, the provider sends the value, and a two-stage put is accepted, or refused
with the number of its operation. -/
def Client.Reportable (cl : Client) (pool : Nat) (answer : Status) (key value : List UInt8)
    (region : Option Registered) : Prop :=
  pool ≠ 0 ∧ ∃ r ∈ region,
    if bufferLen < key.length + value.length + ioRequestSize then
      cl.maxMessageSize < value.length ∨
        key.length + ioRequestSize < bufferLen ∧ (answer = sOk ∨ answer = opPutAdvance)
    else key.length + value.length + ioRequestSize < bufferLen ∧ r.sendable value.length = true

variable {answer : Status}

theorem Packet.Encodes.length (h : p.Encodes key tail) : p.body.length = key.length + 1 + tail.length := by
  rw [h.body]
  simp only [List.length_append, List.length_singleton]

theorem Client.truthful_ok (hp : cl.send pool c = .ok p) : cl.Truthful pool answer c ↔
    if c.TwoStage then answer = sOk ∨ answer = opPutAdvance else ioRequestSize + p.body.length ≤ bufferLen := by
  simp only [Client.Truthful, Client.putStatus, hp]
  by_cases htwo : c.TwoStage
  · by_cases hok : answer = sOk
    · simp [htwo, hok]
    · have hne : opPutAdvance ≠ sOk := by decide
      simp [htwo, hok, hne, eq_comm]
  · simp [htwo]

theorem Client.truthful_error {status : Status} (hp : cl.send pool c = .error status) :
    cl.Truthful pool answer c ↔ status = eTooLarge := by
  simp only [Client.Truthful, hp]

theorem Client.truthful_put : cl.Truthful pool answer (.put key value flags) ↔
    key.length + value.length + ioRequestSize ≠ bufferLen := by
  cases hp : cl.send pool (.put key value flags) with
  | ok p =>
    rw [truthful_ok hp, if_neg (show ¬ (ClientCall.put key value flags).TwoStage from id)]
    simp only [Client.send, Client.put] at hp
    split_ifs at hp
    obtain ⟨hpacket, hfits, -⟩ := Client.sends_ofKeyValue cl.mark_keepsLayout hp
    rw [hpacket.length]
    omega
  | error status =>
    rw [truthful_error hp]
    simp only [Client.send, Client.put, Client.sends, IORequest.ofKeyValue, IORequest.setKeyAndValue] at hp
    split_ifs at hp with hlarge hfull
    · cases hp
      exact iff_of_true rfl (by omega)
    · cases hp
      exact iff_of_false (by decide) (by omega)
    · cases hp

theorem Client.truthful_putDirect (region : Option Registered) :
    cl.Truthful pool answer (.putDirect key value region flags) ↔ cl.Reportable pool answer key value region := by
  unfold Client.Reportable
  cases region with
  | none =>
    rw [truthful_error (show cl.send pool (.putDirect key value none flags) = .error eBadParam from rfl)]
    exact iff_of_false (by decide) (by simp)
  | some region =>
    simp only [Option.mem_some_iff, exists_eq_left']
    cases hp : cl.send pool (.putDirect key value (some region) flags) with
    | ok p =>
      rw [truthful_ok hp]
      simp only [Client.send, Client.putDirect] at hp
      split_ifs at hp with hpool hlarge hmax hregion
      · unfold Client.twoStagePutDirect at hp
        rw [← id_map (cl.iobs.ofKeyLen _ _ _ _ _ _ _ _)] at hp
        obtain ⟨-, hfits, -⟩ := Client.sends_ofKeyLen (fun _ => ⟨rfl, rfl, rfl⟩) hp
        simp [ClientCall.TwoStage, hlarge, hpool, hmax, hfits]
      · obtain ⟨hpacket, -⟩ := Client.sends_ofKeyLen cl.mark_keepsLayout hp
        simp only [ClientCall.TwoStage, hlarge, if_false, hpacket.length, region.length_bytes, hregion, and_true]
        omega
    | error status =>
      rw [truthful_error hp]
      simp only [Client.send, Client.putDirect, Client.twoStagePutDirect, Client.sends, IORequest.ofKeyLen,
        IORequest.setKeyValueLen] at hp
      split_ifs at hp with hpool hlarge hmax hfull hregion hfull <;> cases hp
      · exact iff_of_false (by decide) fun h => h.1 hpool
      · simp [hpool, hlarge, hmax]
      · refine iff_of_false (by decide) fun h => ?_
        rw [if_pos hlarge] at h
        omega
      · refine iff_of_false (by decide) fun h => ?_
        rw [if_neg hlarge] at h
        omega
      · refine iff_of_false (by decide) fun h => ?_
        rw [if_neg hlarge] at h
        exact hregion h.2.2

/-- Without room for the zero behind the key a put that fills a buffer fails, and a direct put sends too much; a refused
two-stage put reports the number of its operation. -/
theorem Client.put_truthful_iff (cl : Client) (pool : Nat) (answer : Status) (key value : List UInt8) (flags : Nat) :
    (cl.Truthful pool answer (.put key value flags) ↔ key.length + value.length + ioRequestSize ≠ bufferLen) ∧
      ∀ region, cl.Truthful pool answer (.putDirect key value region flags) ↔
        cl.Reportable pool answer key value region :=
  ⟨truthful_put, truthful_putDirect⟩

/-- The message would be one byte longer than a buffer: nothing is sent, and `E_FAIL` is returned. -/
theorem Client.not_truthful_full : ¬ Client.Truthful ⟨7, 0, false, 2 ^ 30, default⟩ 1 sOk
    (.put [97] (List.replicate (bufferLen - ioRequestSize - 1) 0) 0) := by
  rw [truthful_put, List.length_replicate]
  decide

end Comanche.Dawn
