import Comanche.Lib.Bytes
import Mathlib.Algebra.Group.Nat.Defs

/-!
# The messages of the Dawn protocol

`protocol.h`.
-/

namespace Comanche.Dawn

open Lib

abbrev Status := Int

def sOk : Status := 0
def eFail : Status := -1
def eInval : Status := -2
def eInsufficientSpace : Status := -7
def eBadParam : Status := -13
def eKeyNotFound : Status := -52
def eTooLarge : Status := -55
def eAlreadyOpen : Status := -56

def poolError : Nat := 0

def flagsDontStomp : Nat := 0x8

def msgResvdScbe : Nat := 0x2

def msgResvdDirect : Nat := 0x4

def protocolVersion : Nat := 0xFB

def msgTypeIoRequest : Nat := 0x20

inductive Op where
  | put
  | get
  | putAdvance
  | erase
  | configure
  deriving DecidableEq, Inhabited

def bufferLen : Nat := 2 * 2 ^ 20

def ioRequestSize : Nat := 56

def ioResponseSize : Nat := 32

structure IORequest where
  authId : Nat
  msgLen : Nat
  version : Nat
  typeId : Nat
  op : Op
  resvd : Nat
  poolId : Nat
  requestId : Nat
  keyLen : Nat
  valLen : Nat
  flags : Nat
  data : List UInt8
  deriving DecidableEq, Inhabited

inductive ApiExc where
  | insufficientBuffer

namespace IORequest

def header (buf : IORequest) (authId requestId poolId : Nat) (op : Op) (flags : Nat) : IORequest :=
  { buf with
    authId, requestId, poolId, op, flags
    version := protocolVersion
    typeId := msgTypeIoRequest }

def setKeyValueLen (m : IORequest) (bufferSize : Nat) (key : List UInt8) (valueLen : Nat) :
    Except ApiExc IORequest :=
  if bufferSize < key.length + 1 + ioRequestSize then .error .insufficientBuffer
  else .ok { m with
    data := writeAt (writeAt m.data 0 key) key.length [0]
    valLen := valueLen
    keyLen := key.length }

def setKeyAndValue (m : IORequest) (bufferSize : Nat) (key value : List UInt8) : Except ApiExc IORequest :=
  if bufferSize < key.length + value.length + 1 + ioRequestSize then .error .insufficientBuffer
  else .ok { m with
    data := writeAt (writeAt (writeAt m.data 0 key) key.length [0]) (key.length + 1) value
    valLen := value.length
    keyLen := key.length }

/-- The constructor with a key and a value, each as a pointer and a length. The one with two strings calls
it. -/
def ofKeyValue (buf : IORequest) (bufferSize authId requestId poolId : Nat) (op : Op)
    (key value : List UInt8) (flags : Nat) : Except ApiExc IORequest := do
  let m ← (buf.header authId requestId poolId op flags).setKeyAndValue bufferSize key value
  return { m with msgLen := ioRequestSize + key.length + value.length + 1 }

/-- The constructor with a key as a pointer and a length, and the length of a value that follows in a
buffer of its own. -/
def ofKeyLen (buf : IORequest) (bufferSize authId requestId poolId : Nat) (op : Op) (key : List UInt8)
    (valueLen flags : Nat) : Except ApiExc IORequest := do
  let m ← (buf.header authId requestId poolId op flags).setKeyValueLen bufferSize key valueLen
  return { m with msgLen := ioRequestSize + key.length + 1 }

/-- The constructor with a key as a string, and the length of a value. A character pointer converts to
the string that ends at the first zero. -/
def ofStringLen (buf : IORequest) (bufferSize authId requestId poolId : Nat) (op : Op)
    (key : List UInt8) (valueLen flags : Nat) : Except ApiExc IORequest :=
  buf.ofKeyLen bufferSize authId requestId poolId op key valueLen flags

def key (m : IORequest) : List UInt8 := readAt m.data 0 m.keyLen

def value (m : IORequest) : List UInt8 := readAt m.data (m.keyLen + 1) m.valLen

end IORequest

def msgTypeIoResponse : Nat := 0x21

structure IOResponse where
  authId : Nat
  msgLen : Nat
  version : Nat
  typeId : Nat
  status : Status
  requestId : Nat
  dataLen : Nat
  data : List UInt8
  deriving Inhabited

def toInt8 (status : Status) : Status := (status + 128) % 256 - 128

namespace IOResponse

/-- The constructor sets neither the identifier of the request nor the data; `status` shares its place with
the operation, which is `OP_INVALID`. -/
def construct (buf : IOResponse) (authId : Nat) : IOResponse :=
  { buf with
    authId
    version := protocolVersion
    typeId := msgTypeIoResponse
    status := toInt8 0xFE
    dataLen := 0
    msgLen := ioResponseSize }

def setStatus (r : IOResponse) (status : Status) : IOResponse := { r with status := toInt8 status }

def setTwostageBit (r : IOResponse) : IOResponse := { r with dataLen := r.dataLen ||| 2 ^ 63 }

def isSetTwostageBit (r : IOResponse) : Bool := r.dataLen.testBit 63

def dataLength (r : IOResponse) : Nat := r.dataLen % 2 ^ 63

end IOResponse

/-- A packet: the fields of the message, and the bytes behind them. -/
structure Packet where
  request : IORequest
  body : List UInt8

def IORequest.packet (m : IORequest) (extra : List UInt8) : Packet :=
  ⟨m, m.data.take (m.msgLen - ioRequestSize) ++ extra⟩

def Packet.receive (p : Packet) (buf : List UInt8) : Option IORequest :=
  if ioRequestSize + p.body.length ≤ bufferLen then some { p.request with data := writeAt buf 0 p.body }
  else none

inductive Posted where
  | response (r : IOResponse) (body : List UInt8)
  | value (bytes : List UInt8)

def IOResponse.posted (r : IOResponse) (len : Nat) (value : List UInt8) : Posted :=
  .response r (r.data.take (len - ioResponseSize) ++ value)

end Comanche.Dawn
