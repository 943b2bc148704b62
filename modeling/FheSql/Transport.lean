import FheSql.Lib.Connection
import FheSql.Serialization

/-!
# Transport

`transport/transport.cpp` once the connection stands: the frames on the wire, the
client's `sendQuery` and the server's `handleClient`. Each of the two closes the
socket when it ends, whichever way.
-/

namespace FheSql

open ByteText BinaryCodec ByteStream

/-- `enum class MsgType : uint32_t`; `unlisted` holds every other number. -/
inductive MsgType where
  | QueryRequest
  | QueryResponse
  | ResultBatch
  | Error
  | unlisted (code : UInt32) (other : code = 0 ∨ 4 < code)
  deriving DecidableEq, Repr

namespace MsgType

def code : MsgType → UInt32
  | QueryRequest => 1
  | QueryResponse => 2
  | ResultBatch => 3
  | Error => 4
  | unlisted code _ => code

def ofCode (code : UInt32) : MsgType :=
  if other : code = 0 ∨ 4 < code then unlisted code other
  else if code = 1 then QueryRequest
  else if code = 2 then QueryResponse
  else if code = 3 then ResultBatch
  else Error

theorem ofCode_code (type : MsgType) : ofCode type.code = type := by
  cases type with
  | unlisted code other => exact dif_pos other
  | _ => rfl

end MsgType

structure QueryResponse where
  success : Bool := false
  errorMessage : Str := []
  batchCount : UInt32 := 0
  queryId : Str := []
  deriving DecidableEq, Repr

/-- `ar(resp.success, resp.errorMessage, resp.batchCount, resp.queryId)`. -/
def Cereal.queryResponse : Codec QueryResponse :=
  (bool.pair (string.pair (uint32.pair string))).view
    (fun (success, errorMessage, batchCount, queryId) =>
      { success, errorMessage, batchCount, queryId })
    (fun r => (r.success, r.errorMessage, r.batchCount, r.queryId)) (fun _ => True) fun _ _ => rfl

def QueryResponse.serialize (resp : QueryResponse) : Bytes := Cereal.queryResponse.put resp

def QueryResponse.deserialize (bytes : Bytes) : Except WireExn QueryResponse :=
  match Cereal.queryResponse.get bytes with
  | some (resp, _) => .ok resp
  | none => .error .cereal

def writeFailed : WireExn := .runtimeError (str "Transport: write failed")

def connectionClosed : WireExn := .runtimeError (str "Transport: connection closed")

/-- A number in the byte order of the network. -/
def wordBE : Codec UInt32 :=
  (Codec.wordBE 4).view UInt32.ofNat UInt32.toNat (fun _ => True) fun _ _ => UInt32.ofNat_toNat

def writeU32BE (v : UInt32) : Program WireExn Unit :=
  Program.writeLoop writeFailed (wordBE.put v)

def readU32BE : Program WireExn UInt32 := do
  let n ← Program.readLoop connectionClosed [] 4
  return UInt32.ofNat (Codec.littleEndian n.reverse)

def writeBytes (data : Bytes) : Program WireExn Unit := Program.writeLoop writeFailed data

def readBytes (len : Nat) : Program WireExn Bytes := Program.readLoop connectionClosed [] len

/-- `sendFrame`, the same in both classes; a length of 2^32 or more is cut to its
lowest 32 bits. -/
def sendFrame (type : MsgType) (payload : Bytes) : Program WireExn Unit := do
  writeU32BE type.code
  writeU32BE (UInt32.ofNat payload.length)
  if payload ≠ [] then writeBytes payload

/-- `recvFrame`, the same in both classes. -/
def recvFrame : Program WireExn (MsgType × Bytes) := do
  let type ← readU32BE
  let len ← readU32BE
  let payload ← if 0 < len then readBytes len.toNat else pure []
  return (MsgType.ofCode type, payload)

/-- A deserializer run inside a program. -/
def decoded {α : Type} : Except WireExn α → Program WireExn α
  | .ok a => pure a
  | .error e => throw e

/-- The loop of `sendQuery` over the batches. -/
def recvBatches : Nat → List EncryptedResultBatch → Program WireExn (List EncryptedResultBatch)
  | 0, outBatches => pure outBatches
  | n + 1, outBatches => do
    let (type2, payload2) ← recvFrame
    if type2 ≠ .ResultBatch then
      throw (.runtimeError (str "Transport: expected ResultBatch"))
    else
      let batch ← decoded (EncryptedResultBatch.deserialize payload2)
      recvBatches n (outBatches ++ [batch])

/-- `TcpClientTransport::sendQuery` on a connected socket, with the contents of
`outBatches` before and, unless it throws, after the call. -/
def sendQuery (pkg : QueryPackage) (outBatches : List EncryptedResultBatch) :
    Program WireExn (QueryResponse × List EncryptedResultBatch) := do
  sendFrame .QueryRequest pkg.serialize
  let (type1, payload1) ← recvFrame
  if type1 = .Error then
    return ({ errorMessage := payload1, queryId := pkg.queryId }, outBatches)
  else if type1 ≠ .QueryResponse then
    throw (.runtimeError (str "Transport: expected QueryResponse"))
  else
    let resp ← decoded (QueryResponse.deserialize payload1)
    if resp.success = false then
      return (resp, outBatches)
    else
      let outBatches ← recvBatches resp.batchCount.toNat outBatches
      return (resp, outBatches)

/-- The ways in which `handleClient` ends; `complete` is its last line, which counts
the batches sent, and `aborted` its outer catch block. -/
inductive Served where
  | rejected
  | failed
  | complete (batches : Nat)
  | aborted (e : WireExn)
  deriving DecidableEq, Repr

/-- A callback that returns batches or raises a `std::exception` with a text. -/
abbrev QueryHandler := QueryPackage → Except Str (List EncryptedResultBatch)

def sendBatches : List EncryptedResultBatch → Program WireExn Unit
  | [] => pure ()
  | batch :: batches => do
    sendFrame .ResultBatch batch.serialize
    sendBatches batches

/-- The header in front of the batches. -/
def responseHeader (pkg : QueryPackage) (batches : List EncryptedResultBatch) : QueryResponse :=
  { success := true, batchCount := UInt32.ofNat batches.length, queryId := pkg.queryId }

/-- `TcpServerTransport::handleClient`. -/
def handleClient (handler : QueryHandler) : Program WireExn Served :=
  tryCatch (do
    let (type, payload) ← recvFrame
    if type ≠ .QueryRequest then
      sendFrame .Error (str "Expected QueryRequest")
      return .rejected
    else
      let pkg ← decoded (QueryPackage.deserialize payload)
      match handler pkg with
      | .error err =>
        sendFrame .Error err
        return .failed
      | .ok batches =>
        sendFrame .QueryResponse (responseHeader pkg batches).serialize
        sendBatches batches
        return .complete batches.length)
    fun e => return .aborted e

end FheSql
