import FheSql.Transport

/-!
# Frames and the programs that exchange them

What `sendFrame` writes and `recvFrame` reads is one binary format. A payload of
2^32 bytes or more is announced by the lowest bits of its length, so the frame
that is read from it holds a beginning of it only.
-/

namespace FheSql

open ByteText BinaryCodec ByteStream

/-- `[4-byte type][4-byte length][payload bytes]`. -/
def frame : Codec (MsgType × Bytes) :=
  (wordBE.view MsgType.ofCode MsgType.code (fun _ => True) fun type _ => type.ofCode_code).pair
    (Codec.sized (wordBE.view UInt32.toNat UInt32.ofNat (fun n => n < 2 ^ 32)
      fun _ small => UInt32.toNat_ofNat_of_lt' small))

theorem wordBE_fits (v : UInt32) : wordBE.Fits v := ⟨trivial, v.toNat_lt⟩

theorem frame_fits {type : MsgType} {payload : Bytes} (small : payload.length < 2 ^ 32) :
    frame.Fits (type, payload) :=
  ⟨⟨trivial, wordBE_fits _⟩, small, wordBE_fits _⟩

theorem frame_get : frame.get = wordBE.get.bind fun code => wordBE.get.bind fun len =>
    (Codec.getExactly len.toNat).bind fun payload =>
      Reader.pure (MsgType.ofCode code, payload) := by
  simp only [frame, Codec.pair, Codec.view, Codec.sized, Reader.bind_assoc, Reader.pure_bind]

/-- The frame read from what `sendFrame` writes, whatever the length of the payload. -/
theorem received_frame (type : MsgType) (payload more : Bytes) :
    frame.get (frame.put (type, payload) ++ more) =
      some ((type, payload.take (payload.length % 2 ^ 32)),
        payload.drop (payload.length % 2 ^ 32) ++ more) := by
  have written : frame.put (type, payload) ++ more =
      wordBE.put type.code ++ (wordBE.put (UInt32.ofNat payload.length) ++ (payload ++ more)) := by
    simp only [frame, Codec.pair, Codec.view, Codec.sized, List.append_assoc]
  have announced : (UInt32.ofNat payload.length).toNat = payload.length % 2 ^ 32 :=
    UInt32.toNat_ofNat'
  have short : payload.length % 2 ^ 32 ≤ payload.length := Nat.mod_le _ _
  have enough : payload.length % 2 ^ 32 ≤ (payload ++ more).length := by
    rw [List.length_append]
    omega
  rw [written, frame_get]
  simp only [Reader.bind, wordBE.get_put _ _ (wordBE_fits _), Option.bind_some, announced,
    Codec.getExactly, if_pos enough, MsgType.ofCode_code, Reader.pure]
  rw [List.take_append_of_le_length short, List.drop_append_of_le_length short]

theorem reads_readBytes (n : Nat) : Reads (readBytes n) (Codec.getExactly n) := by
  have h := reads_readLoop connectionClosed [] n
  have same : (fun i => (Codec.getExactly n i).map fun x => (([] : Bytes) ++ x.1, x.2)) =
      Codec.getExactly n := by
    funext i
    exact Option.map_id'
  rwa [same] at h

theorem reads_readU32BE : Reads readU32BE wordBE.get := by
  simp only [wordBE, Codec.view, Codec.wordBE, Reader.bind_assoc, Reader.pure_bind]
  exact reads_bind (reads_readBytes 4) fun _ => reads_pure _

theorem reads_recvFrame : Reads recvFrame frame.get := by
  rw [frame_get]
  refine reads_bind reads_readU32BE fun type => reads_bind reads_readU32BE fun len => ?_
  by_cases some : 0 < len
  · rw [if_pos some]
    exact reads_bind (reads_readBytes len.toNat) fun payload => reads_pure _
  · have zero : len.toNat = 0 := Nat.eq_zero_of_not_pos fun h => some (UInt32.lt_iff_toNat_lt.mpr h)
    rw [if_neg some, zero]
    exact reads_bind (reads_pure []) fun payload => reads_pure _

theorem emits_sendFrame (type : MsgType) (payload : Bytes) :
    Emits (sendFrame type payload) (frame.put (type, payload)) () := by
  refine emits_bind (emits_writeLoop _ _) (emits_bind (emits_writeLoop _ _) ?_)
  by_cases some : payload ≠ []
  · rw [if_pos some]
    exact emits_writeLoop _ _
  · rw [if_neg some, not_not.mp some]
    exact emits_pure ()

/-- The frames of a list of batches. -/
def batchFrames (batches : List EncryptedResultBatch) : Bytes :=
  batches.flatMap fun batch => frame.put (.ResultBatch, batch.serialize)

theorem emits_sendBatches (batches : List EncryptedResultBatch) :
    Emits (sendBatches batches) (batchFrames batches) () := by
  induction batches with
  | nil => exact emits_pure ()
  | cons batch batches ih => exact emits_bind (emits_sendFrame _ _) ih

/-- What a server that returns batches sends. -/
def reply (pkg : QueryPackage) (batches : List EncryptedResultBatch) : Bytes :=
  frame.put (.QueryResponse, (responseHeader pkg batches).serialize) ++ batchFrames batches

theorem responseHeader_deserialize {pkg : QueryPackage} (short : pkg.queryId.length < 2 ^ 64)
    (batches : List EncryptedResultBatch) :
    QueryResponse.deserialize (responseHeader pkg batches).serialize =
      .ok (responseHeader pkg batches) := by
  have headerFits : Cereal.queryResponse.Fits (responseHeader pkg batches) := by
    simpa [Cereal.queryResponse, responseHeader] using short
  rw [QueryResponse.deserialize, QueryResponse.serialize,
    Cereal.queryResponse.get_whole headerFits]

theorem length_responseHeader (pkg : QueryPackage) (batches : List EncryptedResultBatch) :
    (responseHeader pkg batches).serialize.length = pkg.queryId.length + 21 := by
  simp [QueryResponse.serialize, Cereal.queryResponse, Codec.view, Codec.pair, Cereal.bool,
    Cereal.string, Cereal.uint32, Cereal.size, Codec.sized, Codec.wordLE, Codec.byte,
    responseHeader]
  omega

/-- What `handleClient` does behind the frame it receives. -/
def respond (handler : QueryHandler) (type : MsgType) (payload : Bytes) : Program WireExn Served :=
  if type ≠ .QueryRequest then do
    sendFrame .Error (str "Expected QueryRequest")
    return .rejected
  else do
    let pkg ← decoded (QueryPackage.deserialize payload)
    match handler pkg with
    | .error err => do
      sendFrame .Error err
      return .failed
    | .ok batches => do
      sendFrame .QueryResponse (responseHeader pkg batches).serialize
      sendBatches batches
      return .complete batches.length

theorem handleClient_eq (handler : QueryHandler) :
    handleClient handler =
      tryCatch (recvFrame >>= fun x => respond handler x.1 x.2) fun e => pure (.aborted e) := rfl

theorem emits_batches (pkg : QueryPackage) (batches : List EncryptedResultBatch) :
    Emits (do
      sendFrame .QueryResponse (responseHeader pkg batches).serialize
      sendBatches batches
      return Served.complete batches.length)
      (reply pkg batches) (.complete batches.length) := by
  refine emits_bind (emits_sendFrame _ _) ?_
  have h := emits_bind (emits_sendBatches batches)
    (f := fun _ => (pure (Served.complete batches.length) : Program WireExn Served)) (emits_pure _)
  rwa [List.append_nil] at h

end FheSql
