import FheSql.TransportFrames

/-!
# Delivery of a result

Behind the request, `sendQuery` is a reader of the reply: it takes all of it or
finds nothing. With what a connection brings to either side in any interleaving
of short reads and writes, the client returns the whole list of batches or throws.
-/

namespace FheSql.TransportDelivery

open ByteText BinaryCodec ByteStream

def readDecoded {α : Type} : Except WireExn α → Reader α
  | .ok a => Reader.pure a
  | .error _ => Reader.failed

def readBatches : Nat → List EncryptedResultBatch → Reader (List EncryptedResultBatch)
  | 0, outBatches => Reader.pure outBatches
  | n + 1, outBatches => frame.get.bind fun x =>
    if x.1 ≠ .ResultBatch then Reader.failed
    else (readDecoded (EncryptedResultBatch.deserialize x.2)).bind fun batch =>
      readBatches n (outBatches ++ [batch])

def readReply (pkg : QueryPackage) (outBatches : List EncryptedResultBatch) :
    Reader (QueryResponse × List EncryptedResultBatch) :=
  frame.get.bind fun x =>
    if x.1 = .Error then
      Reader.pure ({ errorMessage := x.2, queryId := pkg.queryId }, outBatches)
    else if x.1 ≠ .QueryResponse then Reader.failed
    else (readDecoded (QueryResponse.deserialize x.2)).bind fun resp =>
      if resp.success = false then Reader.pure (resp, outBatches)
      else (readBatches resp.batchCount.toNat outBatches).bind fun outBatches =>
        Reader.pure (resp, outBatches)

theorem reads_decoded {α : Type} (x : Except WireExn α) : Reads (decoded x) (readDecoded x) := by
  cases x with
  | ok a => exact reads_pure a
  | error e => exact reads_fail e

theorem local_decoded {α : Type} (x : Except WireExn α) : Local (readDecoded x) := by
  cases x with
  | ok a => exact local_pure a
  | error e => exact local_failed

theorem reads_recvBatches (n : Nat) (outBatches : List EncryptedResultBatch) :
    Reads (recvBatches n outBatches) (readBatches n outBatches) := by
  induction n generalizing outBatches with
  | zero => exact reads_pure outBatches
  | succ n ih =>
    refine reads_bind reads_recvFrame fun x => ?_
    dsimp only
    by_cases other : x.1 ≠ .ResultBatch
    · rw [if_pos other, if_pos other]
      exact reads_fail _
    · rw [if_neg other, if_neg other]
      exact reads_bind (reads_decoded _) fun batch => ih _

theorem local_readBatches (n : Nat) (outBatches : List EncryptedResultBatch) :
    Local (readBatches n outBatches) := by
  induction n generalizing outBatches with
  | zero => exact local_pure outBatches
  | succ n ih =>
    refine local_bind frame.reads fun x => ?_
    by_cases other : x.1 ≠ .ResultBatch
    · rw [if_pos other]
      exact local_failed
    · rw [if_neg other]
      exact local_bind (local_decoded _) fun batch => ih _

/-- What `sendQuery` does once the request is sent. -/
def awaitReply (pkg : QueryPackage) (outBatches : List EncryptedResultBatch) :
    Program WireExn (QueryResponse × List EncryptedResultBatch) := do
  let x ← recvFrame
  if x.1 = .Error then
    return ({ errorMessage := x.2, queryId := pkg.queryId }, outBatches)
  else if x.1 ≠ .QueryResponse then
    throw (.runtimeError (str "Transport: expected QueryResponse"))
  else
    let resp ← decoded (QueryResponse.deserialize x.2)
    if resp.success = false then
      return (resp, outBatches)
    else
      let outBatches ← recvBatches resp.batchCount.toNat outBatches
      return (resp, outBatches)

theorem sendQuery_eq (pkg : QueryPackage) (outBatches : List EncryptedResultBatch) :
    sendQuery pkg outBatches =
      sendFrame .QueryRequest pkg.serialize >>= fun _ => awaitReply pkg outBatches := rfl

theorem reads_awaitReply (pkg : QueryPackage) (outBatches : List EncryptedResultBatch) :
    Reads (awaitReply pkg outBatches) (readReply pkg outBatches) := by
  refine reads_bind reads_recvFrame fun x => ?_
  by_cases error : x.1 = .Error
  · rw [if_pos error, if_pos error]
    exact reads_pure _
  rw [if_neg error, if_neg error]
  by_cases other : x.1 ≠ .QueryResponse
  · rw [if_pos other, if_pos other]
    exact reads_fail _
  rw [if_neg other, if_neg other]
  refine reads_bind (reads_decoded _) fun resp => ?_
  by_cases failed : resp.success = false
  · rw [if_pos failed, if_pos failed]
    exact reads_pure _
  · rw [if_neg failed, if_neg failed]
    exact reads_bind (reads_recvBatches _ _) fun _ => reads_pure _

theorem local_readReply (pkg : QueryPackage) (outBatches : List EncryptedResultBatch) :
    Local (readReply pkg outBatches) := by
  refine local_bind frame.reads fun x => ?_
  by_cases error : x.1 = .Error
  · rw [if_pos error]
    exact local_pure _
  rw [if_neg error]
  by_cases other : x.1 ≠ .QueryResponse
  · rw [if_pos other]
    exact local_failed
  rw [if_neg other]
  refine local_bind (local_decoded _) fun resp => ?_
  by_cases failed : resp.success = false
  · rw [if_pos failed]
    exact local_pure _
  · rw [if_neg failed]
    exact local_bind (local_readBatches _ _) fun _ => local_pure _

/-- Batches that a frame can carry: their sizes fit the archive and their bytes the
length field. -/
def Sendable (batches : List EncryptedResultBatch) : Prop :=
  ∀ batch ∈ batches, Cereal.encryptedResultBatch.Fits batch ∧ batch.serialize.length < 2 ^ 32

theorem readBatches_batchFrames {batches : List EncryptedResultBatch} (sendable : Sendable batches)
    (outBatches : List EncryptedResultBatch) (rest : Bytes) :
    readBatches batches.length outBatches (batchFrames batches ++ rest) =
      some (outBatches ++ batches, rest) := by
  induction batches generalizing outBatches with
  | nil => rw [List.append_nil]; rfl
  | cons batch batches ih =>
    obtain ⟨fits, small⟩ := sendable batch List.mem_cons_self
    have head := frame.get_put (.ResultBatch, batch.serialize) (batchFrames batches ++ rest)
      (frame_fits small)
    have tail := ih (fun b mem => sendable b (List.mem_cons_of_mem batch mem))
      (outBatches ++ [batch])
    rw [List.append_assoc] at tail
    simp only [batchFrames, List.flatMap_cons, List.append_assoc] at head tail ⊢
    simp only [List.length_cons, readBatches, Reader.bind, head, Option.bind_some, ne_eq,
      not_true, if_false, EncryptedResultBatch.deserialize_serialize fits, readDecoded,
      Reader.pure]
    exact tail

/-- The client reads a whole reply as the handler's batches. -/
theorem readReply_reply {pkg : QueryPackage} {batches : List EncryptedResultBatch}
    (fits : Cereal.queryPackage.Fits pkg) (small : pkg.serialize.length < 2 ^ 32)
    (few : batches.length < 2 ^ 32) (sendable : Sendable batches)
    (outBatches : List EncryptedResultBatch) :
    readReply pkg outBatches (reply pkg batches) =
      some ((responseHeader pkg batches, outBatches ++ batches), []) := by
  have length := QueryPackage.queryId_length (QueryPackage.deserialize_serialize fits)
  have headerSmall : (responseHeader pkg batches).serialize.length < 2 ^ 32 := by
    rw [length_responseHeader]
    omega
  have head := frame.get_put (.QueryResponse, (responseHeader pkg batches).serialize)
    (batchFrames batches) (frame_fits headerSmall)
  have count : (responseHeader pkg batches).batchCount.toNat = batches.length :=
    UInt32.toNat_ofNat_of_lt' few
  have tail := readBatches_batchFrames sendable outBatches []
  rw [List.append_nil] at tail
  have success : (responseHeader pkg batches).success = true := rfl
  rw [readReply, reply]
  simp only [Reader.bind, head, Option.bind_some, reduceCtorEq, if_false, ne_eq, not_true,
    responseHeader_deserialize fits.2.1, readDecoded, Reader.pure, success, count, tail]

/-- The frame of a request. -/
def request (pkg : QueryPackage) : Bytes := frame.put (.QueryRequest, pkg.serialize)

section Runs

variable {handler : QueryHandler} {pkg : QueryPackage} {batches : List EncryptedResultBatch}
variable {breaks : Prop} {i o left : Bytes}

/-- Of a beginning of the request, `recvFrame` takes nothing or a beginning of the
package, the whole one only with the whole request. -/
theorem frame_of_request {x : MsgType × Bytes} {rest : Bytes} (part : i <+: request pkg)
    (found : frame.get i = some (x, rest)) : x.1 = .QueryRequest ∧ x.2 <+: pkg.serialize ∧
      (x.2 = pkg.serialize → pkg.serialize.length < 2 ^ 32 ∧ i = request pkg) := by
  obtain ⟨tail, whole⟩ := part
  obtain ⟨used, rfl, again⟩ := frame.reads i x rest found
  have announced := received_frame .QueryRequest pkg.serialize []
  rw [List.append_nil, ← request, ← whole, List.append_assoc, again] at announced
  obtain ⟨rfl, _⟩ := Prod.mk.inj (Option.some.inj announced)
  refine ⟨rfl, List.take_prefix _ _, fun all => ?_⟩
  have short : pkg.serialize.length ≤ pkg.serialize.length % 2 ^ 32 := by
    have length := congrArg List.length all
    rw [List.length_take] at length
    omega
  have small : pkg.serialize.length < 2 ^ 32 := by omega
  refine ⟨small, not_not.mp fun proper => ?_⟩
  have none := frame.get_cut (frame_fits small) ⟨tail, whole⟩ proper
  rw [found] at none
  cases none

theorem respond_runs {payload : Bytes} {r : Except WireExn Served}
    (fits : Cereal.queryPackage.Fits pkg) (returns : handler pkg = .ok batches)
    (part : payload <+: pkg.serialize)
    (run : Runs breaks (respond handler .QueryRequest payload) i o left r) :
    (o = [] ∧ ∃ e, r = .error e) ∨ (payload = pkg.serialize ∧ o <+: reply pkg batches ∧
      ∀ n, r = .ok (.complete n) → o = reply pkg batches) := by
  by_cases all : payload = pkg.serialize
  · subst all
    have sends : respond handler .QueryRequest pkg.serialize = do
        sendFrame .QueryResponse (responseHeader pkg batches).serialize
        sendBatches batches
        return .complete batches.length := by
      rw [respond, if_neg (not_not.mpr rfl), QueryPackage.deserialize_serialize fits]
      have parsed : ∀ next : QueryPackage → Program WireExn Served,
          (decoded (.ok pkg) >>= next) = next pkg := fun _ => rfl
      rw [parsed, returns]
    rw [sends] at run
    have emits := emits_batches pkg batches
    refine Or.inr ⟨rfl, emits.sent run, fun n ok => ?_⟩
    obtain ⟨_, ⟨_, whole⟩ | ⟨_, ⟨e, bad⟩, _⟩⟩ := emits breaks i o left r run
    · exact whole
    · cases ok.symm.trans bad
  · have fails : respond handler .QueryRequest payload = throw .cereal := by
      rw [respond, if_neg (not_not.mpr rfl), QueryPackage.deserialize_cut fits part all]
      rfl
    rw [fails] at run
    cases run
    exact Or.inl ⟨rfl, .cereal, rfl⟩

/-- A server that is sent a beginning of the request sends a beginning of the reply,
none of it unless the package fits a frame, and has to read all to complete. -/
theorem handleClient_runs {r : Except WireExn Served}
    (fits : Cereal.queryPackage.Fits pkg) (returns : handler pkg = .ok batches)
    (part : i <+: request pkg) (run : Runs breaks (handleClient handler) i o left r) :
    o <+: reply pkg batches ∧ (o = [] ∨ pkg.serialize.length < 2 ^ 32) ∧
      ∀ n, r = .ok (.complete n) → o = reply pkg batches ∧ i = request pkg := by
  have inner : ∀ {r' : Except WireExn Served} {o' middle : Bytes},
      Runs breaks (recvFrame >>= fun x => respond handler x.1 x.2) i o' middle r' →
      o' <+: reply pkg batches ∧ (o' = [] ∨ pkg.serialize.length < 2 ^ 32) ∧
        ∀ n, r' = .ok (.complete n) → o' = reply pkg batches ∧ i = request pkg := by
    intro r' o' middle run
    rcases runs_bind run with ⟨e, first, rfl⟩ | ⟨x, o₁, rest, o₂, first, second, rfl⟩
    · obtain ⟨rfl, _⟩ := reads_recvFrame _ _ _ _ _ first
      exact ⟨List.nil_prefix, Or.inl rfl, nofun⟩
    · obtain ⟨rfl, ⟨x', found, same⟩ | ⟨_, e, bad⟩⟩ := reads_recvFrame _ _ _ _ _ first
      · cases same
        obtain ⟨type, payload⟩ := x
        obtain ⟨rfl, beginning, all⟩ := frame_of_request part found
        rcases respond_runs fits returns beginning second with ⟨rfl, e, rfl⟩ | ⟨whole, sent, ends⟩
        · exact ⟨List.nil_prefix, Or.inl rfl, nofun⟩
        · obtain ⟨small, read⟩ := all whole
          exact ⟨sent, Or.inr small, fun n ok => ⟨ends n ok, read⟩⟩
      · cases bad
  rw [handleClient_eq] at run
  rcases runs_handle run with ⟨a, first, rfl⟩ | ⟨e, o₁, middle, o₂, first, second, rfl⟩
  · exact inner first
  · cases second
    obtain ⟨sent, small, _⟩ := inner first
    rw [List.append_nil]
    exact ⟨sent, small, nofun⟩

/-- A client sends a beginning of the request, and all of it unless it throws; what it
returns is what its reader finds. -/
theorem sendQuery_runs {outBatches : List EncryptedResultBatch}
    {r : Except WireExn (QueryResponse × List EncryptedResultBatch)}
    (run : Runs breaks (sendQuery pkg outBatches) i o left r) : o <+: request pkg ∧
      ((o ≠ request pkg ∧ ∃ e, r = .error e) ∨
        (∃ a, readReply pkg outBatches i = some (a, left) ∧ r = .ok a) ∨
        (readReply pkg outBatches i = none ∧ ∃ e, r = .error e)) := by
  have emits := emits_sendFrame .QueryRequest pkg.serialize
  rw [sendQuery_eq] at run
  rcases runs_bind run with ⟨e, first, rfl⟩ | ⟨_, o₁, middle, o₂, first, second, rfl⟩
  · obtain ⟨_, ⟨bad, _⟩ | ⟨_, _, part, proper⟩⟩ := emits _ _ _ _ _ first
    · cases bad
    · exact ⟨part, Or.inl ⟨proper, e, rfl⟩⟩
  · obtain ⟨rfl, ⟨_, rfl⟩ | ⟨_, ⟨e, bad⟩, _⟩⟩ := emits _ _ _ _ _ first
    · obtain ⟨rfl, found⟩ := reads_awaitReply pkg outBatches _ _ _ _ _ second
      rw [List.append_nil]
      exact ⟨List.prefix_rfl, Or.inr found⟩
    · cases bad

/-- A client that sends a query and a server that handles it, just connected. -/
def connected (handler : QueryHandler) (pkg : QueryPackage) :
    Connection WireExn (QueryResponse × List EncryptedResultBatch) WireExn Served where
  client := sendQuery pkg []
  server := handleClient handler

/-- Where both sides have ended, the client returns the batches or throws, and it
throws unless it has taken the whole reply. -/
theorem ended_delivery {now : Connection WireExn (QueryResponse × List EncryptedResultBatch)
    WireExn Served} {r : Except WireExn (QueryResponse × List EncryptedResultBatch)}
    {r' : Except WireExn Served} (fits : Cereal.queryPackage.Fits pkg)
    (returns : handler pkg = .ok batches) (few : batches.length < 2 ^ 32)
    (sendable : Sendable batches) (steps : Steps (connected handler pkg) now)
    (client : now.client.result? = some r) (server : now.server.result? = some r') :
    ((r = .ok (responseHeader pkg batches, batches) ∧ now.down.taken = reply pkg batches) ∨
      ∃ e, r = .error e) ∧
    (∀ n, r' = .ok (.complete n) → now.broken = false →
      r = .ok (responseHeader pkg batches, batches)) := by
  obtain ⟨i, o, i', o', run, run', up, down⟩ := runs_of_steps steps client server
  obtain ⟨asked, client⟩ := sendQuery_runs run
  obtain ⟨answered, small, completed⟩ :=
    handleClient_runs fits returns (up.sent.trans asked) run'
  have arrived : i = now.down.taken ++ now.down.flight := down.arrives.symm
  have given : i <+: o' := down.sent
  -- a whole reply is read to its last byte, a part of it not at all
  have reads : ∀ {a left}, readReply pkg [] i = some (a, left) → i = reply pkg batches ∧
      left = [] ∧ a = (responseHeader pkg batches, batches) := by
    intro a left found
    have sent : o' ≠ [] := by
      rintro rfl
      rw [List.prefix_nil.mp given] at found
      cases found
    have whole := readReply_reply fits (small.resolve_left sent) few sendable []
    have all : i = reply pkg batches := by
      refine not_not.mp fun proper => ?_
      rw [local_cut (local_readReply pkg []) whole (given.trans answered) proper] at found
      cases found
    rw [all, whole] at found
    cases found
    exact ⟨all, rfl, rfl⟩
  refine ⟨?_, fun n complete unbroken => ?_⟩
  · rcases client with ⟨_, thrown⟩ | ⟨a, found, rfl⟩ | ⟨_, thrown⟩
    · exact Or.inr thrown
    · obtain ⟨all, none, rfl⟩ := reads found
      rw [none, List.append_nil] at arrived
      exact Or.inl ⟨rfl, arrived.symm.trans all⟩
    · exact Or.inr thrown
  · obtain ⟨sent, read⟩ := completed n complete
    have asked' : o = request pkg := by
      have part : i' <+: o := up.sent
      rw [read] at part
      exact asked.eq_of_length (Nat.le_antisymm asked.length_le part.length_le)
    have arrived' : i = reply pkg batches := by
      rw [← sent]
      exact down.whole unbroken
    rcases client with ⟨cut, _⟩ | ⟨a, found, rfl⟩ | ⟨none, _⟩
    · exact (cut asked').elim
    · rw [(reads found).2.2]
    · have sent' : o' ≠ [] := by
        rw [sent, reply, frame, Codec.pair, Codec.view]
        simp [wordBE, Codec.view, Codec.wordBE, Codec.lowBytes]
      rw [arrived', readReply_reply fits (small.resolve_left sent') few sendable] at none
      cases none

end Runs

end FheSql.TransportDelivery
