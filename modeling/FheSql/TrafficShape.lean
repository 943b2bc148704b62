import FheSql.AccessPattern
import FheSql.Lib.Lookalike
import FheSql.QueryService

/-!
# What the traffic gives away

Client and server make calls whose sizes come from the lengths of a package and of the
batches. Where these lengths do not depend on what is encrypted, two exchanges cannot be
told apart on the wire, whichever way the calls interleave and wherever the connection
breaks.
-/

namespace FheSql.TrafficShape

open ByteText BinaryCodec ByteStream TransportDelivery QueryService Tracing

section Frames

variable {s s' : Feed} {rest rest' o o' : Bytes}

theorem length_wordBE (v : UInt32) : (wordBE.put v).length = 4 := by
  simp only [wordBE, Codec.view, Codec.wordBE, List.length_reverse, Codec.length_lowBytes]

theorem littleEndian_wordBE (v : UInt32) :
    UInt32.ofNat (Codec.littleEndian (wordBE.put v).reverse) = v := by
  simp only [wordBE, Codec.view, Codec.wordBE, List.reverse_reverse, Codec.littleEndian_lowBytes,
    Nat.mod_eq_of_lt (show v.toNat < 256 ^ 4 from v.toNat_lt), UInt32.ofNat_toNat]

theorem frame_put (type : MsgType) (payload : Bytes) : frame.put (type, payload) =
    wordBE.put type.code ++ (wordBE.put (UInt32.ofNat payload.length) ++ payload) := by
  simp only [frame, Codec.pair, Codec.view, Codec.sized]

theorem length_frame (type : MsgType) (payload : Bytes) :
    (frame.put (type, payload)).length = payload.length + 8 := by
  rw [frame_put, List.length_append, List.length_append, length_wordBE, length_wordBE]
  omega

theorem mirrors_readBytes {bytes bytes' : Bytes} {n : Nat} (length : bytes.length = n)
    (length' : bytes'.length = n) (same : rest.length = rest'.length) :
    Mirrors (Exactly bytes bytes' ⟨rest, o⟩ ⟨rest', o'⟩) (readBytes n) ⟨bytes ++ rest, o⟩
      (readBytes n) ⟨bytes' ++ rest', o'⟩ := by
  refine mirrors_readLoop ?_ fun _ => ?_
  · rw [List.length_append, List.length_append, length, length', same]
  · rw [List.take_left' length, List.take_left' length', List.drop_left' length,
      List.drop_left' length']
    exact exactly_self

theorem mirrors_readU32BE {v v' : UInt32} (same : rest.length = rest'.length) :
    Mirrors (Exactly v v' ⟨rest, o⟩ ⟨rest', o'⟩) readU32BE ⟨wordBE.put v ++ rest, o⟩
      readU32BE ⟨wordBE.put v' ++ rest', o'⟩ := by
  refine mirrors_seq (mirrors_readBytes (length_wordBE v) (length_wordBE v') same) ?_
  rw [littleEndian_wordBE, littleEndian_wordBE]
  exact mirrors_pure exactly_self

/-- Frames with payloads of one length are received by the same calls. -/
theorem mirrors_recvFrame {type type' : MsgType} {payload payload' : Bytes}
    (small : payload.length < 2 ^ 32) (length : payload.length = payload'.length)
    (same : rest.length = rest'.length) :
    Mirrors (Exactly (type, payload) (type', payload') ⟨rest, o⟩ ⟨rest', o'⟩)
      recvFrame ⟨frame.put (type, payload) ++ rest, o⟩
      recvFrame ⟨frame.put (type', payload') ++ rest', o'⟩ := by
  have announced : (UInt32.ofNat payload.length).toNat = payload.length :=
    UInt32.toNat_ofNat_of_lt' small
  have behind : (payload ++ rest).length = (payload' ++ rest').length := by
    rw [List.length_append, List.length_append, length, same]
  have types : Exactly (MsgType.ofCode type.code, payload) (MsgType.ofCode type'.code, payload')
      ⟨rest, o⟩ ⟨rest', o'⟩ = Exactly (type, payload) (type', payload') ⟨rest, o⟩ ⟨rest', o'⟩ := by
    rw [MsgType.ofCode_code, MsgType.ofCode_code]
  simp only [frame_put, List.append_assoc, ← types]
  refine mirrors_seq (mirrors_readU32BE ?_) (mirrors_seq (mirrors_readU32BE behind) ?_)
  · simp only [List.length_append, length_wordBE, length, same]
  rw [← length]
  by_cases some : 0 < UInt32.ofNat payload.length
  · rw [if_pos some, if_pos some, announced]
    exact mirrors_seq (mirrors_readBytes rfl length.symm same) (mirrors_pure exactly_self)
  · rw [if_neg some, if_neg some]
    have none : payload = [] := by
      refine List.length_eq_zero_iff.mp (Nat.eq_zero_of_not_pos fun long => some ?_)
      rw [UInt32.lt_iff_toNat_lt, announced]
      exact long
    have none' : payload' = [] := List.length_eq_zero_iff.mp (length ▸ by rw [none]; rfl)
    rw [none, none']
    exact mirrors_pure exactly_self

/-- They are sent by the same calls. -/
theorem mirrors_sendFrame {type : MsgType} {payload payload' i i' : Bytes}
    (length : payload.length = payload'.length) :
    Mirrors (Exactly () () ⟨i, o⟩ ⟨i', o'⟩)
      (sendFrame type payload) ⟨i, frame.put (type, payload) ++ o⟩
      (sendFrame type payload') ⟨i', frame.put (type, payload') ++ o'⟩ := by
  simp only [frame_put, List.append_assoc]
  refine mirrors_seq (mirrors_writeLoop rfl rfl rfl exactly_self)
    (mirrors_seq (mirrors_writeLoop ?_ rfl rfl exactly_self) ?_)
  · rw [length_wordBE, length_wordBE]
  by_cases some : payload = []
  · have some' : payload' = [] := List.length_eq_zero_iff.mp (length ▸ by rw [some]; rfl)
    rw [some, some']
    exact mirrors_pure exactly_self
  · have some' : payload' ≠ [] := by
      rintro rfl
      exact some (List.length_eq_zero_iff.mp length)
    rw [if_pos some, if_pos some']
    exact mirrors_writeLoop length rfl rfl exactly_self

theorem mirrors_decoded {α α' β β' : Type} {Q : β → β' → Feed → Feed → Prop} {a : α} {a' : α'}
    {f : α → Program WireExn β} {f' : α' → Program WireExn β'} {s s' : Feed}
    (next : Mirrors Q (f a) s (f' a') s') :
    Mirrors Q (decoded (.ok a) >>= f) s (decoded (.ok a') >>= f') s' := next

end Frames

/-- Batches that are written at one length. -/
def SameLength (batch batch' : EncryptedResultBatch) : Prop :=
  batch.serialize.length = batch'.serialize.length

/-- Queries of one length that are answered by the same text or by batches of the same
lengths. -/
structure SameTraffic (handler handler' : QueryHandler) (pkg pkg' : QueryPackage) : Prop where
  request : pkg.serialize.length = pkg'.serialize.length
  queryId : pkg.queryId.length = pkg'.queryId.length
  reply : Ends (List.Forall₂ SameLength) (handler pkg) (handler' pkg')

section Exchange

variable {handler handler' : QueryHandler} {pkg pkg' : QueryPackage}
  {batches batches' : List EncryptedResultBatch}

theorem length_batchFrames (same : List.Forall₂ SameLength batches batches') :
    (batchFrames batches).length = (batchFrames batches').length := by
  induction same with
  | nil => rfl
  | @cons batch batch' _ _ head _ ih =>
    have head : batch.serialize.length = batch'.serialize.length := head
    simp only [batchFrames, List.flatMap_cons, List.length_append, length_frame, head] at ih ⊢
    rw [ih]

theorem mirrors_sendBatches (same : List.Forall₂ SameLength batches batches') {i i' o o' : Bytes} :
    Mirrors (Exactly () () ⟨i, o⟩ ⟨i', o'⟩)
      (sendBatches batches) ⟨i, batchFrames batches ++ o⟩
      (sendBatches batches') ⟨i', batchFrames batches' ++ o'⟩ := by
  induction same with
  | nil => exact mirrors_pure exactly_self
  | cons head _ ih =>
    simp only [batchFrames, List.flatMap_cons, List.append_assoc] at ih ⊢
    exact mirrors_seq (mirrors_sendFrame head) ih

theorem mirrors_recvBatches (same : List.Forall₂ SameLength batches batches')
    (sendable : Sendable batches) (sendable' : Sendable batches')
    (outBatches outBatches' : List EncryptedResultBatch) {o o' : Bytes} :
    Mirrors (Exactly (outBatches ++ batches) (outBatches' ++ batches') ⟨[], o⟩ ⟨[], o'⟩)
      (recvBatches batches.length outBatches) ⟨batchFrames batches, o⟩
      (recvBatches batches'.length outBatches') ⟨batchFrames batches', o'⟩ := by
  induction same generalizing outBatches outBatches' with
  | nil =>
    rw [List.append_nil, List.append_nil]
    exact mirrors_pure exactly_self
  | @cons batch batch' rest rest' head tail ih =>
    obtain ⟨fits, small⟩ := sendable batch List.mem_cons_self
    obtain ⟨fits', _⟩ := sendable' batch' List.mem_cons_self
    refine mirrors_seq (mirrors_recvFrame small head (length_batchFrames tail)) ?_
    simp only [ne_eq, not_true_eq_false, if_false,
      EncryptedResultBatch.deserialize_serialize fits,
      EncryptedResultBatch.deserialize_serialize fits']
    refine mirrors_decoded ?_
    have next := ih (fun b mem => sendable b (List.mem_cons_of_mem _ mem))
      (fun b mem => sendable' b (List.mem_cons_of_mem _ mem)) (outBatches ++ [batch])
      (outBatches' ++ [batch'])
    rw [List.append_assoc, List.append_assoc] at next
    exact next

theorem SameTraffic.cases (same : SameTraffic handler handler' pkg pkg') :
    (∃ err, handler pkg = .error err ∧ handler' pkg' = .error err) ∨
      ∃ batches batches', handler pkg = .ok batches ∧ handler' pkg' = .ok batches' ∧
        List.Forall₂ SameLength batches batches' := by
  have replies := same.reply
  generalize handler pkg = x at replies
  generalize handler' pkg' = y at replies
  cases replies with
  | ok batches => exact Or.inr ⟨_, _, rfl, rfl, batches⟩
  | error err => exact Or.inl ⟨err, rfl, rfl⟩

variable (deliverable : Deliverable handler pkg) (deliverable' : Deliverable handler' pkg')
  (same : SameTraffic handler handler' pkg pkg')

include deliverable deliverable' same

/-- Behind their requests, the clients take the replies by the same calls. -/
theorem images_awaitReply : Images (awaitReply pkg []) ⟨replyTo handler pkg, []⟩
    (awaitReply pkg' []) ⟨replyTo handler' pkg', []⟩ := by
  unfold replyTo
  rcases same.cases with ⟨err, returned, returned'⟩ | ⟨batches, batches', returned, returned', all⟩
  · rw [returned, returned']
    dsimp only
    rw [← List.append_nil (frame.put (.Error, err))]
    refine mirrors_seq (mirrors_recvFrame (deliverable.failure err returned) rfl rfl) ?_
    rw [if_pos rfl, if_pos rfl]
    exact mirrors_pure trivial
  · rw [returned, returned']
    obtain ⟨few, sendable⟩ := deliverable.success batches returned
    obtain ⟨few', sendable'⟩ := deliverable'.success batches' returned'
    have id := QueryPackage.queryId_length (QueryPackage.deserialize_serialize deliverable.fits)
    have small : (responseHeader pkg batches).serialize.length < 2 ^ 32 := by
      have shorter := deliverable.small
      rw [length_responseHeader]
      omega
    refine mirrors_seq (mirrors_recvFrame small ?_ (length_batchFrames all)) ?_
    · rw [length_responseHeader, length_responseHeader, same.queryId]
    have count : (responseHeader pkg batches).batchCount.toNat = batches.length :=
      UInt32.toNat_ofNat_of_lt' few
    have count' : (responseHeader pkg' batches').batchCount.toNat = batches'.length :=
      UInt32.toNat_ofNat_of_lt' few'
    simp only [reduceCtorEq, if_false, ne_eq, not_true,
      responseHeader_deserialize deliverable.fits.2.1,
      responseHeader_deserialize deliverable'.fits.2.1]
    refine mirrors_decoded ?_
    have success : ∀ pkg batches, ¬ (responseHeader pkg batches).success = false := nofun
    rw [if_neg (success _ _), if_neg (success _ _), count, count']
    exact mirrors_seq (mirrors_recvBatches all sendable sendable' [] []) (mirrors_pure trivial)

theorem images_sendQuery : Images (sendQuery pkg []) ⟨replyTo handler pkg, request pkg⟩
    (sendQuery pkg' []) ⟨replyTo handler' pkg', request pkg'⟩ := by
  rw [sendQuery_eq, sendQuery_eq, request, request, ← List.append_nil (frame.put _),
    ← List.append_nil (frame.put (.QueryRequest, pkg'.serialize))]
  exact mirrors_seq (mirrors_sendFrame same.request)
    (images_awaitReply deliverable deliverable' same)

/-- The servers take the requests and give their replies by the same calls. -/
theorem images_handleClient :
    Images (handleClient handler) ⟨request pkg, replyTo handler pkg⟩
      (handleClient handler') ⟨request pkg', replyTo handler' pkg'⟩ := by
  rw [handleClient_eq, handleClient_eq, request, request, ← List.append_nil (frame.put _),
    ← List.append_nil (frame.put (.QueryRequest, pkg'.serialize))]
  refine mirrors_handle ?_ fun _ _ _ _ => mirrors_pure trivial
  refine mirrors_seq (mirrors_recvFrame deliverable.small same.request rfl) ?_
  rw [respond_request deliverable.fits, respond_request deliverable'.fits]
  unfold replyTo
  rcases same.cases with ⟨err, returned, returned'⟩ | ⟨batches, batches', returned, returned', all⟩
  · rw [returned, returned']
    dsimp only
    rw [← List.append_nil (frame.put (.Error, err))]
    exact mirrors_seq (mirrors_sendFrame rfl) (mirrors_pure trivial)
  · rw [returned, returned']
    have header : (responseHeader pkg batches).serialize.length =
        (responseHeader pkg' batches').serialize.length := by
      rw [length_responseHeader, length_responseHeader, same.queryId]
    dsimp only [reply]
    rw [← List.append_nil (batchFrames batches), ← List.append_nil (batchFrames batches')]
    exact mirrors_seq (mirrors_sendFrame header)
      (mirrors_seq (mirrors_sendBatches all) (mirrors_pure trivial))

/-- Two exchanges of one size show the same runs. -/
theorem seen_iff_of_sameTraffic {views : List View} :
    Seen (connected handler pkg) views ↔ Seen (connected handler' pkg') views :=
  seen_iff_of_images (images_sendQuery deliverable deliverable' same)
    (images_handleClient deliverable deliverable' same)

end Exchange

section Statements

open AccessPattern LiteralConfidentiality ClientPipeline ServerHandler Cereal

theorem length_redactBatch (rb : EncryptedResultBatch) :
    (redactBatch rb).serialize.length = rb.serialize.length := by
  have column : ∀ cr, (encryptedColumnResult.put (redactColumn cr)).length =
      (encryptedColumnResult.put cr).length := by
    intro cr
    simp only [encryptedColumnResult, redactColumn, blank, Codec.view, Codec.pair, string,
      Codec.sized, List.length_append, List.length_replicate]
  have columns : ((vector encryptedColumnResult).put (rb.columns.map redactColumn)).length =
      ((vector encryptedColumnResult).put rb.columns).length :=
    Codec.length_put_counted (List.forall₂_map_left_iff.mpr
      (List.forall₂_same.mpr fun cr _ => column cr))
  simp only [EncryptedResultBatch.serialize, encryptedResultBatch, Codec.view, Codec.pair,
    List.length_append, redactBatch, columns]
  simp only [string, Codec.sized, blank, List.length_append, List.length_replicate]

/-- Batches of one shape are written at one length. -/
theorem sameLength_of_sameBatch {rb rb' : EncryptedResultBatch} (same : SameBatch rb rb') :
    SameLength rb rb' := by
  have shape : redactBatch rb = redactBatch rb' := same
  rw [SameLength, ← length_redactBatch, shape, length_redactBatch]

variable {P : Proto1} {R : P.EncryptedVector → P.EncryptedVector → Prop}

/-- Literals of one length leave a package at its length. -/
theorem length_relabel {pkg : QueryPackage} {queryId queryId' : Str}
    {literals' : List EncryptedLiteralEntry}
    (literals : List.Forall₂ (LiteralRel P R) pkg.encryptedLiterals literals')
    (ids : queryId.length = queryId'.length) :
    (relabel pkg queryId pkg.encryptedLiterals).serialize.length =
      (relabel pkg queryId' literals').serialize.length := by
  have entry : ∀ lit lit', LiteralRel P R lit lit' →
      (encryptedLiteralEntry.put lit).length = (encryptedLiteralEntry.put lit').length := by
    intro lit lit' same
    simp only [encryptedLiteralEntry, Codec.view, Codec.pair, string, uint32, size, Codec.sized,
      Codec.wordLE, List.length_append, Codec.length_lowBytes, same.logicalType, same.length]
  have entries : ((vector encryptedLiteralEntry).put pkg.encryptedLiterals).length =
      ((vector encryptedLiteralEntry).put literals').length :=
    Codec.length_put_counted (literals.imp entry)
  have id : (string.put queryId).length = (string.put queryId').length := by
    simp only [string, size, Codec.sized, Codec.wordLE, List.length_append, Codec.length_lowBytes,
      ids]
  simp only [QueryPackage.serialize, queryPackage, Codec.view, Codec.pair, List.length_append,
    relabel, entries, id]

/-- Whoever watches the connection sees the same of two statements that differ in their
literals, over data that differ in what is encrypted, where proto1's operations keep to
themselves what they work on. -/
theorem traffic_hides_data (alike : ScalarsAlike P R) (blind : Blind P R)
    {stmt stmt' : SelectStatement} (h : DiffersInLiterals stmt stmt')
    {storage storage' : EncryptedStorage (Except Exn) P.EncryptedVector}
    (stored : StoredAlike R storage storage') {clientCat serverCat : Catalog}
    {fheMeta : FHEParamsMeta} {rng rng' : P.Rng} {serverParamSetId : Str} {fuel : Nat}
    {queryId queryId' : Str} (ids : queryId.length = queryId'.length) {pkg pkg' : QueryPackage}
    (ok : clientPackage clientCat fheMeta stmt rng = .ok pkg)
    (ok' : clientPackage clientCat fheMeta stmt' rng' = .ok pkg')
    (deliverable : Deliverable (queryHandler P storage serverCat serverParamSetId fuel)
      { pkg with queryId := queryId })
    (deliverable' : Deliverable (queryHandler P storage' serverCat serverParamSetId fuel)
      { pkg' with queryId := queryId' }) (views : List View) :
    Seen (connected (queryHandler P storage serverCat serverParamSetId fuel)
        { pkg with queryId := queryId }) views ↔
      Seen (connected (queryHandler P storage' serverCat serverParamSetId fuel)
        { pkg' with queryId := queryId' }) views := by
  obtain ⟨literals', rfl, literals⟩ := clientPackage_rel alike h ok ok'
  refine seen_iff_of_sameTraffic deliverable deliverable' ⟨length_relabel literals ids, ids, ?_⟩
  replace literals : List.Forall₂ (LiteralRel P R)
      { pkg with queryId := queryId : QueryPackage }.encryptedLiterals literals' := literals
  have replies := queryHandler_alike blind stored literals serverCat serverParamSetId fuel queryId'
  exact ends_mono (fun _ _ all => all.imp fun _ _ => sameLength_of_sameBatch) replies

/-- A package answered by one batch. -/
theorem deliverable_of_single {handler : QueryHandler} {pkg : QueryPackage}
    {batch : EncryptedResultBatch} (fits : queryPackage.Fits pkg)
    (small : pkg.serialize.length < 2 ^ 32) (returns : handler pkg = .ok [batch])
    (fits' : encryptedResultBatch.Fits batch) (small' : batch.serialize.length < 2 ^ 32) :
    Deliverable handler pkg where
  fits := fits
  small := small
  failure err same := by cases returns.symm.trans same
  success batches same := by
    cases returns.symm.trans same
    refine ⟨Nat.one_lt_two_pow (by decide), fun b mem => ?_⟩
    obtain rfl := List.mem_singleton.mp mem
    exact ⟨fits', small'⟩

def twoAged : Bool → SelectStatement
  | false => agedQuery 30 (str "Ann") .Ascending (-1)
  | true => agedQuery 65 (str "Bob") .Descending 3

def twoIds : Bool → Str
  | false => str "q1"
  | true => str "q2"

def twoValues : Bool → Nat
  | false => 40
  | true => 70

/-- Two servers with other data on their shelves. -/
abbrev twoShelves (i : Bool) : QueryHandler :=
  queryHandler (plainProto1 1) (shelf (twoValues i)) makeEmployeesCatalog [] 9

theorem aged_deliverable (i : Bool) {pkg : QueryPackage}
    (ok : clientPackage (P := plainProto1 1) makeEmployeesCatalog {} (twoAged i) () =
      .ok pkg) :
    Deliverable (twoShelves i) { pkg with queryId := twoIds i } := by
  cases i <;> cases ok <;>
    refine deliverable_of_single ?_ (by decide +kernel) rfl ?_ (by decide +kernel)
  all_goals
    simp only [queryPackage, encryptedLiteralEntry, columnSchema, predNode, fheParamsMeta,
      encryptedResultBatch, encryptedColumnResult, Codec.fits_view, Codec.fits_pair, fits_string,
      fits_vector, fits_uint32, fits_uint64, fits_int64, fits_size, fits_bool, fits_dataType,
      fits_predNodeKind, true_and, and_true]
    decide +kernel

theorem exists_aged_package (i : Bool) : ∃ pkg,
    clientPackage (P := plainProto1 1) makeEmployeesCatalog {} (twoAged i) () = .ok pkg := by
  cases i with
  | false => exact ⟨_, rfl⟩
  | true => exact ⟨_, rfl⟩

theorem aged_traffic_hides_data :
    ∃ pkg pkg',
      clientPackage (P := plainProto1 1) makeEmployeesCatalog {} (twoAged false) () =
        .ok pkg ∧
      clientPackage (P := plainProto1 1) makeEmployeesCatalog {} (twoAged true) () =
        .ok pkg' ∧
      ∀ views, Seen (connected (twoShelves false) { pkg with queryId := twoIds false }) views ↔
        Seen (connected (twoShelves true) { pkg' with queryId := twoIds true }) views := by
  obtain ⟨pkg, ok⟩ := exists_aged_package false
  obtain ⟨pkg', ok'⟩ := exists_aged_package true
  have differ : DiffersInLiterals (twoAged false) (twoAged true) :=
    agedQuery_differsInLiterals 30 65 (str "Ann") (str "Bob") .Ascending .Descending (-1) 3
  have ids : (twoIds false).length = (twoIds true).length := by decide
  exact ⟨pkg, pkg', ok, ok', traffic_hides_data (plain_scalarsAlike 1) (plain_blind 1) differ
    (shelf_alike _ _) ids ok ok' (aged_deliverable false ok) (aged_deliverable true ok')⟩

end Statements

end FheSql.TrafficShape
