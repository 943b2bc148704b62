import FheSql.TransportFrames

/-!
# The shape of a reply

A client that has sent a request waits for an error frame, or for a header and the
number of batches it announces. Only `respond`'s own answers have that shape: a
payload that is no package ends in the outer catch block of `handleClient`, which
writes to the log and sends nothing.
-/

namespace FheSql.ReplyShape

open ByteText BinaryCodec ByteStream

/-- A single error frame, or a response frame and as many batch frames as it says. -/
inductive WellFormedReply : Bytes → Prop where
  | error (text : Str) : text.length < 2 ^ 32 → WellFormedReply (frame.put (.Error, text))
  | response (header : Bytes) (resp : QueryResponse) (payloads : List Bytes) :
      header.length < 2 ^ 32 → QueryResponse.deserialize header = .ok resp →
      payloads.length = resp.batchCount.toNat →
      (∀ payload ∈ payloads, payload.length < 2 ^ 32 ∧
        ∃ batch, EncryptedResultBatch.deserialize payload = .ok batch) →
      WellFormedReply (frame.put (.QueryResponse, header) ++
        payloads.flatMap fun payload => frame.put (.ResultBatch, payload))

/-- A frame is no query, or holds a package for which the handler raises a text or
returns batches that the length and count fields can announce. -/
def Answered (handler : QueryHandler) (type : MsgType) (payload : Bytes) : Prop :=
  type ≠ .QueryRequest ∨ ∃ pkg, QueryPackage.deserialize payload = .ok pkg ∧
    match handler pkg with
    | .error err => err.length < 2 ^ 32
    | .ok batches => batches.length < 2 ^ 32 ∧ ∀ batch ∈ batches, batch.serialize.length < 2 ^ 32

/-- The bytes sent in answer to a frame. -/
def answer (handler : QueryHandler) (type : MsgType) (payload : Bytes) : Bytes :=
  if type ≠ .QueryRequest then frame.put (.Error, str "Expected QueryRequest")
  else match QueryPackage.deserialize payload with
    | .error _ => []
    | .ok pkg => match handler pkg with
      | .error err => frame.put (.Error, err)
      | .ok batches => reply pkg batches

theorem emits_error (text : Str) (served : Served) :
    Emits (do sendFrame .Error text; return served) (frame.put (.Error, text)) served := by
  have h := emits_bind (emits_sendFrame .Error text)
    (f := fun _ => (pure served : Program WireExn Served)) (emits_pure served)
  rwa [List.append_nil] at h

theorem respond_answers (handler : QueryHandler) (type : MsgType) (payload : Bytes)
    {i out left : Bytes} {r : Except WireExn Served}
    (run : Runs False (respond handler type payload) i out left r) :
    out = answer handler type payload := by
  unfold respond at run
  unfold answer
  by_cases other : type ≠ .QueryRequest
  · rw [if_pos other] at run ⊢
    exact (emits_error _ _).whole run
  rw [if_neg other] at run ⊢
  cases found : QueryPackage.deserialize payload with
  | error e =>
    rw [found] at run
    cases run
    rfl
  | ok pkg =>
    rw [found] at run
    change Runs False (match handler pkg with | .error err => _ | .ok batches => _) i out left r
      at run
    dsimp only
    cases returned : handler pkg with
    | error err =>
      rw [returned] at run
      exact (emits_error _ _).whole run
    | ok batches =>
      rw [returned] at run
      exact (emits_batches pkg batches).whole run

/-- While the socket stays open, a frame is answered as `respond` says, or by nothing. -/
theorem handleClient_answers {handler : QueryHandler} {type : MsgType}
    {payload more out left : Bytes} {r : Except WireExn Served}
    (small : payload.length < 2 ^ 32)
    (run : Runs False (handleClient handler) (frame.put (type, payload) ++ more) out left r) :
    out = answer handler type payload := by
  have received := frame.get_put (type, payload) more (frame_fits small)
  have inner : ∀ {r' : Except WireExn Served} {o middle : Bytes},
      Runs False (recvFrame >>= fun x => respond handler x.1 x.2)
        (frame.put (type, payload) ++ more) o middle r' → o = answer handler type payload := by
    intro r' o middle run
    rcases runs_bind run with ⟨e, first, rfl⟩ | ⟨x, o₁, rest, o₂, first, second, rfl⟩
    · obtain ⟨_, ⟨a, _, bad⟩ | ⟨none, _⟩⟩ := reads_recvFrame _ _ _ _ _ first
      · cases bad
      · rw [received] at none
        cases none
    · obtain ⟨rfl, ⟨x', found, same⟩ | ⟨_, e, bad⟩⟩ := reads_recvFrame _ _ _ _ _ first
      · cases same
        rw [received] at found
        cases found
        exact respond_answers handler type payload second
      · cases bad
  rw [handleClient_eq] at run
  rcases runs_handle run with ⟨a, first, rfl⟩ | ⟨e, o₁, middle, o₂, first, second, rfl⟩
  · exact inner first
  · cases second
    rw [List.append_nil]
    exact inner first

theorem wellFormedReply_nonempty {out : Bytes} (h : WellFormedReply out) :
    frame.get out ≠ none := by
  cases h with
  | error text small =>
    rw [frame.get_whole (frame_fits small)]
    exact Option.some_ne_none _
  | response header resp payloads small =>
    rw [frame.get_put _ _ (frame_fits small)]
    exact Option.some_ne_none _

theorem wellFormedReply_error_iff (text : Str) :
    WellFormedReply (frame.put (.Error, text)) ↔ text.length < 2 ^ 32 := by
  refine ⟨fun h => ?_, .error text⟩
  have sent := received_frame .Error text []
  rw [List.append_nil] at sent
  generalize hout : frame.put (.Error, text) = out at h sent
  cases h with
  | error text' small =>
    rw [frame.get_whole (frame_fits small)] at sent
    have rest := (Prod.mk.inj (Option.some.inj sent)).2
    rw [List.append_nil, eq_comm, List.drop_eq_nil_iff] at rest
    omega
  | response header resp payloads small =>
    rw [frame.get_put _ _ (frame_fits small)] at sent
    cases (Prod.mk.inj (Prod.mk.inj (Option.some.inj sent)).1).1

/-- Frames that read as batches hold exactly the batches sent, each in one frame. -/
theorem batchFrames_shape {batches : List EncryptedResultBatch}
    (fits : ∀ batch ∈ batches, Cereal.encryptedResultBatch.Fits batch) {payloads : List Bytes}
    (shape : ∀ payload ∈ payloads, payload.length < 2 ^ 32 ∧
      ∃ batch, EncryptedResultBatch.deserialize payload = .ok batch)
    (same : batchFrames batches =
      payloads.flatMap fun payload => frame.put (.ResultBatch, payload)) :
    payloads.length = batches.length ∧ ∀ batch ∈ batches, batch.serialize.length < 2 ^ 32 := by
  induction batches generalizing payloads with
  | nil =>
    cases payloads with
    | nil => exact ⟨rfl, nofun⟩
    | cons payload payloads =>
      have read := frame.get_put (.ResultBatch, payload)
        (payloads.flatMap fun payload => frame.put (.ResultBatch, payload))
        (frame_fits (shape payload List.mem_cons_self).1)
      rw [List.flatMap_cons] at same
      rw [← same] at read
      cases read
  | cons batch batches ih =>
    have sent := received_frame .ResultBatch batch.serialize (batchFrames batches)
    change frame.put (.ResultBatch, batch.serialize) ++ batchFrames batches = _ at same
    cases payloads with
    | nil =>
      rw [same] at sent
      cases sent
    | cons payload payloads =>
      obtain ⟨small, batch', decodes⟩ := shape payload List.mem_cons_self
      have read := frame.get_put (.ResultBatch, payload)
        (payloads.flatMap fun payload => frame.put (.ResultBatch, payload)) (frame_fits small)
      rw [List.flatMap_cons] at same
      rw [← same, sent] at read
      obtain ⟨taken, rest⟩ := Prod.mk.inj (Option.some.inj read)
      have part := (Prod.mk.inj taken).2
      -- a beginning of a batch that is cut short would not decode
      have whole : batch.serialize.take (batch.serialize.length % 2 ^ 32) = batch.serialize := by
        refine not_not.mp fun proper => ?_
        have cut := EncryptedResultBatch.deserialize_cut (fits batch List.mem_cons_self)
          (List.take_prefix _ _) proper
        rw [part, decodes] at cut
        cases cut
      have length : batch.serialize.length < 2 ^ 32 := by
        have h := congrArg List.length whole
        rw [List.length_take] at h
        omega
      rw [Nat.mod_eq_of_lt length, List.drop_length, List.nil_append] at rest
      obtain ⟨count, smalls⟩ := ih (fun b mem => fits b (List.mem_cons_of_mem batch mem))
        (fun p mem => shape p (List.mem_cons_of_mem payload mem)) rest
      refine ⟨congrArg (· + 1) count, fun b mem => ?_⟩
      rcases List.mem_cons.mp mem with rfl | mem
      · exact length
      · exact smalls b mem

theorem wellFormedReply_reply_iff {pkg : QueryPackage} {batches : List EncryptedResultBatch}
    (short : pkg.queryId.length + 24 < 2 ^ 32)
    (fits : ∀ batch ∈ batches, Cereal.encryptedResultBatch.Fits batch) :
    WellFormedReply (reply pkg batches) ↔
      batches.length < 2 ^ 32 ∧ ∀ batch ∈ batches, batch.serialize.length < 2 ^ 32 := by
  have headerSmall : (responseHeader pkg batches).serialize.length < 2 ^ 32 := by
    rw [length_responseHeader]
    omega
  have decodes := responseHeader_deserialize (show pkg.queryId.length < 2 ^ 64 by omega) batches
  have count : (responseHeader pkg batches).batchCount.toNat = batches.length % 2 ^ 32 :=
    UInt32.toNat_ofNat'
  constructor
  · intro h
    generalize hout : reply pkg batches = out at h
    have sent := frame.get_put (.QueryResponse, (responseHeader pkg batches).serialize)
      (batchFrames batches) (frame_fits headerSmall)
    rw [← reply, hout] at sent
    cases h with
    | error text small =>
      rw [frame.get_whole (frame_fits small)] at sent
      cases (Prod.mk.inj (Prod.mk.inj (Option.some.inj sent)).1).1
    | response header resp payloads small decoded number shape =>
      rw [frame.get_put _ _ (frame_fits small)] at sent
      obtain ⟨head, rest⟩ := Prod.mk.inj (Option.some.inj sent)
      obtain rfl := (Prod.mk.inj head).2
      cases decodes.symm.trans decoded
      obtain ⟨length, smalls⟩ := batchFrames_shape fits shape rest.symm
      rw [count, length] at number
      exact ⟨by omega, smalls⟩
  · rintro ⟨few, smalls⟩
    have frames : batchFrames batches = (batches.map EncryptedResultBatch.serialize).flatMap
        fun payload => frame.put (.ResultBatch, payload) := by
      rw [List.flatMap_map]
      rfl
    rw [reply, frames]
    refine .response _ (responseHeader pkg batches) _ headerSmall decodes ?_ ?_
    · rw [List.length_map, count, Nat.mod_eq_of_lt few]
    · intro payload mem
      obtain ⟨batch, sent, rfl⟩ := List.mem_map.mp mem
      exact ⟨smalls batch sent, batch, EncryptedResultBatch.deserialize_serialize (fits batch sent)⟩

/-- A frame gets a well-formed reply exactly if it is answered. The hypothesis on the
handler says that its results are values of the source's fixed-width types. -/
theorem wellFormedReply_iff_answered {handler : QueryHandler} {type : MsgType}
    {payload more out left : Bytes} {r : Except WireExn Served}
    (returns : ∀ pkg batches, handler pkg = .ok batches →
      ∀ batch ∈ batches, Cereal.encryptedResultBatch.Fits batch)
    (small : payload.length < 2 ^ 32)
    (run : Runs False (handleClient handler) (frame.put (type, payload) ++ more) out left r) :
    WellFormedReply out ↔ Answered handler type payload := by
  rw [handleClient_answers small run]
  unfold answer Answered
  by_cases other : type ≠ .QueryRequest
  · rw [if_pos other, wellFormedReply_error_iff]
    exact iff_of_true (by decide) (Or.inl other)
  rw [if_neg other]
  cases found : QueryPackage.deserialize payload with
  | error e =>
    refine iff_of_false (fun h => wellFormedReply_nonempty h rfl) ?_
    rintro (h | ⟨pkg, bad, _⟩)
    · exact other h
    · cases bad
  | ok pkg =>
    have length := QueryPackage.queryId_length found
    have answered : ∀ P : QueryPackage → Prop,
        (type ≠ .QueryRequest ∨ ∃ pkg', Except.ok pkg = (.ok pkg' : Except WireExn _) ∧ P pkg') ↔
          P pkg := by
      intro P
      refine ⟨?_, fun h => Or.inr ⟨pkg, rfl, h⟩⟩
      rintro (h | ⟨_, ⟨⟩, h⟩)
      · exact (other h).elim
      · exact h
    rw [answered]
    dsimp only
    cases returned : handler pkg with
    | error err => exact wellFormedReply_error_iff err
    | ok batches =>
      exact wellFormedReply_reply_iff (by omega) (returns pkg batches returned)

theorem answered_query : ∃ out left r,
    Runs False (handleClient fun _ => .ok [{}])
      (frame.put (.QueryRequest, ({ queryId := str "q1" } : QueryPackage).serialize) ++ [])
      out left r ∧ WellFormedReply out := by
  obtain ⟨out, left, r, run⟩ := exists_runs (handleClient fun _ => .ok [{}]) False
    (frame.put (.QueryRequest, ({ queryId := str "q1" } : QueryPackage).serialize) ++ [])
  have fits : Cereal.queryPackage.Fits { queryId := str "q1" } := by
    simp [Cereal.queryPackage, Cereal.fheParamsMeta, str]
  have returns : ∀ (pkg : QueryPackage) (batches : List EncryptedResultBatch),
      (Except.ok [{}] : Except Str _) = .ok batches →
      ∀ batch ∈ batches, Cereal.encryptedResultBatch.Fits batch := by
    rintro pkg batches ⟨⟩ batch mem
    rw [List.mem_singleton.mp mem]
    simp [Cereal.encryptedResultBatch]
  refine ⟨out, left, r, run,
    (wellFormedReply_iff_answered returns (by decide +kernel) run).mpr ?_⟩
  refine Or.inr ⟨_, QueryPackage.deserialize_serialize fits, by decide, fun batch mem => ?_⟩
  rw [List.mem_singleton.mp mem]
  decide

/-- A query frame without a payload gets no reply at all. -/
theorem empty_query_is_not_answered : ¬ ∀ (handler : QueryHandler) (type : MsgType)
    (payload more out left : Bytes) (r : Except WireExn Served), payload.length < 2 ^ 32 →
    Runs False (handleClient handler) (frame.put (type, payload) ++ more) out left r →
    WellFormedReply out := by
  intro claimed
  obtain ⟨out, left, r, run⟩ := exists_runs (handleClient fun _ => .ok []) False
    (frame.put (.QueryRequest, []) ++ [])
  have shape := claimed _ _ _ _ _ _ _ (by decide) run
  rw [handleClient_answers (by decide) run] at shape
  exact wellFormedReply_nonempty shape rfl

end FheSql.ReplyShape
