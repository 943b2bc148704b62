import FheSql.QueryService

/-!
# Whoever connects

The loop of `serve` against clients that run any program at all: the connections are
served one at a time, in the order in which they were made. `handleClient` has no time
limit, so a client that sends less than a frame and waits is waited for as long as its
connection stands, and so are all that come behind it.
-/

namespace FheSql.ServiceOrder

open ByteText BinaryCodec ByteStream Relation Service QueryService

variable {ι α : Type} [DecidableEq ι] {handler : QueryHandler} {client : ι → Program WireExn α}
  {backlog : Nat} {s s' : Service ι WireExn α WireExn Served}

/-- No exception leaves `handleClient`. -/
theorem handleClient_returns {i o left : Bytes} {breaks : Prop} {r : Except WireExn Served}
    (run : Runs breaks (handleClient handler) i o left r) : ∃ served, r = .ok served := by
  rw [handleClient_eq] at run
  rcases runs_handle run with ⟨a, _, rfl⟩ | ⟨e, o₁, middle, o₂, _, second, rfl⟩
  · exact ⟨a, rfl⟩
  · cases second
    exact ⟨.aborted e, rfl⟩

omit [DecidableEq ι] in
theorem closed_returned (sound : Sound client (handleClient handler) s) {i : ι}
    (closed : i ∈ s.closed) : ∃ served, (s.line i).server.result? = some (.ok served) := by
  have ended := sound.closed i closed
  obtain ⟨later, more, finished, same, _⟩ := exists_quiet_client_end (s.line i) ended
  obtain ⟨r, finished⟩ := Option.isSome_iff_exists.mp finished
  obtain ⟨r', ended⟩ := Option.isSome_iff_exists.mp ended
  obtain ⟨_, _, _, _, _, run, _⟩ :=
    runs_of_steps ((sound.lines i).trans more) finished (same ▸ ended)
  obtain ⟨served, rfl⟩ := handleClient_returns run
  exact ⟨served, ended⟩

/-- Connections are made once each and served in that order: before the server takes a
byte of one or sends one to it, `handleClient` has returned for all before it and their
sockets are closed. -/
theorem served_in_order (history : History backlog (opened client (handleClient handler)) s) :
    s.order.Nodup ∧ ∀ i j, s.order.idxOf i < s.order.idxOf j →
      (s.line j).up.taken ≠ [] ∨ (s.line j).down.arrived ≠ [] →
      i ∈ s.closed ∧ ∃ served, (s.line i).server.result? = some (.ok served) := by
  refine ⟨nodup_of_history history, fun i j before touched => ?_⟩
  have closed : i ∈ s.closed := by
    refine closed_of_touched history before fun untouched => ?_
    rcases touched with took | sent
    · exact took untouched.taken
    · exact sent untouched.silent
  exact ⟨closed, closed_returned (sound_of_history history) closed⟩

theorem two_served_in_order : ∃ s, History 8 (serve twoAnswers twoQueries) s ∧
    (∀ i, i ∈ s.closed) ∧ s.order.Nodup ∧ ∀ i j, s.order.idxOf i < s.order.idxOf j →
      (s.line j).up.taken ≠ [] ∨ (s.line j).down.arrived ≠ [] →
      i ∈ s.closed ∧ ∃ served, (s.line i).server.result? = some (.ok served) := by
  obtain ⟨s, acts, settled⟩ := exists_settled 8 (sound_opened (fun i => sendQuery (twoQueries i) [])
    (handleClient twoAnswers))
  obtain ⟨history, _, same, unbroken⟩ :=
    unbroken_of_run two_deliverable (s := serve twoAnswers twoQueries) .refl (fun _ => rfl) acts
  obtain ⟨_, _, _, served⟩ :=
    served_of_settled two_deliverable (by decide) history unbroken settled
  refine ⟨s, history, fun i => ?_, served_in_order history⟩
  rcases served i with missing | ⟨closed, _⟩
  · rw [same] at missing
    cases missing
  · exact closed

/-- Behind a frame, the server never waits. -/
theorem respond_not_waiting {type : MsgType} {payload i o : Bytes} {q : Program WireExn Served}
    (h : Reaches (respond handler type payload) i o q) : ¬ Waits q := by
  unfold respond at h
  by_cases other : type ≠ .QueryRequest
  · rw [if_pos other] at h
    exact (ReplyShape.emits_error _ _).not_waiting h
  rw [if_neg other] at h
  cases found : QueryPackage.deserialize payload with
  | error e =>
    rw [found] at h
    cases h
    intro waits
    cases waits
  | ok pkg =>
    rw [found] at h
    have behind : ∀ rest : QueryPackage → Program WireExn Served,
        (decoded (.ok pkg) >>= rest) = rest pkg := fun _ => rfl
    rw [behind] at h
    cases returned : handler pkg with
    | error err =>
      rw [returned] at h
      exact (ReplyShape.emits_error _ _).not_waiting h
    | ok batches =>
      rw [returned] at h
      exact (emits_batches pkg batches).not_waiting h

/-- A server that waits has taken less than a frame. -/
theorem no_frame_of_waits {i o : Bytes} {q : Program WireExn Served}
    (h : Reaches (handleClient handler) i o q) (waits : Waits q) : frame.get i = none := by
  by_contra some
  obtain ⟨⟨x, rest⟩, found⟩ := Option.ne_none_iff_exists'.mp some
  rw [handleClient_eq] at h
  rcases reaches_handle h with ⟨y, inner, going, rfl⟩ | ⟨e, i₁, o₁, i₂, o₂, _, second, _, _⟩
  · have waits := waits_of_handle waits going
    rcases reaches_bind inner with ⟨z, first, unfinished, rfl⟩ | ⟨a, i₁, o₁, i₂, o₂, _, sends, _, _⟩
    · exact reads_recvFrame.not_waiting frame.reads first found (waits_of_bind waits unfinished)
    · exact respond_not_waiting sends waits
  · cases second
    cases waits

/-- Against any clients: when no process can do anything more, everything is over, or the
server waits for the client it serves, which has sent less than a frame and waits too.
From then on, as long as that connection stands, the server closes nothing, and no
client whose connection is open is sent a byte. -/
theorem silent_client_blocks (positive : 0 < backlog)
    (history : History backlog (opened client (handleClient handler)) s)
    (settled : Settled backlog s) :
    Finished s ∨ ∃ i, s.current = some i ∧ frame.get (s.line i).up.arrived = none ∧
      ∀ s', History backlog s s' → (s'.line i).broken = false →
        s'.current = some i ∧ s'.closed = s.closed ∧
          ∀ j, j ≠ i → j ∉ s.closed → (s'.line j).down.arrived = [] := by
  have sound := sound_of_history history
  refine (settled_cases positive sound settled).imp_right fun ⟨i, current, _, stalled⟩ => ?_
  refine ⟨i, current, ?_, fun s' later stands => ?_⟩
  · obtain ⟨waits, waits', up, _, stands⟩ := stalled
    rw [Wire.arrived, up, List.append_nil]
    rcases unfailed_of_steps (sound.lines i) stands with ⟨_, unfailed⟩ | ⟨_, ended⟩ | ⟨_, ended⟩
    · exact no_frame_of_waits unfailed waits'
    · exact (not_ended_of_waits waits' ended).elim
    · exact (not_ended_of_waits waits ended).elim
  · obtain ⟨current', closed, others⟩ := stalled_blocks sound current stalled later stands
    exact ⟨current', closed, fun j other away => (others j other away).silent⟩

/-- The first client waits without a word, the second one sends a query. -/
def muteAndQuery :
    Bool → Program WireExn (QueryResponse × List EncryptedResultBatch)
  | false => .recv 1 Nat.zero_lt_one fun _ => .fail connectionClosed
  | true => sendQuery (twoQueries true) []

/-- Both have connected, and the server has accepted the first. -/
def mutedService :
    Service Bool WireExn (QueryResponse × List EncryptedResultBatch) WireExn Served :=
  { opened muteAndQuery (handleClient twoAnswers) with current := some false, queue := [true] }

theorem muted_history : History 8 (opened muteAndQuery (handleClient twoAnswers)) mutedService := by
  refine .head (b := { opened muteAndQuery (handleClient twoAnswers) with queue := [false] })
    (Or.inl (.connect (i := false) rfl (by decide) (by decide) (by decide))) ?_
  refine .head
    (b := { opened muteAndQuery (handleClient twoAnswers) with queue := [false, true] })
    (Or.inl (.connect (i := true) rfl (by decide) (by decide) (by decide))) ?_
  exact .single (Or.inl (.accept rfl rfl rfl))

theorem handleClient_waits (handler : QueryHandler) : Waits (handleClient handler) := by
  rw [handleClient_eq]
  simp only [recvFrame, readU32BE]
  rw [Program.readLoop]
  exact .recv

theorem mute_client_blocks : ∃ s, History 8 (opened muteAndQuery (handleClient twoAnswers)) s ∧
    ∃ i, s.current = some i ∧ frame.get (s.line i).up.arrived = none ∧
      ∀ s', History 8 s s' → (s'.line i).broken = false →
        s'.current = some i ∧ s'.closed = s.closed ∧
          ∀ j, j ≠ i → j ∉ s.closed → (s'.line j).down.arrived = [] := by
  have sound := sound_of_history muted_history
  obtain ⟨s, acts, settled⟩ := exists_settled 8 sound
  have stays : History 8 mutedService s ∧ s.current = some false ∧ s.running = true ∧
      s.line false = mutedService.line false := by
    clear settled
    induction acts with
    | refl => exact ⟨.refl, rfl, rfl, rfl⟩
    | tail _ act ih =>
      obtain ⟨history, current, runs, same⟩ := ih
      have stalled : Stalled (mutedService.line false) :=
        ⟨.recv, handleClient_waits twoAnswers, rfl, rfl, rfl⟩
      obtain ⟨current', same', _, runs'⟩ :=
        stalled_of_acts (sound_later sound history) current (same ▸ stalled) act
      exact ⟨history.tail (Or.inl act), current', runs'.trans runs, same'.trans same⟩
  obtain ⟨history, current, runs, _⟩ := stays
  refine ⟨s, muted_history.trans history, ?_⟩
  rcases silent_client_blocks (by decide) (muted_history.trans history) settled with
    finished | blocks
  · have idle := finished.idle runs
    rw [standing, current] at idle
    cases idle
  · exact blocks

end FheSql.ServiceOrder
