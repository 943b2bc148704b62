import FheSql.Lib.Service
import FheSql.ReplyShape
import FheSql.TransportDelivery

/-!
# The server and its clients

`TcpServerTransport::serve` accepts one connection after the other; for each it runs
`handleClient` and closes the socket. However many clients send queries, and however
their calls and the server's interleave, each client that returns has the answer to
its own query, and as long as no connection breaks the server goes on until it has
served them all.
-/

namespace FheSql.QueryService

open ByteText BinaryCodec ByteStream Relation TransportDelivery

/-- What a client returns for its query. -/
def answerOf (handler : QueryHandler) (pkg : QueryPackage) :
    QueryResponse × List EncryptedResultBatch :=
  match handler pkg with
  | .error err => ({ errorMessage := err, queryId := pkg.queryId }, [])
  | .ok batches => (responseHeader pkg batches, batches)

/-- What the server sends for it. -/
def replyTo (handler : QueryHandler) (pkg : QueryPackage) : Bytes :=
  match handler pkg with
  | .error err => frame.put (.Error, err)
  | .ok batches => reply pkg batches

/-- A package and an answer that the length fields of the frames can announce. -/
structure Deliverable (handler : QueryHandler) (pkg : QueryPackage) : Prop where
  fits : Cereal.queryPackage.Fits pkg
  small : pkg.serialize.length < 2 ^ 32
  failure : ∀ err, handler pkg = .error err → err.length < 2 ^ 32
  success : ∀ batches, handler pkg = .ok batches → batches.length < 2 ^ 32 ∧ Sendable batches

section Line

variable {handler : QueryHandler} {pkg : QueryPackage} {breaks : Prop} {i o left : Bytes}

theorem readReply_replyTo (deliverable : Deliverable handler pkg) :
    readReply pkg [] (replyTo handler pkg) = some (answerOf handler pkg, []) := by
  unfold replyTo answerOf
  cases returned : handler pkg with
  | error err =>
    have head := frame.get_whole (a := (.Error, err))
      (frame_fits (deliverable.failure err returned))
    simp only [readReply, Reader.bind, head, Option.bind_some, if_true, Reader.pure]
  | ok batches =>
    obtain ⟨few, sendable⟩ := deliverable.success batches returned
    have whole := readReply_reply deliverable.fits deliverable.small few sendable []
    rwa [List.nil_append] at whole

/-- Of the whole request, the server reads the package and runs the handler on it. -/
theorem respond_request (fits : Cereal.queryPackage.Fits pkg) (handler : QueryHandler) :
    respond handler .QueryRequest pkg.serialize =
      match handler pkg with
      | .error err => do
        sendFrame .Error err
        return .failed
      | .ok batches => do
        sendFrame .QueryResponse (responseHeader pkg batches).serialize
        sendBatches batches
        return .complete batches.length := by
  rw [respond, if_neg (not_not.mpr rfl), QueryPackage.deserialize_serialize fits]
  rfl

/-- Behind the whole request, the server sends its reply and reads nothing. -/
theorem emits_respond (fits : Cereal.queryPackage.Fits pkg) (handler : QueryHandler) :
    ∃ served, Emits (respond handler .QueryRequest pkg.serialize) (replyTo handler pkg) served := by
  rw [respond_request fits, replyTo]
  cases handler pkg with
  | error err => exact ⟨_, ReplyShape.emits_error err .failed⟩
  | ok batches => exact ⟨_, emits_batches pkg batches⟩

theorem request_read (small : pkg.serialize.length < 2 ^ 32) :
    frame.get (request pkg) = some ((.QueryRequest, pkg.serialize), []) :=
  frame.get_whole (frame_fits small)

/-- On a beginning of the request the server sends a beginning of its reply. -/
theorem handleClient_sends {r : Except WireExn Served} (deliverable : Deliverable handler pkg)
    (part : i <+: request pkg) (run : Runs breaks (handleClient handler) i o left r) :
    o <+: replyTo handler pkg := by
  have inner : ∀ {r' : Except WireExn Served} {o' middle : Bytes},
      Runs breaks (recvFrame >>= fun x => respond handler x.1 x.2) i o' middle r' →
      o' <+: replyTo handler pkg := by
    intro r' o' middle run
    rcases runs_bind run with ⟨e, first, rfl⟩ | ⟨x, o₁, rest, o₂, first, second, rfl⟩
    · obtain ⟨rfl, _⟩ := reads_recvFrame _ _ _ _ _ first
      exact List.nil_prefix
    · obtain ⟨rfl, ⟨x', found, same⟩ | ⟨_, e, bad⟩⟩ := reads_recvFrame _ _ _ _ _ first
      · cases same
        have all : i = request pkg := by
          by_contra proper
          have none := frame.get_cut (frame_fits deliverable.small) part proper
          rw [found] at none
          cases none
        rw [all, request_read deliverable.small] at found
        obtain ⟨rfl, rfl⟩ := Prod.mk.inj (Option.some.inj found)
        obtain ⟨served, emits⟩ := emits_respond deliverable.fits handler
        exact emits.sent second
      · cases bad
  rw [handleClient_eq] at run
  rcases runs_handle run with ⟨a, first, rfl⟩ | ⟨e, o₁, middle, o₂, first, second, rfl⟩
  · exact inner first
  · cases second
    rw [List.append_nil]
    exact inner first

section Calls

variable {q : Program WireExn (QueryResponse × List EncryptedResultBatch)}
  {q' : Program WireExn Served}

/-- A client that has not sent all is sending; then it reads the reply. -/
theorem client_reaches (h : Reaches (sendQuery pkg []) i o q) :
    (∃ x, Reaches (sendFrame .QueryRequest pkg.serialize) i o x ∧ (∀ a, x ≠ .done a) ∧
        q = x >>= fun _ => awaitReply pkg []) ∨
      o = request pkg ∧ Reaches (awaitReply pkg []) i [] q := by
  have emits := emits_sendFrame .QueryRequest pkg.serialize
  rw [sendQuery_eq] at h
  rcases reaches_bind h with first | ⟨a, i₁, o₁, i₂, o₂, first, second, rfl, rfl⟩
  · exact Or.inl first
  · obtain ⟨rfl, rfl, _⟩ := emits.reaches_end first rfl
    obtain rfl := (reads_awaitReply pkg []).silent second
    rw [List.append_nil]
    exact Or.inr ⟨rfl, second⟩

theorem client_waits (h : Reaches (sendQuery pkg []) i o q) (waits : Waits q) :
    o = request pkg := by
  rcases client_reaches h with ⟨x, first, going, rfl⟩ | ⟨sent, _⟩
  · exact ((emits_sendFrame _ _).not_waiting first (waits_of_bind waits going)).elim
  · exact sent

/-- A client that has met no failure has read its whole reply when it ends. -/
theorem client_ends {r : Except WireExn (QueryResponse × List EncryptedResultBatch)}
    (deliverable : Deliverable handler pkg) (h : Reaches (sendQuery pkg []) i o q)
    (ended : q.result? = some r) (part : i <+: replyTo handler pkg) :
    i = replyTo handler pkg ∧ r = .ok (answerOf handler pkg) := by
  rcases client_reaches h with ⟨x, first, going, rfl⟩ | ⟨rfl, second⟩
  · obtain ⟨e, rfl, _⟩ := ended_of_bind ended going
    cases ((emits_sendFrame _ _).reaches_end first rfl).2.2
  · obtain ⟨rest, all⟩ := part
    have whole := readReply_replyTo deliverable
    rw [← all] at whole
    obtain ⟨rfl, ok⟩ := (reads_awaitReply pkg []).reaches_end second ended whole
    rw [List.append_nil] at all
    exact ⟨all, ok⟩

/-- A server that has met no failure has read the whole request and sent its whole reply
when it ends, and has done both when it waits for more. -/
theorem server_reaches (deliverable : Deliverable handler pkg)
    (h : Reaches (handleClient handler) i o q') (part : i <+: request pkg) :
    (q'.result?.isSome = true → i = request pkg ∧ o = replyTo handler pkg) ∧
      (Waits q' → i ≠ request pkg) := by
  obtain ⟨served, emits⟩ := emits_respond deliverable.fits handler
  have read := request_read deliverable.small
  -- the frame is read to its end, and its end is the end of the request
  have received : ∀ {i₁ i₂ : Bytes} {x : Program WireExn (MsgType × Bytes)}
      {r : Except WireExn (MsgType × Bytes)} {o₁ : Bytes}, i₁ ++ i₂ <+: request pkg →
      Reaches recvFrame i₁ o₁ x → x.result? = some r →
      i₁ = request pkg ∧ i₂ = [] ∧ o₁ = [] ∧ r = .ok (.QueryRequest, pkg.serialize) := by
    rintro i₁ i₂ x r o₁ ⟨rest, all⟩ first ended
    rw [List.append_assoc] at all
    obtain ⟨none, ok⟩ := reads_recvFrame.reaches_end first ended (all.symm ▸ read)
    obtain ⟨rfl, rfl⟩ := List.append_eq_nil_iff.mp none
    rw [List.append_nil, List.append_nil] at all
    exact ⟨all, rfl, reads_recvFrame.silent first, ok⟩
  have behind : ∀ {x : Program WireExn Served},
      Reaches (recvFrame >>= fun x => respond handler x.1 x.2) i o x →
      (∃ y, Reaches recvFrame i o y ∧ (∀ a, y ≠ .done a) ∧
          x = y >>= fun x => respond handler x.1 x.2) ∨
        i = request pkg ∧ Reaches (respond handler .QueryRequest pkg.serialize) [] o x := by
    intro x inner
    rcases reaches_bind inner with first | ⟨a, i₁, o₁, i₂, o₂, first, second, rfl, rfl⟩
    · exact Or.inl first
    · obtain ⟨rfl, rfl, rfl, ok⟩ := received part first rfl
      cases ok
      rw [List.append_nil]
      exact Or.inr ⟨rfl, second⟩
  rw [handleClient_eq] at h
  rcases reaches_handle h with ⟨x, inner, going, rfl⟩ | ⟨e, i₁, o₁, i₂, o₂, inner, second, rfl, rfl⟩
  · refine ⟨fun ended => ?_, fun waits all => ?_⟩
    · obtain ⟨r, ended⟩ := Option.isSome_iff_exists.mp ended
      obtain ⟨a, rfl, rfl⟩ := ended_of_handle ended going
      rcases behind inner with ⟨y, first, unfinished, same⟩ | ⟨all, sends⟩
      · obtain ⟨e, _, bad⟩ := ended_of_bind (congrArg Program.result? same.symm) unfinished
        cases bad
      · exact ⟨all, (emits.reaches_end sends rfl).2.1⟩
    · have waits := waits_of_handle waits going
      rcases behind inner with ⟨y, first, unfinished, rfl⟩ | ⟨_, sends⟩
      · rw [all] at first
        exact reads_recvFrame.not_waiting frame.reads first read (waits_of_bind waits unfinished)
      · exact emits.not_waiting sends waits
  · exfalso
    rcases reaches_bind inner with ⟨y, first, unfinished, same⟩ |
      ⟨a, j, p, j', p', first, second', rfl, rfl⟩
    · obtain ⟨e, rfl, _⟩ := ended_of_bind (congrArg Program.result? same.symm) unfinished
      obtain ⟨_, _, _, bad⟩ := received part first rfl
      cases bad
    · rw [List.append_assoc] at part
      obtain ⟨rfl, _, _, ok⟩ := received part first rfl
      cases ok
      cases (emits.reaches_end second' rfl).2.2

end Calls

section Connection

variable {now : Connection WireExn (QueryResponse × List EncryptedResultBatch) WireExn Served}
  {r : Except WireExn (QueryResponse × List EncryptedResultBatch)}

/-- A client that has ended was sent a beginning of its reply, and has returned its
answer or thrown. -/
theorem client_ended (deliverable : Deliverable handler pkg)
    (steps : Steps (connected handler pkg) now) (ended : now.client.result? = some r) :
    now.down.arrived <+: replyTo handler pkg ∧
      (r = .ok (answerOf handler pkg) ∨ ∃ e, r = .error e) := by
  obtain ⟨later, more, finished, same, _, down⟩ := exists_server_end now (by rw [ended]; rfl)
  obtain ⟨r', finished⟩ := Option.isSome_iff_exists.mp finished
  obtain ⟨i, o, i', o', run, run', up, back⟩ :=
    runs_of_steps (steps.trans more) (same ▸ ended) finished
  obtain ⟨asked, client⟩ := sendQuery_runs run
  have answered := handleClient_sends deliverable (up.sent.trans asked) run'
  have given : i <+: replyTo handler pkg := back.sent.trans answered
  have arrives : later.down.arrived = i := back.arrives
  rw [down] at arrives
  refine ⟨arrives ▸ given, ?_⟩
  rcases client with ⟨_, thrown⟩ | ⟨a, found, rfl⟩ | ⟨_, thrown⟩
  · exact Or.inr thrown
  · have whole := readReply_replyTo deliverable
    have all : i = replyTo handler pkg := by
      by_contra proper
      rw [local_cut (local_readReply pkg []) whole given proper] at found
      cases found
    rw [all, whole] at found
    exact Or.inl (congrArg Except.ok (Prod.mk.inj (Option.some.inj found)).1.symm)
  · exact Or.inr thrown

/-- On a connection that has not broken, a client that ends has returned its answer, all
of the reply having come to it. -/
theorem client_answered (deliverable : Deliverable handler pkg)
    (steps : Steps (connected handler pkg) now) (unbroken : now.broken = false)
    (ended : now.client.result? = some r) :
    now.down.arrived = replyTo handler pkg ∧ r = .ok (answerOf handler pkg) := by
  obtain ⟨given, _⟩ := client_ended deliverable steps ended
  have own : now.ClientUnfailed (sendQuery pkg []) →
      now.down.arrived = replyTo handler pkg ∧ r = .ok (answerOf handler pkg) := by
    intro unfailed
    have taken : now.down.taken <+: now.down.arrived := List.prefix_append _ _
    obtain ⟨all, ok⟩ := client_ends deliverable unfailed ended (taken.trans given)
    rw [all] at taken
    exact ⟨given.eq_of_length (Nat.le_antisymm given.length_le taken.length_le), ok⟩
  rcases unfailed_of_steps steps unbroken with ⟨unfailed, _⟩ | ⟨unfailed, finished⟩ | ⟨unfailed, _⟩
  · exact own unfailed
  · obtain ⟨r', finished⟩ := Option.isSome_iff_exists.mp finished
    obtain ⟨i, o, i', o', run, run', up, back⟩ := runs_of_steps steps ended finished
    obtain ⟨asked, client⟩ := sendQuery_runs run
    have put : now.up.arrived = i' := up.arrives
    have part : now.up.taken <+: i' := put ▸ List.prefix_append _ _
    have sent : i' <+: o := up.sent
    obtain ⟨took, replied⟩ := (server_reaches deliverable unfailed
      ((part.trans sent).trans asked)).1 (by rw [finished]; rfl)
    have arrives : now.down.arrived = i := back.arrives
    rw [replied] at arrives
    refine ⟨replied, ?_⟩
    have asked' : o = request pkg := by
      have long := (part.trans sent).length_le
      rw [took] at long
      exact asked.eq_of_length (Nat.le_antisymm asked.length_le long)
    rw [← arrives, readReply_replyTo deliverable] at client
    rcases client with ⟨less, _⟩ | ⟨a, found, rfl⟩ | ⟨none, _⟩
    · exact (less asked').elim
    · exact congrArg Except.ok (Prod.mk.inj (Option.some.inj found)).1.symm
    · cases none
  · exact own unfailed

/-- The server does not write to a client that has left, unless the connection breaks. -/
theorem server_not_writing (deliverable : Deliverable handler pkg)
    (steps : Steps (connected handler pkg) now) (unbroken : now.broken = false)
    (ended : now.client.result?.isSome = true) : ¬ Writes now.server := by
  intro writes
  obtain ⟨r, ended⟩ := Option.isSome_iff_exists.mp ended
  obtain ⟨all, _⟩ := client_answered deliverable steps unbroken ended
  obtain ⟨c, s, up, ⟨t, f⟩, broken⟩ := now
  cases writes with
  | @send bytes holds next =>
    have one : 0 < bytes.length := List.length_pos_of_ne_nil holds
    have step := steps.tail (.server (.send unbroken Nat.zero_lt_one one))
    obtain ⟨all', _⟩ := client_answered deliverable step unbroken ended
    have longer := congrArg List.length (all'.trans all.symm)
    simp only [Wire.arrived, List.length_append, List.length_take] at longer
    omega

/-- Nor does the client to a server that has closed the connection. -/
theorem client_not_writing (deliverable : Deliverable handler pkg)
    (steps : Steps (connected handler pkg) now) (unbroken : now.broken = false)
    (ended : now.server.result?.isSome = true) : ¬ Writes now.client := by
  intro writes
  have asked : ∀ {now : Connection WireExn (QueryResponse × List EncryptedResultBatch) WireExn
      Served}, Steps (connected handler pkg) now → now.server.result?.isSome = true →
      now.up.arrived <+: request pkg := by
    intro now steps ended
    obtain ⟨later, more, finished, same, up⟩ := exists_quiet_client_end now ended
    obtain ⟨r, finished⟩ := Option.isSome_iff_exists.mp finished
    obtain ⟨r', ended⟩ := Option.isSome_iff_exists.mp ended
    obtain ⟨i, o, i', o', run, _, sent, _⟩ :=
      runs_of_steps (steps.trans more) finished (same ▸ ended)
    have arrives : later.up.arrived = i' := sent.arrives
    rw [up] at arrives
    exact arrives ▸ sent.sent.trans (sendQuery_runs run).1
  have part : now.up.taken <+: now.up.arrived := List.prefix_append _ _
  have read : now.up.taken = request pkg := by
    have own : now.ServerUnfailed (handleClient handler) → now.up.taken = request pkg :=
      fun unfailed =>
        ((server_reaches deliverable unfailed (part.trans (asked steps ended))).1 ended).1
    rcases unfailed_of_steps steps unbroken with ⟨_, unfailed⟩ | ⟨unfailed, _⟩ | ⟨_, finished⟩
    · exact own unfailed
    · exact own unfailed
    · exact (not_ended_of_writes writes finished).elim
  rw [read] at part
  obtain ⟨c, s, ⟨t, f⟩, down, broken⟩ := now
  cases writes with
  | @send bytes holds next =>
    have one : 0 < bytes.length := List.length_pos_of_ne_nil holds
    have step := steps.tail (.client (.send unbroken Nat.zero_lt_one one))
    have longer := (asked step ended).length_le
    have long := part.length_le
    simp only [Wire.arrived, List.length_append, List.length_take] at longer long
    omega

/-- The two sides never wait for each other. -/
theorem not_stalled (deliverable : Deliverable handler pkg)
    (steps : Steps (connected handler pkg) now) : ¬ Service.Stalled now := by
  rintro ⟨client, server, up, down, unbroken⟩
  rcases unfailed_of_steps steps unbroken with ⟨unfailed, unfailed'⟩ | ⟨_, ended⟩ | ⟨_, ended⟩
  · have asked := client_waits unfailed client
    rw [Wire.arrived, up, List.append_nil] at asked
    exact (server_reaches deliverable unfailed' (asked ▸ List.prefix_rfl)).2 server asked
  · exact not_ended_of_waits server ended
  · exact not_ended_of_waits client ended

end Connection

end Line

section Clients

open Service

variable {ι : Type} [DecidableEq ι] {handler : QueryHandler} {pkg : ι → QueryPackage}
  {backlog : Nat}
  {s s' : Service ι WireExn (QueryResponse × List EncryptedResultBatch) WireExn Served}

/-- The loop of `serve` and the clients of some queries, before the first has connected. -/
def serve (handler : QueryHandler) (pkg : ι → QueryPackage) :
    Service ι WireExn (QueryResponse × List EncryptedResultBatch) WireExn Served :=
  opened (fun i => sendQuery (pkg i) []) (handleClient handler)

theorem line_steps (history : History backlog (serve handler pkg) s) (i : ι) :
    Steps (connected handler (pkg i)) (s.line i) := (sound_of_history history).lines i

/-- In any history, a client that has ended has returned the answer to its own query or
thrown, and it has thrown only on a connection that broke. -/
theorem answers_own_query {i : ι} {r : Except WireExn (QueryResponse × List EncryptedResultBatch)}
    (deliverable : Deliverable handler (pkg i)) (history : History backlog (serve handler pkg) s)
    (ended : (s.line i).client.result? = some r) :
    r = .ok (answerOf handler (pkg i)) ∨ (s.line i).broken = true ∧ ∃ e, r = .error e := by
  have steps := line_steps history i
  rcases (client_ended deliverable steps ended).2 with ok | thrown
  · exact Or.inl ok
  · cases broken : (s.line i).broken with
    | false => exact Or.inl (client_answered deliverable steps broken ended).2
    | true => exact Or.inr ⟨rfl, thrown⟩

section Unbroken

variable (deliverable : ∀ i, Deliverable handler (pkg i))

include deliverable in
/-- As long as no connection breaks, no process is killed. -/
theorem unbroken_of_acts (history : History backlog (serve handler pkg) s)
    (runs : s.running = true) (unbroken : ∀ i, (s.line i).broken = false)
    (act : Acts backlog s s') : s'.running = true ∧ s'.unreached = s.unreached ∧
      ∀ i, (s'.line i).broken = false := by
  have sound := sound_of_history history
  have moved : ∀ {i} {c : Connection WireExn (QueryResponse × List EncryptedResultBatch) WireExn
      Served}, c.broken = (s.line i).broken → ∀ j, ((s.set i c).line j).broken = false := by
    intro i c same j
    by_cases here : j = i
    · subst here
      rw [set_line_self, same]
      exact unbroken j
    · rw [set_line_ne here]
      exact unbroken j
  cases act with
  | connect => exact ⟨runs, rfl, unbroken⟩
  | refused stopped => cases runs.symm.trans stopped
  | accept => exact ⟨runs, rfl, unbroken⟩
  | client => exact ⟨runs, rfl, moved rfl⟩
  | server => exact ⟨runs, rfl, moved rfl⟩
  | close => exact ⟨runs, rfl, unbroken⟩
  | @serverKilled i _ current writes left =>
    rcases left with ended | broken
    · exact (server_not_writing (deliverable i) (line_steps history i) (unbroken i) ended
        writes).elim
    · cases (unbroken i).symm.trans broken
  | @clientKilled i known alive writes left =>
    rcases left with closed | broken
    · exact (client_not_writing (deliverable i) (line_steps history i) (unbroken i)
        (sound.closed i closed) writes).elim
    · cases (unbroken i).symm.trans broken

include deliverable in
theorem running_of_unbroken (history : History backlog (serve handler pkg) s)
    (unbroken : ∀ i, (s.line i).broken = false) : s.running = true := by
  induction history with
  | refl => rfl
  | @tail s s' history happens ih =>
    have before : ∀ i, (s.line i).broken = false := by
      intro i
      have steps := steps_of_happens (sound_of_history history).closed happens i
      cases broken : (s.line i).broken with
      | false => rfl
      | true => cases (unbroken i).symm.trans (broken_of_steps steps broken)
    have runs := ih before
    rcases happens with act | fails
    · exact (unbroken_of_acts deliverable history runs before act).1
    · cases fails with
      | missed => exact runs
      | cut => exact runs

include deliverable in
theorem unbroken_of_run (history : History backlog (serve handler pkg) s)
    (unbroken : ∀ i, (s.line i).broken = false) (acts : ReflTransGen (Acts backlog) s s') :
    History backlog (serve handler pkg) s' ∧ s'.running = true ∧ s'.unreached = s.unreached ∧
      ∀ i, (s'.line i).broken = false := by
  induction acts with
  | refl => exact ⟨history, running_of_unbroken deliverable history unbroken, rfl, unbroken⟩
  | tail _ act ih =>
    obtain ⟨history, runs, same, unbroken⟩ := ih
    obtain ⟨runs', same', unbroken'⟩ := unbroken_of_acts deliverable history runs unbroken act
    exact ⟨history.tail (Or.inl act), runs', same'.trans same, unbroken'⟩

include deliverable in
/-- Where nothing more is done and no connection has broken, all is done. -/
theorem served_of_settled (positive : 0 < backlog) (history : History backlog (serve handler pkg) s)
    (unbroken : ∀ i, (s.line i).broken = false) (settled : Settled backlog s) :
    s.running = true ∧ s.standing = [] ∧ s.killed = [] ∧ ∀ i, i ∈ s.unreached ∨ i ∈ s.closed ∧
      (s.line i).client.result? = some (.ok (answerOf handler (pkg i))) := by
  have sound := sound_of_history history
  have runs := running_of_unbroken deliverable history unbroken
  rcases settled_cases positive sound settled with finished | ⟨i, _, _, stalled⟩
  · have idle := finished.idle runs
    have none : s.killed = [] := by
      refine List.eq_nil_iff_forall_not_mem.mpr fun i dead => ?_
      cases (unbroken i).symm.trans (sound.killed i dead)
    refine ⟨runs, idle, none, fun i => ?_⟩
    rcases finished.known i with known | missing
    · rcases finished.clients i known with dead | ended
      · rw [none] at dead
        cases dead
      · obtain ⟨r, ended⟩ := Option.isSome_iff_exists.mp ended
        obtain ⟨_, rfl⟩ := client_answered (deliverable i) (line_steps history i) (unbroken i) ended
        rw [order, idle, List.append_nil] at known
        exact Or.inr ⟨known, ended⟩
    · exact Or.inl missing
  · exact (not_stalled (deliverable i) (line_steps history i) stalled).elim

include deliverable in
/-- As long as no connection breaks, whatever the processes do comes to an end, and then
the server stands idle, has closed every connection, and every client that the network
has not turned away has returned the answer to its query. -/
theorem serves_everyone [Fintype ι] (positive : 0 < backlog)
    (history : History backlog (serve handler pkg) s)
    (unbroken : ∀ i, (s.line i).broken = false) :
    (∀ run : Nat → Service ι WireExn (QueryResponse × List EncryptedResultBatch) WireExn Served,
      run 0 = s → ∃ n, ¬ Acts backlog (run n) (run (n + 1))) ∧
    ∀ s', ReflTransGen (Acts backlog) s s' → Settled backlog s' →
      s'.running = true ∧ s'.standing = [] ∧ s'.killed = [] ∧
      ∀ i, i ∈ s.unreached ∨ i ∈ s'.closed ∧
        (s'.line i).client.result? = some (.ok (answerOf handler (pkg i))) := by
  refine ⟨fun run start => ?_, fun s' acts settled => ?_⟩
  · obtain ⟨n, ends⟩ := no_endless_history backlog (sound_of_history history) run start
    exact ⟨n, fun act => ends (Or.inl act)⟩
  · obtain ⟨history', _, same, unbroken'⟩ := unbroken_of_run deliverable history unbroken acts
    obtain ⟨runs, idle, none, served⟩ :=
      served_of_settled deliverable positive history' unbroken' settled
    exact ⟨runs, idle, none, fun i => same ▸ served i⟩

end Unbroken

def twoQueries : Bool → QueryPackage
  | false => { queryId := str "q1" }
  | true => { queryId := str "q2" }

/-- Two batches for the first query, a text for any other. -/
def twoAnswers : QueryHandler := fun pkg =>
  if pkg.queryId = str "q1" then .ok [{ batchId := 7, hasMask := true }, {}]
  else .error (str "Table not found: staff")

theorem two_deliverable (i : Bool) : Deliverable twoAnswers (twoQueries i) := by
  cases i with
  | false =>
    refine ⟨by simp [twoQueries, Cereal.queryPackage, Cereal.fheParamsMeta, str], by decide +kernel,
      fun err same => ?_, fun batches same => ?_⟩
    · cases same
    cases same
    refine ⟨by decide, fun batch mem => ?_⟩
    simp only [List.mem_cons, List.not_mem_nil, or_false] at mem
    rcases mem with rfl | rfl
    · exact ⟨by simp [Cereal.encryptedResultBatch], by decide +kernel⟩
    · exact ⟨by simp [Cereal.encryptedResultBatch], by decide +kernel⟩
  | true =>
    refine ⟨by simp [twoQueries, Cereal.queryPackage, Cereal.fheParamsMeta, str], by decide +kernel,
      fun err same => ?_, fun batches same => ?_⟩
    · cases same
      decide
    · cases same

theorem first_query_answered : ∃ s r, History 8 (serve twoAnswers twoQueries) s ∧
    (s.line false).client.result? = some r ∧
    (r = .ok (answerOf twoAnswers (twoQueries false)) ∨
      (s.line false).broken = true ∧ ∃ e, r = .error e) := by
  obtain ⟨s, acts, settled⟩ := exists_settled 8 (sound_opened (fun i => sendQuery (twoQueries i) [])
    (handleClient twoAnswers))
  obtain ⟨history, _, same, unbroken⟩ :=
    unbroken_of_run two_deliverable (s := serve twoAnswers twoQueries) .refl (fun _ => rfl) acts
  obtain ⟨_, _, _, served⟩ :=
    served_of_settled two_deliverable (by decide) history unbroken settled
  rcases served false with missing | ⟨_, ended⟩
  · rw [same] at missing
    cases missing
  · exact ⟨s, _, history, ended, answers_own_query (two_deliverable false) history ended⟩

theorem two_queries_served : ∃ s, ReflTransGen (Acts 8) (serve twoAnswers twoQueries) s ∧
    ∀ i, (s.line i).client.result? = some (.ok (answerOf twoAnswers (twoQueries i))) := by
  obtain ⟨s, acts, settled⟩ := exists_settled 8 (sound_opened (fun i => sendQuery (twoQueries i) [])
    (handleClient twoAnswers))
  obtain ⟨_, served⟩ := serves_everyone two_deliverable (by decide : 0 < 8)
    (s := serve twoAnswers twoQueries) .refl fun _ => rfl
  refine ⟨s, acts, fun i => ?_⟩
  rcases (served s acts settled).2.2.2 i with missing | ⟨_, ended⟩
  · cases missing
  · exact ended

end Clients

end FheSql.QueryService
