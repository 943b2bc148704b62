import FheSql.Lib.Traced
import FheSql.QueryService
import FheSql.ServerHandler

/-!
# A query at the client

`executeQuery` of `client/client_main.cpp`, from the text of a statement to the table on
the terminal, with the timings and the metrics left out. In front of the server's loop
and however the calls interleave, a supported query shows the rows it selects from the
stored ones, or the network's failure.
-/

namespace FheSql.ClientQuery

open ByteText Throwing Tracing ClientPipeline QueryEncryptor ResultDecoder ResultPrinter

/-- What the user and the network see of the client. -/
inductive Event where
  | shown (text : Str)
  | sent (pkg : QueryPackage)
  deriving DecidableEq, Repr

abbrev Console := Traced Event Exn

def print (text : Str) : Console Unit := Traced.ask [.shown text] (.ok ())

/-- What `transport.sendQuery` returns, or the text of what it throws. -/
abbrev Network := QueryPackage → Except Str (QueryResponse × List EncryptedResultBatch)

def send (network : Network) (pkg : QueryPackage) :
    Console (Except Str (QueryResponse × List EncryptedResultBatch)) :=
  Traced.ask [.sent pkg] (.ok (network pkg))

def errorLine (text : Str) : Str := str "Error: " ++ text ++ str "\n"

/-- What is printed before the package is sent. -/
def banner (physPlan : PhysicalPlan) (pkg : QueryPackage) : Str :=
  str "\n[Query ID] " ++ pkg.queryId ++ str "\n" ++
    str "[Plan]     table=" ++ physPlan.tableName ++
    str " scan=" ++ decimal physPlan.scanColumns.length ++
    str " project=" ++ decimal physPlan.projectColumns.length ++
    str " filter=" ++ (if physPlan.hasFilter then str "yes" else str "no") ++ str "\n" ++
    str "[Literals] " ++ decimal pkg.encryptedLiterals.length ++ str " encrypted\n" ++
    str "[Package]  " ++ decimal pkg.serialize.length ++ str " bytes\n"

variable (P : Proto1)

/-- The metadata the client sends, from its crypto context. -/
def fheMetaOf (paramSetId : Str) : FHEParamsMeta where
  paramSetId := paramSetId
  slotCount := P.slotCount
  keyId := str "key-0"

/-- `executeQuery` behind the call of `sendQuery`. -/
def showAnswer (stmt : SelectStatement) (physPlan : PhysicalPlan) :
    Except Str (QueryResponse × List EncryptedResultBatch) → Console Unit
  | .error what => print (errorLine (str "Network: " ++ what))
  | .ok (resp, batches) =>
    if resp.success = false then print (errorLine (str "Server: " ++ resp.errorMessage))
    else do
      let allRows ← MonadExcept.ofExcept (decodeAll P batches)
      let sorted := applySortAndLimit allRows stmt.orderByColumns stmt.limitCount
      let displayCols :=
        if stmt.projections = [] then physPlan.projectColumns else stmt.projections
      print (str "\n" ++ printResult displayCols sorted)

/-- `executeQuery`; `queryId` is the id drawn for the query. -/
def executeQuery (cat : Catalog) (paramSetId : Str) (rng : P.Rng) (queryId : Str)
    (network : Network) (sql : Str) : Console Unit :=
  match SQLParser.parse sql with
  | .error (.parseError what) => print (errorLine what)
  | .error e => throw e
  | .ok stmt =>
    match SemanticAnalyzer.analyze cat stmt with
    | .error (.semanticError what) => print (errorLine what)
    | .error e => throw e
    | .ok schema => do
      let physPlan ← MonadExcept.ofExcept (planQuery stmt schema)
      let encrypted ← MonadExcept.ofExcept
        (QueryEncryptor.encrypt stmt physPlan cat (fheMetaOf P paramSetId) rng)
      let pkg := { encrypted with queryId := queryId }
      print (banner physPlan pkg)
      let reply ← send network pkg
      showAnswer P stmt physPlan reply

open SemanticAnalyzer AnalyzedStatement StatementPlan PipelineAcceptance SqlSemantics DecodedRows
open ScanCorrectness PrintedRows ServerHandler QueryService ByteStream Service

variable {P} {cat : Catalog} {stmt : SelectStatement} {schema : TableSchema}
  {plan : PhysicalPlan} {sql paramSetId : Str} {rng : P.Rng}

/-- Up to the network call, `executeQuery` prints the banner and sends one package. -/
theorem executeQuery_sends (parsed : SQLParser.parse sql = .ok stmt)
    (accepted : analyze cat stmt = .ok schema) (planned : planQuery stmt schema = .ok plan)
    {pkg : QueryPackage} (encrypted : encrypt stmt plan cat (fheMetaOf P paramSetId) rng = .ok pkg)
    (queryId : Str) (network : Network) :
    executeQuery P cat paramSetId rng queryId network sql =
      ⟨(showAnswer P stmt plan (network { pkg with queryId := queryId })).outcome,
        .shown (banner plan { pkg with queryId := queryId }) ::
          .sent { pkg with queryId := queryId } ::
          (showAnswer P stmt plan (network { pkg with queryId := queryId })).log⟩ := by
  unfold executeQuery
  simp only [parsed, accepted, planned, ofExcept_ok_bind, encrypted, print, send, ask_ok_bind]
  rfl

theorem foldl_pushUnique_of_mem {names cols : List Str} (known : ∀ name ∈ names, name ∈ cols) :
    names.foldl pushUnique cols = cols := by
  induction names with
  | nil => rfl
  | cons name names ih =>
    rw [List.foldl_cons, pushUnique, if_pos (known name List.mem_cons_self)]
    exact ih fun n mem => known n (List.mem_cons_of_mem name mem)

/-- The columns on display are the requested ones: with a star, the columns ordered by
are among them. -/
theorem displayed_eq (analyzed : ∀ o ∈ stmt.orderByColumns, ∃ c, schema.column o.columnName = .ok c)
    (planOf : PlanOf stmt schema plan) :
    (if stmt.projections = [] then plan.projectColumns else stmt.projections) =
      requested stmt schema := by
  unfold requested
  by_cases star : stmt.projections = []
  · rw [if_pos star, if_pos star, planOf.projectColumns, LogicalPlanner.projectColumns, if_pos star]
    apply foldl_pushUnique_of_mem
    intro name mem
    obtain ⟨o, listed, rfl⟩ := List.mem_map.mp mem
    obtain ⟨c, hc⟩ := analyzed o listed
    obtain ⟨member, same⟩ := TableSchema.column_ok hc
    exact same ▸ List.mem_map_of_mem member
  · rw [if_neg star, if_neg star]

/-- The answer of the handler is shown as the table of the rows it stands for. -/
theorem showAnswer_ok {storage : EncryptedStorage (Except Exn) P.EncryptedVector}
    {fuel : Nat} {names : List Str} {answer : List Row} {pkg : QueryPackage}
    (displayed : (if stmt.projections = [] then plan.projectColumns else stmt.projections) = names)
    (answers : HandlerAnswers P storage cat paramSetId fuel stmt names answer pkg) :
    showAnswer P stmt plan (.ok (answerOf (queryHandler P storage cat paramSetId fuel) pkg)) =
      print (str "\n" ++ tableOf names answer) := by
  obtain ⟨batches, decoded, handled, decodes, apart, shows⟩ := answers
  rw [answerOf, handled]
  simp only [showAnswer, responseHeader, Bool.true_eq_false, if_false, decodes, displayed]
  rw [ofExcept_ok_bind, printed_of_shows apart shows]

/-- What the client shows of the handler's answer to a supported query. -/
theorem supported_shown (sem : SlotSemantics P) (works : EncryptsScalars P)
    {storage : EncryptedStorage (Except Exn) P.EncryptedVector} {chunks : List (List Row)}
    (accepted : analyze cat stmt = .ok schema) (table : PlainTable schema)
    (carried : Carried schema) (stores : Stores sem storage stmt.tableName schema chunks)
    (query : SupportedQuery stmt schema) (distinct : stmt.projections.Nodup) (paramSetId : Str)
    (rng : P.Rng) :
    ∃ plan encrypted bound, planQuery stmt schema = .ok plan ∧
      encrypt stmt plan cat (fheMetaOf P paramSetId) rng = .ok encrypted ∧
      ∀ fuel, bound ≤ fuel → ∀ queryId pkg, pkg = { encrypted with queryId := queryId } →
        pkg.serialize.length < 2 ^ 32 →
        showAnswer P stmt plan
            (.ok (answerOf (queryHandler P storage cat paramSetId fuel) pkg)) =
          print (str "\n" ++ tableOf (requested stmt schema) (select stmt chunks.flatten)) := by
  obtain ⟨scopes, analyzed⟩ := analyze_ok_iff.mp accepted
  obtain ⟨plan, encrypted, planned, planOf, sent, bound, answers⟩ := supported_answered sem works
    accepted table carried stores query distinct (fheMetaOf P paramSetId) rng
  have displayed := displayed_eq (fun o listed => by
    obtain ⟨c, hc⟩ := analyzed.orderBy o listed
    exact ⟨c, resolve_single analyzed query.single (query.orderBy o listed).1 hc⟩) planOf
  refine ⟨plan, encrypted, bound, planned, sent, ?_⟩
  rintro fuel enough queryId pkg rfl short
  exact showAnswer_ok displayed (answers fuel enough queryId short)

section Clients

variable {ι : Type} [DecidableEq ι] {handler : QueryHandler} {pkgs : ι → QueryPackage}
  {backlog : Nat}
  {s : Service ι WireExn (QueryResponse × List EncryptedResultBatch) WireExn Served} {i : ι}

/-- What has become of the call of `sendQuery` of a client. -/
inductive CallEnds
    (s : Service ι WireExn (QueryResponse × List EncryptedResultBatch) WireExn Served) (i : ι) :
    Except Str (QueryResponse × List EncryptedResultBatch) → Prop where
  | returned {a} : (s.line i).client.result? = some (.ok a) → CallEnds s i (.ok a)
  | thrown {e} (what : Str) : (s.line i).client.result? = some (.error e) →
      CallEnds s i (.error what)
  | unreached (what : Str) : i ∈ s.unreached → CallEnds s i (.error what)

/-- The call returns the answer to its own query, unless the network fails. -/
theorem callEnds_cases (deliverable : Deliverable handler (pkgs i))
    (history : History backlog (serve handler pkgs) s)
    {reply : Except Str (QueryResponse × List EncryptedResultBatch)} (ends : CallEnds s i reply) :
    reply = .ok (answerOf handler (pkgs i)) ∨
      ((s.line i).broken = true ∨ i ∈ s.unreached) ∧ ∃ what, reply = .error what := by
  have steps := line_steps history i
  cases ends with
  | returned ended =>
    rcases (client_ended deliverable steps ended).2 with ok | ⟨e, thrown⟩
    · exact Or.inl (congrArg Except.ok (Except.ok.inj ok))
    · cases thrown
  | thrown what ended =>
    refine Or.inr ⟨Or.inl ?_, what, rfl⟩
    cases broken : (s.line i).broken with
    | true => rfl
    | false => cases (client_answered deliverable steps broken ended).2
  | unreached what missing => exact Or.inr ⟨Or.inr missing, what, rfl⟩

/-- Once its call has ended, a client shows what it makes of the answer to its own query,
or one line that says that the network failed. -/
theorem executeQuery_ends {P : Proto1} {cat : Catalog} {stmt : SelectStatement}
    {schema : TableSchema} {plan : PhysicalPlan} {sql paramSetId : Str} {rng : P.Rng}
    {encrypted pkg : QueryPackage} {queryId text : Str} (parsed : SQLParser.parse sql = .ok stmt)
    (accepted : analyze cat stmt = .ok schema) (planned : planQuery stmt schema = .ok plan)
    (sent : encrypt stmt plan cat (fheMetaOf P paramSetId) rng = .ok encrypted)
    (named : pkg = { encrypted with queryId := queryId })
    (shown : showAnswer P stmt plan (.ok (answerOf handler pkg)) = print text)
    (deliverable : Deliverable handler pkg) (own : pkgs i = pkg)
    (history : History backlog (serve handler pkgs) s) {network : Network}
    (ends : CallEnds s i (network pkg)) :
    ∃ last, executeQuery P cat paramSetId rng queryId network sql =
        ⟨.ok (), [.shown (banner plan pkg), .sent pkg, .shown last]⟩ ∧
      (last = text ∨ ((s.line i).broken = true ∨ i ∈ s.unreached) ∧
        ∃ what, last = errorLine (str "Network: " ++ what)) := by
  have sends := executeQuery_sends parsed accepted planned sent queryId network
  rw [← named] at sends
  rcases callEnds_cases (own.symm ▸ deliverable) history ends with returned | ⟨failed, what, thrown⟩
  · rw [returned, own, shown] at sends
    exact ⟨_, sends, Or.inl rfl⟩
  · rw [thrown] at sends
    exact ⟨_, sends, Or.inr ⟨failed, what, rfl⟩⟩

end Clients

/-- A supported query at a client, in front of the loop of a server with any other
clients: in any history, once its call has ended, the client has printed the banner,
sent its package and printed the table of the rows that the query selects from the
stored ones, or, when the network has failed it, one line that says so. -/
theorem terminal_shows_answer (sem : SlotSemantics P) (works : EncryptsScalars P)
    {storage : EncryptedStorage (Except Exn) P.EncryptedVector} {chunks : List (List Row)}
    (parsed : SQLParser.parse sql = .ok stmt) (accepted : analyze cat stmt = .ok schema)
    (table : PlainTable schema) (carried : Carried schema)
    (stores : Stores sem storage stmt.tableName schema chunks)
    (query : SupportedQuery stmt schema) (distinct : stmt.projections.Nodup) (paramSetId : Str)
    (rng : P.Rng) (queryId : Str) :
    ∃ plan encrypted bound, planQuery stmt schema = .ok plan ∧
      encrypt stmt plan cat (fheMetaOf P paramSetId) rng = .ok encrypted ∧
      ∀ fuel, bound ≤ fuel → ∀ pkg, pkg = { encrypted with queryId := queryId } →
        Deliverable (queryHandler P storage cat paramSetId fuel) pkg →
        ∀ {ι : Type} [DecidableEq ι] (pkgs : ι → QueryPackage) (i : ι) (backlog : Nat)
          (s : Service ι WireExn (QueryResponse × List EncryptedResultBatch) WireExn Served),
          pkgs i = pkg →
          History backlog (serve (queryHandler P storage cat paramSetId fuel) pkgs) s →
          ∀ network : Network, CallEnds s i (network pkg) → ∃ last,
            executeQuery P cat paramSetId rng queryId network sql =
              ⟨.ok (), [.shown (banner plan pkg), .sent pkg, .shown last]⟩ ∧
            (last = str "\n" ++ tableOf (requested stmt schema) (select stmt chunks.flatten) ∨
              ((s.line i).broken = true ∨ i ∈ s.unreached) ∧
                ∃ what, last = errorLine (str "Network: " ++ what)) := by
  obtain ⟨plan, encrypted, bound, planned, sent, shows⟩ := supported_shown sem works
    accepted table carried stores query distinct paramSetId rng
  refine ⟨plan, encrypted, bound, planned, sent, ?_⟩
  rintro fuel enough pkg rfl deliverable ι _ pkgs i backlog s own history network ends
  exact executeQuery_ends parsed accepted planned sent rfl
    (shows fuel enough queryId _ rfl deliverable.small) deliverable own history ends

/-- A client on its own gets to the end of its call. -/
theorem exists_callEnds {handler : QueryHandler} {pkg : QueryPackage}
    (deliverable : Deliverable handler pkg) : ∃ s reply,
      History 8 (serve handler fun _ : Unit => pkg) s ∧ CallEnds s () reply := by
  obtain ⟨s, acts, settled⟩ := exists_settled 8
    (sound_opened (fun _ : Unit => sendQuery pkg []) (handleClient handler))
  obtain ⟨history, _, same, unbroken⟩ := unbroken_of_run (fun _ => deliverable)
    (s := serve handler fun _ : Unit => pkg) .refl (fun _ => rfl) acts
  obtain ⟨_, _, _, served⟩ :=
    served_of_settled (fun _ => deliverable) (by decide) history unbroken settled
  rcases served () with missing | ⟨_, ended⟩
  · rw [same] at missing
    cases missing
  · exact ⟨s, _, history, .returned ended⟩

open PlainProto1

def oldestSql : Str := str "SELECT name FROM people ORDER BY age DESC LIMIT 1;"

/-- The statement of `oldestSql`. -/
def oldest : SelectStatement where
  projections := [str "name"]
  tableName := str "people"
  tableAlias := str "people"
  orderByColumns := [⟨str "age", .Descending⟩]
  limitCount := 1

theorem parse_oldest : SQLParser.parse oldestSql = .ok oldest := by decide +kernel

theorem oldest_supported : SupportedQuery oldest people where
  single := rfl
  projections := by decide
  conditions := by decide
  orderBy o mem := by
    obtain rfl := List.mem_singleton.mp mem
    refine ⟨by decide, fun c hc => ?_⟩
    cases hc
    rfl
  whereOk := nofun

theorem people_carried : Carried people where
  columns := by decide
  named := by decide
  undotted := by decide
  narrow := by decide

/-- The package of the query, as it is sent. -/
def oldestPackage : QueryPackage where
  queryId := str "q1"
  tableName := str "people"
  tableAlias := str "people"
  scanColumns := [str "name", str "age"]
  projectColumns := [str "name", str "age"]
  resultSchema := people.columns
  fheParams := fheMetaOf (plainProto1 2) (str "p")

abbrev oldestHandler (fuel : Nat) : QueryHandler :=
  queryHandler (plainProto1 2) peopleStorage peopleCatalog (str "p") fuel

theorem oldest_deliverable (fuel : Nat) : Deliverable (oldestHandler fuel) oldestPackage := by
  refine ⟨?_, by decide +kernel, nofun, ?_⟩
  · simp [oldestPackage, fheMetaOf, Cereal.queryPackage, Cereal.fheParamsMeta, Cereal.columnSchema,
      people, str, plainProto1]
  · intro batches same
    cases same
    refine ⟨by decide, fun batch mem => ?_⟩
    obtain rfl := List.mem_singleton.mp mem
    refine ⟨?_, by decide +kernel⟩
    simp [Cereal.encryptedResultBatch, Cereal.encryptedColumnResult]
    decide +kernel

theorem oldest_person_shown : ∃ fuel s reply,
    History 8 (serve (oldestHandler fuel) fun _ : Unit => oldestPackage) s ∧
      CallEnds s () reply ∧ ∃ plan last,
        executeQuery (plainProto1 2) peopleCatalog (str "p") () (str "q1") (fun _ => reply)
          oldestSql = ⟨.ok (), [.shown (banner plan oldestPackage), .sent oldestPackage,
            .shown last]⟩ ∧
        (last = str "\n" ++ tableOf [str "name"] (select oldest persons) ∨
          ((s.line ()).broken = true ∨ () ∈ s.unreached) ∧
            ∃ what, last = errorLine (str "Network: " ++ what)) := by
  obtain ⟨plan, encrypted, bound, planned, sent, shows⟩ := terminal_shows_answer
    (plainSlotSemantics 2) (plain_encryptsScalars 2) parse_oldest
    (rfl : analyze peopleCatalog oldest = .ok people) people_plain people_carried people_stored
    oldest_supported (by decide) (str "p") () (str "q1")
  cases planned
  cases sent
  have deliverable := oldest_deliverable bound
  obtain ⟨s, reply, history, ends⟩ := exists_callEnds deliverable
  obtain ⟨last, run, shown⟩ := shows bound (le_refl _) oldestPackage rfl deliverable
    (fun _ : Unit => oldestPackage) () 8 s rfl history (fun _ => reply) ends
  exact ⟨bound, s, reply, history, ends, _, last, run, shown⟩

end FheSql.ClientQuery
