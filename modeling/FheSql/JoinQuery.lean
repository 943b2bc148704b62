import FheSql.ClientQuery
import FheSql.JoinCorrectness

/-!
# Joins at the terminal

`validate` looks the columns of the scan up in FROM's table, and those of WHERE are among
them, by their bare names, whichever table they are of. A join whose WHERE columns are
all found there is answered with the rows of the filtered inner join; any other join is
refused, and the terminal shows the refusal.
-/

namespace FheSql.JoinQuery

open ByteText Throwing SemanticAnalyzer AnalyzedStatement StatementPlan ClientPipeline
open QueryEncryptor ResultDecoder PipelineAcceptance PredicateMeaning PredicateExecution
open ValidatedPackage SqlSemantics StoredRows DecodedRows JoinCorrectness PrintedRows
open ServerHandler ClientQuery QueryService ByteStream Service

variable {j : Join} {cat : Catalog} {left right : TableSchema} {projections : List Str}
  {whereClause : Option ASTExpr}

/-- The columns of WHERE are columns of FROM's table by their bare names. -/
def Reaches (left : TableSchema) (stmt : SelectStatement) : Prop :=
  ∀ r ∈ whereReferences stmt, left.hasColumn (bareName r) = true

/-- The rows a join selects. -/
def selected (j : Join) (whereClause : Option ASTExpr) (leftRows rightRows : List Row) :
    List Row :=
  (innerJoin j.aliasName j.leftColumn j.rightColumn leftRows rightRows).filter
    (satisfies whereClause)

/-- What `validate` throws on a scan column that the table lacks. -/
def unknownScanColumn (col tableName : Str) : Str :=
  str "Unknown scan column '" ++ col ++ str "' in table '" ++ tableName ++ str "'"

theorem projectColumns_join (query : j.Query left right projections whereClause) :
    LogicalPlanner.projectColumns (j.statement projections whereClause) left = projections :=
  if_neg query.selects

section Validation

variable (aliased : j.Aliased) (table : cat.getTable j.table = .ok left)
  (joined : cat.getTable j.joinedTable = .ok right)

include aliased table joined

/-- The validator finds a column of either table in the table of its alias. -/
theorem validatorHas_of_names {name : Str} {c : ColumnSchema} (names : j.Names left right name c) :
    TableHas cat (validatorTable (j.statement projections whereClause) name) (bareName name) := by
  cases names with
  | @left column c found =>
    have other : ¬ ((joined? (j.statement projections whereClause)).isSome = true ∧
        qualifierOr j.aliasName (qualified j.aliasName column) = j.joinedAlias) := by
      rw [qualifierOr_qualified aliased.plain]
      exact fun own => aliased.distinct own.2
    have own : validatorTable (j.statement projections whereClause)
        (qualified j.aliasName column) = j.table := if_neg other
    rw [own, bareName_qualified aliased.plain]
    exact ⟨left, table, TableSchema.hasColumn_iff.mpr ⟨c, found⟩⟩
  | @right column c found =>
    have own : validatorTable (j.statement projections whereClause)
        (qualified j.joinedAlias column) = j.joinedTable :=
      if_pos ⟨rfl, qualifierOr_qualified aliased.plainJoined _ _⟩
    rw [own, bareName_qualified aliased.plainJoined]
    exact ⟨right, joined, TableSchema.hasColumn_iff.mpr ⟨c, found⟩⟩

theorem predicateSurvives_of_typed {references : List Str} {e : ASTExpr}
    (typed : Typed (j.Referenced left right references) left e) :
    PredicateSurvives cat (j.statement projections whereClause) left e := by
  have operand : ∀ {e}, IntOperand (j.Referenced left right references) e →
      PredicateSurvives cat (j.statement projections whereClause) left e := by
    intro e h
    cases h with
    | column found _ => exact validatorHas_of_names aliased table joined found.2.1
    | literal => exact trivial
  induction typed with
  | int hl hr =>
    rw [PredicateSurvives, stringComparison?_of_int hl hr]
    exact ⟨operand hl, operand hr⟩
  | string _ _ found string => cases found.2.2.symm.trans string
  | boolean _ _ ihl ihr => exact ⟨ihl, ihr⟩
  | notExpr _ ih => exact ih

end Validation

/-- A scan column that the table lacks is the end of a validation. -/
theorem validate_refuses (serverParamSetId : Str) {pkg : QueryPackage} {schema : TableSchema}
    (version : pkg.protocolVersion = 2) (table : cat.getTable pkg.tableName = .ok schema)
    {col : Str} (scanned : col ∈ pkg.scanColumns) (missing : ¬ schema.hasColumn col = true)
    (fuel : Nat) :
    ∃ col ∈ pkg.scanColumns, ¬ schema.hasColumn col = true ∧
      QueryValidator.validate cat serverParamSetId fuel pkg =
        .error (.validationError (unknownScanColumn col pkg.tableName)) := by
  have ends : QueryValidator.validateScanColumn pkg schema col ≠ .ok () :=
    fun ok => missing (validateScanColumn_ok_iff.mp ok)
  obtain ⟨first, listed, e, throws, loop⟩ := forM_error_of_mem scanned ends
  have lacks : ¬ schema.hasColumn first = true := by
    intro has
    cases (validateScanColumn_ok_iff.mpr has).symm.trans throws
  have known := Catalog.hasTable_iff.mpr ⟨schema, table⟩
  have same : e = .validationError (unknownScanColumn first pkg.tableName) := by
    simp only [QueryValidator.validateScanColumn, lacks, Bool.not_false, if_true,
      throw_eq_error, Except.error.injEq] at throws
    exact throws.symm
  refine ⟨first, listed, lacks, ?_⟩
  simp only [QueryValidator.validate, QueryValidator.validateHeader, version, known, table, loop,
    same, ok_bind, error_bind, pure_eq_ok, ne_eq, not_true_eq_false, if_false, Bool.not_true,
    Bool.false_eq_true]

section Answer

variable {P : Proto1} (sem : SlotSemantics P)
  {storage : EncryptedStorage (Except Exn) P.EncryptedVector} {leftRows rightRows : List Row}
  {leftListed rightListed : List ChunkMeta} {plan : PhysicalPlan} {fheMeta : FHEParamsMeta}
  {rng : P.Rng} {columns : List ColumnSchema} {pkg : QueryPackage} {scopes : StringMap TableSchema}
  (analyzed : Analyzed cat (j.statement projections whereClause) left scopes)
  (planOf : PlanOf (j.statement projections whereClause) left plan)
  (joined : cat.getTable j.joinedTable = .ok right)
  (query : j.Query left right projections whereClause)

include analyzed joined query

theorem join_survives (reaches : Reaches left (j.statement projections whereClause)) :
    Survives cat (j.statement projections whereClause) left where
  projected name mem := by
    obtain ⟨_, known, _⟩ := columns_of_analyzed analyzed joined query
    rw [projectColumns_join query] at mem
    obtain ⟨c, names⟩ := known name mem
    exact ⟨tableHas_of_names query.aliased analyzed.table joined names,
      validatorHas_of_names query.aliased analyzed.table joined names⟩
  scanned := reaches
  predicate e he := by
    obtain ⟨_, _, typed⟩ := columns_of_analyzed analyzed joined query
    exact predicateSurvives_of_typed query.aliased analyzed.table joined (typed e he)

include planOf

/-- A join that does not reach is refused by the validator. -/
theorem join_refused (copies : CopiesPlan plan fheMeta pkg)
    (short : ¬ Reaches left (j.statement projections whereClause)) (serverParamSetId : Str)
    (fuel : Nat) :
    ∃ r ∈ whereReferences (j.statement projections whereClause),
      ¬ left.hasColumn (bareName r) = true ∧
      queryHandler P storage cat serverParamSetId fuel pkg =
        .error (unknownScanColumn (bareName r) j.table) := by
  have named : pkg.tableName = j.table := (copies.packageOf planOf).tableName
  have table : cat.getTable pkg.tableName = .ok left := named ▸ analyzed.table
  simp only [Reaches, not_forall] at short
  obtain ⟨r, mem, missing⟩ := short
  have scanned : bareName r ∈ pkg.scanColumns := by
    rw [copies.scanColumns]
    exact (planOf.scanColumns _).mpr (Or.inl ⟨r, mem, rfl⟩)
  obtain ⟨col, listed, lacks, refused⟩ :=
    validate_refuses serverParamSetId copies.version table scanned missing fuel
  rw [copies.scanColumns] at listed
  rcases (planOf.scanColumns col).mp listed with ⟨r, mem, rfl⟩ | ⟨name, projected, own, rfl⟩
  · refine ⟨r, mem, lacks, ?_⟩
    rw [queryHandler, refused, error_bind, named]
    rfl
  · obtain ⟨_, known, _⟩ := columns_of_analyzed analyzed joined query
    rw [planOf.projectColumns, projectColumns_join query] at projected
    obtain ⟨c, names⟩ := known name projected
    rw [planOf.hasJoin, planOf.joinedTableAlias] at own
    exact (lacks (hasColumn_of_scanned analyzed.table own
      (tableHas_of_names query.aliased analyzed.table joined names)
      (validatorHas_of_names query.aliased analyzed.table joined names))).elim

include sem in
/-- The executor's answer to the package of a join. -/
theorem join_runs (slots : 0 < P.slotCount)
    (storedLeft : StoresRows sem storage j.table left leftRows leftListed)
    (storedRight : StoresRows sem storage j.joinedTable right rightRows rightListed)
    (sendable : j.Projectable left right projections)
    (built : BuiltFrom P left rng { planFields plan fheMeta with resultSchema := columns }
      whereClause pkg) (fewNodes : pkg.predicateNodes.length < 2 ^ 32)
    (fewLiterals : pkg.encryptedLiterals.length < 2 ^ 32) {fuel : Nat}
    (enough : pkg.predicateNodes.length ≤ fuel) :
    Answers P j cat storage projections whereClause leftRows rightRows pkg fuel := by
  obtain ⟨keyed, known, typed⟩ := columns_of_analyzed analyzed joined query
  have projects : plan.projectColumns = projections :=
    planOf.projectColumns.trans (projectColumns_join query)
  have typed' : ∀ e, whereClause = some e → Typed (j.Referenced left right
      (whereReferences (j.statement projections whereClause))) left e := by
    rintro e rfl
    exact typed e rfl
  obtain ⟨other, built', runs⟩ := filters_of_typed sem typed' rng
    { planFields plan fheMeta with resultSchema := columns } rfl
  cases builtFrom_unique built built'
  obtain ⟨where?, filters, rebuilt⟩ := runs fewNodes fewLiterals
  have tables := carriesJoin_of_builtFrom planOf built
  obtain ⟨parts, columnsOf⟩ := exists_parts known
  have partsOk : PartsOk parts := by
    refine ⟨fun name c d hc hd => ?_, fun part mem => ?_, fun part mem => ?_⟩
    · exact names_unique query.aliased (Parts.column columnsOf hc).2 (Parts.column columnsOf hd).2
    · obtain ⟨listed, names⟩ := Parts.column columnsOf mem
      exact (sendable _ listed _ names).1
    · obtain ⟨listed, names⟩ := Parts.column columnsOf mem
      exact (sendable _ listed _ names).2
  have copied : pkg.projectColumns = projections := built.copiesPlan.projectColumns.trans projects
  have ready : Prepared j left right whereClause sem pkg where?
      (whereReferences (j.statement projections whereClause)) parts := by
    refine ⟨slots, query.aliased, keyed, tables, copied ▸ columnsOf, partsOk, filters, ?_⟩
    intro unused name mem
    cases whereClause with
    | none => cases mem
    | some e =>
      exact hoisted_of_builtFrom sem (typed e rfl) built tables.joinedTableAlias unused name mem
  obtain ⟨results, run, carries⟩ := executeJoin_carries ready analyzed.table joined storedLeft
    storedRight (rebuilt fuel enough)
  obtain ⟨decoded, decodes, shows⟩ := decodeAll_ok sem partsOk carries
  rw [Parts.names columnsOf, kept_eq_innerJoin query.aliased] at shows
  refine ⟨results, decoded, ?_, decodes, shows⟩
  rw [QueryExecutor.execute, tables.joins]
  exact run

end Answer

theorem applySortAndLimit_none (rows : List ResultRow) : applySortAndLimit rows [] (-1) = rows := by
  simp [applySortAndLimit]

section Terminal

variable {P : Proto1} (sem : SlotSemantics P) (works : EncryptsScalars P)
  {storage : EncryptedStorage (Except Exn) P.EncryptedVector} {leftRows rightRows : List Row}
  {leftListed rightListed : List ChunkMeta}

variable (P storage cat) in
/-- The handler's answer to the package of a join, whether it reaches or not. -/
structure JoinHandled (j : Join) (left : TableSchema) (projections : List Str)
    (whereClause : Option ASTExpr) (leftRows rightRows : List Row) (serverParamSetId : Str)
    (fuel : Nat) (pkg : QueryPackage) : Prop where
  answered : Reaches left (j.statement projections whereClause) →
    HandlerAnswers P storage cat serverParamSetId fuel (j.statement projections whereClause)
      projections (selected j whereClause leftRows rightRows) pkg
  refused : ¬ Reaches left (j.statement projections whereClause) →
    ∃ r ∈ whereReferences (j.statement projections whereClause),
      ¬ left.hasColumn (bareName r) = true ∧
      queryHandler P storage cat serverParamSetId fuel pkg =
        .error (unknownScanColumn (bareName r) j.table)

include sem works in
theorem join_handled (accepted : analyze cat (j.statement projections whereClause) = .ok left)
    (joined : cat.getTable j.joinedTable = .ok right) (slots : 0 < P.slotCount)
    (storedLeft : StoresRows sem storage j.table left leftRows leftListed)
    (storedRight : StoresRows sem storage j.joinedTable right rightRows rightListed)
    (query : j.Query left right projections whereClause)
    (sendable : j.Projectable left right projections) (fheMeta : FHEParamsMeta) (rng : P.Rng) :
    ∃ plan pkg, planQuery (j.statement projections whereClause) left = .ok plan ∧
      encrypt (j.statement projections whereClause) plan cat fheMeta rng = .ok pkg ∧
      ∃ bound, ∀ fuel, bound ≤ fuel → ∀ queryId,
        { pkg with queryId := queryId : QueryPackage }.serialize.length < 2 ^ 32 →
          JoinHandled cat P storage j left projections whereClause leftRows rightRows
            fheMeta.paramSetId fuel { pkg with queryId := queryId } := by
  obtain ⟨scopes, analyzed⟩ := analyze_ok_iff.mp accepted
  obtain ⟨plan, planned, planOf⟩ := planQuery_analyzed analyzed
  by_cases reaches : Reaches left (j.statement projections whereClause)
  · obtain ⟨pkg, columns, sent, built, accepts⟩ := accepted_of_survives works accepted planned
      planOf (join_survives analyzed joined query reaches) fheMeta rng
    obtain ⟨bound, validates⟩ := validates_from accepts
    refine ⟨plan, pkg, planned, sent, max bound pkg.predicateNodes.length,
      fun fuel enough queryId short => ⟨fun _ => handlerAnswers_renamed queryId ?_, absurd reaches⟩⟩
    obtain ⟨deep, wide⟩ := Nat.max_le.mp enough
    obtain ⟨fewNodes, fewLiterals⟩ := lists_le_serialize { pkg with queryId := queryId }
    obtain ⟨batches, decoded, run, decodes, shows⟩ := join_runs sem analyzed planOf joined query
      slots storedLeft storedRight sendable built (Nat.lt_of_le_of_lt fewNodes short)
      (Nat.lt_of_le_of_lt fewLiterals short) wide
    refine handlerAnswers_of_run (validates fuel deep) run decodes ?_
    exact (applySortAndLimit_none decoded).symm ▸ shows
  · obtain ⟨_, known, typed⟩ := columns_of_analyzed analyzed joined query
    obtain ⟨columns, found⟩ := (resultSchemaOf_ok_iff planOf).mpr fun name mem => by
      rw [planOf.projectColumns, projectColumns_join query] at mem
      obtain ⟨c, names⟩ := known name mem
      exact tableHas_of_names query.aliased analyzed.table joined names
    obtain ⟨pkg, built, _⟩ := builtFrom_of_survives works planOf analyzed.table fheMeta rng
      (fun e he => predicateSurvives_of_typed query.aliased analyzed.table joined (typed e he))
      columns
    have sent := (clientPackage_ok_iff accepted planned planOf).mpr ⟨columns, found, built⟩
    rw [clientPackage, accepted, ok_bind, planned, ok_bind] at sent
    refine ⟨plan, pkg, planned, sent, 0, fun fuel _ queryId _ => ⟨(absurd · reaches), fun _ => ?_⟩⟩
    obtain ⟨r, mem, lacks, refused⟩ := join_refused analyzed planOf joined query built.copiesPlan
      reaches fheMeta.paramSetId fuel
    exact ⟨r, mem, lacks, (queryHandler_renamed P fuel queryId storage).trans refused⟩

variable (j left projections whereClause leftRows rightRows) in
/-- What the terminal shows of a join: its rows, or that the server refused it. -/
structure JoinShown (last : Str) : Prop where
  rows : Reaches left (j.statement projections whereClause) →
    last = str "\n" ++ tableOf projections (selected j whereClause leftRows rightRows)
  refusal : ¬ Reaches left (j.statement projections whereClause) →
    ∃ r ∈ whereReferences (j.statement projections whereClause),
      ¬ left.hasColumn (bareName r) = true ∧
      last = errorLine (str "Server: " ++ unknownScanColumn (bareName r) j.table)

theorem showAnswer_refused {stmt : SelectStatement} {plan : PhysicalPlan} {handler : QueryHandler}
    {pkg : QueryPackage} {what : Str} (refused : handler pkg = .error what) :
    showAnswer P stmt plan (.ok (answerOf handler pkg)) =
      print (errorLine (str "Server: " ++ what)) := by
  rw [answerOf, refused]
  rfl

theorem showAnswer_join (plan : PhysicalPlan) {paramSetId : Str} {fuel : Nat} {pkg : QueryPackage}
    (selects : projections ≠ [])
    (handled : JoinHandled cat P storage j left projections whereClause leftRows rightRows
      paramSetId fuel pkg) :
    ∃ text, JoinShown j left projections whereClause leftRows rightRows text ∧
      showAnswer P (j.statement projections whereClause) plan
        (.ok (answerOf (queryHandler P storage cat paramSetId fuel) pkg)) = print text := by
  by_cases reaches : Reaches left (j.statement projections whereClause)
  · exact ⟨_, ⟨fun _ => rfl, absurd reaches⟩,
      showAnswer_ok (if_neg selects) (handled.answered reaches)⟩
  · obtain ⟨r, mem, lacks, refused⟩ := handled.refused reaches
    exact ⟨_, ⟨(absurd · reaches), fun _ => ⟨r, mem, lacks, rfl⟩⟩, showAnswer_refused refused⟩

include works in
/-- A supported join at a client of the server's loop: once its call has ended, the
terminal shows the rows that the join selects, if WHERE reads columns of FROM's table only
as far as the validator can see, the validator's refusal, if not, or that the network has
failed. -/
theorem terminal_shows_join {sql : Str}
    (parsed : SQLParser.parse sql = .ok (j.statement projections whereClause))
    (accepted : analyze cat (j.statement projections whereClause) = .ok left)
    (joined : cat.getTable j.joinedTable = .ok right) (slots : 0 < P.slotCount)
    (storedLeft : StoresRows sem storage j.table left leftRows leftListed)
    (storedRight : StoresRows sem storage j.joinedTable right rightRows rightListed)
    (query : j.Query left right projections whereClause)
    (sendable : j.Projectable left right projections) (paramSetId : Str) (rng : P.Rng)
    (queryId : Str) :
    ∃ plan encrypted bound, planQuery (j.statement projections whereClause) left = .ok plan ∧
      encrypt (j.statement projections whereClause) plan cat (fheMetaOf P paramSetId) rng =
        .ok encrypted ∧
      ∀ fuel, bound ≤ fuel → ∀ pkg, pkg = { encrypted with queryId := queryId } →
        Deliverable (queryHandler P storage cat paramSetId fuel) pkg →
        ∀ {ι : Type} [DecidableEq ι] (pkgs : ι → QueryPackage) (i : ι) (backlog : Nat)
          (s : Service ι WireExn (QueryResponse × List EncryptedResultBatch) WireExn Served),
          pkgs i = pkg →
          History backlog (serve (queryHandler P storage cat paramSetId fuel) pkgs) s →
          ∀ network : Network, CallEnds s i (network pkg) → ∃ last,
            executeQuery P cat paramSetId rng queryId network sql =
              ⟨.ok (), [.shown (banner plan pkg), .sent pkg, .shown last]⟩ ∧
            (JoinShown j left projections whereClause leftRows rightRows last ∨
              ((s.line i).broken = true ∨ i ∈ s.unreached) ∧
                ∃ what, last = errorLine (str "Network: " ++ what)) := by
  obtain ⟨plan, encrypted, planned, sent, bound, handled⟩ := join_handled sem works accepted joined
    slots storedLeft storedRight query sendable (fheMetaOf P paramSetId) rng
  refine ⟨plan, encrypted, bound, planned, sent, ?_⟩
  rintro fuel enough pkg named deliverable ι _ pkgs i backlog s own history network ends
  obtain ⟨text, shown, shows⟩ := showAnswer_join plan query.selects
    (named ▸ handled fuel enough queryId (named ▸ deliverable.small))
  obtain ⟨last, run, cases⟩ := executeQuery_ends parsed accepted planned sent named shows
    deliverable own history ends
  refine ⟨last, run, cases.imp_left ?_⟩
  rintro rfl
  exact shown

end Terminal

open PlainProto1

def petsSql : Str := str "SELECT o.name, p.age FROM owners o JOIN pets p ON o.id = p.owner;"

theorem parse_pets : SQLParser.parse petsSql =
    .ok (ownership.statement [str "o.name", str "p.age"] none) := by decide +kernel

theorem pets_query : ownership.Query owners pets [str "o.name", str "p.age"] none where
  aliased := ownership_query.aliased
  leftColumn := ownership_query.leftColumn
  rightColumn := ownership_query.rightColumn
  selects := ownership_query.selects
  projections := ownership_query.projections
  whereOk := nofun

theorem pets_projectable : ownership.Projectable owners pets [str "o.name", str "p.age"] := by
  have widths : ∀ c ∈ owners.columns ++ pets.columns, 1 ≤ width c ∧ width c < 2 ^ 32 := by decide
  intro name _ c names
  cases names with
  | left found => exact widths c (List.mem_append_left _ (TableSchema.column_ok found).1)
  | right found => exact widths c (List.mem_append_right _ (TableSchema.column_ok found).1)

/-- The package of the join, as it is sent. -/
def petsPackage : QueryPackage where
  queryId := str "q1"
  tableName := str "owners"
  tableAlias := str "o"
  joinedTableName := str "pets"
  joinedTableAlias := str "p"
  joinLeftColumn := str "o.id"
  joinRightColumn := str "p.owner"
  hasJoin := true
  scanColumns := [str "name"]
  projectColumns := [str "o.name", str "p.age"]
  resultSchema := [{ name := str "o.name", type := .STRING, maxLength := 2 },
    { name := str "p.age", type := .INT64 }]
  fheParams := fheMetaOf (plainProto1 1) (str "p")

abbrev petsHandler (fuel : Nat) : QueryHandler :=
  queryHandler (plainProto1 1) petStorage petCatalog (str "p") fuel

theorem fits_resultBatch {batch : EncryptedResultBatch} :
    Cereal.encryptedResultBatch.Fits batch ↔
      (-2 ^ 63 ≤ batch.logicalRowCount ∧ batch.logicalRowCount < 2 ^ 63) ∧
        (batch.columns.length < 2 ^ 64 ∧ ∀ cr ∈ batch.columns,
          cr.columnName.length < 2 ^ 64 ∧ cr.logicalType.length < 2 ^ 64 ∧
            cr.ciphertextBytes.length < 2 ^ 64 ∧ cr.logicalSize < 2 ^ 64) ∧
        batch.selectionMaskBytes.length < 2 ^ 64 := by
  simp [Cereal.encryptedResultBatch, Cereal.encryptedColumnResult]

theorem pets_deliverable (fuel : Nat) : Deliverable (petsHandler fuel) petsPackage := by
  refine ⟨?_, by decide +kernel, nofun, ?_⟩
  · simp [petsPackage, fheMetaOf, Cereal.queryPackage, Cereal.fheParamsMeta, Cereal.columnSchema,
      str, plainProto1]
  · intro batches same
    cases same
    refine ⟨by decide, ?_⟩
    simp only [TransportDelivery.Sendable, fits_resultBatch]
    decide +kernel

theorem pets_shown : ∃ fuel s reply,
    History 8 (serve (petsHandler fuel) fun _ : Unit => petsPackage) s ∧
      CallEnds s () reply ∧ ∃ plan last,
        executeQuery (plainProto1 1) petCatalog (str "p") () (str "q1") (fun _ => reply) petsSql =
          ⟨.ok (), [.shown (banner plan petsPackage), .sent petsPackage, .shown last]⟩ ∧
        (last = str "\n" ++ tableOf [str "o.name", str "p.age"]
            (selected ownership none ownerRows petRows) ∨
          ((s.line ()).broken = true ∨ () ∈ s.unreached) ∧
            ∃ what, last = errorLine (str "Network: " ++ what)) := by
  have storedOwners : StoresRows (plainSlotSemantics 1) petStorage (str "owners") owners ownerRows
      (rowChunks 2) := rows_stored (by decide) (by decide +kernel) (by decide +kernel)
  have storedPets : StoresRows (plainSlotSemantics 1) petStorage (str "pets") pets petRows
      (rowChunks 3) := rows_stored (by decide) (by decide +kernel) (by decide +kernel)
  obtain ⟨plan, encrypted, bound, planned, sent, shows⟩ := terminal_shows_join
    (plainSlotSemantics 1) (plain_encryptsScalars 1) parse_pets
    (rfl : analyze petCatalog (ownership.statement [str "o.name", str "p.age"] none) = .ok owners)
    rfl Nat.one_pos storedOwners storedPets pets_query pets_projectable (str "p") () (str "q1")
  cases planned
  cases sent
  have deliverable := pets_deliverable bound
  obtain ⟨s, reply, history, ends⟩ := exists_callEnds deliverable
  obtain ⟨last, run, shown⟩ := shows bound (le_refl _) petsPackage rfl deliverable
    (fun _ : Unit => petsPackage) () 8 s rfl history (fun _ => reply) ends
  exact ⟨bound, s, reply, history, ends, _, last, run, shown.imp_left fun join => join.rows nofun⟩

end FheSql.JoinQuery
