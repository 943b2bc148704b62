import FheSql.PrintedRows
import FheSql.ScanCorrectness
import FheSql.Transport

/-!
# The query handler

The handler that `server/server_main.cpp` gives its transport: it validates a package,
executes it and lets every exception reach the transport as a text. What the client
sends of a supported query passes the validator, and the handler answers it.
-/

namespace FheSql

open ByteText Throwing

/-- `e.what()`. An access outside a vector and a recursion without an end throw
nothing that has a text in the source. -/
def Exn.what : Exn → Str
  | runtimeError what => what
  | parseError what => what
  | semanticError what => what
  | validationError what => what
  | lengthError what => what
  | external what => what
  | outOfBounds => []
  | outOfFuel => []

namespace ServerHandler

open SemanticAnalyzer AnalyzedStatement StatementPlan ClientPipeline QueryEncryptor
open PredicateTree PipelineAcceptance PredicateMeaning PredicateExecution ValidatedPackage
open SqlSemantics StoredRows DecodedRows ScanCorrectness PrintedRows ResultDecoder
open BinaryCodec FlatTree Cereal

/-- The lambda of `main`, with the messages it logs left out. -/
def queryHandler (P : Proto1) (storage : EncryptedStorage (Except Exn) P.EncryptedVector)
    (cat : Catalog) (serverParamSetId : Str) (fuel : Nat) : QueryHandler := fun pkg =>
  match (do
    QueryValidator.validate cat serverParamSetId fuel pkg
    QueryExecutor.execute P storage cat fuel pkg : Except Exn (List EncryptedResultBatch)) with
  | .ok batches => .ok batches
  | .error e => .error e.what

section Accepted

variable {cat : Catalog} {serverParamSetId : Str} {pkg : QueryPackage}

/-- Deep enough, the validator accepts what it accepts at some depth. -/
theorem validates_from (accepts : Accepts cat serverParamSetId pkg) :
    ∃ bound, ∀ fuel, bound ≤ fuel →
      QueryValidator.validate cat serverParamSetId fuel pkg = .ok () := by
  obtain ⟨schema, header, tree⟩ := accepts_iff.mp accepts
  have first := validateHeader_ok_iff.mpr header
  by_cases empty : pkg.predicateNodes = []
  · refine ⟨0, fun fuel _ => ?_⟩
    rw [QueryValidator.validate, first, ok_bind, if_pos empty]
    rfl
  · obtain ⟨bound, walks⟩ := evaluates_walk Exn.outOfFuel (evaluates_of_wellFormed (tree empty))
    refine ⟨bound, fun fuel enough => ?_⟩
    rw [QueryValidator.validate, first, ok_bind, if_neg empty, validatePredTree_eq_walk]
    exact walks fuel enough

/-- The query id is no concern of the validator. -/
theorem validate_renamed (fuel : Nat) (queryId : Str) :
    QueryValidator.validate cat serverParamSetId fuel { pkg with queryId := queryId } =
      QueryValidator.validate cat serverParamSetId fuel pkg := by
  have tree : ∀ schema, QueryValidator.validatePredTree cat { pkg with queryId := queryId } schema
      fuel pkg.rootIndex = QueryValidator.validatePredTree cat pkg schema fuel pkg.rootIndex := by
    intro schema
    rw [validatePredTree_eq_walk, validatePredTree_eq_walk]
    rfl
  have header : QueryValidator.validateHeader cat serverParamSetId { pkg with queryId := queryId } =
      QueryValidator.validateHeader cat serverParamSetId pkg := rfl
  unfold QueryValidator.validate
  rw [header]
  refine congrArg _ (funext fun schema => ?_)
  exact congrArg (fun rest => if pkg.predicateNodes = [] then pure () else rest) (tree schema)

section Renamed

variable (P : Proto1) (fuel : Nat) (queryId : Str)

/-- Nor of the executor. -/
theorem execute_renamed (storage : EncryptedStorage (Except Exn) P.EncryptedVector) :
    QueryExecutor.execute P storage cat fuel { pkg with queryId := queryId } =
      QueryExecutor.execute P storage cat fuel pkg := by
  have predicate : QueryExecutor.buildWhere P { pkg with queryId := queryId } fuel =
      QueryExecutor.buildWhere P pkg fuel :=
    PredicateExpression.buildWhere_congr { pkg with queryId := queryId } pkg rfl rfl fuel
  unfold QueryExecutor.execute QueryExecutor.executeJoin QueryExecutor.executeScan
  simp only [predicate]
  rfl

theorem queryHandler_renamed (storage : EncryptedStorage (Except Exn) P.EncryptedVector) :
    queryHandler P storage cat serverParamSetId fuel { pkg with queryId := queryId } =
      queryHandler P storage cat serverParamSetId fuel pkg := by
  simp only [queryHandler, validate_renamed, execute_renamed]

end Renamed

end Accepted

theorem length_le_flatMap {α : Type} {f : α → List UInt8} (some : ∀ a, f a ≠ []) (l : List α) :
    l.length ≤ (l.flatMap f).length := by
  induction l with
  | nil => exact Nat.le_refl 0
  | cons a l ih =>
    have first := List.length_pos_of_ne_nil (some a)
    simp only [List.flatMap_cons, List.length_cons, List.length_append]
    omega

/-- A serialized package is longer than its lists. -/
theorem lists_le_serialize (pkg : QueryPackage) :
    pkg.predicateNodes.length ≤ pkg.serialize.length ∧
      pkg.encryptedLiterals.length ≤ pkg.serialize.length := by
  have nodes := length_le_flatMap (f := predNode.put) (fun node => List.cons_ne_nil _ _)
    pkg.predicateNodes
  have literals := length_le_flatMap (f := encryptedLiteralEntry.put)
    (fun entry => List.ne_nil_of_length_pos (by
      simp [encryptedLiteralEntry, Codec.view, Codec.pair, uint32, Codec.wordLE]))
    pkg.encryptedLiterals
  simp only [QueryPackage.serialize, queryPackage, Codec.view, Codec.pair, vector, Codec.counted,
    List.length_append]
  constructor <;> grind

/-- Some columns, with names and widths that the package can carry. -/
structure Carried (schema : TableSchema) : Prop where
  columns : schema.columns ≠ []
  named : ∀ c ∈ schema.columns, c.name ≠ []
  undotted : ∀ c ∈ schema.columns, dot ∉ c.name
  narrow : ∀ c ∈ schema.columns, width c < 2 ^ 32

section Supported

variable {P : Proto1} {cat : Catalog} {stmt : SelectStatement} {schema : TableSchema}

theorem Carried.projectable (carried : Carried schema) (distinct : stmt.projections.Nodup) :
    Projectable stmt schema where
  nonempty := by
    unfold requested
    split
    · rw [ne_eq, List.map_eq_nil_iff]
      exact carried.columns
    · assumption
  distinct := distinct
  undotted _ := carried.undotted
  narrow _ _ c hc := carried.narrow c (TableSchema.column_ok hc).1

/-- Names of a single table are looked up there by every component. -/
theorem tableHas_single (single : stmt.joins = [])
    (table : cat.getTable stmt.tableName = .ok schema) {name : Str} (plain : dot ∉ name)
    {c : ColumnSchema} (hc : schema.column name = .ok c) :
    TableHas cat (encryptorTable stmt name) (bareName name) ∧
      TableHas cat (validatorTable stmt name) (bareName name) := by
  have own : encryptorTable stmt name = stmt.tableName := by
    simp [encryptorTable, qualifierOr, findDot_eq_none_iff.mpr plain]
  have checked : validatorTable stmt name = stmt.tableName := by
    simp [validatorTable, joined?, single]
  have has : TableHas cat stmt.tableName name :=
    ⟨schema, table, TableSchema.hasColumn_iff.mpr ⟨c, hc⟩⟩
  rw [own, checked, bareName_plain plain]
  exact ⟨has, has⟩

/-- A typed condition over plain names survives. -/
theorem predicateSurvives_of_typed {names : List Str} (single : stmt.joins = [])
    (table : cat.getTable stmt.tableName = .ok schema) (carried : Carried schema)
    (plain : ∀ name ∈ names, dot ∉ name) {e : ASTExpr}
    (typed : Typed (Scanned schema names) schema e) : PredicateSurvives cat stmt schema e := by
  have operand : ∀ {e}, IntOperand (Scanned schema names) e →
      PredicateSurvives cat stmt schema e := by
    intro e h
    cases h with
    | column found _ => exact (tableHas_single single table (plain _ found.1) found.2).2
    | literal => exact trivial
  induction typed with
  | int hl hr =>
    rw [PredicateSurvives, stringComparison?_of_int hl hr]
    exact ⟨operand hl, operand hr⟩
  | @string kind l r name literal c shape _ found string bare wide _ _ =>
    obtain ⟨member, same⟩ := TableSchema.column_ok found.2
    rw [PredicateSurvives, shape]
    refine ⟨?_, c, c, found.2, bare, string, by omega, ?_⟩
    · rw [← same]
      exact carried.named c member
    · have narrow := carried.narrow c member
      rw [width, if_pos string] at narrow
      exact Nat.mod_eq_of_lt narrow
  | boolean _ _ ihl ihr => exact ⟨ihl, ihr⟩
  | notExpr _ ih => exact ih

theorem builtFrom_unique {rng : P.Rng} {base pkg pkg' : QueryPackage} {e? : Option ASTExpr}
    (built : BuiltFrom P schema rng base e? pkg) (built' : BuiltFrom P schema rng base e? pkg') :
    pkg = pkg' := by
  cases built with
  | plain =>
    cases built'
    rfl
  | filtered ok =>
    cases built' with
    | filtered ok' =>
      cases ok.symm.trans ok'
      rfl

variable (P) in
/-- The handler's answer to a package decodes to rows that show some rows, and have each
value in one map only. -/
def HandlerAnswers (storage : EncryptedStorage (Except Exn) P.EncryptedVector) (cat : Catalog)
    (serverParamSetId : Str) (fuel : Nat) (stmt : SelectStatement) (names : List Str)
    (answer : List Row) (pkg : QueryPackage) : Prop :=
  ∃ batches decoded, queryHandler P storage cat serverParamSetId fuel pkg = .ok batches ∧
    decodeAll P batches = .ok decoded ∧
    (∀ r ∈ applySortAndLimit decoded stmt.orderByColumns stmt.limitCount, Apart r) ∧
    List.Forall₂ (Shows names)
      (applySortAndLimit decoded stmt.orderByColumns stmt.limitCount) answer

theorem handlerAnswers_of_run {storage : EncryptedStorage (Except Exn) P.EncryptedVector}
    {serverParamSetId : Str} {fuel : Nat} {names : List Str} {answer : List Row}
    {pkg : QueryPackage} {batches : List EncryptedResultBatch} {decoded : List ResultRow}
    (valid : QueryValidator.validate cat serverParamSetId fuel pkg = .ok ())
    (run : QueryExecutor.execute P storage cat fuel pkg = .ok batches)
    (decodes : decodeAll P batches = .ok decoded)
    (shows : List.Forall₂ (Shows names)
      (applySortAndLimit decoded stmt.orderByColumns stmt.limitCount) answer) :
    HandlerAnswers P storage cat serverParamSetId fuel stmt names answer pkg := by
  obtain ⟨string, kinded⟩ := execute_kinded run
  refine ⟨batches, decoded, ?_, decodes, fun r mem => ?_, shows⟩
  · simp only [queryHandler, valid, run, ok_bind]
  · exact decodeAll_apart kinded decodes r (mem_of_applySortAndLimit mem)

theorem handlerAnswers_renamed {storage : EncryptedStorage (Except Exn) P.EncryptedVector}
    {serverParamSetId : Str} {fuel : Nat} {names : List Str} {answer : List Row}
    {pkg : QueryPackage} (queryId : Str)
    (answers : HandlerAnswers P storage cat serverParamSetId fuel stmt names answer pkg) :
    HandlerAnswers P storage cat serverParamSetId fuel stmt names answer
      { pkg with queryId := queryId } := by
  obtain ⟨batches, decoded, handled, decodes, apart, shows⟩ := answers
  exact ⟨batches, decoded, (queryHandler_renamed P fuel queryId storage).trans handled, decodes,
    apart, shows⟩

/-- What survives is encrypted, and the validator accepts its package. -/
theorem accepted_of_survives {plan : PhysicalPlan} (works : EncryptsScalars P)
    (accepted : analyze cat stmt = .ok schema) (planned : planQuery stmt schema = .ok plan)
    (planOf : PlanOf stmt schema plan) (survives : Survives cat stmt schema)
    (fheMeta : FHEParamsMeta) (rng : P.Rng) :
    ∃ pkg columns, encrypt stmt plan cat fheMeta rng = .ok pkg ∧
      BuiltFrom P schema rng { planFields plan fheMeta with resultSchema := columns }
        stmt.whereClause pkg ∧ Accepts cat fheMeta.paramSetId pkg := by
  have tableOk := analyze_schema accepted
  have projected := survives.projected
  rw [← planOf.projectColumns] at projected
  obtain ⟨columns, found⟩ :=
    (resultSchemaOf_ok_iff planOf).mpr fun name mem => (projected name mem).1
  obtain ⟨pkg, built, bytes, tree⟩ :=
    builtFrom_of_survives works planOf tableOk fheMeta rng survives.predicate columns
  have copies := built.copiesPlan
  obtain ⟨scan, project⟩ := (columns_iff planOf copies tableOk fun name mem =>
    (projected name mem).1).mpr ⟨survives.scanned, fun name mem => (projected name mem).2⟩
  have sent := (clientPackage_ok_iff accepted planned planOf).mpr ⟨columns, found, built⟩
  rw [clientPackage, accepted, ok_bind, planned, ok_bind] at sent
  refine ⟨pkg, columns, sent, built, accepts_iff.mpr ⟨schema, ⟨copies.version, ?_, scan, project,
    ?_, bytes⟩, tree⟩⟩
  · rw [(copies.packageOf planOf).tableName, tableOk]
  · rw [copies.fheParams]

section Query

variable {plan : PhysicalPlan} {scopes : StringMap TableSchema}
  (analyzed : Analyzed cat stmt schema scopes) (planOf : PlanOf stmt schema plan)
  (table : PlainTable schema) (carried : Carried schema) (query : SupportedQuery stmt schema)

include analyzed planOf table carried query

theorem projected_plain : ∀ name ∈ plan.projectColumns,
    dot ∉ name ∧ ∃ c, schema.column name = .ok c := fun _ mem =>
  column_of_projected analyzed query table (fun _ => carried.undotted)
    (planOf.projectColumns ▸ mem)

theorem scans_iff {name : Str} :
    name ∈ plan.scanColumns ↔ name ∈ whereReferences stmt ∨ name ∈ plan.projectColumns :=
  mem_scanColumns planOf query fun name mem =>
    (projected_plain analyzed planOf table carried query name mem).1

/-- The condition of a supported query is typed over the columns of the scan. -/
theorem where_typed (tableOk : cat.getTable stmt.tableName = .ok schema) :
    ∀ e, stmt.whereClause = some e → Typed (Scanned schema plan.scanColumns) schema e := by
  intro e he
  refine typed_of_supported tableOk (analyzed.whereOk e he) (query.whereOk e he) fun name mem => ?_
  have own : name ∈ whereReferences stmt := by rwa [whereReferences, he]
  exact ⟨query.conditions name own,
    (scans_iff analyzed planOf table carried query).mpr (Or.inl own)⟩

theorem scanned_plain (tableOk : cat.getTable stmt.tableName = .ok schema) :
    ∀ name ∈ plan.scanColumns, dot ∉ name ∧ ∃ c, schema.column name = .ok c := by
  intro name mem
  rcases (scans_iff analyzed planOf table carried query).mp mem with own | own
  · refine ⟨query.conditions name own, ?_⟩
    cases hw : stmt.whereClause with
    | none =>
      rw [whereReferences, hw] at own
      cases own
    | some e =>
      rw [whereReferences, hw] at own
      obtain ⟨c, _, hc⟩ := references_of_typed
        (where_typed analyzed planOf table carried query tableOk e hw) name own
      exact ⟨c, hc⟩
  · exact projected_plain analyzed planOf table carried query name own

theorem supported_survives (tableOk : cat.getTable stmt.tableName = .ok schema) :
    Survives cat stmt schema where
  projected name mem := by
    rw [← planOf.projectColumns] at mem
    obtain ⟨undotted, c, hc⟩ := projected_plain analyzed planOf table carried query name mem
    exact tableHas_single query.single tableOk undotted hc
  scanned r mem := by
    obtain ⟨undotted, c, hc⟩ := scanned_plain analyzed planOf table carried query tableOk r
      ((scans_iff analyzed planOf table carried query).mpr (Or.inl mem))
    rw [bareName_plain undotted]
    exact TableSchema.hasColumn_iff.mpr ⟨c, hc⟩
  predicate e he := by
    have plain := scanned_plain analyzed planOf table carried query tableOk
    exact predicateSurvives_of_typed query.single tableOk carried
      (fun name mem => (plain name mem).1)
      (where_typed analyzed planOf table carried query tableOk e he)

/-- The server answers its package. -/
theorem supported_runs (distinct : stmt.projections.Nodup) (sem : SlotSemantics P)
    {storage : EncryptedStorage (Except Exn) P.EncryptedVector} {chunks : List (List Row)}
    (tableOk : cat.getTable stmt.tableName = .ok schema)
    (stores : Stores sem storage stmt.tableName schema chunks) {fheMeta : FHEParamsMeta}
    {rng : P.Rng} {columns : List ColumnSchema} {pkg : QueryPackage}
    (built : BuiltFrom P schema rng { planFields plan fheMeta with resultSchema := columns }
      stmt.whereClause pkg) (fewNodes : pkg.predicateNodes.length < 2 ^ 32)
    (fewLiterals : pkg.encryptedLiterals.length < 2 ^ 32) {fuel : Nat}
    (enough : pkg.predicateNodes.length ≤ fuel) :
    Answers P cat storage stmt schema chunks.flatten pkg fuel := by
  have typed := where_typed analyzed planOf table carried query tableOk
  have plain := scanned_plain analyzed planOf table carried query tableOk
  obtain ⟨other, built', runs⟩ := filters_of_typed sem typed rng
    { planFields plan fheMeta with resultSchema := columns } rfl
  cases builtFrom_unique built built'
  obtain ⟨where?, filters, rebuilt⟩ := runs fewNodes fewLiterals
  have copies := built.copiesPlan
  have named : pkg.tableName = stmt.tableName := copies.tables.1.trans planOf.tableName
  have single : pkg.hasJoin = false := by
    rw [copies.tables.2.2.1, planOf.hasJoin, joined?, query.single]
    rfl
  rw [← copies.scanColumns] at filters
  refine answers_of_scan sem (named ▸ tableOk) table
    (named ▸ stores) query (carried.projectable distinct) single (fun name mem => ?_)
    (fun name mem => ?_) (copies.projectColumns.trans planOf.projectColumns) filters
    (rebuilt fuel enough)
  · exact (plain name (copies.scanColumns ▸ mem)).2
  · rw [copies.scanColumns]
    exact (scans_iff analyzed planOf table carried query).mpr
      (Or.inr (copies.projectColumns ▸ mem))

end Query

/-- What the client sends of a supported query is answered by the handler with the rows
the query selects. -/
theorem supported_answered (sem : SlotSemantics P)
    {storage : EncryptedStorage (Except Exn) P.EncryptedVector} {chunks : List (List Row)}
    (works : EncryptsScalars P) (accepted : analyze cat stmt = .ok schema)
    (table : PlainTable schema) (carried : Carried schema)
    (stores : Stores sem storage stmt.tableName schema chunks)
    (query : SupportedQuery stmt schema) (distinct : stmt.projections.Nodup)
    (fheMeta : FHEParamsMeta) (rng : P.Rng) :
    ∃ plan pkg, planQuery stmt schema = .ok plan ∧ PlanOf stmt schema plan ∧
      encrypt stmt plan cat fheMeta rng = .ok pkg ∧
      ∃ bound, ∀ fuel, bound ≤ fuel → ∀ queryId,
        { pkg with queryId := queryId : QueryPackage }.serialize.length < 2 ^ 32 →
          HandlerAnswers P storage cat fheMeta.paramSetId fuel stmt (requested stmt schema)
            (select stmt chunks.flatten) { pkg with queryId := queryId } := by
  have tableOk := analyze_schema accepted
  obtain ⟨scopes, analyzed⟩ := analyze_ok_iff.mp accepted
  obtain ⟨plan, planned, planOf⟩ := planQuery_analyzed analyzed
  have survives := supported_survives analyzed planOf table carried query tableOk
  obtain ⟨pkg, columns, encrypted, built, accepts⟩ :=
    accepted_of_survives works accepted planned planOf survives fheMeta rng
  obtain ⟨bound, validates⟩ := validates_from accepts
  refine ⟨plan, pkg, planned, planOf, encrypted, max bound pkg.predicateNodes.length,
    fun fuel enough queryId short => handlerAnswers_renamed queryId ?_⟩
  obtain ⟨deep, wide⟩ := Nat.max_le.mp enough
  obtain ⟨fewNodes, fewLiterals⟩ := lists_le_serialize { pkg with queryId := queryId }
  obtain ⟨batches, decoded, run, decodes, shows⟩ := supported_runs analyzed planOf table carried
    query distinct sem tableOk stores built (Nat.lt_of_le_of_lt fewNodes short)
    (Nat.lt_of_le_of_lt fewLiterals short) wide
  exact handlerAnswers_of_run (validates fuel deep) run decodes shows

end Supported

end ServerHandler

end FheSql
