import FheSql.LiteralRange

/-!
# The two overloads of `encrypt`

The tests and the benchmark hand the encryptor the table's schema, the client the whole
catalog. Over one table the overloads copy the same plan and build the same predicate,
but they name the columns of the result by rules of their own.
-/

namespace FheSql.OverloadAgreement

open ByteText Throwing SemanticAnalyzer AnalyzedStatement ClientPipeline StatementPlan
open QueryEncryptor PredicateCode PipelineAcceptance LiteralRange

section Agreement

variable (P : Proto1)

/-- Entries that encrypt the literals under the ids from 0 on. -/
def EncryptsAll (literals : List (Str × Int)) (entries : List EncryptedLiteralEntry) : Prop :=
  List.Forall₂ (fun lit entry => Encrypts P lit.1 lit.2 entry) (literals.zipIdx 0) entries

/-- Packages that are equal but for their literals, which encrypt the same values under the
same ids. -/
def SameQuery (pkg pkg' : QueryPackage) : Prop :=
  pkg' = { pkg with encryptedLiterals := pkg'.encryptedLiterals } ∧
    ∃ literals, EncryptsAll P literals pkg.encryptedLiterals ∧
      EncryptsAll P literals pkg'.encryptedLiterals

variable {P}

/-- Both overloads throw or build the same query, each with a random source of its own. -/
def Agree (cat : Catalog) (stmt : SelectStatement) (schema : TableSchema) (plan : PhysicalPlan)
    (fheMeta : FHEParamsMeta) (rng rng' : P.Rng) : Prop :=
  ((∃ e, encryptWithSchema stmt plan schema fheMeta rng = .error e) ∧
      ∃ e, encrypt stmt plan cat fheMeta rng' = .error e) ∨
    ∃ pkg pkg', encryptWithSchema stmt plan schema fheMeta rng = .ok pkg ∧
      encrypt stmt plan cat fheMeta rng' = .ok pkg' ∧ SameQuery P pkg pkg'

end Agreement

/-- The WHERE clause can be laid out, and proto1 encrypts its scalars. -/
def WhereEncrypts (accepts : Int → Prop) (schema : TableSchema) (whereClause : Option ASTExpr) :
    Prop :=
  ∀ e, whereClause = some e → LaysOut schema e ∧ ∀ v ∈ scalars schema e, accepts v

/-- Both overloads miss a projected column: the schema one in the table, the catalog one in
the table that the qualifier leads to. -/
def BothMiss (cat : Catalog) (stmt : SelectStatement) (schema : TableSchema) : Prop :=
  (∃ name ∈ LogicalPlanner.projectColumns stmt schema, schema.hasColumn (bareName name) = false) ∧
    ∃ name ∈ LogicalPlanner.projectColumns stmt schema,
      ¬ TableHas cat (encryptorTable stmt name) (bareName name)

/-- The loop of the schema overload that copies its columns into the result schema. -/
def schemaColumns (schema : TableSchema) (plan : PhysicalPlan) :
    Except Exn (List ColumnSchema) :=
  plan.projectColumns.mapM fun col => schema.column (bareName col)

variable {P : Proto1} {accepts : Int → Prop} {cat : Catalog} {stmt : SelectStatement}
  {schema : TableSchema} {plan : PhysicalPlan} {fheMeta : FHEParamsMeta} {rng rng' : P.Rng}
  {pkg pkg' : QueryPackage}

theorem encryptWithSchema_ok_iff :
    encryptWithSchema stmt plan schema fheMeta rng = .ok pkg ↔
      ∃ columns, schemaColumns schema plan = .ok columns ∧
        BuiltFrom P schema rng { planFields plan fheMeta with resultSchema := columns }
          stmt.whereClause pkg := by
  have copies : (fun col => schema.column (bareName col) >>= pure) =
      fun col => schema.column (bareName col) := funext fun col => bind_pure _
  have steps : encryptWithSchema stmt plan schema fheMeta rng =
      schemaColumns schema plan >>= fun columns => attachPredicate (.ok schema) stmt
        { planFields plan fheMeta with resultSchema := columns } rng := by
    rw [schemaColumns, ← copies]
    rfl
  rw [steps, bind_ok_iff]
  exact exists_congr fun columns => and_congr_right fun _ => attachPredicate_ok_iff

theorem encrypt_ok_iff (table : cat.getTable plan.tableName = .ok schema) :
    encrypt stmt plan cat fheMeta rng = .ok pkg ↔
      ∃ columns, resultSchemaOf cat plan = .ok columns ∧
        BuiltFrom P schema rng { planFields plan fheMeta with resultSchema := columns }
          stmt.whereClause pkg := by
  have steps : encrypt stmt plan cat fheMeta rng =
      resultSchemaOf cat plan >>= fun columns => attachPredicate (cat.getTable plan.tableName) stmt
        { planFields plan fheMeta with resultSchema := columns } rng := rfl
  rw [steps, table, bind_ok_iff]
  exact exists_congr fun columns => and_congr_right fun _ => attachPredicate_ok_iff

theorem schemaColumns_ok_iff :
    (∃ columns, schemaColumns schema plan = .ok columns) ↔
      ∀ name ∈ plan.projectColumns, schema.hasColumn (bareName name) = true := by
  rw [schemaColumns, mapM_isOk_iff]
  exact forall₂_congr fun name _ => TableSchema.hasColumn_iff.symm

/-- Whether the predicate can be attached depends on the WHERE clause only. -/
theorem builtFrom_exists_iff (encrypts : EncryptsJust P accepts) (base : QueryPackage) :
    (∃ pkg, BuiltFrom P schema rng base stmt.whereClause pkg) ↔
      WhereEncrypts accepts schema stmt.whereClause := by
  cases clause : stmt.whereClause with
  | none => exact iff_of_true ⟨_, .plain⟩ nofun
  | some e =>
    constructor
    · rintro ⟨pkg, built⟩ e' same
      cases same
      cases built with
      | filtered ok => exact (buildPredNode_ok_iff encrypts rng).mp ⟨_, _, ok⟩
    · intro h
      obtain ⟨root, s, ok⟩ := (buildPredNode_ok_iff encrypts rng).mpr (h e rfl)
      exact ⟨_, .filtered ok⟩

/-- An overload succeeds when it finds the columns of the result and can attach the
predicate. -/
theorem builds_iff (encrypts : EncryptsJust P accepts) {columns? : Except Exn (List ColumnSchema)}
    {run : Except Exn QueryPackage} (steps : ∀ pkg, run = .ok pkg ↔ ∃ columns,
      columns? = .ok columns ∧ BuiltFrom P schema rng
        { planFields plan fheMeta with resultSchema := columns } stmt.whereClause pkg) :
    (∃ pkg, run = .ok pkg) ↔ (∃ columns, columns? = .ok columns) ∧
      WhereEncrypts accepts schema stmt.whereClause := by
  simp only [steps]
  constructor
  · rintro ⟨pkg, columns, found, built⟩
    exact ⟨⟨columns, found⟩, (builtFrom_exists_iff encrypts _).mp ⟨pkg, built⟩⟩
  · rintro ⟨⟨columns, found⟩, works⟩
    obtain ⟨pkg, built⟩ := (builtFrom_exists_iff encrypts _).mpr works
    exact ⟨pkg, columns, found, built⟩

/-- From one package both random sources build the same query. -/
theorem sameQuery_of_builtFrom {base : QueryPackage} (empty : base.encryptedLiterals = [])
    {whereClause : Option ASTExpr} (built : BuiltFrom P schema rng base whereClause pkg)
    (built' : BuiltFrom P schema rng' base whereClause pkg') : SameQuery P pkg pkg' := by
  cases built with
  | plain =>
    cases built'
    refine ⟨rfl, [], ?_, ?_⟩ <;>
    · rw [empty]
      exact .nil
  | @filtered e root s ok =>
    cases built' with
    | @filtered _ root' s' ok' =>
      obtain ⟨code, t, flat, sent, _, rfl⟩ := (buildPredNode_splits schema e _ 0 root s rfl).mp ok
      obtain ⟨code', t', flat', sent', _, rfl⟩ :=
        (buildPredNode_splits schema e _ 0 root' s' rfl).mp ok'
      obtain ⟨entries, pushed, all⟩ := encryptLiterals_entries (l := 0) sent rfl
      obtain ⟨entries', pushed', all'⟩ := encryptLiterals_entries (l := 0) sent' rfl
      have same : code' = code := Except.ok.inj (flat'.symm.trans flat)
      rw [initialState, List.nil_append] at pushed pushed'
      refine ⟨by rw [same]; rfl, code.literals, ?_, ?_⟩
      · rw [EncryptsAll]
        exact pushed ▸ all
      · rw [EncryptsAll]
        exact pushed' ▸ same ▸ all'

theorem SameQuery.resultSchema (h : SameQuery P pkg pkg') :
    pkg'.resultSchema = pkg.resultSchema := by
  rw [h.1]

theorem resultSchema_of_builtFrom {base : QueryPackage} {whereClause : Option ASTExpr}
    (built : BuiltFrom P schema rng base whereClause pkg) :
    pkg.resultSchema = base.resultSchema := by
  cases built <;> rfl

theorem bareName_eq_self_iff {name : Str} : bareName name = name ↔ dot ∉ name := by
  refine ⟨fun same => ?_, bareName_plain⟩
  rw [← findDot_eq_none_iff]
  cases found : findDot name with
  | none => rfl
  | some d =>
    rw [bareName, found] at same
    have shorter := congrArg List.length same
    rw [List.length_drop] at shorter
    have nonempty : 0 < name.length := by
      cases name with
      | nil => cases found
      | cons => exact Nat.succ_pos _
    omega

/-- The schema overload names a column by its bare name, the catalog one as it is projected. -/
theorem names_of_schemaColumns {columns : List ColumnSchema}
    (h : schemaColumns schema plan = .ok columns) :
    columns.map (·.name) = plan.projectColumns.map bareName := by
  have all := mapM_ok_iff.mp h
  clear h
  generalize plan.projectColumns = names at all
  induction all with
  | nil => rfl
  | cons found _ ih =>
    rw [List.map_cons, List.map_cons, ih, (TableSchema.column_ok found).2]

theorem names_of_resultSchemaOf {columns : List ColumnSchema}
    (h : resultSchemaOf cat plan = .ok columns) :
    columns.map (·.name) = plan.projectColumns := by
  have all := mapM_ok_iff.mp h
  clear h
  generalize plan.projectColumns = names at all
  induction all with
  | nil => rfl
  | cons head _ ih =>
    obtain ⟨t, _, built⟩ := bind_ok_iff.mp head
    obtain ⟨cs, _, built⟩ := bind_ok_iff.mp built
    cases built
    rw [List.map_cons, ih]

/-- Over names without a dot both loops do the same. -/
theorem resultSchemaOf_plain (table : cat.getTable plan.tableName = .ok schema)
    (plain : ∀ name ∈ plan.projectColumns, dot ∉ name) :
    resultSchemaOf cat plan = schemaColumns schema plan := by
  rw [resultSchemaOf, schemaColumns]
  apply mapM_congr
  intro name mem
  have own : projectedTable plan name = plan.tableName := by
    rw [projectedTable, qualifierOr_plain (plain name mem), if_pos rfl]
  rw [own, table, ok_bind]
  cases found : schema.column (bareName name) with
  | error e => rfl
  | ok cs =>
    have named := (TableSchema.column_ok found).2
    rw [bareName_plain (plain name mem)] at named
    rw [ok_bind, ← named]
    rfl

/-- A projected name without a dot is a column of the table. -/
theorem hasColumn_of_plain (accepted : analyze cat stmt = .ok schema) (single : stmt.joins = [])
    {name : Str} (mem : name ∈ LogicalPlanner.projectColumns stmt schema) (plain : dot ∉ name) :
    schema.hasColumn (bareName name) = true := by
  obtain ⟨scopes, analyzed⟩ := analyze_ok_iff.mp accepted
  have resolved : ∀ {c}, resolve scopes name = .ok c → schema.hasColumn name = true := fun h =>
    TableSchema.hasColumn_iff.mpr ⟨_, resolve_single analyzed single plain h⟩
  rw [bareName_plain plain]
  rw [LogicalPlanner.projectColumns, mem_foldl_pushUnique] at mem
  rcases mem with mem | mem
  · by_cases star : stmt.projections = []
    · rw [if_pos star] at mem
      obtain ⟨c, here, rfl⟩ := List.mem_map.mp mem
      exact TableSchema.hasColumn_of_mem here
    · rw [if_neg star] at mem
      obtain ⟨c, found⟩ := analyzed.projections name mem
      exact resolved found
  · obtain ⟨item, here, rfl⟩ := List.mem_map.mp mem
    obtain ⟨c, found⟩ := analyzed.orderBy item here
    exact resolved found

theorem throws_iff {α : Type} {x : Except Exn α} : (∃ e, x = .error e) ↔ ¬ ∃ a, x = .ok a := by
  cases x <;> simp

/-- If both overloads build the same query, no projected name is qualified. -/
theorem plain_of_sameQuery (table : cat.getTable plan.tableName = .ok schema)
    (ok : encryptWithSchema stmt plan schema fheMeta rng = .ok pkg)
    (ok' : encrypt stmt plan cat fheMeta rng' = .ok pkg') (same : SameQuery P pkg pkg') :
    ∀ name ∈ plan.projectColumns, dot ∉ name := by
  obtain ⟨columns, found, built⟩ := encryptWithSchema_ok_iff.mp ok
  obtain ⟨columns', found', built'⟩ := (encrypt_ok_iff table).mp ok'
  have equal : columns' = columns := by
    have result := same.resultSchema
    rwa [resultSchema_of_builtFrom built, resultSchema_of_builtFrom built'] at result
  have names := names_of_resultSchemaOf found'
  rw [equal, names_of_schemaColumns found] at names
  have fixed : plan.projectColumns.map bareName = plan.projectColumns.map id := by
    rw [names, List.map_id]
  exact fun name mem => bareName_eq_self_iff.mp (List.map_inj_left.mp fixed name mem)

/-- If none is, two packages they build are the same query. -/
theorem sameQuery_of_plain (table : cat.getTable plan.tableName = .ok schema)
    (ok : encryptWithSchema stmt plan schema fheMeta rng = .ok pkg)
    (ok' : encrypt stmt plan cat fheMeta rng' = .ok pkg')
    (plain : ∀ name ∈ plan.projectColumns, dot ∉ name) : SameQuery P pkg pkg' := by
  obtain ⟨columns, found, built⟩ := encryptWithSchema_ok_iff.mp ok
  obtain ⟨columns', found', built'⟩ := (encrypt_ok_iff table).mp ok'
  rw [resultSchemaOf_plain table plain, found] at found'
  cases found'
  exact sameQuery_of_builtFrom rfl built built'

/-- For a statement over one table that the analyzer accepts, the overloads agree if and
only if no projected name (with * expanded and ORDER BY appended) is qualified, or the
WHERE clause cannot be encrypted, or both miss a projected column. -/
theorem overloads_agree_iff (encrypts : EncryptsJust P accepts)
    (accepted : analyze cat stmt = .ok schema) (single : stmt.joins = [])
    (planned : planQuery stmt schema = .ok plan) (fheMeta : FHEParamsMeta) (rng rng' : P.Rng) :
    Agree cat stmt schema plan fheMeta rng rng' ↔
      (∀ name ∈ LogicalPlanner.projectColumns stmt schema, dot ∉ name) ∨
        ¬ WhereEncrypts accepts schema stmt.whereClause ∨ BothMiss cat stmt schema := by
  obtain ⟨scopes, analyzed⟩ := analyze_ok_iff.mp accepted
  obtain ⟨plan', planned', planOf⟩ := planQuery_analyzed analyzed
  obtain rfl : plan' = plan := Except.ok.inj (planned'.symm.trans planned)
  have table : cat.getTable plan'.tableName = .ok schema := by
    rw [planOf.tableName]
    exact analyze_schema accepted
  have own : (∃ pkg, encryptWithSchema stmt plan' schema fheMeta rng = .ok pkg) ↔
      (∃ columns, schemaColumns schema plan' = .ok columns) ∧
        WhereEncrypts accepts schema stmt.whereClause :=
    builds_iff encrypts fun _ => encryptWithSchema_ok_iff
  have other : (∃ pkg, encrypt stmt plan' cat fheMeta rng' = .ok pkg) ↔
      (∃ columns, resultSchemaOf cat plan' = .ok columns) ∧
        WhereEncrypts accepts schema stmt.whereClause :=
    builds_iff encrypts fun _ => encrypt_ok_iff table
  have miss : BothMiss cat stmt schema ↔ (¬ ∃ columns, schemaColumns schema plan' = .ok columns) ∧
      ¬ ∃ columns, resultSchemaOf cat plan' = .ok columns := by
    rw [schemaColumns_ok_iff, resultSchemaOf_ok_iff planOf, planOf.projectColumns, BothMiss]
    push Not
    simp only [Bool.not_eq_true]
  rw [Agree, throws_iff, throws_iff, own, other, miss, ← planOf.projectColumns]
  constructor
  · rintro (⟨fails, fails'⟩ | ⟨pkg, pkg', built, built', same⟩)
    · by_cases works : WhereEncrypts accepts schema stmt.whereClause
      · exact Or.inr (Or.inr
          ⟨fun found => fails ⟨found, works⟩, fun found => fails' ⟨found, works⟩⟩)
      · exact Or.inr (Or.inl works)
    · exact Or.inl (plain_of_sameQuery table built built' same)
  · rintro (plain | fails | ⟨missed, missed'⟩)
    · have known : ∃ columns, schemaColumns schema plan' = .ok columns := by
        rw [schemaColumns_ok_iff, planOf.projectColumns]
        intro name mem
        apply hasColumn_of_plain accepted single mem
        exact plain name (planOf.projectColumns ▸ mem)
      have alike := resultSchemaOf_plain table plain
      by_cases works : WhereEncrypts accepts schema stmt.whereClause
      · obtain ⟨pkg, ok⟩ := own.mpr ⟨known, works⟩
        obtain ⟨pkg', ok'⟩ := other.mpr ⟨alike ▸ known, works⟩
        exact Or.inr ⟨pkg, pkg', ok, ok', sameQuery_of_plain table ok ok' plain⟩
      · exact Or.inl ⟨fun ok => works ok.2, fun ok => works ok.2⟩
    · exact Or.inl ⟨fun ok => fails ok.2, fun ok => fails ok.2⟩
    · exact Or.inl ⟨fun ok => missed ok.1, fun ok => missed' ok.1⟩

/-- `SELECT projected FROM employees e WHERE age > 30`. -/
def olderThan30 (projected : Str) : SelectStatement where
  projections := [projected]
  tableName := str "employees"
  tableAlias := str "e"
  whereClause := some (.comparison .GreaterThan (.columnRef (str "age")) (.intLiteral 30))

theorem name_agrees : ∃ schema plan,
    analyze makeEmployeesCatalog (olderThan30 (str "name")) = .ok schema ∧
      planQuery (olderThan30 (str "name")) schema = .ok plan ∧
      Agree (P := plainProto1 1) makeEmployeesCatalog (olderThan30 (str "name")) schema plan {}
        () () :=
  ⟨_, _, rfl, rfl, (overloads_agree_iff (plain_encryptsJust 1) rfl rfl rfl {} () ()).mpr
    (Or.inl (by decide))⟩

/-- A qualified name is kept by one overload and stripped by the other. -/
theorem qualified_name_differs :
    ¬ ∀ (P : Proto1) (cat : Catalog) (stmt : SelectStatement) (schema : TableSchema)
      (plan : PhysicalPlan) (fheMeta : FHEParamsMeta) (rng rng' : P.Rng),
      analyze cat stmt = .ok schema → stmt.joins = [] → planQuery stmt schema = .ok plan →
        Agree cat stmt schema plan fheMeta rng rng' := by
  intro all
  rcases all (plainProto1 1) makeEmployeesCatalog (olderThan30 (str "e.name")) _ _ {} () () rfl rfl
    rfl with ⟨⟨_, failed⟩, _⟩ | ⟨pkg, pkg', ok, ok', same⟩
  · cases failed
  · have result := same.resultSchema
    cases ok
    cases ok'
    exact absurd result (by decide)

end FheSql.OverloadAgreement
