import FheSql.NameResolution

/-!
# What a failing analysis throws

The client handles `SemanticError` around `analyze` and nothing else. The lookups of
`TableSchema::column` and `Catalog::getTable` throw `std::runtime_error`; all of them
stand behind a test but one, the qualified name in a comparison.
-/

namespace FheSql.AnalysisErrors

open ByteText Throwing SemanticAnalyzer AnalyzedStatement PipelineAcceptance NameResolution

/-- A `SemanticError`. -/
def Semantic (e : Exn) : Prop := ∃ what, e = .semanticError what

section Escapes

variable (cat : Catalog) (stmt : SelectStatement)

/-- A qualified name whose alias stands for a table without the column. -/
def Missing (ref : Str) : Prop :=
  ∃ d table, findDot ref = some d ∧ firstTable stmt (ref.take d) = some table ∧
    ¬ TableHas cat table (ref.drop (d + 1))

/-- The column of a name in a comparison. -/
def Column (ref : Str) (c : ColumnSchema) : Prop :=
  ∃ table t, whereBinding cat stmt ref = some table ∧ cat.getTable table = .ok t ∧
    t.column (bareName ref) = .ok c

/-- A comparison one of whose names is looked up in vain, the left one first. -/
def ComparisonEscapes : ASTExpr → ASTExpr → Prop
  | .columnRef a, .intLiteral _ => Missing cat stmt a
  | .columnRef a, .stringLiteral _ => Missing cat stmt a
  | .intLiteral _, .columnRef a => Missing cat stmt a
  | .stringLiteral _, .columnRef a => Missing cat stmt a
  | .columnRef a, .columnRef b =>
    Missing cat stmt a ∨ (∃ c, Column cat stmt a c) ∧ Missing cat stmt b
  | _, _ => False

/-- The comparisons without a fault. -/
def ComparisonFits (kind : CompareKind) : ASTExpr → ASTExpr → Prop
  | .columnRef a, .intLiteral _ => ∃ c, Column cat stmt a c ∧ c.type = .INT64
  | .intLiteral _, .columnRef a => ∃ c, Column cat stmt a c ∧ c.type = .INT64
  | .columnRef a, .stringLiteral v =>
    CompareKind.isOrdering kind = false ∧ ∃ c, Column cat stmt a c ∧ c.type = .STRING ∧
      c.maxLength ≠ 0 ∧ v.length ≤ c.maxLength
  | .stringLiteral v, .columnRef a =>
    CompareKind.isOrdering kind = false ∧ ∃ c, Column cat stmt a c ∧ c.type = .STRING ∧
      c.maxLength ≠ 0 ∧ v.length ≤ c.maxLength
  | .columnRef a, .columnRef b => ∃ ca cb, Column cat stmt a ca ∧ Column cat stmt b cb ∧
      (CompareKind.isOrdering kind = true → ca.type = .INT64 ∧ cb.type = .INT64)
  | _, _ => False

/-- The expressions without a fault. -/
def Fits : ASTExpr → Prop
  | .columnRef ref => findDot ref ≠ none ∨ ∃ table ∈ itemTables stmt, TableHas cat table ref
  | .intLiteral _ => True
  | .stringLiteral _ => True
  | .comparison kind l r => ComparisonFits cat stmt kind l r
  | .boolean _ l r => Fits l ∧ Fits r
  | .notExpr child => Fits child

/-- The expressions whose first fault, from left to right, is a lookup in vain. -/
def WhereEscapes : ASTExpr → Prop
  | .comparison _ l r => ComparisonEscapes cat stmt l r
  | .boolean _ l r => WhereEscapes l ∨ Fits cat stmt l ∧ WhereEscapes r
  | .notExpr child => WhereEscapes child
  | _ => False

/-- The statements whose first fault is a lookup in vain: all tables are known, the
SELECT list has no fault, WHERE has such a one. -/
structure Escapes : Prop where
  named : stmt.tableName ≠ []
  known : ∀ table ∈ itemTables stmt, cat.hasTable table = true
  projections : ∀ col ∈ stmt.projections, ∃ table, scopeBinding cat stmt col = some table
  inWhere : ∃ e, stmt.whereClause = some e ∧ WhereEscapes cat stmt e

end Escapes

variable {cat : Catalog} {stmt : SelectStatement} {schema : TableSchema}
  {scopes : StringMap TableSchema}

theorem getTable_throws {table : Str} (known : cat.hasTable table = true) (p : Exn → Prop) :
    ThrowsOnly p (cat.getTable table) := by
  obtain ⟨t, ht⟩ := Catalog.hasTable_iff.mp known
  rw [ht]
  exact throwsOnly_ok t

theorem column_throws {t : TableSchema} {name : Str} (has : t.hasColumn name = true)
    (p : Exn → Prop) : ThrowsOnly p (t.column name) := by
  obtain ⟨c, hc⟩ := TableSchema.hasColumn_iff.mp has
  rw [hc]
  exact throwsOnly_ok c

theorem column_throws_iff {t : TableSchema} {name : Str} :
    ThrowsOnly Semantic (t.column name) ↔ t.hasColumn name = true := by
  constructor
  · intro h
    by_contra missing
    obtain ⟨what, absurd⟩ := h _ (TableSchema.column_error (by simpa using missing))
    cases absurd
  · exact fun has => column_throws has Semantic

theorem semantic (what : Str) : Semantic (.semanticError what) := ⟨what, rfl⟩

/-- The resolver of the statement tests every name before it looks it up. -/
theorem resolve_throws (ref : Str) : ThrowsOnly Semantic (resolve scopes ref) := by
  unfold resolve
  cases findDot ref with
  | some d =>
    simp only
    cases scopes.lookup (ref.take d) with
    | none => exact throwsOnly_error_iff.mpr (semantic _)
    | some t =>
      refine (throwsOnly_guard_iff (semantic _)).mpr fun has => ?_
      exact column_throws (by simpa using has) Semantic
  | none =>
    refine throwsOnly_bind_iff.mpr ⟨throwsOnly_foldlM (fun found t _ => ?_) none, ?_⟩
    · unfold resolveStep
      cases has : t.hasColumn ref with
      | false => exact throwsOnly_ok found
      | true =>
        simp only [if_true, throw_eq_error, error_bind]
        refine (throwsOnly_guard_iff (semantic _)).mpr fun _ => throwsOnly_bind_iff.mpr ?_
        exact ⟨column_throws has Semantic, fun c _ => throwsOnly_ok (some c)⟩
    · intro found _
      cases found with
      | none => exact throwsOnly_error_iff.mpr (semantic _)
      | some c => exact throwsOnly_ok c

theorem scopesOf_throws : ThrowsOnly Semantic (scopesOf cat stmt schema) := by
  refine throwsOnly_foldlM (fun scopes join _ => ?_) _
  simp only [addJoinScope, throw_eq_error, error_bind]
  refine (throwsOnly_guard_iff (semantic _)).mpr fun known => throwsOnly_bind_iff.mpr ?_
  exact ⟨getTable_throws (by simpa using known) Semantic, fun t _ => throwsOnly_ok _⟩

theorem scopesOf_exists_iff :
    (∃ scopes, scopesOf cat stmt schema = .ok scopes) ↔
      ∀ join ∈ stmt.joins, cat.hasTable join.rightTable.tableName = true := by
  constructor
  · rintro ⟨scopes, scopesOk⟩ join mem
    exact Catalog.hasTable_iff.mpr (joined_known scopesOk join mem)
  · have loop : ∀ (joins : List JoinClause) (start : StringMap TableSchema),
        (∀ join ∈ joins, cat.hasTable join.rightTable.tableName = true) →
        ∃ scopes, joins.foldlM (addJoinScope cat) start = .ok scopes := by
      intro joins
      induction joins with
      | nil => exact fun start _ => ⟨start, rfl⟩
      | cons join joins ih =>
        intro start known
        obtain ⟨t, ht⟩ := Catalog.hasTable_iff.mp (known join List.mem_cons_self)
        obtain ⟨scopes, run⟩ := ih (start.insert join.rightTable.aliasName t)
          fun j mem => known j (List.mem_cons_of_mem join mem)
        refine ⟨scopes, ?_⟩
        rw [List.foldlM_cons, addJoinScope, known join List.mem_cons_self, ht]
        exact run
    exact loop stmt.joins _

theorem validateJoin_throws (join : JoinClause) :
    ThrowsOnly Semantic (validateJoin scopes join) := by
  unfold validateJoin
  split
  · refine throwsOnly_bind_iff.mpr ⟨resolve_throws _, fun lcs _ => ?_⟩
    refine throwsOnly_bind_iff.mpr ⟨resolve_throws _, fun rcs _ => ?_⟩
    simp only [throw_eq_error, error_bind, pure_eq_ok]
    refine (throwsOnly_guard_iff (semantic _)).mpr fun _ => ?_
    exact (throwsOnly_guard_iff (semantic _)).mpr fun _ => throwsOnly_ok _
  · exact throwsOnly_error_iff.mpr (semantic _)

theorem finds_iff_column {ref : Str} {c : ColumnSchema} :
    Finds cat stmt ref c ↔ Column cat stmt ref c := resolveInComparison_ok_iff

/-- The resolver of the comparisons looks a qualified name up untested. -/
theorem resolveInComparison_throws_iff
    (known : ∀ table ∈ itemTables stmt, cat.hasTable table = true)
    {ref : Str} :
    ThrowsOnly Semantic (resolveInComparison cat stmt ref) ↔ ¬ Missing cat stmt ref := by
  have lookup : ∀ table ∈ itemTables stmt, ∀ col, ThrowsOnly Semantic (do
      let t ← cat.getTable table
      t.column col) ↔ TableHas cat table col := by
    intro table mem col
    obtain ⟨t, ht⟩ := Catalog.hasTable_iff.mp (known table mem)
    rw [ht, ok_bind, column_throws_iff, tableHas_iff ht]
  unfold resolveInComparison Missing firstTable
  cases hd : findDot ref with
  | some d =>
    simp only [Option.some.injEq, exists_and_left, exists_eq_left']
    by_cases own : ref.take d = stmt.tableAlias ∨ stmt.tableAlias = [] ∧ ref.take d = stmt.tableName
    · simp only [if_pos own, Option.some.injEq, exists_eq_left', not_not]
      exact lookup _ List.mem_cons_self _
    · simp only [if_neg own]
      cases found : stmt.joins.find? fun join => ref.take d == join.rightTable.aliasName with
      | none => simp [throwsOnly_error_iff, semantic]
      | some join =>
        simp only [Option.map_some, Option.some.injEq, exists_eq_left', not_not]
        refine lookup _ (List.mem_cons_of_mem _ ?_) _
        exact List.mem_map_of_mem (List.mem_of_find?_eq_some found)
  | none =>
    refine iff_of_true ?_ (by simp)
    refine throwsOnly_bind_iff.mpr ⟨getTable_throws (known _ List.mem_cons_self) Semantic, ?_⟩
    intro t _
    simp only [throw_eq_error, error_bind]
    refine (throwsOnly_guard_iff (semantic _)).mpr fun has => ?_
    exact column_throws (by simpa using has) Semantic

section Comparisons

variable {ref : Str} {c : ColumnSchema}

theorem lookup_throws_iff (known : ∀ table ∈ itemTables stmt, cat.hasTable table = true)
    {rest : Except Exn Unit} (after : ∀ c, Finds cat stmt ref c → ThrowsOnly Semantic rest) :
    ThrowsOnly Semantic (do
      discard (resolveInComparison cat stmt ref)
      rest) ↔ ¬ Missing cat stmt ref := by
  rw [throwsOnly_bind_iff, throwsOnly_discard_iff, resolveInComparison_throws_iff known]
  refine and_iff_left_of_imp fun _ u found => ?_
  obtain ⟨c, hc⟩ := discard_ok_iff.mp found
  exact after c hc

theorem found_throws (found : Finds cat stmt ref c) :
    ThrowsOnly Semantic (resolveInComparison cat stmt ref) := by
  rw [show resolveInComparison cat stmt ref = .ok c from found]
  exact throwsOnly_ok c

theorem checkNumeric_throws (found : Finds cat stmt ref c) :
    ThrowsOnly Semantic (checkNumeric cat stmt ref) := by
  refine throwsOnly_bind_iff.mpr ⟨found_throws found, fun d _ => ?_⟩
  exact (throwsOnly_guard_iff (semantic _)).mpr fun _ => throwsOnly_ok _

theorem checkLiteralType_throws (found : Finds cat stmt ref c) (literal : ASTExpr) :
    ThrowsOnly Semantic (checkLiteralType cat stmt ref literal) := by
  refine throwsOnly_bind_iff.mpr ⟨found_throws found, fun d _ => ?_⟩
  exact (throwsOnly_guard_iff (semantic _)).mpr fun _ => throwsOnly_ok _

theorem int_rest_throws {kind : CompareKind} {v : Int} (found : Finds cat stmt ref c) :
    ThrowsOnly Semantic (do
      checkLiteralType cat stmt ref (.intLiteral v)
      if CompareKind.isOrdering kind = true then do
        checkNumeric cat stmt ref
        Except.ok ()
      else Except.ok ()) := by
  refine throwsOnly_bind_iff.mpr ⟨checkLiteralType_throws found _, fun _ _ => ?_⟩
  cases CompareKind.isOrdering kind with
  | false => exact throwsOnly_ok ()
  | true => exact throwsOnly_bind_iff.mpr ⟨checkNumeric_throws found, fun _ _ => throwsOnly_ok ()⟩

theorem string_rest_throws {kind : CompareKind} {v : Str} {ordering operator mismatch long : Str}
    (found : Finds cat stmt ref c) :
    ThrowsOnly Semantic (do
      checkLiteralType cat stmt ref (.stringLiteral v)
      if CompareKind.isOrdering kind = true then do
        checkNumeric cat stmt ref
        Except.error (.semanticError ordering)
      else if kind ≠ CompareKind.Equal ∧ kind ≠ CompareKind.NotEqual then
        Except.error (.semanticError operator)
      else do
        let column ← resolveInComparison cat stmt ref
        if column.type ≠ DataType.STRING then Except.error (.semanticError mismatch)
        else if column.maxLength = 0 ∨ v.length > column.maxLength then
          Except.error (.semanticError long)
        else Except.ok ()) := by
  refine throwsOnly_bind_iff.mpr ⟨checkLiteralType_throws found _, fun _ _ => ?_⟩
  cases CompareKind.isOrdering kind with
  | true =>
    exact throwsOnly_bind_iff.mpr
      ⟨checkNumeric_throws found, fun _ _ => throwsOnly_error_iff.mpr (semantic _)⟩
  | false =>
    refine (throwsOnly_guard_iff (semantic _)).mpr fun _ => throwsOnly_bind_iff.mpr ?_
    refine ⟨found_throws found, fun d _ => (throwsOnly_guard_iff (semantic _)).mpr fun _ => ?_⟩
    exact (throwsOnly_guard_iff (semantic _)).mpr fun _ => throwsOnly_ok ()

theorem columns_rest_throws {kind : CompareKind} {other : Str} {d : ColumnSchema}
    (found : Finds cat stmt ref c) (found' : Finds cat stmt other d) :
    ThrowsOnly Semantic (
      if CompareKind.isOrdering kind = true then do
        checkNumeric cat stmt ref
        checkNumeric cat stmt other
        Except.ok ()
      else Except.ok ()) := by
  cases CompareKind.isOrdering kind with
  | false => exact throwsOnly_ok ()
  | true =>
    refine throwsOnly_bind_iff.mpr ⟨checkNumeric_throws found, fun _ _ => ?_⟩
    exact throwsOnly_bind_iff.mpr ⟨checkNumeric_throws found', fun _ _ => throwsOnly_ok ()⟩

theorem columns_throws_iff (known : ∀ table ∈ itemTables stmt, cat.hasTable table = true)
    {kind : CompareKind} {other : Str} :
    ThrowsOnly Semantic (do
      discard (resolveInComparison cat stmt ref)
      discard (resolveInComparison cat stmt other)
      if CompareKind.isOrdering kind = true then do
        checkNumeric cat stmt ref
        checkNumeric cat stmt other
        Except.ok ()
      else Except.ok ()) ↔
    ¬ (Missing cat stmt ref ∨ (∃ c, Column cat stmt ref c) ∧ Missing cat stmt other) := by
  rw [throwsOnly_bind_iff, throwsOnly_discard_iff, resolveInComparison_throws_iff known, not_or,
    not_and]
  refine and_congr_right fun _ => ?_
  have second : ∀ c, Finds cat stmt ref c → (ThrowsOnly Semantic (do
      discard (resolveInComparison cat stmt other)
      if CompareKind.isOrdering kind = true then do
        checkNumeric cat stmt ref
        checkNumeric cat stmt other
        Except.ok ()
      else Except.ok ()) ↔ ¬ Missing cat stmt other) :=
    fun c hc => lookup_throws_iff known fun d hd => columns_rest_throws hc hd
  constructor
  · rintro all ⟨c, hc⟩
    have hc := finds_iff_column.mpr hc
    exact (second c hc).mp (all () (discard_ok_iff.mpr ⟨c, hc⟩))
  · intro all u found
    obtain ⟨c, hc⟩ := discard_ok_iff.mp found
    exact (second c hc).mpr (all ⟨c, finds_iff_column.mp hc⟩)

theorem validateComparison_throws_iff
    (known : ∀ table ∈ itemTables stmt, cat.hasTable table = true) {kind : CompareKind}
    {l r : ASTExpr} :
    ThrowsOnly Semantic (validateComparison cat stmt kind l r) ↔
      ¬ ComparisonEscapes cat stmt l r := by
  cases l <;> cases r <;> first
    | exact columns_throws_iff known
    | exact lookup_throws_iff known fun _ found => int_rest_throws found
    | exact lookup_throws_iff known fun _ found => string_rest_throws found
    | exact iff_of_true (throwsOnly_error_iff.mpr (semantic _)) id

end Comparisons

theorem comparisonOk_iff_fits {kind : CompareKind} {l r : ASTExpr} :
    ComparisonOk cat stmt kind l r ↔ ComparisonFits cat stmt kind l r := by
  cases l <;> cases r <;> simp only [ComparisonOk, ComparisonFits, finds_iff_column]

theorem validateExpr_ok_iff (table : cat.getTable stmt.tableName = .ok schema)
    (scopesOk : scopesOf cat stmt schema = .ok scopes) (e : ASTExpr) :
    validateExpr cat stmt e = .ok () ↔ Fits cat stmt e := by
  induction e with
  | columnRef ref => exact validateColumnRef_ok_iff table scopesOk
  | intLiteral v => exact iff_of_true rfl trivial
  | stringLiteral v => exact iff_of_true rfl trivial
  | comparison kind l r => exact validateComparison_ok_iff.trans comparisonOk_iff_fits
  | boolean kind l r ihl ihr =>
    simp only [validateExpr, bind_ok_iff, Fits, ihr]
    constructor
    · rintro ⟨_, left, right⟩
      exact ⟨ihl.mp left, right⟩
    · rintro ⟨left, right⟩
      exact ⟨(), ihl.mpr left, right⟩
  | notExpr child ih => exact ih

theorem validateColumnRef_throws
    (known : ∀ table ∈ itemTables stmt, cat.hasTable table = true) (ref : Str) :
    ThrowsOnly Semantic (validateColumnRef cat stmt ref) := by
  unfold validateColumnRef
  by_cases bare : findDot ref = none
  · simp only [bare, if_true, throw_eq_error, pure_eq_ok]
    refine throwsOnly_bind_iff.mpr ⟨getTable_throws (known _ List.mem_cons_self) _, fun t _ => ?_⟩
    refine throwsOnly_bind_iff.mpr
      ⟨throwsOnly_foldlM (fun found join mem => ?_) _, fun found _ => ?_⟩
    · have named := known _ (List.mem_cons_of_mem _ (List.mem_map_of_mem mem))
      exact throwsOnly_bind_iff.mpr ⟨getTable_throws named _, fun t _ => throwsOnly_ok _⟩
    · exact (throwsOnly_guard_iff (semantic _)).mpr fun _ => throwsOnly_ok ()
  · simp only [bare, if_false]
    exact throwsOnly_ok ()

theorem validateExpr_throws_iff (table : cat.getTable stmt.tableName = .ok schema)
    (scopesOk : scopesOf cat stmt schema = .ok scopes)
    (known : ∀ table ∈ itemTables stmt, cat.hasTable table = true) (e : ASTExpr) :
    ThrowsOnly Semantic (validateExpr cat stmt e) ↔ ¬ WhereEscapes cat stmt e := by
  induction e with
  | columnRef ref => exact iff_of_true (validateColumnRef_throws known ref) id
  | intLiteral v => exact iff_of_true (throwsOnly_ok ()) id
  | stringLiteral v => exact iff_of_true (throwsOnly_ok ()) id
  | comparison kind l r => exact validateComparison_throws_iff known
  | boolean kind l r ihl ihr =>
    simp only [validateExpr, WhereEscapes, throwsOnly_bind_iff, ihl, ihr, not_or, not_and]
    refine and_congr_right fun _ => ?_
    rw [← validateExpr_ok_iff table scopesOk l]
    exact ⟨fun all left => all () left, fun all _ left => all left⟩
  | notExpr child ih => exact ih

theorem validateWhere_throws_iff (table : cat.getTable stmt.tableName = .ok schema)
    (scopesOk : scopesOf cat stmt schema = .ok scopes)
    (known : ∀ table ∈ itemTables stmt, cat.hasTable table = true) :
    ThrowsOnly Semantic (validateWhere cat stmt) ↔
      ¬ ∃ e, stmt.whereClause = some e ∧ WhereEscapes cat stmt e := by
  unfold validateWhere
  cases stmt.whereClause with
  | none => exact iff_of_true (throwsOnly_ok ()) (by simp)
  | some e =>
    simp only [Option.some.injEq, exists_eq_left']
    exact validateExpr_throws_iff table scopesOk known e

/-- What `analyze` does behind the WHERE clause throws nothing else. -/
theorem clauses_throw :
    ThrowsOnly Semantic (do
      stmt.joins.forM (validateJoin scopes)
      stmt.orderByColumns.forM fun orderCol => discard (resolve scopes orderCol.columnName)
      if stmt.limitCount < -1 then
        Except.error (.semanticError (str "LIMIT value must be non-negative"))
      else Except.ok schema) := by
  refine throwsOnly_bind_iff.mpr ⟨throwsOnly_forM fun join _ => validateJoin_throws join, ?_⟩
  intro _ _
  refine throwsOnly_bind_iff.mpr ⟨throwsOnly_forM fun o _ => ?_, fun _ _ => ?_⟩
  · exact throwsOnly_discard_iff.mpr (resolve_throws _)
  · exact (throwsOnly_guard_iff (semantic _)).mpr fun _ => throwsOnly_ok schema

theorem known_iff (cat : Catalog) (stmt : SelectStatement) :
    (∀ table ∈ itemTables stmt, cat.hasTable table = true) ↔
      cat.hasTable stmt.tableName = true ∧
        ∀ join ∈ stmt.joins, cat.hasTable join.rightTable.tableName = true := by
  simp only [itemTables, List.forall_mem_cons, List.forall_mem_map]

/-- `analyze` behind the lookup of the tables. -/
theorem analyze_eq (named : stmt.tableName ≠ []) (table : cat.getTable stmt.tableName = .ok schema)
    (scopesOk : scopesOf cat stmt schema = .ok scopes) :
    analyze cat stmt = (do
      stmt.projections.forM fun col => discard (resolve scopes col)
      validateWhere cat stmt
      stmt.joins.forM (validateJoin scopes)
      stmt.orderByColumns.forM fun orderCol => discard (resolve scopes orderCol.columnName)
      if stmt.limitCount < -1 then
        Except.error (.semanticError (str "LIMIT value must be non-negative"))
      else Except.ok schema) := by
  have known := Catalog.hasTable_iff.mpr ⟨schema, table⟩
  simp only [analyze, if_neg named, known, Bool.not_true, Bool.false_eq_true, if_false, table,
    scopesOk, pure_eq_ok, throw_eq_error, ok_bind, error_bind]

theorem projections_throw :
    ThrowsOnly Semantic (stmt.projections.forM fun col => discard (resolve scopes col)) :=
  throwsOnly_forM fun _ _ => throwsOnly_discard_iff.mpr (resolve_throws _)

/-- `analyze` throws anything but a `SemanticError` just when the first fault of the
statement is a lookup in vain. -/
theorem analyze_throws_semantic_iff (cat : Catalog) (stmt : SelectStatement) :
    ThrowsOnly Semantic (analyze cat stmt) ↔ ¬ Escapes cat stmt := by
  by_cases named : stmt.tableName = []
  · refine iff_of_true ?_ fun h => h.named named
    rw [analyze, if_pos named]
    exact throwsOnly_error_iff.mpr (semantic _)
  cases known : cat.hasTable stmt.tableName with
  | false =>
    refine iff_of_true ?_ fun h => ?_
    · rw [analyze, if_neg named, known]
      exact throwsOnly_error_iff.mpr (semantic _)
    · have absurd := h.known _ List.mem_cons_self
      rw [known] at absurd
      cases absurd
  | true =>
    obtain ⟨schema, table⟩ := Catalog.hasTable_iff.mp known
    cases scopesOk : scopesOf cat stmt schema with
    | error e =>
      refine iff_of_true ?_ fun h => ?_
      · have fails : analyze cat stmt = .error e := by
          simp only [analyze, if_neg named, known, Bool.not_true, Bool.false_eq_true, if_false,
            table, scopesOk, pure_eq_ok, throw_eq_error, ok_bind, error_bind]
        rw [fails]
        exact throwsOnly_error_iff.mpr (scopesOf_throws e scopesOk)
      · obtain ⟨scopes, run⟩ := scopesOf_exists_iff.mpr ((known_iff cat stmt).mp h.known).2
        rw [scopesOk] at run
        cases run
    | ok scopes =>
      have all := (known_iff cat stmt).mpr ⟨known, scopesOf_exists_iff.mp ⟨scopes, scopesOk⟩⟩
      have inWhere := validateWhere_throws_iff table scopesOk all
      have projected : (stmt.projections.forM fun col => discard (resolve scopes col)) = .ok () ↔
          ∀ col ∈ stmt.projections, ∃ table, scopeBinding cat stmt col = some table := by
        simp only [forM_ok_iff, discard_ok_iff, resolve_exists_iff table scopesOk]
      rw [analyze_eq named table scopesOk, throwsOnly_bind_iff]
      constructor
      · rintro ⟨_, after⟩ escapes
        have behind := after () (projected.mpr escapes.projections)
        exact inWhere.mp (throwsOnly_bind_iff.mp behind).1 escapes.inWhere
      · intro safe
        refine ⟨projections_throw, fun u run => throwsOnly_bind_iff.mpr ⟨?_, fun _ _ => ?_⟩⟩
        · exact inWhere.mpr fun escapes => safe ⟨named, all, projected.mp run, escapes⟩
        · exact clauses_throw

/-- A qualified name without a column, filtered on. -/
def missingFilter : Str := str "SELECT id FROM employees WHERE employees.nope = 1"

theorem missing_filter_escapes :
    ¬ ∀ (cat : Catalog) (sql : Str) (stmt : SelectStatement), SQLParser.parse sql = .ok stmt →
      ThrowsOnly Semantic (analyze cat stmt) := by
  intro all
  have parsed : SQLParser.parse missingFilter = .ok
      { projections := [str "id"], tableName := str "employees", tableAlias := str "employees"
        whereClause := some (.comparison .Equal (.columnRef (str "employees.nope"))
          (.intLiteral 1)) } := by decide +kernel
  obtain ⟨what, absurd⟩ := all makeEmployeesCatalog missingFilter _ parsed
    (.runtimeError (str "Column not found: nope")) rfl
  cases absurd

end FheSql.AnalysisErrors
