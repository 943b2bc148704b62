import FheSql.Semantic

/-!
# Analyzed statements

What a statement satisfies when `analyze` accepts it, clause by clause.
-/

namespace FheSql.AnalyzedStatement

open ByteText Throwing SemanticAnalyzer

/-- The checks of `analyze`, with the table and the scopes it works on. -/
structure Analyzed (cat : Catalog) (stmt : SelectStatement) (schema : TableSchema)
    (scopes : StringMap TableSchema) : Prop where
  named : stmt.tableName ≠ []
  table : cat.getTable stmt.tableName = .ok schema
  scopesOk : scopesOf cat stmt schema = .ok scopes
  projections : ∀ col ∈ stmt.projections, ∃ c, resolve scopes col = .ok c
  whereOk : ∀ e, stmt.whereClause = some e → validateExpr cat stmt e = .ok ()
  joins : ∀ join ∈ stmt.joins, validateJoin scopes join = .ok ()
  orderBy : ∀ o ∈ stmt.orderByColumns, ∃ c, resolve scopes o.columnName = .ok c
  limit : -1 ≤ stmt.limitCount

variable {cat : Catalog} {stmt : SelectStatement} {schema : TableSchema}

theorem validateWhere_ok_iff {u : Unit} :
    validateWhere cat stmt = .ok u ↔
      ∀ e, stmt.whereClause = some e → validateExpr cat stmt e = .ok () := by
  unfold validateWhere
  cases stmt.whereClause <;> simp

theorem analyze_ok_iff :
    analyze cat stmt = .ok schema ↔ ∃ scopes, Analyzed cat stmt schema scopes := by
  simp only [analyze, throw_eq_error, pure_eq_ok, error_bind, guard_ok_iff, bind_ok_iff,
    forM_ok_iff, discard_ok_iff, validateWhere_ok_iff, Except.ok.injEq]
  constructor
  · rintro ⟨named, _, t, table, scopes, scopesOk, _, projections, _, whereOk, _, joins, _,
      orderBy, limit, rfl⟩
    exact ⟨scopes, named, table, scopesOk, projections, whereOk, joins, orderBy, by omega⟩
  · rintro ⟨scopes, named, table, scopesOk, projections, whereOk, joins, orderBy, limit⟩
    have known := Catalog.hasTable_iff.mpr ⟨schema, table⟩
    exact ⟨named, by simp [known], schema, table, scopes, scopesOk, (), projections, (), whereOk,
      (), joins, (), orderBy, by omega, rfl⟩

/-- A successful analysis returns the schema of the FROM table. -/
theorem analyze_schema (h : analyze cat stmt = .ok schema) :
    cat.getTable stmt.tableName = .ok schema := by
  obtain ⟨scopes, analyzed⟩ := analyze_ok_iff.mp h
  exact analyzed.table

/-- Over one table an unqualified name is one of its columns. -/
theorem resolve_single {scopes : StringMap TableSchema}
    (analyzed : Analyzed cat stmt schema scopes) (single : stmt.joins = [])
    {name : Str} (plain : dot ∉ name) {c : ColumnSchema} (h : resolve scopes name = .ok c) :
    schema.column name = .ok c := by
  have scope := analyzed.scopesOk
  simp only [scopesOf, single, List.foldlM_nil, pure_eq_ok, Except.ok.injEq] at scope
  rw [← scope, resolve, findDot_eq_none_iff.mpr plain] at h
  obtain ⟨found, step, h⟩ := bind_ok_iff.mp h
  have one : resolveStep name none schema = .ok found := by
    obtain ⟨_, one, step⟩ := bind_ok_iff.mp step
    cases step
    exact one
  unfold resolveStep at one
  cases known : schema.hasColumn name with
  | false =>
    rw [known] at one
    cases one
    cases h
  | true =>
    rw [known] at one
    obtain ⟨d, hd, one⟩ := bind_ok_iff.mp one
    cases one
    cases h
    exact hd

/-- A column that `validateComparison` finds. -/
def Finds (cat : Catalog) (stmt : SelectStatement) (name : Str) (c : ColumnSchema) : Prop :=
  resolveInComparison cat stmt name = .ok c

/-- The comparisons `validateComparison` accepts, by the shape of the operands. -/
def ComparisonOk (cat : Catalog) (stmt : SelectStatement) (kind : CompareKind) :
    ASTExpr → ASTExpr → Prop
  | .columnRef a, .intLiteral _ => ∃ c, Finds cat stmt a c ∧ c.type = .INT64
  | .intLiteral _, .columnRef a => ∃ c, Finds cat stmt a c ∧ c.type = .INT64
  | .columnRef a, .stringLiteral v =>
    CompareKind.isOrdering kind = false ∧ ∃ c, Finds cat stmt a c ∧ c.type = .STRING ∧
      c.maxLength ≠ 0 ∧ v.length ≤ c.maxLength
  | .stringLiteral v, .columnRef a =>
    CompareKind.isOrdering kind = false ∧ ∃ c, Finds cat stmt a c ∧ c.type = .STRING ∧
      c.maxLength ≠ 0 ∧ v.length ≤ c.maxLength
  | .columnRef a, .columnRef b => ∃ ca cb, Finds cat stmt a ca ∧ Finds cat stmt b cb ∧
      (CompareKind.isOrdering kind = true → ca.type = .INT64 ∧ cb.type = .INT64)
  | _, _ => False

theorem isOrdering_false_iff {kind : CompareKind} :
    CompareKind.isOrdering kind = false ↔ kind = .Equal ∨ kind = .NotEqual := by
  cases kind <;> simp [CompareKind.isOrdering]

theorem checkNumeric_ok_iff {name : Str} {u : Unit} :
    checkNumeric cat stmt name = .ok u ↔ ∃ c, Finds cat stmt name c ∧ c.type = .INT64 := by
  simp only [checkNumeric, throw_eq_error, pure_eq_ok, bind_ok_iff, guard_ok_iff, not_not,
    and_true, Finds]

theorem checkLiteralType_int_ok_iff {name : Str} {v : Int} {u : Unit} :
    checkLiteralType cat stmt name (.intLiteral v) = .ok u ↔
      ∃ c, Finds cat stmt name c ∧ c.type = .INT64 := by
  simp only [checkLiteralType, throw_eq_error, pure_eq_ok, bind_ok_iff, guard_ok_iff, Finds,
    ASTExpr.isIntLiteral, ASTExpr.isStringLiteral]
  simp

theorem checkLiteralType_string_ok_iff {name v : Str} {u : Unit} :
    checkLiteralType cat stmt name (.stringLiteral v) = .ok u ↔
      ∃ c, Finds cat stmt name c ∧ c.type = .STRING := by
  simp only [checkLiteralType, throw_eq_error, pure_eq_ok, bind_ok_iff, guard_ok_iff, Finds,
    ASTExpr.isIntLiteral, ASTExpr.isStringLiteral]
  simp

/-- The checks of a comparison between two columns. -/
theorem columns_check {kind : CompareKind} {a b : Str} :
    (do
      discard (resolveInComparison cat stmt a)
      discard (resolveInComparison cat stmt b)
      if CompareKind.isOrdering kind = true then do
        checkNumeric cat stmt a
        checkNumeric cat stmt b
        Except.ok ()
      else Except.ok ()) = .ok () ↔
    ComparisonOk cat stmt kind (.columnRef a) (.columnRef b) := by
  cases ho : CompareKind.isOrdering kind
  · simp [bind_ok_iff, discard_ok_iff, ComparisonOk, ho, Finds]
  · simp only [bind_ok_iff, discard_ok_iff, checkNumeric_ok_iff, if_true, ComparisonOk, ho]
    constructor
    · rintro ⟨_, _, _, _, _, ⟨ca, ha, hta⟩, _, ⟨cb, hb, htb⟩, _⟩
      exact ⟨ca, cb, ha, hb, fun _ => ⟨hta, htb⟩⟩
    · rintro ⟨ca, cb, ha, hb, numeric⟩
      obtain ⟨hta, htb⟩ := numeric trivial
      exact ⟨(), ⟨ca, ha⟩, (), ⟨cb, hb⟩, (), ⟨ca, ha, hta⟩, (), ⟨cb, hb, htb⟩, trivial⟩

/-- The checks of a comparison between a column and an integer. -/
theorem int_check {kind : CompareKind} {a : Str} {v : Int} :
    (do
      discard (resolveInComparison cat stmt a)
      checkLiteralType cat stmt a (.intLiteral v)
      if CompareKind.isOrdering kind = true then do
        checkNumeric cat stmt a
        Except.ok ()
      else Except.ok ()) = .ok () ↔
    ∃ c, Finds cat stmt a c ∧ c.type = .INT64 := by
  simp only [bind_ok_iff, discard_ok_iff, checkLiteralType_int_ok_iff]
  constructor
  · rintro ⟨_, _, _, h, _⟩
    exact h
  · rintro ⟨c, hc, ht⟩
    refine ⟨(), ⟨c, hc⟩, (), ⟨c, hc, ht⟩, ?_⟩
    split
    · exact bind_ok_iff.mpr ⟨(), checkNumeric_ok_iff.mpr ⟨c, hc, ht⟩, rfl⟩
    · rfl

/-- The checks of a comparison between a column and a string. -/
theorem string_check {kind : CompareKind} {a v : Str} {ordering operator mismatch long : Exn} :
    (do
      discard (resolveInComparison cat stmt a)
      checkLiteralType cat stmt a (.stringLiteral v)
      if CompareKind.isOrdering kind = true then do
        checkNumeric cat stmt a
        Except.error ordering
      else if kind ≠ CompareKind.Equal ∧ kind ≠ CompareKind.NotEqual then Except.error operator
      else do
        let column ← resolveInComparison cat stmt a
        if column.type ≠ DataType.STRING then Except.error mismatch
        else if column.maxLength = 0 ∨ v.length > column.maxLength then Except.error long
        else Except.ok ()) = .ok () ↔
    CompareKind.isOrdering kind = false ∧ ∃ c, Finds cat stmt a c ∧ c.type = .STRING ∧
      c.maxLength ≠ 0 ∧ v.length ≤ c.maxLength := by
  cases ho : CompareKind.isOrdering kind
  · have operators : ¬ (kind ≠ .Equal ∧ kind ≠ .NotEqual) := by
      rcases isOrdering_false_iff.mp ho with rfl | rfl <;> decide
    simp only [Bool.false_eq_true, if_false, if_neg operators, bind_ok_iff, discard_ok_iff,
      checkLiteralType_string_ok_iff, guard_ok_iff, not_not, not_or, Finds, true_and]
    constructor
    · rintro ⟨_, _, _, _, c, hc, ht, ⟨wide, fits⟩, -⟩
      exact ⟨c, hc, ht, wide, by omega⟩
    · rintro ⟨c, hc, ht, wide, fits⟩
      exact ⟨(), ⟨c, hc⟩, (), ⟨c, hc, ht⟩, c, hc, ht, ⟨wide, by omega⟩, trivial⟩
  · simp only [if_true, bind_ok_iff, reduceCtorEq, and_false, exists_false, false_and]

theorem validateComparison_ok_iff {kind : CompareKind} {l r : ASTExpr} :
    validateComparison cat stmt kind l r = .ok () ↔ ComparisonOk cat stmt kind l r := by
  cases l <;> cases r <;> first
    | exact columns_check
    | exact int_check
    | exact string_check
    | exact iff_of_false nofun id

end FheSql.AnalyzedStatement
