import FheSql.NameResolution
import FheSql.PlanCoverage

/-!
# The scan list

`PhysicalPlanner::plan` collects the columns to scan from the names in the statement,
without a look at the tables. Here the list is compared with the columns of the FROM
table that the statement refers to.
-/

namespace FheSql.ScanList

open ByteText Throwing SemanticAnalyzer AnalyzedStatement ClientPipeline StatementPlan
open PhysicalPlanner PipelineAcceptance PlanCoverage NameResolution

/-- No join takes the alias of the FROM table. -/
def FromScoped (stmt : SelectStatement) : Prop :=
  ∀ join ∈ stmt.joins, join.rightTable.aliasName ≠ fromAlias stmt

section References

variable (cat : Catalog) (stmt : SelectStatement)

/-- A name of SELECT or ORDER BY that stands for a column of the FROM table. -/
structure SelectsLeft (ref : Str) : Prop where
  inScope : FromScoped stmt
  has : TableHas cat stmt.tableName (bareName ref)
  qualifier : ∀ d, findDot ref = some d → ref.take d = fromAlias stmt

/-- A name of WHERE that stands for a column of the FROM table. -/
structure FiltersLeft (ref : Str) : Prop where
  has : TableHas cat stmt.tableName (bareName ref)
  qualifier : ∀ d, findDot ref = some d →
    ref.take d = stmt.tableAlias ∨ stmt.tableAlias = [] ∧ ref.take d = stmt.tableName

/-- The names of SELECT and ORDER BY as the statement has them. -/
def selectReferences : List Str :=
  stmt.projections ++ stmt.orderByColumns.map (·.columnName)

/-- The columns of the FROM table that a statement refers to, in SELECT or by its star,
in ORDER BY or in WHERE. -/
def LeftColumn (schema : TableSchema) (name : Str) : Prop :=
  (stmt.projections = [] ∧ name ∈ schema.columns.map (·.name)) ∨
    (∃ ref ∈ selectReferences stmt, SelectsLeft cat stmt ref ∧ name = bareName ref) ∨
    ∃ ref ∈ whereReferences stmt, FiltersLeft cat stmt ref ∧ name = bareName ref

/-- The names the planner scans: those of WHERE, and of SELECT after the expansion of the
star and of ORDER BY those without the alias of the joined table. -/
def scannedReferences (schema : TableSchema) : List Str :=
  whereReferences stmt ++ (LogicalPlanner.projectColumns stmt schema).filter fun name =>
    !namesJoinedTable (joined? stmt).isSome (joinedAlias stmt) name

/-- The scan list is the set of the referenced columns of the FROM table. -/
structure ExactScan (schema : TableSchema) (plan : PhysicalPlan) : Prop where
  nodup : plan.scanColumns.Nodup
  exact : ∀ name, name ∈ plan.scanColumns ↔ LeftColumn cat stmt schema name
  own : ∀ name ∈ plan.scanColumns, schema.hasColumn name = true

/-- Every scanned name that is none of the FROM table has at least the bare name of a
referenced column of it, and a column with a dot in its name, asked for by the star, is
the bare name of some other. -/
structure ScansLeft (schema : TableSchema) : Prop where
  foreign : ∀ ref ∈ scannedReferences stmt schema, LeftColumn cat stmt schema (bareName ref)
  dotted : stmt.projections = [] → ∀ c ∈ schema.columns, dot ∈ c.name →
    ∃ ref ∈ scannedReferences stmt schema, bareName ref = c.name

end References

section Bindings

variable {cat : Catalog} {stmt : SelectStatement} {ref : Str}

/-- `validateComparison` finds such a name in the FROM table. -/
theorem whereBinding_of_filtersLeft (left : FiltersLeft cat stmt ref) :
    whereBinding cat stmt ref = some stmt.tableName := by
  have has := left.has
  unfold whereBinding
  unfold bareName at has
  cases hd : findDot ref with
  | none =>
    rw [hd] at has
    exact if_pos has
  | some d =>
    rw [hd] at has
    simp only [firstTable, if_pos (left.qualifier d hd), Option.filter_some, has, decide_true,
      if_true]

theorem lastTable_of_fromScoped (inScope : FromScoped stmt) :
    lastTable stmt (fromAlias stmt) = some stmt.tableName := by
  have loop : ∀ (joins : List JoinClause) (start : StringMap Str),
      (∀ join ∈ joins, join.rightTable.aliasName ≠ fromAlias stmt) →
      (joins.foldl (fun names join =>
        names.insert join.rightTable.aliasName join.rightTable.tableName) start).lookup
          (fromAlias stmt) = start.lookup (fromAlias stmt) := by
    intro joins
    induction joins with
    | nil => exact fun _ _ => rfl
    | cons join joins ih =>
      intro start others
      rw [List.foldl_cons, ih _ fun j mem => others j (List.mem_cons_of_mem join mem)]
      exact AList.lookup_insert_ne (others join List.mem_cons_self).symm
  rw [lastTable, scopeNames, loop stmt.joins _ inScope]
  exact AList.lookup_insert _

/-- `analyze` finds such a name in the FROM table, if it does not refuse it. -/
theorem scopeBinding_of_selectsLeft (left : SelectsLeft cat stmt ref) {table : Str}
    (bound : scopeBinding cat stmt ref = some table) : table = stmt.tableName := by
  have has := left.has
  have own := lastTable_of_fromScoped left.inScope
  unfold bareName at has
  unfold scopeBinding at bound
  cases hd : findDot ref with
  | some d =>
    simp only [hd, left.qualifier d hd, own, Option.filter_eq_some_iff] at bound
    exact (Option.some.inj bound.1).symm
  | none =>
    simp only [hd] at has bound
    have mem : stmt.tableName ∈ owners cat stmt ref := by
      refine List.mem_filter.mpr ⟨?_, decide_eq_true has⟩
      exact List.mem_map.mpr ⟨⟨_, _⟩, List.of_mem_dlookup own, rfl⟩
    cases all : owners cat stmt ref with
    | nil => simp [all] at mem
    | cons only rest =>
      cases rest with
      | cons => simp [all] at bound
      | nil =>
        rw [all] at bound mem
        cases bound
        exact (List.mem_singleton.mp mem).symm

end Bindings

theorem nodup_collectColumns (e : ASTExpr) {cols : List Str} (distinct : cols.Nodup) :
    (collectColumns e cols).Nodup := by
  induction e generalizing cols with
  | columnRef name => exact nodup_pushUnique distinct _
  | intLiteral v => exact distinct
  | stringLiteral v => exact distinct
  | comparison kind l r ihl ihr => exact ihr (ihl distinct)
  | boolean kind l r ihl ihr => exact ihr (ihl distinct)
  | notExpr child ih => exact ih distinct

theorem nodup_addProjected (node : ScanNode) (names : List Str) {cols : List Str}
    (distinct : cols.Nodup) : (names.foldl (addProjected node) cols).Nodup := by
  induction names generalizing cols with
  | nil => exact distinct
  | cons name names ih =>
    refine ih ?_
    unfold addProjected
    by_cases joined : namesJoinedTable node.hasJoin node.joinedTableAlias name = true
    · rw [if_pos joined]
      exact distinct
    · rw [if_neg joined]
      exact nodup_pushUnique distinct _

variable {cat : Catalog} {stmt : SelectStatement} {schema : TableSchema} {plan : PhysicalPlan}

/-- A scan list never holds a name twice. -/
theorem nodup_scanColumns (planned : planQuery stmt schema = .ok plan) :
    plan.scanColumns.Nodup := by
  obtain ⟨logical, hl, hp⟩ := bind_ok_iff.mp planned
  obtain ⟨scan, _, hl⟩ := bind_ok_iff.mp hl
  cases hw : stmt.whereClause with
  | none =>
    rw [hw] at hl
    cases hl
    cases hp
    exact nodup_addProjected _ _ List.nodup_nil
  | some e =>
    rw [hw] at hl
    cases hl
    cases hp
    exact nodup_addProjected _ _ (nodup_collectColumns e List.nodup_nil)

theorem mem_scanColumns (planOf : PlanOf stmt schema plan) {name : Str} :
    name ∈ plan.scanColumns ↔ ∃ ref ∈ scannedReferences stmt schema, name = bareName ref := by
  rw [planOf.scanColumns, planOf.hasJoin, planOf.joinedTableAlias, planOf.projectColumns]
  simp only [scannedReferences, List.mem_append, List.mem_filter, Bool.not_eq_true', or_and_right,
    exists_or, and_assoc]

theorem mem_projectColumns_of_reference {ref : Str} (mem : ref ∈ selectReferences stmt) :
    ref ∈ LogicalPlanner.projectColumns stmt schema := by
  rw [LogicalPlanner.projectColumns, mem_foldl_pushUnique]
  rcases List.mem_append.mp mem with mem | mem
  · rw [if_neg (List.ne_nil_of_mem mem)]
    exact Or.inl mem
  · exact Or.inr mem

/-- A name of the FROM table is no name of the joined one. -/
theorem namesJoinedTable_of_selectsLeft {ref : Str} (left : SelectsLeft cat stmt ref) :
    namesJoinedTable (joined? stmt).isSome (joinedAlias stmt) ref = false := by
  unfold namesJoinedTable
  cases hd : findDot ref with
  | none => rfl
  | some d =>
    cases hj : stmt.joins.head? with
    | none => simp [joined?, hj]
    | some join =>
      have other := left.inScope join (List.mem_of_mem_head? hj)
      simp only [joinedAlias, joined?, hj, Option.map_some, Option.getD_some, left.qualifier d hd]
      simpa using other.symm

theorem scanned_of_left {name : Str} (column : LeftColumn cat stmt schema name)
    (unstarred : ¬ (stmt.projections = [] ∧ name ∈ schema.columns.map (·.name))) :
    ∃ ref ∈ scannedReferences stmt schema, name = bareName ref := by
  rcases column with star | ⟨ref, mem, left, rfl⟩ | ⟨ref, mem, _, rfl⟩
  · exact absurd star unstarred
  · refine ⟨ref, List.mem_append_right _ (List.mem_filter.mpr ⟨?_, ?_⟩), rfl⟩
    · exact mem_projectColumns_of_reference mem
    · rw [namesJoinedTable_of_selectsLeft left]
      rfl
  · exact ⟨ref, List.mem_append_left _ mem, rfl⟩

/-- The star asks for a column without a dot under the name it has. -/
theorem scanned_of_star (star : stmt.projections = []) {name : Str}
    (mem : name ∈ schema.columns.map (·.name)) (plain : dot ∉ name) :
    ∃ ref ∈ scannedReferences stmt schema, name = bareName ref := by
  refine ⟨name, List.mem_append_right _ (List.mem_filter.mpr ⟨?_, ?_⟩), (bareName_plain plain).symm⟩
  · exact (mem_projectColumns_of_star star).mpr (Or.inl mem)
  · simp [namesJoinedTable, findDot_eq_none_iff.mpr plain]

theorem hasColumn_of_leftColumn (table : cat.getTable stmt.tableName = .ok schema) {name : Str}
    (left : LeftColumn cat stmt schema name) : schema.hasColumn name = true := by
  rcases left with ⟨_, mem⟩ | ⟨ref, _, left, rfl⟩ | ⟨ref, _, left, rfl⟩
  · obtain ⟨c, hc, rfl⟩ := List.mem_map.mp mem
    exact TableSchema.hasColumn_of_mem hc
  · exact (tableHas_iff table).mp left.has
  · exact (tableHas_iff table).mp left.has

/-- An accepted name of SELECT or ORDER BY is bound to some table. -/
theorem exists_scopeBinding {scopes : StringMap TableSchema}
    (analyzed : Analyzed cat stmt schema scopes) {ref : Str} (mem : ref ∈ selectReferences stmt) :
    ∃ table, scopeBinding cat stmt ref = some table := by
  have resolved : ∃ c, resolve scopes ref = .ok c := by
    rcases List.mem_append.mp mem with mem | mem
    · exact analyzed.projections ref mem
    · obtain ⟨o, ordered, rfl⟩ := List.mem_map.mp mem
      exact analyzed.orderBy o ordered
  obtain ⟨c, resolved⟩ := resolved
  obtain ⟨table, _, bound, _⟩ := (resolve_ok_iff analyzed.table analyzed.scopesOk).mp resolved
  exact ⟨table, bound⟩

/-- The names that stand for columns of the FROM table are those that the analyzer looks
up there. The plan of an accepted statement scans the referenced columns of that table,
each once and no other name, just when it comes across no foreign name. -/
theorem scan_exact_iff (accepted : analyze cat stmt = .ok schema) :
    (∀ ref, FiltersLeft cat stmt ref → whereBinding cat stmt ref = some stmt.tableName) ∧
    (∀ ref ∈ selectReferences stmt, SelectsLeft cat stmt ref →
      scopeBinding cat stmt ref = some stmt.tableName) ∧
    ∃ plan, planQuery stmt schema = .ok plan ∧
      (ExactScan cat stmt schema plan ↔ ScansLeft cat stmt schema) := by
  obtain ⟨scopes, analyzed⟩ := analyze_ok_iff.mp accepted
  obtain ⟨plan, planned, planOf⟩ := planQuery_analyzed analyzed
  refine ⟨fun ref left => whereBinding_of_filtersLeft left, fun ref mem left => ?_,
    plan, planned, ?_⟩
  · obtain ⟨table, bound⟩ := exists_scopeBinding analyzed mem
    rw [bound, scopeBinding_of_selectsLeft left bound]
  have scanned : ∀ name, name ∈ plan.scanColumns ↔
      ∃ ref ∈ scannedReferences stmt schema, name = bareName ref := fun _ => mem_scanColumns planOf
  constructor
  · intro scan
    refine ⟨fun ref mem => ?_, fun star c mem _ => ?_⟩
    · exact (scan.exact _).mp ((scanned _).mpr ⟨ref, mem, rfl⟩)
    · have listed := (scan.exact c.name).mpr (Or.inl ⟨star, List.mem_map_of_mem mem⟩)
      obtain ⟨ref, mem, same⟩ := (scanned _).mp listed
      exact ⟨ref, mem, same.symm⟩
  · intro scans
    have exactly : ∀ name, name ∈ plan.scanColumns ↔ LeftColumn cat stmt schema name := by
      intro name
      rw [scanned]
      constructor
      · rintro ⟨ref, mem, rfl⟩
        exact scans.foreign ref mem
      · intro column
        by_cases starred : stmt.projections = [] ∧ name ∈ schema.columns.map (·.name)
        · obtain ⟨star, mem⟩ := starred
          by_cases plain : dot ∈ name
          · obtain ⟨c, hc, rfl⟩ := List.mem_map.mp mem
            obtain ⟨ref, mem, same⟩ := scans.dotted star c hc plain
            exact ⟨ref, mem, same.symm⟩
          · exact scanned_of_star star mem plain
        · exact scanned_of_left column starred
    refine ⟨nodup_scanColumns planned, exactly, fun name mem => ?_⟩
    exact hasColumn_of_leftColumn analyzed.table ((exactly name).mp mem)

theorem employeesJoin_scan_exact : ∃ schema plan,
    analyze makeEmployeesCatalog (employeesJoin [str "e.age"] none) = .ok schema ∧
      planQuery (employeesJoin [str "e.age"] none) schema = .ok plan ∧
      ExactScan makeEmployeesCatalog (employeesJoin [str "e.age"] none) schema plan := by
  obtain ⟨schema, accepted⟩ : ∃ schema,
      analyze makeEmployeesCatalog (employeesJoin [str "e.age"] none) = .ok schema := ⟨_, rfl⟩
  obtain ⟨_, _, plan, planned, exact_iff⟩ := scan_exact_iff accepted
  refine ⟨schema, plan, accepted, planned, exact_iff.mpr ⟨?_, nofun⟩⟩
  intro ref mem
  have only : scannedReferences (employeesJoin [str "e.age"] none) schema = [str "e.age"] := rfl
  rw [only, List.mem_singleton] at mem
  rw [mem]
  refine Or.inr (Or.inl ⟨str "e.age", List.mem_cons_self, ⟨?_, by decide, ?_⟩, rfl⟩)
  · intro join joined
    rw [List.mem_singleton.mp joined]
    decide
  · intro d hd
    obtain rfl : d = 1 := (Option.some.inj hd).symm
    decide

/-- A filter on a column that the joined table alone has. -/
def joinedFilter : Str :=
  str "SELECT e.age FROM employees e JOIN departments d ON e.department_id = d.id " ++
    str "WHERE d.department_name = 'HR'"

/-- `department_name` gets on the scan list of `employees`. -/
theorem foreign_column_scanned :
    ¬ ∀ (cat : Catalog) (sql : Str) (stmt : SelectStatement) (schema : TableSchema)
      (plan : PhysicalPlan), SQLParser.parse sql = .ok stmt → analyze cat stmt = .ok schema →
      stmt.joins.length ≤ 1 → planQuery stmt schema = .ok plan →
        ExactScan cat stmt schema plan := by
  intro all
  have scan := all makeEmployeesCatalog joinedFilter (employeesJoin [str "e.age"]
    (some (.comparison .Equal (.columnRef (str "d.department_name")) (.stringLiteral (str "HR")))))
    _ _ (by decide +kernel) rfl (le_refl 1) rfl
  exact absurd (scan.own (str "department_name") (by decide)) (by decide)

end FheSql.ScanList
