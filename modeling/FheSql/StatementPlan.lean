import FheSql.AnalyzedStatement
import FheSql.ClientPipeline

/-!
# The plan of an analyzed statement

For a statement `analyze` accepts both planners succeed; here is the plan they
give, and which columns its scan list holds.
-/

namespace FheSql.StatementPlan

open ByteText Throwing SemanticAnalyzer AnalyzedStatement ClientPipeline

/-- The first joined table, the only one a plan keeps. -/
def joined? (stmt : SelectStatement) : Option TableRef :=
  stmt.joins.head?.map fun join => join.rightTable

def joinedName (stmt : SelectStatement) : Str := ((joined? stmt).map (·.tableName)).getD []

def joinedAlias (stmt : SelectStatement) : Str := ((joined? stmt).map (·.aliasName)).getD []

/-- The names of all column references of an expression. -/
def references : ASTExpr → List Str
  | .columnRef name => [name]
  | .intLiteral _ => []
  | .stringLiteral _ => []
  | .comparison _ l r => references l ++ references r
  | .boolean _ l r => references l ++ references r
  | .notExpr e => references e

def whereReferences (stmt : SelectStatement) : List Str :=
  (stmt.whereClause.map references).getD []

variable {cat : Catalog} {stmt : SelectStatement} {schema : TableSchema}
  {scopes : StringMap TableSchema}

/-- The ON condition of an analyzed join is an equality of two columns. -/
theorem validateJoin_condition {join : JoinClause} (ok : validateJoin scopes join = .ok ()) :
    ∃ left right,
      join.condition = some (.comparison .Equal (.columnRef left) (.columnRef right)) := by
  unfold validateJoin at ok
  split at ok
  · exact ⟨_, _, ‹_›⟩
  · cases ok

/-- What the plan of an analyzed statement keeps of it. -/
structure PlanOf (stmt : SelectStatement) (schema : TableSchema) (plan : PhysicalPlan) : Prop where
  tableName : plan.tableName = stmt.tableName
  tableAlias : plan.tableAlias = stmt.tableAlias
  hasJoin : plan.hasJoin = (joined? stmt).isSome
  joinedTableName : plan.joinedTableName = joinedName stmt
  joinedTableAlias : plan.joinedTableAlias = joinedAlias stmt
  joinColumns : ∀ join, stmt.joins.head? = some join →
    ∃ left right,
      join.condition = some (.comparison .Equal (.columnRef left) (.columnRef right)) ∧
      plan.joinLeftColumn = left ∧ plan.joinRightColumn = right
  projectColumns : plan.projectColumns = LogicalPlanner.projectColumns stmt schema
  scanColumns : ∀ c, c ∈ plan.scanColumns ↔
    (∃ r ∈ whereReferences stmt, c = bareName r) ∨
      ∃ name ∈ plan.projectColumns,
        PhysicalPlanner.namesJoinedTable plan.hasJoin plan.joinedTableAlias name = false ∧
          c = bareName name

theorem mem_pushUnique {cols : List Str} {c d : Str} :
    c ∈ pushUnique cols d ↔ c ∈ cols ∨ c = d := by
  unfold pushUnique
  split
  · constructor
    · exact Or.inl
    · rintro (h | rfl)
      · exact h
      · assumption
  · simp

theorem mem_foldl_pushUnique {names cols : List Str} {name : Str} :
    name ∈ names.foldl pushUnique cols ↔ name ∈ cols ∨ name ∈ names := by
  induction names generalizing cols with
  | nil => simp
  | cons first names ih => rw [List.foldl_cons, ih, mem_pushUnique, or_assoc, List.mem_cons]

theorem nodup_pushUnique {cols : List Str} (distinct : cols.Nodup) (c : Str) :
    (pushUnique cols c).Nodup := by
  unfold pushUnique
  by_cases known : c ∈ cols
  · rw [if_pos known]
    exact distinct
  · rw [if_neg known, List.nodup_append]
    refine ⟨distinct, List.nodup_singleton c, fun a ha b hb same => known ?_⟩
    rw [← List.mem_singleton.mp hb, ← same]
    exact ha

theorem nodup_foldl_pushUnique (names : List Str) {cols : List Str} (distinct : cols.Nodup) :
    (names.foldl pushUnique cols).Nodup := by
  induction names generalizing cols with
  | nil => exact distinct
  | cons name names ih => exact ih (nodup_pushUnique distinct name)

theorem mem_collectColumns {e : ASTExpr} {cols : List Str} {c : Str} :
    c ∈ collectColumns e cols ↔ c ∈ cols ∨ ∃ r ∈ references e, c = bareName r := by
  induction e generalizing cols with
  | columnRef name => simp [collectColumns, references, mem_pushUnique]
  | intLiteral | stringLiteral => simp [collectColumns, references]
  | comparison _ l r ihl ihr | boolean _ l r ihl ihr =>
    simp only [collectColumns, references, ihr, ihl, List.mem_append, or_assoc, or_and_right,
      exists_or]
  | notExpr e ih => exact ih

theorem mem_addProjected {node : ScanNode} {names init : List Str} {c : Str} :
    c ∈ names.foldl (PhysicalPlanner.addProjected node) init ↔
      c ∈ init ∨ ∃ name ∈ names,
        PhysicalPlanner.namesJoinedTable node.hasJoin node.joinedTableAlias name = false ∧
          c = bareName name := by
  induction names generalizing init with
  | nil => simp
  | cons name names ih =>
    rw [List.foldl_cons, ih]
    cases hj : PhysicalPlanner.namesJoinedTable node.hasJoin node.joinedTableAlias name <;>
      simp [PhysicalPlanner.addProjected, hj, mem_pushUnique, or_assoc]

theorem scanOf_analyzed (analyzed : Analyzed cat stmt schema scopes) :
    ∃ scan, LogicalPlanner.scanOf stmt = .ok scan ∧ scan.tableName = stmt.tableName ∧
      scan.tableAlias = stmt.tableAlias ∧ scan.hasJoin = (joined? stmt).isSome ∧
      scan.joinedTableName = joinedName stmt ∧ scan.joinedTableAlias = joinedAlias stmt ∧
      ∀ join, stmt.joins.head? = some join → ∃ left right,
        join.condition = some (.comparison .Equal (.columnRef left) (.columnRef right)) ∧
        scan.joinLeftColumn = left ∧ scan.joinRightColumn = right := by
  unfold LogicalPlanner.scanOf
  cases hj : stmt.joins.head? with
  | none =>
    refine ⟨_, rfl, rfl, rfl, ?_, ?_, ?_, nofun⟩ <;> simp [joined?, joinedName, joinedAlias, hj]
  | some join =>
    obtain ⟨left, right, hc⟩ := validateJoin_condition
      (analyzed.joins join (List.mem_of_mem_head? hj))
    simp only [hc]
    refine ⟨_, rfl, rfl, rfl, ?_, ?_, ?_, ?_⟩
    · simp [joined?, hj]
    · simp [joinedName, joined?, hj]
    · simp [joinedAlias, joined?, hj]
    · rintro join' same
      cases same
      exact ⟨left, right, hc, rfl, rfl⟩

/-- Both planners succeed on an analyzed statement. -/
theorem planQuery_analyzed (analyzed : Analyzed cat stmt schema scopes) :
    ∃ plan, planQuery stmt schema = .ok plan ∧ PlanOf stmt schema plan := by
  obtain ⟨scan, hs, tableName, tableAlias, hasJoin, joinedTable, joinedTableAlias, columns⟩ :=
    scanOf_analyzed analyzed
  simp only [planQuery, LogicalPlanner.plan, hs, ok_bind, pure_eq_ok]
  cases hw : stmt.whereClause with
  | none =>
    refine ⟨_, rfl, tableName, tableAlias, hasJoin, joinedTable, joinedTableAlias, columns, rfl,
      fun c => ?_⟩
    simp [PhysicalPlanner.planScan, mem_addProjected, whereReferences, hw]
  | some e =>
    refine ⟨_, rfl, tableName, tableAlias, hasJoin, joinedTable, joinedTableAlias, columns, rfl,
      fun c => ?_⟩
    simp [PhysicalPlanner.planScan, mem_addProjected, mem_collectColumns, whereReferences, hw]

end FheSql.StatementPlan
