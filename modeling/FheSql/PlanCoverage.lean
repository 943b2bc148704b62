import FheSql.PipelineAcceptance

/-!
# What a plan covers

A plan has room for one join, and the star is expanded to the columns of the
FROM table. A statement with more than that loses the rest on the way.
-/

namespace FheSql.PlanCoverage

open ByteText Throwing SemanticAnalyzer AnalyzedStatement ClientPipeline StatementPlan
open PipelineAcceptance

variable {cat : Catalog} {stmt : SelectStatement} {schema : TableSchema} {plan : PhysicalPlan}

/-- The JOIN clauses a plan carries: table, alias and ON columns. -/
def planJoins (plan : PhysicalPlan) : List JoinClause :=
  if plan.hasJoin then
    [{ rightTable := { tableName := plan.joinedTableName, aliasName := plan.joinedTableAlias }
       condition := some (.comparison .Equal (.columnRef plan.joinLeftColumn)
        (.columnRef plan.joinRightColumn)) }]
  else []

variable (cat) in
/-- The columns of the joined tables, under their aliases. -/
def JoinedColumn (stmt : SelectStatement) (name : Str) : Prop :=
  ∃ join ∈ stmt.joins, ∃ t, cat.getTable join.rightTable.tableName = .ok t ∧
    ∃ c ∈ t.columns, name = qualified join.rightTable.aliasName c.name

variable (cat) in
/-- No join is dropped, and the star stands for every column of every table. -/
structure Covers (stmt : SelectStatement) (schema : TableSchema) (plan : PhysicalPlan) : Prop where
  joins : planJoins plan = stmt.joins
  star : stmt.projections = [] → (∀ c ∈ schema.columns, c.name ∈ plan.projectColumns) ∧
    ∀ name, JoinedColumn cat stmt name → name ∈ plan.projectColumns

variable (cat) in
/-- At most one JOIN clause, and with a star each joined column is asked for by ORDER BY
or has the name of a column of the FROM table. -/
structure Coverable (stmt : SelectStatement) (schema : TableSchema) : Prop where
  joins : stmt.joins.length ≤ 1
  star : stmt.projections = [] → ∀ name, JoinedColumn cat stmt name →
    name ∈ schema.columns.map (·.name) ∨ name ∈ stmt.orderByColumns.map (·.columnName)

theorem mem_projectColumns_of_star (star : stmt.projections = []) {name : Str} :
    name ∈ LogicalPlanner.projectColumns stmt schema ↔
      name ∈ schema.columns.map (·.name) ∨ name ∈ stmt.orderByColumns.map (·.columnName) := by
  simp only [LogicalPlanner.projectColumns, star, if_true, mem_foldl_pushUnique]

/-- A plan carries the first JOIN clause and no other. -/
theorem planJoins_eq (planOf : PlanOf stmt schema plan) : planJoins plan = stmt.joins.take 1 := by
  have joins := planOf.hasJoin
  cases hj : stmt.joins with
  | nil =>
    simp only [joined?, hj, List.head?_nil, Option.map_none, Option.isSome_none] at joins
    simp [planJoins, joins]
  | cons join rest =>
    simp only [joined?, hj, List.head?_cons, Option.map_some, Option.isSome_some] at joins
    obtain ⟨left, right, condition, hl, hr⟩ := planOf.joinColumns join (by simp [hj])
    have table := planOf.joinedTableName
    have aliasName := planOf.joinedTableAlias
    simp only [joinedName, joinedAlias, joined?, hj, List.head?_cons, Option.map_some,
      Option.getD_some] at table aliasName
    simp only [planJoins, joins, if_true, table, aliasName, hl, hr, ← condition]
    rfl

/-- The plan of an accepted statement covers it exactly when it is coverable. -/
theorem plan_covers_iff (accepted : analyze cat stmt = .ok schema) :
    (∀ plan, planQuery stmt schema = .ok plan → Covers cat stmt schema plan) ↔
      Coverable cat stmt schema := by
  obtain ⟨scopes, analyzed⟩ := analyze_ok_iff.mp accepted
  obtain ⟨plan, planned, planOf⟩ := planQuery_analyzed analyzed
  have only : (∀ plan, planQuery stmt schema = .ok plan → Covers cat stmt schema plan) ↔
      Covers cat stmt schema plan :=
    ⟨fun all => all plan planned, fun covers plan' planned' => by
      obtain rfl := Except.ok.inj (planned.symm.trans planned')
      exact covers⟩
  have listed : ∀ name, name ∈ plan.projectColumns ↔
      name ∈ LogicalPlanner.projectColumns stmt schema := fun name => by rw [planOf.projectColumns]
  rw [only]
  constructor
  · intro covers
    refine ⟨?_, fun star name joined => ?_⟩
    · have joins := covers.joins
      rw [planJoins_eq planOf] at joins
      rw [← joins, List.length_take]
      omega
    · apply (mem_projectColumns_of_star star).mp
      exact (listed name).mp ((covers.star star).2 name joined)
  · intro coverable
    refine ⟨?_, fun star => ⟨fun c mem => ?_, fun name joined => ?_⟩⟩
    · rw [planJoins_eq planOf, List.take_of_length_le coverable.joins]
    · apply (listed _).mpr
      exact (mem_projectColumns_of_star star).mpr (Or.inl (List.mem_map_of_mem mem))
    · apply (listed _).mpr
      exact (mem_projectColumns_of_star star).mpr (coverable.star star name joined)

theorem employeesJoin_covered : ∃ schema,
    analyze makeEmployeesCatalog (employeesJoin [str "e.age"] none) = .ok schema ∧
      ∀ plan, planQuery (employeesJoin [str "e.age"] none) schema = .ok plan →
        Covers makeEmployeesCatalog (employeesJoin [str "e.age"] none) schema plan :=
  ⟨_, rfl, (plan_covers_iff rfl).mpr ⟨le_refl 1, nofun⟩⟩

/-- The same join followed by one more, of departments under the alias `f`. -/
def twoJoins : SelectStatement :=
  { employeesJoin [str "e.age"] none with
    joins := (employeesJoin [] none).joins ++ [{
      rightTable := { tableName := str "departments", aliasName := str "f" }
      condition := some (.comparison .Equal (.columnRef (str "e.id"))
        (.columnRef (str "f.id"))) }] }

/-- A second JOIN is dropped, and the star leaves out the joined table. -/
theorem plan_can_lose_tables :
    (¬ ∀ (cat : Catalog) (stmt : SelectStatement) (schema : TableSchema) (plan : PhysicalPlan),
      analyze cat stmt = .ok schema → planQuery stmt schema = .ok plan →
        planJoins plan = stmt.joins) ∧
    ¬ ∀ (cat : Catalog) (stmt : SelectStatement) (schema : TableSchema) (plan : PhysicalPlan),
      analyze cat stmt = .ok schema → planQuery stmt schema = .ok plan →
        stmt.projections = [] → ∀ name, JoinedColumn cat stmt name →
          name ∈ plan.projectColumns := by
  constructor
  · intro all
    have joins := all makeEmployeesCatalog twoJoins _ _ rfl rfl
    exact absurd joins (by decide)
  · intro all
    have listed := all makeEmployeesCatalog (employeesJoin [] none) _ _ rfl rfl rfl
      (str "d.department_name") ⟨_, List.mem_singleton.mpr rfl, _, rfl,
        { name := str "department_name", type := .STRING, maxLength := 16 }, by decide, rfl⟩
    exact absurd listed (by decide)

end FheSql.PlanCoverage
