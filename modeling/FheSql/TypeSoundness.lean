import FheSql.AnalyzedStatement
import FheSql.ClientPipeline
import FheSql.PipelineAcceptance

/-!
# Typing of WHERE clauses

A predicate is well typed when it is built by AND, OR and NOT from comparisons
of operands of one type. `validateExpr` accepts more: it lets bare columns and
literals stand for conditions and does not compare the types of two columns.
-/

namespace FheSql.TypeSoundness

open ByteText Throwing IndicatorPoly SemanticAnalyzer AnalyzedStatement QueryEncryptor
open PredicateCode PredicateExpression PredicateFlattening ClientPipeline PipelineAcceptance

section Typing

variable (cat : Catalog) (stmt : SelectStatement)

/-- The table a qualifier names: the FROM table by its alias, or by its own name
when it has none, else the first join with that alias. -/
def tableNamed (qualifier : Str) : Option Str :=
  if qualifier = stmt.tableAlias ∨ (stmt.tableAlias = [] ∧ qualifier = stmt.tableName) then
    some stmt.tableName
  else
    (stmt.joins.find? fun join => qualifier == join.rightTable.aliasName).map
      fun join => join.rightTable.tableName

def columnOf (table name : Str) : Option ColumnSchema :=
  (cat.tables.lookup table).bind fun t => t.columns.find? fun c => c.name == name

/-- The column a reference stands for; an unqualified one is looked up in the
FROM table first and in the joined tables after it. -/
def denotes (ref : Str) : Option ColumnSchema :=
  match findDot ref with
  | some d => (tableNamed stmt (ref.take d)).bind fun table => columnOf cat table (ref.drop (d + 1))
  | none =>
    (stmt.tableName :: stmt.joins.map fun join => join.rightTable.tableName).findSome?
      fun table => columnOf cat table ref

def operandType : ASTExpr → Option DataType
  | .columnRef ref => (denotes cat stmt ref).map (·.type)
  | .intLiteral _ => some .INT64
  | .stringLiteral _ => some .STRING
  | _ => none

/-- A STRING column stands opposite a string literal, under `=` or `!=`. -/
def StringRule (kind : CompareKind) (side other : ASTExpr) : Prop :=
  side.isColumnRef = true → operandType cat stmt side = some .STRING →
    other.isStringLiteral = true ∧ CompareKind.isOrdering kind = false

structure ComparisonTyped (kind : CompareKind) (l r : ASTExpr) : Prop where
  sameType : ∃ t, operandType cat stmt l = some t ∧ operandType cat stmt r = some t
  ordering : CompareKind.isOrdering kind = true →
    operandType cat stmt l = some .INT64 ∧ operandType cat stmt r = some .INT64
  left : StringRule cat stmt kind l r
  right : StringRule cat stmt kind r l

def WellTyped : ASTExpr → Prop
  | .comparison kind l r => ComparisonTyped cat stmt kind l r
  | .boolean _ l r => WellTyped l ∧ WellTyped r
  | .notExpr e => WellTyped e
  | _ => False

/-- Nothing but comparisons stands in a boolean position, and two columns that
are compared by `=` or `!=` are of one type other than STRING. -/
def ColumnsMatch : ASTExpr → Prop
  | .comparison kind (.columnRef a) (.columnRef b) =>
    CompareKind.isOrdering kind = true ∨
      ∃ ca cb, denotes cat stmt a = some ca ∧ denotes cat stmt b = some cb ∧
        ca.type = cb.type ∧ ca.type ≠ .STRING
  | .comparison _ _ _ => True
  | .boolean _ l r => ColumnsMatch l ∧ ColumnsMatch r
  | .notExpr e => ColumnsMatch e
  | _ => False

end Typing

variable {cat : Catalog} {stmt : SelectStatement}

theorem columnOf_of_ok {table name : Str} {t : TableSchema} {c : ColumnSchema}
    (ht : cat.getTable table = .ok t) (hc : t.column name = .ok c) :
    columnOf cat table name = some c := by
  unfold Catalog.getTable at ht
  unfold TableSchema.column at hc
  cases hl : cat.tables.lookup table with
  | none => rw [hl] at ht; cases ht
  | some t' =>
    rw [hl] at ht
    cases ht
    cases hf : t.columns.find? fun c => c.name == name with
    | none => rw [hf] at hc; cases hc
    | some c' =>
      rw [hf] at hc
      cases hc
      simp only [columnOf, hl, Option.bind_some, hf]

/-- A reference that `validateComparison` resolves stands for that column. -/
theorem denotes_of_finds {ref : Str} {c : ColumnSchema} (h : Finds cat stmt ref c) :
    denotes cat stmt ref = some c := by
  unfold Finds resolveInComparison at h
  unfold denotes
  cases hd : findDot ref with
  | some d =>
    simp only [hd] at h ⊢
    by_cases from? : ref.take d = stmt.tableAlias ∨
        (stmt.tableAlias = [] ∧ ref.take d = stmt.tableName)
    · rw [if_pos from?] at h
      obtain ⟨t, ht, hc⟩ := bind_ok_iff.mp h
      simp only [tableNamed, if_pos from?, Option.bind_some, columnOf_of_ok ht hc]
    · rw [if_neg from?] at h
      cases hj : stmt.joins.find? fun join => ref.take d == join.rightTable.aliasName with
      | none => rw [hj] at h; cases h
      | some join =>
        rw [hj] at h
        obtain ⟨t, ht, hc⟩ := bind_ok_iff.mp h
        simp only [tableNamed, if_neg from?, hj, Option.map_some, Option.bind_some,
          columnOf_of_ok ht hc]
  | none =>
    simp only [hd] at h ⊢
    obtain ⟨t, ht, h⟩ := bind_ok_iff.mp h
    simp only [throw_eq_error, error_bind, guard_ok_iff] at h
    rw [List.findSome?_cons, columnOf_of_ok ht h.2]

theorem operandType_of_finds {ref : Str} {c : ColumnSchema} (h : Finds cat stmt ref c) :
    operandType cat stmt (.columnRef ref) = some c.type := by
  simp only [operandType, denotes_of_finds h, Option.map_some]

theorem stringRule_literal {kind : CompareKind} {side other : ASTExpr}
    (literal : side.isColumnRef = false) : StringRule cat stmt kind side other := by
  intro column
  rw [literal] at column
  cases column

/-- A column against a literal of its type, in either order. -/
theorem comparisonTyped_literal {kind : CompareKind} {a : Str} {literal : ASTExpr} {t : DataType}
    {c : ColumnSchema} (hc : Finds cat stmt a c) (ht : c.type = t)
    (hl : operandType cat stmt literal = some t) (noColumn : literal.isColumnRef = false)
    (ordering : CompareKind.isOrdering kind = true → t = .INT64)
    (string : t = .STRING → literal.isStringLiteral = true ∧ CompareKind.isOrdering kind = false) :
    ComparisonTyped cat stmt kind (.columnRef a) literal ∧
      ComparisonTyped cat stmt kind literal (.columnRef a) := by
  have ha : operandType cat stmt (.columnRef a) = some t := by
    rw [operandType_of_finds hc, ht]
  have rule : StringRule cat stmt kind (.columnRef a) literal := by
    intro _ isString
    rw [ha] at isString
    exact string (Option.some.inj isString)
  refine ⟨⟨⟨t, ha, hl⟩, fun ho => ?_, rule, stringRule_literal noColumn⟩,
    ⟨t, hl, ha⟩, fun ho => ?_, stringRule_literal noColumn, rule⟩
  · rw [ha, hl, ordering ho]
    exact ⟨rfl, rfl⟩
  · rw [ha, hl, ordering ho]
    exact ⟨rfl, rfl⟩

theorem comparisonTyped_columns {kind : CompareKind} {a b : Str} {ca cb : ColumnSchema}
    (ha : Finds cat stmt a ca) (hb : Finds cat stmt b cb)
    (numeric : CompareKind.isOrdering kind = true → ca.type = .INT64 ∧ cb.type = .INT64) :
    ComparisonTyped cat stmt kind (.columnRef a) (.columnRef b) ↔
      ColumnsMatch cat stmt (.comparison kind (.columnRef a) (.columnRef b)) := by
  have hta := operandType_of_finds ha
  have htb := operandType_of_finds hb
  constructor
  · intro typed
    obtain ⟨t, ta, tb⟩ := typed.sameType
    rw [hta] at ta
    rw [htb] at tb
    refine Or.inr ⟨ca, cb, denotes_of_finds ha, denotes_of_finds hb, ?_, fun string => ?_⟩
    · exact Option.some.inj (ta.trans tb.symm)
    · have other := (typed.left rfl (by rw [hta, string])).1
      cases other
  · intro matching
    have same : ca.type = cb.type ∧ ca.type ≠ .STRING := by
      rcases matching with ordering | ⟨ca', cb', hca, hcb, same, noString⟩
      · obtain ⟨ta, tb⟩ := numeric ordering
        rw [ta, tb]
        exact ⟨rfl, by decide⟩
      · rw [denotes_of_finds ha] at hca
        rw [denotes_of_finds hb] at hcb
        cases hca
        cases hcb
        exact ⟨same, noString⟩
    refine ⟨⟨ca.type, hta, by rw [htb, same.1]⟩, fun ho => ?_, fun _ isString => ?_,
      fun _ isString => ?_⟩
    · rw [hta, htb, (numeric ho).1, (numeric ho).2]
      exact ⟨rfl, rfl⟩
    · rw [hta] at isString
      exact False.elim (same.2 (Option.some.inj isString))
    · rw [htb, ← same.1] at isString
      exact False.elim (same.2 (Option.some.inj isString))

/-- For an accepted comparison only the types of two columns are left to check. -/
theorem comparisonTyped_iff {kind : CompareKind} {l r : ASTExpr}
    (ok : ComparisonOk cat stmt kind l r) :
    ComparisonTyped cat stmt kind l r ↔ ColumnsMatch cat stmt (.comparison kind l r) := by
  match l, r, ok with
  | .columnRef a, .columnRef b, ⟨ca, cb, ha, hb, numeric⟩ =>
    exact comparisonTyped_columns ha hb numeric
  | .columnRef a, .intLiteral v, ⟨c, hc, ht⟩ =>
    exact iff_of_true (comparisonTyped_literal hc ht rfl rfl (fun _ => rfl) nofun).1 trivial
  | .intLiteral v, .columnRef a, ⟨c, hc, ht⟩ =>
    exact iff_of_true (comparisonTyped_literal hc ht rfl rfl (fun _ => rfl) nofun).2 trivial
  | .columnRef a, .stringLiteral v, ⟨ho, c, hc, ht, _⟩ =>
    refine iff_of_true (comparisonTyped_literal hc ht rfl rfl (fun h => ?_) fun _ => ⟨rfl, ho⟩).1
      trivial
    rw [ho] at h
    cases h
  | .stringLiteral v, .columnRef a, ⟨ho, c, hc, ht, _⟩ =>
    refine iff_of_true (comparisonTyped_literal hc ht rfl rfl (fun h => ?_) fun _ => ⟨rfl, ho⟩).2
      trivial
    rw [ho] at h
    cases h

/-- For an accepted predicate the same holds at every depth. -/
theorem wellTyped_iff {e : ASTExpr} (ok : validateExpr cat stmt e = .ok ()) :
    WellTyped cat stmt e ↔ ColumnsMatch cat stmt e := by
  induction e with
  | columnRef | intLiteral | stringLiteral => exact Iff.rfl
  | comparison kind l r => exact comparisonTyped_iff (validateComparison_ok_iff.mp ok)
  | boolean kind l r ihl ihr =>
    obtain ⟨⟨⟩, hl, hr⟩ := bind_ok_iff.mp ok
    exact and_congr (ihl hl) (ihr hr)
  | notExpr e ih => exact ih ok

section Masks

/-- The operands of a comparison: columns and literals. -/
def IsOperand : ASTExpr → Prop
  | .columnRef _ | .intLiteral _ | .stringLiteral _ => True
  | _ => False

/-- Connectives over comparisons of columns and literals. -/
def MaskShaped : ASTExpr → Prop
  | .comparison _ l r => IsOperand l ∧ IsOperand r
  | .boolean _ l r => MaskShaped l ∧ MaskShaped r
  | .notExpr e => MaskShaped e
  | _ => False

theorem isOperand_of_comparisonOk {kind : CompareKind} {l r : ASTExpr}
    (ok : ComparisonOk cat stmt kind l r) : IsOperand l ∧ IsOperand r := by
  cases l <;> cases r <;> first | exact ⟨trivial, trivial⟩ | exact ok.elim

theorem maskShaped_of_columnsMatch {e : ASTExpr} (ok : validateExpr cat stmt e = .ok ())
    (h : ColumnsMatch cat stmt e) : MaskShaped e := by
  induction e with
  | columnRef | intLiteral | stringLiteral => exact h
  | comparison kind l r => exact isOperand_of_comparisonOk (validateComparison_ok_iff.mp ok)
  | boolean kind l r ihl ihr =>
    obtain ⟨⟨⟩, hl, hr⟩ := bind_ok_iff.mp ok
    exact ⟨ihl hl h.1, ihr hr h.2⟩
  | notExpr e ih => exact ih ok h

variable {P : Proto1} {pkg : QueryPackage} {schema : TableSchema} {n l : Nat} {code : Code}

theorem built_isLeaf {e : ASTExpr} (h : Flattens schema e n l code) (operand : IsOperand e)
    (carry : CarriesNodes pkg n code.nodes) {fuel : Nat} {built : Expression P.EncryptedVector}
    (ok : QueryExecutor.buildExpression P pkg fuel (rootOf n code) = .ok built) :
    built.isLeaf = true := by
  cases h with
  | columnRef =>
    rw [built_columnRef (carries_root carry rfl) rfl ok]
    rfl
  | intLiteral =>
    obtain ⟨ct, rfl⟩ := built_literal (carries_root carry rfl) rfl ok
    rfl
  | string | comparison | boolean | notExpr => exact operand.elim

theorem isMask_comparison {kind : CompareKind} {l r : Expression P.EncryptedVector}
    (hl : l.isLeaf = true) (hr : r.isLeaf = true) :
    (binaryExpression (comparisonNodeKind kind) l r).isMask = true := by
  cases kind <;> simp [binaryExpression, comparisonNodeKind, Expression.isMask, hl, hr]

theorem isMask_boolean {kind : BooleanKind} {l r : Expression P.EncryptedVector}
    (hl : l.isMask = true) (hr : r.isMask = true) :
    (binaryExpression (booleanNodeKind kind) l r).isMask = true := by
  cases kind <;> simp [binaryExpression, booleanNodeKind, Expression.isMask, hl, hr]

theorem isMask_stringEquality {node : PredNode} {built : Expression P.EncryptedVector}
    (ok : QueryExecutor.stringEquality P pkg node = .ok built) : built.isMask = true := by
  obtain ⟨comparisons, rfl, nonempty, _, all⟩ := stringEquality_ok ok
  refine BalancedFold.balanced_forall (p := fun e => Expression.isMask e = true)
    (fun a b ha hb => by simp [Expression.isMask, ha, hb]) nonempty fun comparison mem => ?_
  obtain ⟨_, _, ct, rfl⟩ := all comparison mem
  rfl

/-- What is built for connectives over comparisons is a mask. -/
theorem built_isMask {e : ASTExpr} (h : Flattens schema e n l code) (shaped : MaskShaped e)
    (carry : CarriesNodes pkg n code.nodes) {fuel : Nat} {built : Expression P.EncryptedVector}
    (ok : QueryExecutor.buildExpression P pkg fuel (rootOf n code) = .ok built) :
    built.isMask = true := by
  induction h generalizing fuel built with
  | columnRef | intLiteral => exact shaped.elim
  | @string kind left right n l column literal columnSchema _ _ =>
    obtain ⟨equality, hx, same⟩ :=
      built_string (carries_root carry rfl) (stringNodeKind_cases kind) ok
    have mask := isMask_stringEquality hx
    rcases same with rfl | rfl <;> exact mask
  | @comparison kind left right n l a b _ ha hb _ _ =>
    obtain ⟨fuel, x, y, hx, hy, rfl⟩ := built_join (isBinary_comparison kind) carry ok
    exact isMask_comparison (built_isLeaf ha shaped.1 (carriesNodes_left carry) hx)
      (built_isLeaf hb shaped.2 (carriesNodes_right carry) hy)
  | @boolean kind left right n l a b ha hb iha ihb =>
    obtain ⟨fuel, x, y, hx, hy, rfl⟩ := built_join (isBinary_boolean kind) carry ok
    exact isMask_boolean (iha shaped.1 (carriesNodes_left carry) hx)
      (ihb shaped.2 (carriesNodes_right carry) hy)
  | @notExpr child n l a ha ih =>
    obtain ⟨fuel, x, hx, rfl⟩ := built_negate carry ok
    have mask : x.isMask = true := ih shaped (carriesNodes_negated carry) hx
    exact mask

/-- The mask the server computes for the WHERE clause of a package of the client:
`ExpressionExecutor` gives a truth value in every slot of every batch that has
the columns the predicate reads. -/
def MaskIsTruthValue (cat : Catalog) (stmt : SelectStatement) : Prop :=
  ∀ (P : Proto1) (sem : SlotSemantics P) (fheMeta : FHEParamsMeta) (rng : P.Rng)
    (pkg : QueryPackage) (fuel : Nat) (predicate : Expression P.EncryptedVector),
    clientPackage cat fheMeta stmt rng = .ok pkg ∨ schemaPackage cat fheMeta stmt rng = .ok pkg →
    pkg.predicateNodes.length < 2 ^ 32 →
    QueryExecutor.buildWhere P pkg fuel = .ok (some predicate) →
    ∀ batch : EncryptedBatch P.EncryptedVector,
      (∀ name ∈ predicate.columns, ∃ ct, batch.first? name = some ct) →
      ∃ mask, P.evaluate predicate batch = .ok mask ∧
        ∀ i, i < P.slotCount → IsBit (sem.slot mask i)

/-- The predicate nodes of a package the client builds: the WHERE clause, laid out with
the schema of the FROM table. -/
theorem predicateNodes_of_package {fheMeta : FHEParamsMeta} {rng : P.Rng}
    (ok : clientPackage cat fheMeta stmt rng = .ok pkg ∨
      schemaPackage cat fheMeta stmt rng = .ok pkg) :
    (stmt.whereClause = none ∧ pkg.predicateNodes = []) ∨
      ∃ e schema code, stmt.whereClause = some e ∧ analyze cat stmt = .ok schema ∧
        Flattens schema e 0 0 code ∧ pkg.predicateNodes = code.nodes := by
  obtain ⟨schema, plan, columns, accepted, _, built⟩ := builtFrom_of_sent ok
  cases hw : stmt.whereClause with
  | none =>
    rw [hw] at built
    cases built
    exact Or.inl ⟨rfl, rfl⟩
  | some e =>
    rw [hw] at built
    cases built with
    | filtered hb =>
      obtain ⟨code, t, hc, _, _, rfl⟩ := (buildPredNode_splits schema e _ 0 _ _ rfl).mp hb
      exact Or.inr ⟨e, schema, code, rfl, accepted, flattens_of_ok hc, rfl⟩

theorem maskIsTruthValue_of_maskShaped
    (shaped : ∀ e, stmt.whereClause = some e → MaskShaped e) : MaskIsTruthValue cat stmt := by
  intro P sem fheMeta rng pkg fuel predicate ok few built batch present
  have mask : predicate.isMask = true := by
    rcases predicateNodes_of_package ok with ⟨_, empty⟩ | ⟨e, schema, code, hw, _, flat, nodes⟩
    · simp [QueryExecutor.buildWhere, empty] at built
    · have nonempty : pkg.predicateNodes ≠ [] := nodes ▸ nodes_ne_nil flat
      simp only [QueryExecutor.buildWhere, if_neg nonempty] at built
      obtain ⟨x, hx, same⟩ := bind_ok_iff.mp built
      cases same
      have carry : CarriesNodes pkg 0 code.nodes :=
        ⟨fun k node hk => by rw [nodes, Nat.zero_add, hk], by rw [← nodes]; omega⟩
      have root : pkg.rootIndex = rootOf 0 code := by
        rw [QueryPackage.rootIndex, rootOf, nodes, Nat.zero_add]
      exact built_isMask flat (shaped e hw) carry (root ▸ hx)
  obtain ⟨ct, evaluated, slots⟩ := sem.evaluate predicate batch mask present
  refine ⟨ct, evaluated, fun i hi => ?_⟩
  rw [slots i hi]
  exact Expression.isBit_value mask _ _

/-- A statement `analyze` accepts has a well-typed WHERE clause and a 0/1 mask
exactly when nothing but comparisons stands in a boolean position and compared
columns match. -/
theorem analyzed_wellTyped_iff (ok : analyze cat stmt = .ok schema) :
    ((∀ e, stmt.whereClause = some e → WellTyped cat stmt e) ∧ MaskIsTruthValue cat stmt) ↔
      ∀ e, stmt.whereClause = some e → ColumnsMatch cat stmt e := by
  obtain ⟨scopes, analyzed⟩ := analyze_ok_iff.mp ok
  constructor
  · rintro ⟨typed, _⟩ e hw
    exact (wellTyped_iff (analyzed.whereOk e hw)).mp (typed e hw)
  · intro columns
    refine ⟨fun e hw => (wellTyped_iff (analyzed.whereOk e hw)).mpr (columns e hw), ?_⟩
    exact maskIsTruthValue_of_maskShaped fun e hw =>
      maskShaped_of_columnsMatch (analyzed.whereOk e hw) (columns e hw)

end Masks

/-- `SELECT name FROM employees WHERE predicate`. -/
def namesWhere (predicate : ASTExpr) : SelectStatement where
  projections := [str "name"]
  tableName := str "employees"
  tableAlias := str "employees"
  whereClause := some predicate

/-- `age > 30 AND name = 'Ann'`. -/
def agedAnn : ASTExpr :=
  .boolean .And (.comparison .GreaterThan (.columnRef (str "age")) (.intLiteral 30))
    (.comparison .Equal (.columnRef (str "name")) (.stringLiteral (str "Ann")))

theorem agedAnn_wellTyped_iff :
    ((∀ e, (namesWhere agedAnn).whereClause = some e →
        WellTyped makeEmployeesCatalog (namesWhere agedAnn) e) ∧
      MaskIsTruthValue makeEmployeesCatalog (namesWhere agedAnn)) ↔
      ∀ e, (namesWhere agedAnn).whereClause = some e →
        ColumnsMatch makeEmployeesCatalog (namesWhere agedAnn) e :=
  analyzed_wellTyped_iff rfl

/-- `WHERE age` passes the analysis. -/
theorem analyzed_can_be_ill_typed :
    ¬ ∀ (cat : Catalog) (stmt : SelectStatement) (schema : TableSchema),
      analyze cat stmt = .ok schema →
        ∀ e, stmt.whereClause = some e → WellTyped cat stmt e := by
  intro all
  exact all makeEmployeesCatalog (namesWhere (.columnRef (str "age"))) _ rfl _ rfl

end FheSql.TypeSoundness
