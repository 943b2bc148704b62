import FheSql.AnalyzedStatement
import FheSql.ClientPipeline
import FheSql.PlainProto1
import FheSql.PredicateCode

/-!
# Confidentiality of literals

Two statements that differ in literals, in the LIMIT value and in sort
directions only are sent as packages that differ in ciphertext bytes only. The
two runs may draw different randomness.
-/

namespace FheSql.LiteralConfidentiality

open ByteText Throwing PredicateCode QueryEncryptor ClientPipeline AnalyzedStatement

/-- Two expressions that differ in the values of their literals only. -/
inductive SameShape : ASTExpr → ASTExpr → Prop where
  | columnRef {name} : SameShape (.columnRef name) (.columnRef name)
  | intLiteral {v v'} : SameShape (.intLiteral v) (.intLiteral v')
  | stringLiteral {v v'} : SameShape (.stringLiteral v) (.stringLiteral v')
  | comparison {kind l l' r r'} : SameShape l l' → SameShape r r' →
      SameShape (.comparison kind l r) (.comparison kind l' r')
  | boolean {kind l l' r r'} : SameShape l l' → SameShape r r' →
      SameShape (.boolean kind l r) (.boolean kind l' r')
  | notExpr {e e'} : SameShape e e' → SameShape (.notExpr e) (.notExpr e')

/-- Two statements that differ in literals, LIMIT and sort directions only. -/
structure DiffersInLiterals (stmt stmt' : SelectStatement) : Prop where
  projections : stmt.projections = stmt'.projections
  tableName : stmt.tableName = stmt'.tableName
  tableAlias : stmt.tableAlias = stmt'.tableAlias
  joins : List.Forall₂ (fun j j' => j.rightTable = j'.rightTable ∧
    Option.Rel SameShape j.condition j'.condition) stmt.joins stmt'.joins
  whereClause : Option.Rel SameShape stmt.whereClause stmt'.whereClause
  orderBy : List.Forall₂ (fun o o' => o.columnName = o'.columnName)
    stmt.orderByColumns stmt'.orderByColumns

/-- An entry without its ciphertext. -/
def redactEntry (entry : EncryptedLiteralEntry) : EncryptedLiteralEntry :=
  { entry with ciphertextBytes := [] }

/-- A package without the ciphertexts of its literals. -/
def redact (pkg : QueryPackage) : QueryPackage :=
  { pkg with encryptedLiterals := pkg.encryptedLiterals.map redactEntry }

/-- The size of an encrypted scalar does not depend on the scalar. -/
def SizeHidesScalar (P : Proto1) : Prop :=
  ∀ v v' rng rng' ct ct' next next', encryptScalar P v rng = .ok (ct, next) →
    encryptScalar P v' rng' = .ok (ct', next') → P.logicalSize ct = P.logicalSize ct'

section Planning

variable {stmt stmt' : SelectStatement} {e e' : ASTExpr}

theorem collectColumns_congr (h : SameShape e e') (cols : List Str) :
    collectColumns e cols = collectColumns e' cols := by
  induction h generalizing cols with
  | columnRef | intLiteral | stringLiteral => rfl
  | comparison _ _ ihl ihr | boolean _ _ ihl ihr =>
    simp only [collectColumns, ihl, ihr]
  | notExpr _ ih => simp only [collectColumns, ih]

theorem columnName_congr (h : SameShape e e') : e.columnName = e'.columnName := by
  cases h <;> rfl

theorem scanOf_congr (h : DiffersInLiterals stmt stmt') :
    LogicalPlanner.scanOf stmt = LogicalPlanner.scanOf stmt' := by
  have joins := h.joins
  simp only [LogicalPlanner.scanOf, h.tableName, h.tableAlias]
  generalize stmt.joins = js at joins ⊢
  generalize stmt'.joins = js' at joins ⊢
  cases joins with
  | nil => rfl
  | @cons j j' _ _ pair _ =>
    obtain ⟨table, condition⟩ := pair
    simp only [List.head?_cons, table]
    generalize j.condition = c at condition ⊢
    generalize j'.condition = c' at condition ⊢
    cases condition with
    | none => rfl
    | some shape =>
      cases shape with
      | @comparison kind _ _ _ _ left right =>
        have hl := columnName_congr left
        have hr := columnName_congr right
        cases kind <;> simp only [hl, hr]
      | _ => rfl

theorem projectColumns_congr (h : DiffersInLiterals stmt stmt') (schema : TableSchema) :
    LogicalPlanner.projectColumns stmt schema = LogicalPlanner.projectColumns stmt' schema := by
  have names : stmt.orderByColumns.map (·.columnName) =
      stmt'.orderByColumns.map (·.columnName) := by
    have orderBy := h.orderBy
    generalize stmt.orderByColumns = os at orderBy ⊢
    generalize stmt'.orderByColumns = os' at orderBy ⊢
    induction orderBy with
    | nil => rfl
    | cons same _ ih => simp only [List.map_cons, same, ih]
  simp only [LogicalPlanner.projectColumns, names, h.projections]

theorem planQuery_congr (h : DiffersInLiterals stmt stmt') (schema : TableSchema) :
    planQuery stmt schema = planQuery stmt' schema := by
  have predicate := h.whereClause
  simp only [planQuery, LogicalPlanner.plan, scanOf_congr h, projectColumns_congr h]
  cases LogicalPlanner.scanOf stmt' with
  | error e => rfl
  | ok scan =>
    generalize stmt.whereClause = w at predicate ⊢
    generalize stmt'.whereClause = w' at predicate ⊢
    cases predicate with
    | none => rfl
    | some shape =>
      simp only [ok_bind, pure_eq_ok, PhysicalPlanner.plan, collectColumns_congr shape]

end Planning

section Encryption

variable {P : Proto1} {schema : TableSchema}

theorem stringComparison?_congr {l l' r r' : ASTExpr} (hl : SameShape l l') (hr : SameShape r r') :
    (stringComparison? l r).map Prod.fst = (stringComparison? l' r').map Prod.fst := by
  cases hl <;> cases hr <;> rfl

/-- Two codes with the same nodes and the same types of literals. -/
structure SameLayout (code code' : Code) : Prop where
  nodes : code.nodes = code'.nodes
  types : code.literals.map Prod.fst = code'.literals.map Prod.fst

theorem SameLayout.length {code code' : Code} (h : SameLayout code code') :
    code.literals.length = code'.literals.length := by
  simpa using congrArg List.length h.types

theorem SameLayout.join {a a' b b' : Code} (ha : SameLayout a a') (hb : SameLayout b b')
    (n : Nat) (kind : PredNodeKind) : SameLayout (a.join n kind b) (a'.join n kind b') := by
  constructor
  · simp only [Code.join, ha.nodes, hb.nodes]
  · simp only [Code.join, List.map_append, ha.types, hb.types]

/-- The layout does not depend on the literals, only on their shape. -/
theorem flatten_congr {e e' : ASTExpr} (h : SameShape e e') {n l : Nat} {code code' : Code}
    (ok : flatten schema e n l = .ok code) (ok' : flatten schema e' n l = .ok code') :
    SameLayout code code' := by
  induction h generalizing n l code code' with
  | columnRef => cases ok; cases ok'; exact ⟨rfl, rfl⟩
  | intLiteral => cases ok; cases ok'; exact ⟨rfl, rfl⟩
  | stringLiteral => cases ok
  | @comparison kind l₁ l₁' r₁ r₁' hl hr ihl ihr =>
    have shape := stringComparison?_congr hl hr
    simp only [flatten] at ok ok'
    cases hs : stringComparison? l₁ r₁ with
    | none =>
      rw [hs] at shape ok
      rw [Option.map_eq_none_iff.mp shape.symm] at ok'
      obtain ⟨a, ha, ok⟩ := bind_ok_iff.mp ok
      obtain ⟨b, hb, ok⟩ := bind_ok_iff.mp ok
      obtain ⟨a', ha', ok'⟩ := bind_ok_iff.mp ok'
      obtain ⟨b', hb', ok'⟩ := bind_ok_iff.mp ok'
      cases ok
      cases ok'
      have left := ihl ha ha'
      rw [← left.nodes, ← left.length] at hb'
      exact left.join (ihr hb hb') n _
    | some pair =>
      obtain ⟨column, literal⟩ := pair
      rw [hs] at shape ok
      obtain ⟨⟨column', literal'⟩, hs', same⟩ := Option.map_eq_some_iff.mp shape.symm
      cases same
      rw [hs'] at ok'
      obtain ⟨cs, hcs, ok⟩ := bind_ok_iff.mp ok
      obtain ⟨cs', hcs', ok'⟩ := bind_ok_iff.mp ok'
      cases ok
      cases ok'
      rw [hcs] at hcs'
      cases hcs'
      exact ⟨rfl, by simp [characters]⟩
  | @boolean kind l₁ l₁' r₁ r₁' hl hr ihl ihr =>
    obtain ⟨a, ha, ok⟩ := bind_ok_iff.mp ok
    obtain ⟨b, hb, ok⟩ := bind_ok_iff.mp ok
    obtain ⟨a', ha', ok'⟩ := bind_ok_iff.mp ok'
    obtain ⟨b', hb', ok'⟩ := bind_ok_iff.mp ok'
    cases ok
    cases ok'
    have left := ihl ha ha'
    rw [← left.nodes, ← left.length] at hb'
    exact left.join (ihr hb hb') n _
  | notExpr _ ih =>
    obtain ⟨a, ha, ok⟩ := bind_ok_iff.mp ok
    obtain ⟨a', ha', ok'⟩ := bind_ok_iff.mp ok'
    cases ok
    cases ok'
    have child := ih ha ha'
    exact ⟨by simp only [Code.negate, child.nodes], child.types⟩

/-- Entries that encrypt literals of the same types are equal up to ciphertexts. -/
theorem redactEntry_congr (size : SizeHidesScalar P) {literals literals' : List (Str × Int)}
    (types : literals.map Prod.fst = literals'.map Prod.fst) {l : Nat}
    {entries entries' : List EncryptedLiteralEntry}
    (h : List.Forall₂ (fun lit entry => Encrypts P lit.1 lit.2 entry) (literals.zipIdx l) entries)
    (h' : List.Forall₂ (fun lit entry => Encrypts P lit.1 lit.2 entry) (literals'.zipIdx l)
      entries') :
    entries.map redactEntry = entries'.map redactEntry := by
  induction literals generalizing literals' l entries entries' with
  | nil =>
    obtain rfl : literals' = [] := by simpa using types.symm
    cases h
    cases h'
    rfl
  | cons lit literals ih =>
    cases literals' with
    | nil => cases types
    | cons lit' literals' =>
      rw [List.zipIdx_cons] at h h'
      obtain ⟨entry, rest, first, tail, rfl⟩ := List.forall₂_cons_left_iff.mp h
      obtain ⟨entry', rest', first', tail', rfl⟩ := List.forall₂_cons_left_iff.mp h'
      obtain ⟨sameType, sameTypes⟩ := List.cons.inj types
      obtain ⟨rng, ct, next, hct, _, hsize⟩ := first.encrypted
      obtain ⟨rng', ct', next', hct', _, hsize'⟩ := first'.encrypted
      have sizes : entry.logicalSize = entry'.logicalSize := by
        rw [hsize, hsize', size _ _ _ _ _ _ _ _ hct hct']
      rw [List.map_cons, List.map_cons, ih sameTypes tail tail']
      simp only [redactEntry, first.id, first'.id, first.logicalType, first'.logicalType,
        sameType, sizes]

theorem attachPredicate_congr (size : SizeHidesScalar P) {stmt stmt' : SelectStatement}
    (h : DiffersInLiterals stmt stmt') {source : Except Exn TableSchema}
    {pkg built built' : QueryPackage} {rng rng' : P.Rng}
    (ok : attachPredicate source stmt pkg rng = .ok built)
    (ok' : attachPredicate source stmt' pkg rng' = .ok built') :
    redact built = redact built' := by
  have predicate := h.whereClause
  simp only [attachPredicate] at ok ok'
  generalize stmt.whereClause = w at predicate ok
  generalize stmt'.whereClause = w' at predicate ok'
  cases predicate with
  | none => cases ok; cases ok'; rfl
  | some shape =>
    obtain ⟨schema, hs, ok⟩ := bind_ok_iff.mp ok
    obtain ⟨schema', hs', ok'⟩ := bind_ok_iff.mp ok'
    rw [hs] at hs'
    cases hs'
    obtain ⟨⟨root, s⟩, hb, ok⟩ := bind_ok_iff.mp ok
    obtain ⟨⟨root', s'⟩, hb', ok'⟩ := bind_ok_iff.mp ok'
    cases ok
    cases ok'
    obtain ⟨code, t, hc, ht, _, rfl⟩ := (buildPredNode_splits schema _ _ 0 _ _ rfl).mp hb
    obtain ⟨code', t', hc', ht', _, rfl⟩ := (buildPredNode_splits schema _ _ 0 _ _ rfl).mp hb'
    have layout := flatten_congr shape hc hc'
    obtain ⟨entries, he, encrypts⟩ := encryptLiterals_entries (l := 0) ht rfl
    obtain ⟨entries', he', encrypts'⟩ := encryptLiterals_entries (l := 0) ht' rfl
    have hidden := redactEntry_congr size layout.types encrypts encrypts'
    simp only [initialState, List.nil_append] at he he'
    simp only [redact, he, he', hidden, layout.nodes, initialState]

/-- The packages of two accepted statements that differ in literals, LIMIT and
sort directions only are equal up to ciphertext bytes, in both overloads. -/
theorem packages_hide_literals (size : SizeHidesScalar P) {stmt stmt' : SelectStatement}
    (h : DiffersInLiterals stmt stmt') (cat : Catalog) (fheMeta : FHEParamsMeta)
    (rng rng' : P.Rng) :
    (∀ pkg pkg', clientPackage cat fheMeta stmt rng = .ok pkg →
      clientPackage cat fheMeta stmt' rng' = .ok pkg' → redact pkg = redact pkg') ∧
    (∀ pkg pkg', schemaPackage cat fheMeta stmt rng = .ok pkg →
      schemaPackage cat fheMeta stmt' rng' = .ok pkg' → redact pkg = redact pkg') := by
  have sameSchema : ∀ schema schema', SemanticAnalyzer.analyze cat stmt = .ok schema →
      SemanticAnalyzer.analyze cat stmt' = .ok schema' → schema = schema' := by
    intro schema schema' hs hs'
    have table := analyze_schema hs
    rw [h.tableName, analyze_schema hs'] at table
    exact (Except.ok.inj table).symm
  constructor
  · intro pkg pkg' ok ok'
    obtain ⟨schema, hs, ok⟩ := bind_ok_iff.mp ok
    obtain ⟨schema', hs', ok'⟩ := bind_ok_iff.mp ok'
    obtain rfl := sameSchema schema schema' hs hs'
    obtain ⟨plan, hp, ok⟩ := bind_ok_iff.mp ok
    obtain ⟨plan', hp', ok'⟩ := bind_ok_iff.mp ok'
    rw [planQuery_congr h, hp'] at hp
    cases hp
    obtain ⟨columns, hc, ok⟩ := bind_ok_iff.mp ok
    obtain ⟨columns', hc', ok'⟩ := bind_ok_iff.mp ok'
    rw [hc] at hc'
    cases hc'
    exact attachPredicate_congr size h ok ok'
  · intro pkg pkg' ok ok'
    obtain ⟨schema, hs, ok⟩ := bind_ok_iff.mp ok
    obtain ⟨schema', hs', ok'⟩ := bind_ok_iff.mp ok'
    obtain rfl := sameSchema schema schema' hs hs'
    obtain ⟨plan, hp, ok⟩ := bind_ok_iff.mp ok
    obtain ⟨plan', hp', ok'⟩ := bind_ok_iff.mp ok'
    rw [planQuery_congr h, hp'] at hp
    cases hp
    obtain ⟨columns, hc, ok⟩ := bind_ok_iff.mp ok
    obtain ⟨columns', hc', ok'⟩ := bind_ok_iff.mp ok'
    rw [hc] at hc'
    cases hc'
    exact attachPredicate_congr size h ok ok'

theorem plain_sizeHidesScalar (slotCount : Nat) : SizeHidesScalar (plainProto1 slotCount) := by
  intro v v' rng rng' ct ct' next next' h h'
  cases h
  cases h'
  simp [plainProto1]

/-- `SELECT name FROM employees WHERE age > bound AND name = 'prefix' ORDER BY id`. -/
def agedQuery (bound : Int) (name : Str) (direction : SortDirection) (limit : Int) :
    SelectStatement where
  projections := [str "name"]
  tableName := str "employees"
  tableAlias := str "employees"
  whereClause := some (.boolean .And
    (.comparison .GreaterThan (.columnRef (str "age")) (.intLiteral bound))
    (.comparison .Equal (.columnRef (str "name")) (.stringLiteral name)))
  orderByColumns := [{ columnName := str "id", direction := direction }]
  limitCount := limit

theorem agedQuery_differsInLiterals (v v' : Int) (name name' : Str) (d d' : SortDirection)
    (limit limit' : Int) :
    DiffersInLiterals (agedQuery v name d limit) (agedQuery v' name' d' limit') :=
  ⟨rfl, rfl, rfl, .nil,
    .some (.boolean (.comparison .columnRef .intLiteral) (.comparison .columnRef .stringLiteral)),
    .cons rfl .nil⟩

theorem agedQuery_packages_hide_literals :
    ∃ pkg pkg',
      clientPackage (P := plainProto1 1) makeEmployeesCatalog {}
        (agedQuery 30 (str "Ann") .Ascending (-1)) () = .ok pkg ∧
      clientPackage (P := plainProto1 1) makeEmployeesCatalog {}
        (agedQuery 65 (str "Bob") .Descending 3) () = .ok pkg' ∧
      redact pkg = redact pkg' :=
  ⟨_, _, rfl, rfl,
    (packages_hide_literals (P := plainProto1 1) (plain_sizeHidesScalar 1)
      (agedQuery_differsInLiterals 30 65 (str "Ann") (str "Bob") .Ascending .Descending (-1) 3)
      makeEmployeesCatalog {} () ()).1 _ _ rfl rfl⟩

end Encryption

end FheSql.LiteralConfidentiality
