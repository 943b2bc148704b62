import FheSql.Parser
import FheSql.PredicateFlattening
import FheSql.StatementPlan
import FheSql.ValidatedPackage

/-!
# From an analyzed statement to a validated package

Analyzer, encryptor and validator resolve names by rules of their own.
`Survives` is what a statement the analyzer accepts must satisfy in addition for
the later components to accept it too.
-/

namespace FheSql.PipelineAcceptance

open ByteText Throwing SemanticAnalyzer AnalyzedStatement ClientPipeline StatementPlan
open QueryEncryptor PredicateCode PredicateFlattening PredicateTree ValidatedPackage

section Conditions

variable (cat : Catalog) (stmt : SelectStatement) (schema : TableSchema)

def TableHas (table name : Str) : Prop :=
  ∃ t, cat.getTable table = .ok t ∧ t.hasColumn name = true

/-- The table `encrypt` reads a projected name from: FROM's for its alias or no
qualifier, the joined one for every other qualifier. -/
def encryptorTable (name : Str) : Str :=
  if qualifierOr stmt.tableAlias name = stmt.tableAlias then stmt.tableName
  else joinedName stmt

/-- The table `validate` checks a name against: the joined one for its alias,
FROM's for every other qualifier. -/
def validatorTable (name : Str) : Str :=
  if (joined? stmt).isSome = true ∧ qualifierOr stmt.tableAlias name = joinedAlias stmt then
    joinedName stmt
  else stmt.tableName

/-- A string predicate's column, as named in the statement, is a STRING column of
the FROM table, and its width survives the 32 bits it is sent in. -/
def IsStringColumn (name : Str) : Prop :=
  name ≠ [] ∧ ∃ c bare, schema.column name = .ok c ∧ schema.column (bareName name) = .ok bare ∧
    c.type = .STRING ∧ c.maxLength ≠ 0 ∧ bare.maxLength % 2 ^ 32 = c.maxLength

/-- No string literal stands for a condition, string predicates are on columns of
the FROM table, and the validator's table has every other column. -/
def PredicateSurvives : ASTExpr → Prop
  | .columnRef name => TableHas cat (validatorTable stmt name) (bareName name)
  | .intLiteral _ => True
  | .stringLiteral _ => False
  | .comparison _ l r =>
    match stringComparison? l r with
    | some (column, _) => IsStringColumn schema column
    | none => PredicateSurvives l ∧ PredicateSurvives r
  | .boolean _ l r => PredicateSurvives l ∧ PredicateSurvives r
  | .notExpr e => PredicateSurvives e

structure Survives : Prop where
  projected : ∀ name ∈ LogicalPlanner.projectColumns stmt schema,
    TableHas cat (encryptorTable stmt name) (bareName name) ∧
      TableHas cat (validatorTable stmt name) (bareName name)
  scanned : ∀ r ∈ whereReferences stmt, schema.hasColumn (bareName r) = true
  predicate : ∀ e, stmt.whereClause = some e → PredicateSurvives cat stmt schema e

end Conditions

/-- Scalars are encrypted and serialized to some bytes. -/
structure EncryptsScalars (P : Proto1) : Prop where
  encrypts : ∀ v rng, ∃ ct rng', encryptScalar P v rng = .ok (ct, rng')
  serializes : ∀ ct, P.serialize ct ≠ []

section Encryption

variable {P : Proto1} {schema : TableSchema}

/-- The scalars of some literals can be encrypted. -/
def Encryptable (P : Proto1) (literals : List (Str × Int)) : Prop :=
  ∀ lit ∈ literals, ∀ rng, ∃ ct rng', encryptScalar P lit.2 rng = .ok (ct, rng')

theorem encryptLiterals_total {literals : List (Str × Int)} (works : Encryptable P literals)
    (s : BuildState P) : ∃ t, encryptLiterals literals s = .ok t := by
  induction literals generalizing s with
  | nil => exact ⟨s, rfl⟩
  | cons lit literals ih =>
    obtain ⟨ct, rng, hct⟩ := works lit List.mem_cons_self s.rng
    obtain ⟨t, ht⟩ := ih (fun l mem => works l (List.mem_cons_of_mem _ mem)) _
    refine ⟨t, ?_⟩
    simp only [encryptLiterals, List.foldlM_cons] at ht ⊢
    exact bind_ok_iff.mpr ⟨_, pushLiteral_ok_iff.mpr ⟨ct, rng, hct, rfl⟩, ht⟩

/-- With encryption at hand `buildPredNode` succeeds on what can be laid out. -/
theorem buildPredNode_of_flatten {e : ASTExpr} {code : Code}
    (h : flatten schema e 0 0 = .ok code) (works : Encryptable P code.literals) (rng : P.Rng) :
    ∃ root s, buildPredNode schema e (initialState rng) = .ok (root, s) ∧
      s.nodes = code.nodes ∧
      List.Forall₂ (fun lit entry => Encrypts P lit.1 lit.2 entry) (code.literals.zipIdx 0)
        s.literals := by
  obtain ⟨t, ht⟩ := encryptLiterals_total works (initialState rng)
  have laid : LaidOut schema e (initialState rng) 0 _ _ := ⟨code, t, h, ht, rfl, rfl⟩
  obtain ⟨entries, hentries, encrypts⟩ := encryptLiterals_entries (l := 0) ht rfl
  rw [initialState, List.nil_append] at hentries
  exact ⟨_, _, (buildPredNode_splits schema e _ 0 _ _ rfl).mpr laid, by simp [initialState],
    hentries ▸ encrypts⟩

theorem flatten_of_survives {cat : Catalog} {stmt : SelectStatement} {e : ASTExpr}
    (h : PredicateSurvives cat stmt schema e) (n l : Nat) :
    ∃ code, flatten schema e n l = .ok code := by
  induction e generalizing n l with
  | columnRef name => exact ⟨_, rfl⟩
  | intLiteral v => exact ⟨_, rfl⟩
  | stringLiteral v => exact h.elim
  | comparison kind left right ihl ihr =>
    simp only [PredicateSurvives] at h
    cases hs : stringComparison? left right with
    | some pair =>
      rw [hs] at h
      obtain ⟨_, c, bare, _, hb, _⟩ := h
      exact ⟨_, by simp only [flatten, hs, hb, ok_bind]; rfl⟩
    | none =>
      rw [hs] at h
      obtain ⟨a, ha⟩ := ihl h.1 n l
      obtain ⟨b, hb⟩ := ihr h.2 (n + a.nodes.length) (l + a.literals.length)
      exact ⟨_, by simp only [flatten, hs, ha, hb, ok_bind]; rfl⟩
  | boolean kind left right ihl ihr =>
    obtain ⟨a, ha⟩ := ihl h.1 n l
    obtain ⟨b, hb⟩ := ihr h.2 (n + a.nodes.length) (l + a.literals.length)
    exact ⟨_, by simp only [flatten, ha, hb, ok_bind]; rfl⟩
  | notExpr e ih =>
    obtain ⟨a, ha⟩ := ih h n l
    exact ⟨_, by simp only [flatten, ha, ok_bind]; rfl⟩

end Encryption

section Sufficiency

variable {P : Proto1} {cat : Catalog} {stmt : SelectStatement} {schema : TableSchema}
  {pkg : QueryPackage} {e : ASTExpr} {n l : Nat} {code : Code}

/-- The tables of a package are those of the statement it was built from. -/
structure PackageOf (stmt : SelectStatement) (pkg : QueryPackage) : Prop where
  tableName : pkg.tableName = stmt.tableName
  tableAlias : pkg.tableAlias = stmt.tableAlias
  hasJoin : pkg.hasJoin = (joined? stmt).isSome
  joinedTableName : pkg.joinedTableName = joinedName stmt
  joinedTableAlias : pkg.joinedTableAlias = joinedAlias stmt

theorem namesColumn_iff (tables : PackageOf stmt pkg)
    (table : cat.getTable stmt.tableName = .ok schema) {name : Str} :
    NamesColumn cat pkg schema name ↔ TableHas cat (validatorTable stmt name) (bareName name) := by
  simp only [NamesColumn, TableHas, QueryValidator.targetTable, validatorTable, tables.hasJoin,
    tables.tableAlias, tables.joinedTableAlias, tables.joinedTableName, pure_eq_ok]
  split
  · rfl
  · rw [table]

/-- The literals a code uses, as entries under the ids from `l` on. -/
def HasLiterals (pkg : QueryPackage) (l : Nat) (literals : List (Str × Int)) : Prop :=
  ∀ (i : Nat) lit, literals[i]? = some lit → ∃ entry ∈ pkg.encryptedLiterals,
    entry.id = UInt32.ofNat (l + i) ∧ entry.logicalType = lit.1 ∧ entry.ciphertextBytes ≠ []

theorem hasLiterals_front {a b : List (Str × Int)} (h : HasLiterals pkg l (a ++ b)) :
    HasLiterals pkg l a := by
  intro i lit hi
  have hlt := (List.getElem?_eq_some_iff.mp hi).1
  exact h i lit (by rw [List.getElem?_append_left hlt, hi])

theorem hasLiterals_back {a b : List (Str × Int)} (h : HasLiterals pkg l (a ++ b)) :
    HasLiterals pkg (l + a.length) b := by
  intro i lit hi
  rw [Nat.add_assoc]
  exact h (a.length + i) lit
    (by rw [List.getElem?_append_right (by omega), Nat.add_sub_cancel_left, hi])

/-- A node the validator accepts at an index once it accepts what lies below. -/
structure NodeOk (cat : Catalog) (pkg : QueryPackage) (schema : TableSchema) (i : Nat)
    (node : PredNode) : Prop where
  binary : node.kind.isBinary = true → node.left.toNat < i ∧ node.right.toNat < i
  unary : node.kind = .Not → node.left.toNat < i
  leaf : LeafOk cat pkg schema node

theorem leafOk_of_binary {node : PredNode} (h : node.kind.isBinary = true) :
    LeafOk cat pkg schema node := by
  unfold LeafOk
  cases hk : node.kind <;> first | trivial | (rw [hk] at h; cases h)

theorem ne_max_of_toNat_lt {a : UInt32} {i : Nat} (h : a.toNat < i) (hi : i < 2 ^ 32) :
    a ≠ UINT32_MAX := by
  rintro rfl
  rw [show UINT32_MAX.toNat = 2 ^ 32 - 1 from rfl] at h
  omega

/-- Nodes that are acceptable one by one are well formed, from the first on. -/
theorem wellFormed_of_nodesOk
    (h : ∀ i node, i < 2 ^ 32 → pkg.predicateNodes[i]? = some node → NodeOk cat pkg schema i node)
    (i : UInt32) (inside : i.toNat < pkg.predicateNodes.length) : WellFormed cat pkg schema i := by
  induction hn : i.toNat using Nat.strong_induction_on generalizing i with
  | h k ih =>
    subst hn
    have bound := i.toNat_lt
    have hnode := List.getElem?_eq_getElem inside
    have ok := h i.toNat _ bound hnode
    have below : ∀ c : UInt32, c.toNat < i.toNat → WellFormed cat pkg schema c :=
      fun c hc => ih c.toNat hc c (by omega) rfl
    by_cases binary : (pkg.predicateNodes[i.toNat]).kind.isBinary = true
    · obtain ⟨hl, hr⟩ := ok.binary binary
      exact .binary hnode binary (ne_max_of_toNat_lt hl bound) (ne_max_of_toNat_lt hr bound)
        (below _ hl) (below _ hr)
    · by_cases unary : (pkg.predicateNodes[i.toNat]).kind = .Not
      · have hl := ok.unary unary
        exact .unary hnode unary (ne_max_of_toNat_lt hl bound) (below _ hl)
      · exact .leaf hnode (by simpa using binary) unary ok.leaf

/-- A property of every node of a code, by the position it is laid out at. -/
def AllNodes (n : Nat) (nodes : List PredNode) (property : Nat → PredNode → Prop) : Prop :=
  ∀ k node, n + k < 2 ^ 32 → nodes[k]? = some node → property (n + k) node

theorem allNodes_append {a b : List PredNode} {property : Nat → PredNode → Prop}
    (ha : AllNodes n a property) (hb : AllNodes (n + a.length) b property) :
    AllNodes n (a ++ b) property := by
  intro k node bound hk
  by_cases first : k < a.length
  · exact ha k node bound (by rwa [List.getElem?_append_left first] at hk)
  · rw [List.getElem?_append_right (by omega)] at hk
    have := hb (k - a.length) node (by omega) hk
    rwa [show n + a.length + (k - a.length) = n + k by omega] at this

theorem allNodes_singleton {node : PredNode} {property : Nat → PredNode → Prop}
    (h : n < 2 ^ 32 → property n node) : AllNodes n [node] property := by
  intro k m bound hk
  cases k with
  | zero =>
    obtain rfl : node = m := by simpa using hk
    exact h bound
  | succ k => simp at hk

theorem nodeOk_string {column literal : Str} {kind : CompareKind} {columnSchema : ColumnSchema}
    (hcs : schema.column (bareName column) = .ok columnSchema)
    (h : IsStringColumn schema column)
    (literals : HasLiterals pkg l (characters literal columnSchema.maxLength)) :
    NodeOk cat pkg schema n
      { kind := stringNodeKind kind
        columnName := column
        literalId := UInt32.ofNat l
        stringWidth := UInt32.ofNat columnSchema.maxLength } := by
  obtain ⟨named, c, bare, hc, hbare, type, wide, same⟩ := h
  obtain rfl : columnSchema = bare := Except.ok.inj (hcs.symm.trans hbare)
  have width : (UInt32.ofNat columnSchema.maxLength).toNat = c.maxLength := by
    rw [UInt32.toNat_ofNat', same]
  have narrow : c.maxLength ≤ columnSchema.maxLength := same ▸ Nat.mod_le _ _
  have isString : IsStringNode pkg schema
      { kind := stringNodeKind kind
        columnName := column
        literalId := UInt32.ofNat l
        stringWidth := UInt32.ofNat columnSchema.maxLength } := by
    refine ⟨named, fun h => wide ?_, ⟨c, hc, type, width⟩, fun i hi => ?_⟩
    · exact width.symm.trans (congrArg UInt32.toNat h)
    · rw [width] at hi
      obtain ⟨entry, mem, id, logicalType, bytes⟩ :=
        literals i (str "STRING_CHAR", characterCode literal i) (by
          rw [characters, List.getElem?_map, List.getElem?_range (by omega)]
          rfl)
      refine ⟨entry, mem, ?_⟩
      simp only [QueryValidator.isCharacterLiteral, id, logicalType, UInt32.ofNat_add]
      simpa using bytes
  rcases stringNodeKind_cases kind with hk | hk <;> rw [hk] at isString ⊢ <;>
    exact ⟨by rintro ⟨⟩, by rintro ⟨⟩, isString⟩

theorem nodesOk_join {kind : PredNodeKind} {a b : Code} (hb : kind.isBinary = true)
    (posa : 1 ≤ a.nodes.length) (posb : 1 ≤ b.nodes.length)
    (ha : AllNodes n a.nodes (NodeOk cat pkg schema))
    (hb' : AllNodes (n + a.nodes.length) b.nodes (NodeOk cat pkg schema)) :
    AllNodes n (a.join n kind b).nodes (NodeOk cat pkg schema) := by
  refine allNodes_append (allNodes_append ha hb') (allNodes_singleton fun bound => ?_)
  rw [List.length_append] at bound ⊢
  refine ⟨fun _ => ?_, fun hk => ?_, leafOk_of_binary hb⟩
  · constructor <;> rw [toNat_ofNat (by omega)] <;> omega
  · simp only at hk
    rw [hk] at hb
    cases hb

theorem nodesOk_of_flattens (tables : PackageOf stmt pkg)
    (table : cat.getTable stmt.tableName = .ok schema) (h : Flattens schema e n l code)
    (survives : PredicateSurvives cat stmt schema e) (literals : HasLiterals pkg l code.literals) :
    AllNodes n code.nodes (NodeOk cat pkg schema) := by
  induction h with
  | @columnRef name n l =>
    exact allNodes_singleton fun _ =>
      ⟨nofun, nofun, (namesColumn_iff tables table).mpr survives⟩
  | @intLiteral v n l =>
    obtain ⟨entry, mem, id, -⟩ := literals 0 _ rfl
    exact allNodes_singleton fun _ => ⟨nofun, nofun, entry, mem, id⟩
  | string hs hcs =>
    simp only [PredicateSurvives, hs] at survives
    exact allNodes_singleton fun _ => nodeOk_string hcs survives literals
  | @comparison kind left right n l a b hs ha hb iha ihb =>
    simp only [PredicateSurvives, hs] at survives
    exact nodesOk_join (isBinary_comparison kind) (nodes_pos ha) (nodes_pos hb)
      (iha survives.1 (hasLiterals_front literals)) (ihb survives.2 (hasLiterals_back literals))
  | @boolean kind left right n l a b ha hb iha ihb =>
    exact nodesOk_join (isBinary_boolean kind) (nodes_pos ha) (nodes_pos hb)
      (iha survives.1 (hasLiterals_front literals)) (ihb survives.2 (hasLiterals_back literals))
  | @notExpr child n l a ha ih =>
    have pos := nodes_pos ha
    refine allNodes_append (ih survives literals) (allNodes_singleton fun bound => ?_)
    refine ⟨nofun, fun _ => ?_, trivial⟩
    rw [toNat_ofNat (by omega)]
    omega

end Sufficiency

section Necessity

variable {cat : Catalog} {stmt : SelectStatement} {schema : TableSchema} {pkg : QueryPackage}
  {e : ASTExpr} {n l : Nat} {code : Code}

/-- The node at an index decides how the index is well formed. -/
theorem wellFormed_at {i : UInt32} {node : PredNode} (h : WellFormed cat pkg schema i)
    (hn : pkg.predicateNodes[i.toNat]? = some node) :
    LeafOk cat pkg schema node ∧ (node.kind = .Not → WellFormed cat pkg schema node.left) ∧
      (node.kind.isBinary = true →
        WellFormed cat pkg schema node.left ∧ WellFormed cat pkg schema node.right) := by
  cases h with
  | leaf hm notBinary notNot ok =>
    obtain rfl := Option.some.inj (hm.symm.trans hn)
    exact ⟨ok, fun hk => (notNot hk).elim, fun hk => by rw [notBinary] at hk; cases hk⟩
  | unary hm kind _ child =>
    obtain rfl := Option.some.inj (hm.symm.trans hn)
    exact ⟨by simp [LeafOk, kind], fun _ => child, fun hk => by rw [kind] at hk; cases hk⟩
  | binary hm kind _ _ left right =>
    obtain rfl := Option.some.inj (hm.symm.trans hn)
    refine ⟨leafOk_of_binary kind, fun hk => ?_, fun _ => ⟨left, right⟩⟩
    rw [hk] at kind
    cases kind

theorem wellFormed_join {kind : PredNodeKind} {a b : Code} (hb : kind.isBinary = true)
    (carry : CarriesNodes pkg n (a.join n kind b).nodes)
    (h : WellFormed cat pkg schema (rootOf n (a.join n kind b))) :
    WellFormed cat pkg schema (rootOf n a) ∧
      WellFormed cat pkg schema (rootOf (n + a.nodes.length) b) :=
  (wellFormed_at h (carries_root carry List.getLast?_concat)).2.2 hb

theorem isStringColumn_of_isStringNode {node : PredNode} {columnSchema : ColumnSchema}
    (hcs : schema.column (bareName node.columnName) = .ok columnSchema)
    (width : node.stringWidth = UInt32.ofNat columnSchema.maxLength)
    (h : IsStringNode pkg schema node) : IsStringColumn schema node.columnName := by
  obtain ⟨named, wide, ⟨c, hc, type, same⟩, _⟩ := h
  refine ⟨named, c, columnSchema, hc, hcs, type, fun zero => wide ?_, ?_⟩
  · exact UInt32.toNat.inj (same.trans zero)
  · rw [← same, width, UInt32.toNat_ofNat']

/-- Below a well-formed root every leaf has passed the validator's checks. -/
theorem survives_of_wellFormed (tables : PackageOf stmt pkg)
    (table : cat.getTable stmt.tableName = .ok schema) (h : Flattens schema e n l code)
    (carry : CarriesNodes pkg n code.nodes) (root : WellFormed cat pkg schema (rootOf n code)) :
    PredicateSurvives cat stmt schema e := by
  induction h with
  | @columnRef name n l =>
    have leaf := (wellFormed_at root (carries_root carry rfl)).1
    exact (namesColumn_iff tables table).mp leaf
  | intLiteral => trivial
  | @string kind left right n l column literal columnSchema hs hcs =>
    have isString : IsStringNode pkg schema
        { kind := stringNodeKind kind
          columnName := column
          literalId := UInt32.ofNat l
          stringWidth := UInt32.ofNat columnSchema.maxLength } := by
      have leaf := (wellFormed_at root (carries_root carry rfl)).1
      rcases stringNodeKind_cases kind with hk | hk <;> simp only [hk] at leaf ⊢ <;> exact leaf
    simp only [PredicateSurvives, hs]
    exact isStringColumn_of_isStringNode hcs rfl isString
  | @comparison kind left right n l a b hs ha hb iha ihb =>
    obtain ⟨hl, hr⟩ := wellFormed_join (isBinary_comparison kind) carry root
    simp only [PredicateSurvives, hs]
    exact ⟨iha (carriesNodes_left carry) hl, ihb (carriesNodes_right carry) hr⟩
  | @boolean kind left right n l a b ha hb iha ihb =>
    obtain ⟨hl, hr⟩ := wellFormed_join (isBinary_boolean kind) carry root
    exact ⟨iha (carriesNodes_left carry) hl, ihb (carriesNodes_right carry) hr⟩
  | @notExpr child n l a ha ih =>
    have last : (a.negate n).nodes.getLast? = some { kind := .Not, left := rootOf n a } :=
      List.getLast?_concat
    exact ih (carriesNodes_negated carry)
      ((wellFormed_at root (carries_root carry last)).2.1 rfl)

end Necessity

section Packages

variable {P : Proto1} {cat : Catalog} {stmt : SelectStatement} {schema : TableSchema}
  {fheMeta : FHEParamsMeta} {rng : P.Rng} {plan : PhysicalPlan} {pkg : QueryPackage}

/-- The whole way from the analyzed statement through the validator. -/
def Completes (P : Proto1) (cat : Catalog) (fheMeta : FHEParamsMeta) (stmt : SelectStatement)
    (rng : P.Rng) : Prop :=
  ∃ pkg, clientPackage cat fheMeta stmt rng = .ok pkg ∧ Accepts cat fheMeta.paramSetId pkg

/-- What the client's package adds to the fields it copies from the plan. -/
inductive BuiltFrom (P : Proto1) (schema : TableSchema) (rng : P.Rng) (pkg : QueryPackage) :
    Option ASTExpr → QueryPackage → Prop where
  | plain : BuiltFrom P schema rng pkg none pkg
  | filtered {e root s} : buildPredNode schema e (initialState rng) = .ok (root, s) →
      BuiltFrom P schema rng pkg (some e)
        { pkg with predicateNodes := s.nodes, encryptedLiterals := s.literals }

theorem attachPredicate_ok_iff {built : QueryPackage} :
    attachPredicate (.ok schema) stmt pkg rng = .ok built ↔
      BuiltFrom P schema rng pkg stmt.whereClause built := by
  unfold attachPredicate
  cases stmt.whereClause with
  | none =>
    constructor
    · rintro ⟨⟩
      exact .plain
    · rintro ⟨⟩
      rfl
  | some e =>
    simp only [ok_bind, bind_ok_iff, Prod.exists, pure_eq_ok, Except.ok.injEq]
    constructor
    · rintro ⟨root, s, hs, rfl⟩
      exact .filtered hs
    · rintro ⟨⟩
      exact ⟨_, _, ‹_›, rfl⟩

/-- The loop of the catalog overload that fills the result schema. -/
def resultSchemaOf (cat : Catalog) (plan : PhysicalPlan) : Except Exn (List ColumnSchema) :=
  plan.projectColumns.mapM fun name => do
    let t ← cat.getTable (projectedTable plan name)
    let cs ← t.column (bareName name)
    pure { name := name, type := cs.type, maxLength := cs.maxLength }

theorem resultSchemaOf_ok_iff (planOf : PlanOf stmt schema plan) :
    (∃ columns, resultSchemaOf cat plan = .ok columns) ↔
      ∀ name ∈ plan.projectColumns, TableHas cat (encryptorTable stmt name) (bareName name) := by
  rw [resultSchemaOf, mapM_isOk_iff]
  refine forall₂_congr fun name _ => ?_
  simp only [bind_ok_iff, projectedTable, planOf.tableAlias, planOf.tableName,
    planOf.joinedTableName, TableHas, TableSchema.hasColumn_iff, encryptorTable]
  constructor
  · rintro ⟨column, t, ht, cs, hcs, _⟩
    exact ⟨t, ht, cs, hcs⟩
  · rintro ⟨t, ht, cs, hcs⟩
    exact ⟨_, t, ht, cs, hcs, rfl⟩

theorem clientPackage_ok_iff (accepted : analyze cat stmt = .ok schema)
    (planned : planQuery stmt schema = .ok plan) (planOf : PlanOf stmt schema plan) :
    clientPackage cat fheMeta stmt rng = .ok pkg ↔
      ∃ columns, resultSchemaOf cat plan = .ok columns ∧
        BuiltFrom P schema rng { planFields plan fheMeta with resultSchema := columns }
          stmt.whereClause pkg := by
  have table := analyze_schema accepted
  simp only [clientPackage, accepted, ok_bind, planned, encrypt, planOf.tableName, table,
    bind_ok_iff, attachPredicate_ok_iff]
  rfl

theorem schemaPackage_ok_iff (accepted : analyze cat stmt = .ok schema)
    (planned : planQuery stmt schema = .ok plan) :
    schemaPackage cat fheMeta stmt rng = .ok pkg ↔
      ∃ columns, (plan.projectColumns.mapM fun col => do
          let cs ← schema.column (bareName col)
          pure (ColumnSchema.mk cs.name cs.type cs.maxLength)) = .ok columns ∧
        BuiltFrom P schema rng { planFields plan fheMeta with resultSchema := columns }
          stmt.whereClause pkg := by
  simp only [schemaPackage, accepted, ok_bind, planned, encryptWithSchema, bind_ok_iff,
    pure_eq_ok, attachPredicate_ok_iff]
  rfl

/-- Both overloads of `encrypt` build their package from the plan in the same way. -/
theorem builtFrom_of_sent (sent : clientPackage cat fheMeta stmt rng = .ok pkg ∨
      schemaPackage cat fheMeta stmt rng = .ok pkg) :
    ∃ schema plan columns, analyze cat stmt = .ok schema ∧ PlanOf stmt schema plan ∧
      BuiltFrom P schema rng { planFields plan fheMeta with resultSchema := columns }
        stmt.whereClause pkg := by
  rcases sent with ok | ok <;>
  · obtain ⟨schema, accepted, ok⟩ := bind_ok_iff.mp ok
    obtain ⟨plan, planned, ok⟩ := bind_ok_iff.mp ok
    obtain ⟨columns, _, ok⟩ := bind_ok_iff.mp ok
    obtain ⟨scopes, analyzed⟩ := analyze_ok_iff.mp accepted
    obtain ⟨plan', planned', planOf⟩ := planQuery_analyzed analyzed
    obtain rfl := Except.ok.inj (planned.symm.trans planned')
    try rw [planOf.tableName, analyze_schema accepted] at ok
    exact ⟨schema, plan, columns, accepted, planOf, attachPredicate_ok_iff.mp ok⟩

/-- What a package has of the fields it copies from the plan. -/
structure CopiesPlan (plan : PhysicalPlan) (fheMeta : FHEParamsMeta) (pkg : QueryPackage) :
    Prop where
  version : pkg.protocolVersion = 2
  tables : pkg.tableName = plan.tableName ∧ pkg.tableAlias = plan.tableAlias ∧
    pkg.hasJoin = plan.hasJoin ∧ pkg.joinedTableName = plan.joinedTableName ∧
    pkg.joinedTableAlias = plan.joinedTableAlias
  scanColumns : pkg.scanColumns = plan.scanColumns
  projectColumns : pkg.projectColumns = plan.projectColumns
  fheParams : pkg.fheParams = fheMeta

theorem BuiltFrom.copiesPlan {columns : List ColumnSchema} {e? : Option ASTExpr}
    (h : BuiltFrom P schema rng { planFields plan fheMeta with resultSchema := columns } e? pkg) :
    CopiesPlan plan fheMeta pkg := by
  cases h <;> exact ⟨rfl, ⟨rfl, rfl, rfl, rfl, rfl⟩, rfl, rfl, rfl⟩

theorem CopiesPlan.packageOf (h : CopiesPlan plan fheMeta pkg) (planOf : PlanOf stmt schema plan) :
    PackageOf stmt pkg := by
  obtain ⟨tableName, tableAlias, hasJoin, joinedTableName, joinedTableAlias⟩ := h.tables
  exact ⟨tableName.trans planOf.tableName, tableAlias.trans planOf.tableAlias,
    hasJoin.trans planOf.hasJoin, joinedTableName.trans planOf.joinedTableName,
    joinedTableAlias.trans planOf.joinedTableAlias⟩

/-- A projected name that is scanned is one of the FROM table to both sides. -/
theorem hasColumn_of_scanned (table : cat.getTable stmt.tableName = .ok schema)
    {name : Str} (scanned : PhysicalPlanner.namesJoinedTable (joined? stmt).isSome
      (joinedAlias stmt) name = false)
    (encrypted : TableHas cat (encryptorTable stmt name) (bareName name))
    (validated : TableHas cat (validatorTable stmt name) (bareName name)) :
    schema.hasColumn (bareName name) = true := by
  have ofFrom : TableHas cat stmt.tableName (bareName name) := by
    cases hd : findDot name with
    | none => simpa [encryptorTable, qualifierOr, hd] using encrypted
    | some d =>
      have other : ¬ ((joined? stmt).isSome = true ∧ name.take d = joinedAlias stmt) := by
        simpa [PhysicalPlanner.namesJoinedTable, hd] using scanned
      simpa only [validatorTable, qualifierOr, hd, if_neg other] using validated
  obtain ⟨t, ht, has⟩ := ofFrom
  rw [table] at ht
  cases ht
  exact has

/-- What the validator asks of the columns of a package is what `Survives` says of
the statement, once the encryptor has found them. -/
theorem columns_iff (planOf : PlanOf stmt schema plan) (copies : CopiesPlan plan fheMeta pkg)
    (table : cat.getTable stmt.tableName = .ok schema)
    (encrypted : ∀ name ∈ plan.projectColumns,
      TableHas cat (encryptorTable stmt name) (bareName name)) :
    ((∀ c ∈ pkg.scanColumns, schema.hasColumn c = true) ∧
        ∀ c ∈ pkg.projectColumns, NamesColumn cat pkg schema c) ↔
      (∀ r ∈ whereReferences stmt, schema.hasColumn (bareName r) = true) ∧
        ∀ name ∈ plan.projectColumns,
          TableHas cat (validatorTable stmt name) (bareName name) := by
  simp only [namesColumn_iff (copies.packageOf planOf) table, copies.projectColumns,
    copies.scanColumns, planOf.scanColumns]
  refine and_congr_left fun validated => ⟨fun all r hr => all _ (Or.inl ⟨r, hr, rfl⟩), ?_⟩
  rintro scanned c (⟨r, hr, rfl⟩ | ⟨name, mem, own, rfl⟩)
  · exact scanned r hr
  · rw [planOf.hasJoin, planOf.joinedTableAlias] at own
    exact hasColumn_of_scanned table own (encrypted name mem) (validated name mem)

/-- Entries that encrypt literals are found by their ids and are not empty. -/
theorem hasLiterals_of_encrypts (works : EncryptsScalars P) (pkg : QueryPackage)
    {literals : List (Str × Int)}
    (h : List.Forall₂ (fun lit entry => Encrypts P lit.1 lit.2 entry) (literals.zipIdx 0)
      pkg.encryptedLiterals) :
    HasLiterals pkg 0 literals ∧ ∀ entry ∈ pkg.encryptedLiterals, entry.ciphertextBytes ≠ [] := by
  have same := h.length_eq
  rw [List.length_zipIdx] at same
  have entry : ∀ i (hi : i < literals.length) (hi' : i < pkg.encryptedLiterals.length),
      Encrypts P literals[i] i pkg.encryptedLiterals[i] := by
    intro i hi hi'
    have hget := List.Forall₂.get h (i := i) (by rwa [List.length_zipIdx]) hi'
    simpa using hget
  have bytes : ∀ {lit i entry}, Encrypts P lit i entry → entry.ciphertextBytes ≠ [] := by
    rintro lit i entry ⟨_, _, _, ct, _, _, sent, _⟩
    rw [sent]
    exact works.serializes ct
  constructor
  · intro i lit hi
    obtain ⟨hlt, rfl⟩ := List.getElem?_eq_some_iff.mp hi
    have encrypts := entry i hlt (by omega)
    rw [Nat.zero_add]
    exact ⟨_, List.getElem_mem _, encrypts.id, encrypts.logicalType, bytes encrypts⟩
  · intro lit mem
    obtain ⟨i, hi, rfl⟩ := List.mem_iff_getElem.mp mem
    exact bytes (entry i (by omega) hi)

/-- The predicate part of a package whose WHERE clause survives. -/
theorem builtFrom_of_survives (works : EncryptsScalars P) (planOf : PlanOf stmt schema plan)
    (table : cat.getTable stmt.tableName = .ok schema) (fheMeta : FHEParamsMeta) (rng : P.Rng)
    (survives : ∀ e, stmt.whereClause = some e → PredicateSurvives cat stmt schema e)
    (columns : List ColumnSchema) :
    ∃ pkg, BuiltFrom P schema rng { planFields plan fheMeta with resultSchema := columns }
        stmt.whereClause pkg ∧
      (∀ entry ∈ pkg.encryptedLiterals, entry.ciphertextBytes ≠ []) ∧
      (pkg.predicateNodes ≠ [] → WellFormed cat pkg schema pkg.rootIndex) := by
  cases hw : stmt.whereClause with
  | none => exact ⟨_, .plain, nofun, fun h => (h rfl).elim⟩
  | some e =>
    obtain ⟨code, hcode⟩ := flatten_of_survives (survives e hw) 0 0
    obtain ⟨root, s, built, nodes, encrypts⟩ :=
      buildPredNode_of_flatten hcode (fun lit _ => works.encrypts lit.2) rng
    refine ⟨_, .filtered built, ?_⟩
    have filtered : BuiltFrom P schema rng
        { planFields plan fheMeta with resultSchema := columns } (some e) _ := .filtered built
    have tables := filtered.copiesPlan.packageOf planOf
    have flat := flattens_of_ok hcode
    have pos := nodes_pos flat
    rw [← nodes] at pos
    obtain ⟨literals, bytes⟩ := hasLiterals_of_encrypts works
      { planFields plan fheMeta with
        resultSchema := columns, predicateNodes := s.nodes, encryptedLiterals := s.literals }
      encrypts
    refine ⟨bytes, fun _ => wellFormed_of_nodesOk (fun i node hi hn => ?_) _ ?_⟩
    · have ok := nodesOk_of_flattens tables table flat (survives e hw) literals i node
        (by omega) (by rw [← nodes]; exact hn)
      rwa [Nat.zero_add] at ok
    · simp only [QueryPackage.rootIndex, UInt32.toNat_ofNat']
      have := Nat.mod_le (s.nodes.length - 1) (2 ^ 32)
      omega

/-- The number of nodes `buildPredNode` lays out for an expression. -/
def predicateSize : ASTExpr → Nat
  | .columnRef _ => 1
  | .intLiteral _ => 1
  | .stringLiteral _ => 1
  | .comparison _ l r =>
    if (stringComparison? l r).isSome then 1 else predicateSize l + predicateSize r + 1
  | .boolean _ l r => predicateSize l + predicateSize r + 1
  | .notExpr e => predicateSize e + 1

theorem length_of_flattens {e : ASTExpr} {n l : Nat} {code : Code}
    (h : Flattens schema e n l code) : code.nodes.length = predicateSize e := by
  induction h with
  | columnRef | intLiteral => rfl
  | string hs => simp [predicateSize, hs]
  | comparison hs _ _ iha ihb => rw [length_join, iha, ihb]; simp [predicateSize, hs]
  | boolean _ _ iha ihb => rw [length_join, iha, ihb]; rfl
  | notExpr _ ih => simp [Code.negate, predicateSize, ih]

/-- An accepted package shows that its WHERE clause survives. -/
theorem survives_of_builtFrom (planOf : PlanOf stmt schema plan)
    (table : cat.getTable stmt.tableName = .ok schema) {columns : List ColumnSchema}
    {e : ASTExpr} (small : predicateSize e < 2 ^ 32)
    (built : BuiltFrom P schema rng { planFields plan fheMeta with resultSchema := columns }
      (some e) pkg)
    (tree : pkg.predicateNodes ≠ [] → WellFormed cat pkg schema pkg.rootIndex) :
    PredicateSurvives cat stmt schema e := by
  have tables := built.copiesPlan.packageOf planOf
  cases built with
  | filtered hs =>
    obtain ⟨code, t, hcode, _, _, rfl⟩ := (buildPredNode_splits schema e _ 0 _ _ rfl).mp hs
    have flat := flattens_of_ok hcode
    simp only [initialState, List.nil_append] at *
    have carry : CarriesNodes { planFields plan fheMeta with
        resultSchema := columns
        predicateNodes := code.nodes
        encryptedLiterals := t.literals } 0 code.nodes :=
      ⟨fun k node hk => by rwa [Nat.zero_add],
        by rw [Nat.zero_add, length_of_flattens flat]; exact small.le⟩
    refine survives_of_wellFormed tables table flat carry ?_
    simpa only [rootOf, List.length_nil, Nat.zero_add, QueryPackage.rootIndex] using
      tree (nodes_ne_nil flat)

end Packages

/-- What analysis accepts completes the pipeline when it survives, and only then as
long as the indices of its predicate do not wrap. -/
theorem analyzed_completes_iff {P : Proto1} (works : EncryptsScalars P) {cat : Catalog}
    {stmt : SelectStatement} {schema : TableSchema} (accepted : analyze cat stmt = .ok schema)
    (fheMeta : FHEParamsMeta) (rng : P.Rng) :
    (Survives cat stmt schema → Completes P cat fheMeta stmt rng) ∧
      ((∀ e, stmt.whereClause = some e → predicateSize e < 2 ^ 32) →
        Completes P cat fheMeta stmt rng → Survives cat stmt schema) := by
  have table := analyze_schema accepted
  obtain ⟨scopes, analyzed⟩ := analyze_ok_iff.mp accepted
  obtain ⟨plan, planned, planOf⟩ := planQuery_analyzed analyzed
  constructor
  · intro survives
    have encrypted : ∀ name ∈ plan.projectColumns,
        TableHas cat (encryptorTable stmt name) (bareName name) := by
      rw [planOf.projectColumns]
      exact fun name mem => (survives.projected name mem).1
    have validated : ∀ name ∈ plan.projectColumns,
        TableHas cat (validatorTable stmt name) (bareName name) := by
      rw [planOf.projectColumns]
      exact fun name mem => (survives.projected name mem).2
    obtain ⟨columns, found⟩ := (resultSchemaOf_ok_iff planOf).mpr encrypted
    obtain ⟨pkg, built, bytes, tree⟩ := builtFrom_of_survives works planOf table fheMeta rng
      survives.predicate columns
    have copies := built.copiesPlan
    have tables := copies.packageOf planOf
    obtain ⟨scan, project⟩ := (columns_iff planOf copies table encrypted).mpr
      ⟨survives.scanned, validated⟩
    refine ⟨pkg, (clientPackage_ok_iff accepted planned planOf).mpr ⟨columns, found, built⟩,
      accepts_iff.mpr ⟨schema, ⟨copies.version, ?_, scan, project, ?_, bytes⟩, tree⟩⟩
    · rw [tables.tableName, table]
    · rw [copies.fheParams]
  · rintro small ⟨pkg, sent, accepts⟩
    obtain ⟨columns, found, built⟩ := (clientPackage_ok_iff accepted planned planOf).mp sent
    have copies := built.copiesPlan
    have encrypted := (resultSchemaOf_ok_iff planOf).mp ⟨columns, found⟩
    obtain ⟨schema', header, tree⟩ := accepts_iff.mp accepts
    obtain rfl : schema = schema' := by
      have same := header.table
      rw [(copies.packageOf planOf).tableName, table] at same
      exact Except.ok.inj same
    obtain ⟨scanned, validated⟩ := (columns_iff planOf copies table encrypted).mp
      ⟨header.scanColumns, header.projectColumns⟩
    rw [planOf.projectColumns] at encrypted validated
    refine ⟨fun name mem => ⟨encrypted name mem, validated name mem⟩, scanned, fun e he => ?_⟩
    rw [he] at built
    exact survives_of_builtFrom planOf table (small e he) built tree

theorem plain_encryptsScalars (slotCount : Nat) : EncryptsScalars (plainProto1 slotCount) where
  encrypts v rng := ⟨_, _, rfl⟩
  serializes ct := by simp [plainProto1, PlainProto1.serialize]

/-- A join that names the columns of both tables by their aliases. -/
def qualifiedJoin : Str :=
  str "SELECT e.age FROM employees e JOIN departments d ON e.department_id = d.id WHERE d.id > 3"

/-- The same join with a column of the joined table and no qualifier. -/
def unqualifiedJoin : Str :=
  str "SELECT department_name FROM employees e JOIN departments d ON e.department_id = d.id"

/-- The statement of `SELECT columns FROM employees e JOIN departments d ON …`. -/
def employeesJoin (columns : List Str) (whereClause : Option ASTExpr) : SelectStatement where
  projections := columns
  tableName := str "employees"
  tableAlias := str "e"
  joins := [{
    rightTable := { tableName := str "departments", aliasName := str "d" }
    condition := some (.comparison .Equal (.columnRef (str "e.department_id"))
      (.columnRef (str "d.id"))) }]
  whereClause := whereClause

theorem parse_qualifiedJoin :
    SQLParser.parse qualifiedJoin = .ok (employeesJoin [str "e.age"]
      (some (.comparison .GreaterThan (.columnRef (str "d.id")) (.intLiteral 3)))) := by
  decide +kernel

theorem parse_unqualifiedJoin :
    SQLParser.parse unqualifiedJoin = .ok (employeesJoin [str "department_name"] none) := by
  decide +kernel

theorem qualifiedJoin_completes :
    ∃ stmt schema, SQLParser.parse qualifiedJoin = .ok stmt ∧
      analyze makeEmployeesCatalog stmt = .ok schema ∧
      Completes (plainProto1 1) makeEmployeesCatalog {} stmt () ∧
      Survives makeEmployeesCatalog stmt schema := by
  have completes : Completes (plainProto1 1) makeEmployeesCatalog {} (employeesJoin [str "e.age"]
      (some (.comparison .GreaterThan (.columnRef (str "d.id")) (.intLiteral 3)))) () :=
    ⟨_, rfl, 2, rfl⟩
  refine ⟨_, _, parse_qualifiedJoin, rfl, completes,
    (analyzed_completes_iff (P := plainProto1 1) (plain_encryptsScalars 1) rfl {} ()).2 ?_
      completes⟩
  rintro e he
  cases he
  decide

theorem accepted_statement_can_fail_later :
    ¬ ∀ (P : Proto1), EncryptsScalars P → ∀ (cat : Catalog) (sql : Str) (stmt : SelectStatement)
      (schema : TableSchema), SQLParser.parse sql = .ok stmt → analyze cat stmt = .ok schema →
      ∀ (fheMeta : FHEParamsMeta) (rng : P.Rng), Completes P cat fheMeta stmt rng := by
  intro all
  obtain ⟨pkg, sent, _⟩ := all (plainProto1 1) (plain_encryptsScalars 1) makeEmployeesCatalog
    unqualifiedJoin _ _ parse_unqualifiedJoin rfl {} ()
  cases sent

end FheSql.PipelineAcceptance
