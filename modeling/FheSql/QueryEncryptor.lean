import FheSql.Planner
import FheSql.Proto1
import FheSql.QueryPackage

/-!
# The query encryptor

`query/query_encryptor.cpp`. The predicate is flattened in post-order into
`nodes`; integer literals become one encrypted entry, string literals one entry
for each character position of the column.
-/

namespace FheSql

open ByteText Throwing

namespace QueryEncryptor

/-- The arguments `buildPredNode` passes by reference, and the random source of
the encryption context. -/
structure BuildState (P : Proto1) where
  nodes : List PredNode
  literals : List EncryptedLiteralEntry
  nextLiteralId : UInt32
  rng : P.Rng

variable {P : Proto1}

/-- `nodes.push_back(node)` and the index of the new node. -/
def pushNode (node : PredNode) (s : BuildState P) : UInt32 × BuildState P :=
  (UInt32.ofNat s.nodes.length, { s with nodes := s.nodes ++ [node] })

/-- Encrypt a scalar and append it as the next literal. -/
def pushLiteral (logicalType : Str) (v : Int) (s : BuildState P) :
    Except Exn (BuildState P) := do
  let (ct, rng) ← encryptScalar P v s.rng
  pure
    { nodes := s.nodes
      literals := s.literals ++
        [{ id := s.nextLiteralId
           logicalType := logicalType
           ciphertextBytes := P.serialize ct
           logicalSize := P.logicalSize ct }]
      nextLiteralId := s.nextLiteralId + 1
      rng := rng }

/-- The code at a position of a string: its byte, or 0 past its end. -/
def characterCode (value : Str) (position : Nat) : Int :=
  match value[position]? with
  | some b => b.toNat
  | none => 0

def addEncryptedString (value : Str) (maxLength : Nat) (s : BuildState P) :
    Except Exn (UInt32 × BuildState P) := do
  let s' ← (List.range maxLength).foldlM
    (fun s position => pushLiteral (str "STRING_CHAR") (characterCode value position) s) s
  pure (s.nextLiteralId, s')

/-- The column and the literal of a comparison between a column reference and a
string literal, in either order. -/
def stringComparison? : ASTExpr → ASTExpr → Option (Str × Str)
  | .columnRef column, .stringLiteral literal => some (column, literal)
  | .stringLiteral literal, .columnRef column => some (column, literal)
  | _, _ => none

def comparisonNodeKind : CompareKind → PredNodeKind
  | .Equal => .Equal
  | .NotEqual => .NotEqual
  | .GreaterThan => .GreaterThan
  | .LessThan => .LessThan
  | .GreaterEqual => .GreaterEqual
  | .LessEqual => .LessEqual

/-- Every kind other than `Equal` is encoded as `StringNotEqual`. -/
def stringNodeKind (kind : CompareKind) : PredNodeKind :=
  if kind = .Equal then .StringEqual else .StringNotEqual

def booleanNodeKind : BooleanKind → PredNodeKind
  | .And => .And
  | .Or => .Or

def buildPredNode (schema : TableSchema) :
    ASTExpr → BuildState P → Except Exn (UInt32 × BuildState P)
  | .columnRef name, s => pure (pushNode { kind := .ColumnRef, columnName := name } s)
  | .intLiteral v, s => do
    let s' ← pushLiteral (str "INT64") v s
    pure (pushNode { kind := .LiteralRef, literalId := s'.nextLiteralId - 1 } s')
  | .stringLiteral _, _ =>
    throw (.runtimeError (str "QueryEncryptor: string literal must be used in a comparison"))
  | .comparison kind left right, s =>
    match stringComparison? left right with
    | some (column, literal) => do
      let columnSchema ← schema.column (bareName column)
      let (firstId, s') ← addEncryptedString literal columnSchema.maxLength s
      pure (pushNode
        { kind := stringNodeKind kind
          columnName := column
          literalId := firstId
          stringWidth := UInt32.ofNat columnSchema.maxLength } s')
    | none => do
      let (l, s₁) ← buildPredNode schema left s
      let (r, s₂) ← buildPredNode schema right s₁
      pure (pushNode { kind := comparisonNodeKind kind, left := l, right := r } s₂)
  | .boolean kind left right, s => do
    let (l, s₁) ← buildPredNode schema left s
    let (r, s₂) ← buildPredNode schema right s₁
    pure (pushNode { kind := booleanNodeKind kind, left := l, right := r } s₂)
  | .notExpr child, s => do
    let (l, s') ← buildPredNode schema child s
    pure (pushNode { kind := .Not, left := l } s')

/-- The empty arrays `encrypt` starts from. -/
def initialState (rng : P.Rng) : BuildState P where
  nodes := []
  literals := []
  nextLiteralId := 0
  rng := rng

/-- The package fields both overloads copy from the plan. -/
def planFields (plan : PhysicalPlan) (fheMeta : FHEParamsMeta) : QueryPackage where
  tableName := plan.tableName
  tableAlias := plan.tableAlias
  hasJoin := plan.hasJoin
  joinedTableName := plan.joinedTableName
  joinedTableAlias := plan.joinedTableAlias
  joinLeftColumn := plan.joinLeftColumn
  joinRightColumn := plan.joinRightColumn
  scanColumns := plan.scanColumns
  projectColumns := plan.projectColumns
  fheParams := fheMeta

/-- The `if (stmt.whereClause)` block: the predicate and its literals. -/
def attachPredicate (schema : Except Exn TableSchema) (stmt : SelectStatement)
    (pkg : QueryPackage) (rng : P.Rng) : Except Exn QueryPackage :=
  match stmt.whereClause with
  | none => pure pkg
  | some e => do
    let schema ← schema
    let (_, s) ← buildPredNode schema e (initialState rng)
    pure { pkg with predicateNodes := s.nodes, encryptedLiterals := s.literals }

/-- `encrypt` with the table's schema. -/
def encryptWithSchema (stmt : SelectStatement) (plan : PhysicalPlan) (schema : TableSchema)
    (fheMeta : FHEParamsMeta) (rng : P.Rng) : Except Exn QueryPackage := do
  let resultSchema ← plan.projectColumns.mapM fun col => do
    let cs ← schema.column (bareName col)
    pure { name := cs.name, type := cs.type, maxLength := cs.maxLength }
  attachPredicate (pure schema) stmt
    { planFields plan fheMeta with schemaVersion := 1, resultSchema := resultSchema } rng

/-- The catalog overload's choice of table for a projected name. -/
def projectedTable (plan : PhysicalPlan) (name : Str) : Str :=
  if qualifierOr plan.tableAlias name = plan.tableAlias then plan.tableName
  else plan.joinedTableName

/-- `encrypt` with the catalog. -/
def encrypt (stmt : SelectStatement) (plan : PhysicalPlan) (cat : Catalog)
    (fheMeta : FHEParamsMeta) (rng : P.Rng) : Except Exn QueryPackage := do
  let resultSchema ← plan.projectColumns.mapM fun name => do
    let t ← cat.getTable (projectedTable plan name)
    let cs ← t.column (bareName name)
    pure { name := name, type := cs.type, maxLength := cs.maxLength }
  attachPredicate (cat.getTable plan.tableName) stmt
    { planFields plan fheMeta with resultSchema := resultSchema } rng

end QueryEncryptor

end FheSql
