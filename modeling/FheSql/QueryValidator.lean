import FheSql.Lib.FlatTree
import FheSql.QueryPackage

/-!
# The query validator

`query/query_validator.cpp`, the server's check of a received package.
`validatePredTree` follows the child indices of the package; its bound `fuel`
is on the depth of that recursion, which the source does not bound.
-/

namespace FheSql

open ByteText Throwing

namespace QueryValidator

/-- The table a qualifier is checked against: the joined one for the joined
alias of a join package, the left one for every other qualifier. -/
def targetTable (cat : Catalog) (pkg : QueryPackage) (schema : TableSchema) (name : Str) :
    Except Exn TableSchema :=
  if pkg.hasJoin ∧ qualifierOr pkg.tableAlias name = pkg.joinedTableAlias then
    cat.getTable pkg.joinedTableName
  else
    pure schema

def validateScanColumn (pkg : QueryPackage) (schema : TableSchema) (col : Str) :
    Except Exn Unit :=
  if !schema.hasColumn col then
    throw (.validationError (str "Unknown scan column '" ++ col ++ str "' in table '" ++
      pkg.tableName ++ str "'"))
  else
    pure ()

def validateProjectColumn (cat : Catalog) (pkg : QueryPackage) (schema : TableSchema)
    (col : Str) : Except Exn Unit := do
  let target ← targetTable cat pkg schema col
  if !target.hasColumn (bareName col) then
    throw (.validationError (str "Unknown project column '" ++ col ++ str "' in table '" ++
      pkg.tableName ++ str "'"))

def validateLiteral (lit : EncryptedLiteralEntry) : Except Exn Unit :=
  if lit.ciphertextBytes = [] then
    throw (.validationError (str "Encrypted literal " ++ decimal lit.id.toNat ++
      str " has empty ciphertext"))
  else
    pure ()

/-- The `ColumnRef` case. -/
def validateColumnNode (cat : Catalog) (pkg : QueryPackage) (schema : TableSchema)
    (node : PredNode) : Except Exn Unit := do
  let target ← targetTable cat pkg schema node.columnName
  if !target.hasColumn (bareName node.columnName) then
    throw (.validationError (str "Unknown column in predicate: " ++ node.columnName))

/-- The `LiteralRef` case. -/
def validateLiteralNode (pkg : QueryPackage) (node : PredNode) : Except Exn Unit :=
  if !(pkg.encryptedLiterals.any fun lit => lit.id == node.literalId) then
    throw (.validationError (str "Predicate references unknown literal id: " ++
      decimal node.literalId.toNat))
  else
    pure ()

/-- A usable character literal: the right id, a `STRING_CHAR`, not empty. -/
def isCharacterLiteral (id : UInt32) (lit : EncryptedLiteralEntry) : Bool :=
  lit.id == id && lit.logicalType == str "STRING_CHAR" && lit.ciphertextBytes != []

/-- The `StringEqual` and `StringNotEqual` case. -/
def validateStringNode (pkg : QueryPackage) (schema : TableSchema) (node : PredNode) :
    Except Exn Unit := do
  if node.columnName = [] ∨ node.stringWidth = 0 then
    throw (.validationError (str "String predicate is missing metadata"))
  let column ← schema.column node.columnName
  if column.type ≠ .STRING ∨ node.stringWidth.toNat ≠ column.maxLength then
    throw (.validationError (str "Invalid string predicate column: " ++ node.columnName))
  (List.range node.stringWidth.toNat).forM fun i =>
    if !(pkg.encryptedLiterals.any (isCharacterLiteral (node.literalId + UInt32.ofNat i))) then
      throw (.validationError (str "String predicate references missing literal"))
    else
      pure ()

def validatePredTree (cat : Catalog) (pkg : QueryPackage) (schema : TableSchema) :
    Nat → UInt32 → Except Exn Unit
  | 0, _ => .error .outOfFuel
  | fuel + 1, nodeIdx =>
    match pkg.predicateNodes[nodeIdx.toNat]? with
    | none =>
      throw (.validationError (str "Predicate node index out of range: " ++
        decimal nodeIdx.toNat))
    | some node =>
      match node.kind with
      | .ColumnRef => validateColumnNode cat pkg schema node
      | .LiteralRef => validateLiteralNode pkg node
      | .StringEqual | .StringNotEqual => validateStringNode pkg schema node
      | .Equal | .NotEqual | .GreaterThan | .LessThan | .GreaterEqual | .LessEqual =>
        if node.left = UINT32_MAX ∨ node.right = UINT32_MAX then
          throw (.validationError (str "Binary predicate node missing children"))
        else do
          validatePredTree cat pkg schema fuel node.left
          validatePredTree cat pkg schema fuel node.right
      | .And | .Or =>
        if node.left = UINT32_MAX ∨ node.right = UINT32_MAX then
          throw (.validationError (str "Boolean predicate node missing children"))
        else do
          validatePredTree cat pkg schema fuel node.left
          validatePredTree cat pkg schema fuel node.right
      | .Not =>
        if node.left = UINT32_MAX then
          throw (.validationError (str "NOT predicate node missing child"))
        else
          validatePredTree cat pkg schema fuel node.left
      -- the switch has no default: any other byte falls out of it and returns
      | .unlisted _ _ => pure ()

/-- The checks `validate` makes before it looks at the predicate. -/
def validateHeader (cat : Catalog) (serverParamSetId : Str) (pkg : QueryPackage) :
    Except Exn TableSchema := do
  if pkg.protocolVersion ≠ 2 then
    throw (.validationError (str "Unsupported protocol version: " ++
      decimal pkg.protocolVersion.toNat))
  if !cat.hasTable pkg.tableName then
    throw (.validationError (str "Unknown table: " ++ pkg.tableName))
  let schema ← cat.getTable pkg.tableName
  pkg.scanColumns.forM (validateScanColumn pkg schema)
  pkg.projectColumns.forM (validateProjectColumn cat pkg schema)
  if pkg.fheParams.paramSetId ≠ serverParamSetId then
    throw (.validationError (str "FHE parameter set mismatch: client='" ++
      pkg.fheParams.paramSetId ++ str "' server='" ++ serverParamSetId ++ str "'"))
  pkg.encryptedLiterals.forM validateLiteral
  pure schema

def validate (cat : Catalog) (serverParamSetId : Str) (fuel : Nat) (pkg : QueryPackage) :
    Except Exn Unit := do
  let schema ← validateHeader cat serverParamSetId pkg
  if pkg.predicateNodes = [] then
    pure ()
  else
    validatePredTree cat pkg schema fuel pkg.rootIndex

end QueryValidator

end FheSql
