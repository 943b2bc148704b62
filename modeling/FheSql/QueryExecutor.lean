import FheSql.QueryPackage
import FheSql.ResultBatch

/-!
# The query executor

`execution/query_executor.cpp`. `buildExpression` follows the same unchecked
indices as the validator, under the same kind of bound. `execute` talks to the
storage in a monad of its own, so that one definition serves for its results
and for the requests it makes.
-/

namespace FheSql

open ByteText Throwing

namespace QueryExecutor

section Expressions

variable (P : Proto1)

/-- The lambda `combine`: a balanced conjunction of `comparisons[begin..end)`. -/
def combine (comparisons : List (Expression P.EncryptedVector)) :
    Nat → Nat → Nat → Except Exn (Expression P.EncryptedVector)
  | 0, _, _ => .error .outOfFuel
  | fuel + 1, first, last =>
    if last - first = 1 then
      match comparisons[first]? with
      | some e => .ok e
      | none => .error .outOfBounds
    else do
      let middle := first + (last - first) / 2
      let l ← combine comparisons fuel first middle
      let r ← combine comparisons fuel middle last
      pure (.andExpr l r)

/-- One position of a string predicate: the character column against the first
literal entry with the position's id. -/
def characterComparison (pkg : QueryPackage) (node : PredNode) (position : Nat) :
    Except Exn (Expression P.EncryptedVector) :=
  match pkg.literal? (node.literalId + UInt32.ofNat position) with
  | none => throw (.runtimeError (str "buildExpression: string literal not found"))
  | some entry => do
    let literal ← fromProto1 (P.deserializeWithSize entry.ciphertextBytes entry.logicalSize)
    pure (.equal (.columnRef (P.stringPhysicalColumn node.columnName position))
      (.encLiteral literal))

/-- The conjunction of the character comparisons of a string node. -/
def stringEquality (pkg : QueryPackage) (node : PredNode) :
    Except Exn (Expression P.EncryptedVector) := do
  let comparisons ← (List.range node.stringWidth.toNat).mapM (characterComparison P pkg node)
  if comparisons = [] then
    throw (.runtimeError (str "buildExpression: empty string width"))
  else
    combine P comparisons comparisons.length 0 comparisons.length

/-- The `LiteralRef` case. -/
def literalExpression (pkg : QueryPackage) (node : PredNode) :
    Except Exn (Expression P.EncryptedVector) :=
  match pkg.literal? node.literalId with
  | none =>
    throw (.runtimeError (str "buildExpression: literal not found: " ++
      decimal node.literalId.toNat))
  | some entry => do
    let ct ← fromProto1 (P.deserializeWithSize entry.ciphertextBytes entry.logicalSize)
    pure (.encLiteral ct)

def buildExpression (pkg : QueryPackage) :
    Nat → UInt32 → Except Exn (Expression P.EncryptedVector)
  | 0, _ => .error .outOfFuel
  | fuel + 1, nodeIdx =>
    match pkg.predicateNodes[nodeIdx.toNat]? with
    | none => throw (.runtimeError (str "buildExpression: node index out of range"))
    | some node =>
      match node.kind with
      | .ColumnRef => pure (.columnRef node.columnName)
      | .LiteralRef => literalExpression P pkg node
      | .StringEqual => stringEquality P pkg node
      | .StringNotEqual => do
        let result ← stringEquality P pkg node
        pure (.notExpr result)
      | .Equal => do
        let l ← buildExpression pkg fuel node.left
        let r ← buildExpression pkg fuel node.right
        pure (.equal l r)
      | .NotEqual => do
        let l ← buildExpression pkg fuel node.left
        let r ← buildExpression pkg fuel node.right
        pure (.notExpr (.equal l r))
      | .GreaterThan => do
        let l ← buildExpression pkg fuel node.left
        let r ← buildExpression pkg fuel node.right
        pure (.gt l r)
      | .LessThan => do
        let l ← buildExpression pkg fuel node.left
        let r ← buildExpression pkg fuel node.right
        pure (.lt l r)
      | .GreaterEqual => do
        let l ← buildExpression pkg fuel node.left
        let r ← buildExpression pkg fuel node.right
        pure (.orExpr (.gt l r) (.equal l r))
      | .LessEqual => do
        let l ← buildExpression pkg fuel node.left
        let r ← buildExpression pkg fuel node.right
        pure (.orExpr (.lt l r) (.equal l r))
      | .And => do
        let l ← buildExpression pkg fuel node.left
        let r ← buildExpression pkg fuel node.right
        pure (.andExpr l r)
      | .Or => do
        let l ← buildExpression pkg fuel node.left
        let r ← buildExpression pkg fuel node.right
        pure (.orExpr l r)
      | .Not => do
        let l ← buildExpression pkg fuel node.left
        pure (.notExpr l)
      | .unlisted _ _ => throw (.runtimeError (str "buildExpression: unknown node kind"))

/-- `if (!pkg.predicateNodes.empty()) buildExpression(root)`. -/
def buildWhere (pkg : QueryPackage) (fuel : Nat) :
    Except Exn (Option (Expression P.EncryptedVector)) :=
  if pkg.predicateNodes = [] then pure none
  else do
    let e ← buildExpression P pkg fuel pkg.rootIndex
    pure (some e)

/-- The physical columns of a column: one for each character of a STRING. -/
def physicalColumns (schemaColumn : ColumnSchema) (name : Str) : List Str :=
  if schemaColumn.type = .STRING then
    (List.range schemaColumn.maxLength).map (P.stringPhysicalColumn name)
  else
    [name]

/-- `cs.type == DataType::STRING ? "STRING" : "INT64"`. -/
def logicalTypeName (schemaColumn : ColumnSchema) : Str :=
  if schemaColumn.type = .STRING then str "STRING" else str "INT64"

/-- The serialized first ciphertext of a chunk, as a result column. -/
def columnResult (columnName : Str) (schemaColumn : ColumnSchema) (position : Nat)
    (ct : P.EncryptedVector) : EncryptedColumnResult where
  columnName := columnName
  logicalType := logicalTypeName schemaColumn
  stringPosition := UInt32.ofNat position
  ciphertextBytes := P.serialize ct
  logicalSize := P.logicalSize ct

end Expressions

section Execution

variable (P : Proto1) {m : Type → Type} [Monad m] [MonadExceptOf Exn m]
variable (storage : EncryptedStorage m P.EncryptedVector) (cat : Catalog)

/-- The lambda `addTableColumns`: every physical column of a table from one
chunk, under the alias. -/
def addTableColumns (table aliasName : Str) (chunkId : Nat)
    (batch : EncryptedBatch P.EncryptedVector) : m (EncryptedBatch P.EncryptedVector) := do
  let t ← MonadExcept.ofExcept (cat.getTable table)
  (t.columns.flatMap fun c => physicalColumns P c c.name).foldlM
    (fun batch physical => do
      let chunk ← storage.getChunk table physical 0 chunkId
      pure { batch with columns := batch.columns.insert (qualified aliasName physical) chunk })
    batch

def whereUsesJoinedTable (pkg : QueryPackage) : Bool :=
  pkg.predicateNodes.any fun node =>
    node.kind == .ColumnRef && (pkg.joinedTableAlias ++ [dot]).isPrefixOf node.columnName

/-- The join keys, each cut out behind its alias. -/
def joinKeys (pkg : QueryPackage) : Except Exn (Str × Str) :=
  if !((pkg.tableAlias ++ [dot]).isPrefixOf pkg.joinLeftColumn) ∨
      !((pkg.joinedTableAlias ++ [dot]).isPrefixOf pkg.joinRightColumn) then
    throw (.runtimeError (str "JOIN columns must be qualified by their aliases"))
  else
    pure (pkg.joinLeftColumn.drop (pkg.tableAlias.length + 1),
      pkg.joinRightColumn.drop (pkg.joinedTableAlias.length + 1))

/-- The table and the chunk a projected name of a join is read from. -/
def joinSource (pkg : QueryPackage) (leftChunk rightChunk : Nat) (name : Str) : Str × Nat :=
  if qualifierOr pkg.tableAlias name = pkg.tableAlias then (pkg.tableName, leftChunk)
  else (pkg.joinedTableName, rightChunk)

/-- The result columns of one projected name of a pair of rows. -/
def joinColumn (pkg : QueryPackage) (leftChunk rightChunk : Nat) (name : Str) :
    m (List EncryptedColumnResult) := do
  let source := joinSource pkg leftChunk rightChunk name
  let t ← MonadExcept.ofExcept (cat.getTable source.1)
  let cs ← MonadExcept.ofExcept (t.column (bareName name))
  (physicalColumns P cs (bareName name)).zipIdx.mapM fun (physical, position) => do
    let chunk ← storage.getChunk source.1 physical 0 source.2
    match chunk.ciphertexts with
    | [] => throw (.runtimeError (str "JOIN result column has no ciphertext"))
    | ct :: _ => pure (columnResult P name cs position ct)

/-- The WHERE mask of one left row, when it reads no column of the joined table. -/
def leftMask (pkg : QueryPackage) (where? : Option (Expression P.EncryptedVector))
    (leftChunk : Nat) : m (Option P.EncryptedVector) :=
  match where? with
  | none => pure none
  | some e =>
    if whereUsesJoinedTable pkg then pure none
    else do
      let leftOnly ← addTableColumns P storage cat pkg.tableName pkg.tableAlias leftChunk
        { logicalRowCount := 1 }
      let mask ← MonadExcept.ofExcept (fromProto1 (P.evaluate e leftOnly))
      pure (some mask)

/-- The mask of a pair: the join equality times the WHERE mask, if there is one. -/
def pairMask (pkg : QueryPackage) (where? : Option (Expression P.EncryptedVector))
    (leftMask? : Option P.EncryptedVector) (pair : EncryptedBatch P.EncryptedVector) :
    Except Exn P.EncryptedVector := do
  let joinExpr := Expression.equal (.columnRef pkg.joinLeftColumn)
    (.columnRef pkg.joinRightColumn)
  let mask ← fromProto1 (P.evaluate joinExpr pair)
  match where?, whereUsesJoinedTable pkg, leftMask? with
  | some e, true, _ => do
    let pairWhereMask ← fromProto1 (P.evaluate e pair)
    fromProto1 (P.evalMult mask pairWhereMask)
  | _, _, some lm => fromProto1 (P.evalMult mask lm)
  | _, _, none => pure mask

/-- One turn of the inner loop: the batch of one pair of rows. -/
def joinPair (pkg : QueryPackage) (where? : Option (Expression P.EncryptedVector))
    (rightKey : Str) (lm : ChunkMeta) (leftMask? : Option P.EncryptedVector)
    (batchId : UInt32) (rm : ChunkMeta) : m EncryptedResultBatch := do
  let rightJoin ← storage.getChunk pkg.joinedTableName rightKey rm.partitionId rm.chunkId
  if rightJoin.chunkMeta.logicalRowCount ≠ 1 then
    throw (.runtimeError (str "JOIN requires setup data ingested with chunk size 1"))
  let left ← addTableColumns P storage cat pkg.tableName pkg.tableAlias lm.chunkId
    { logicalRowCount := 1 }
  let pair ← addTableColumns P storage cat pkg.joinedTableName pkg.joinedTableAlias
    rm.chunkId left
  let mask ← MonadExcept.ofExcept (pairMask P pkg where? leftMask? pair)
  let columns ← pkg.projectColumns.mapM (joinColumn P storage cat pkg lm.chunkId rm.chunkId)
  pure
    { batchId := batchId
      logicalRowCount := 1
      columns := columns.flatten
      selectionMaskBytes := P.serialize mask
      hasMask := true }

/-- One turn of the outer loop: every pair of one left row. -/
def joinLeft (pkg : QueryPackage) (where? : Option (Expression P.EncryptedVector))
    (leftKey rightKey : Str) (rightChunks : List ChunkMeta)
    (results : List EncryptedResultBatch) (lm : ChunkMeta) :
    m (List EncryptedResultBatch) := do
  let leftJoin ← storage.getChunk pkg.tableName leftKey lm.partitionId lm.chunkId
  if leftJoin.chunkMeta.logicalRowCount ≠ 1 then
    throw (.runtimeError (str "JOIN requires setup data ingested with chunk size 1"))
  let leftMask? ← leftMask P storage cat pkg where? lm.chunkId
  rightChunks.foldlM
    (fun results rm => do
      let rb ← joinPair P storage cat pkg where? rightKey lm leftMask?
        (UInt32.ofNat results.length) rm
      pure (results ++ [rb]))
    results

/-- The join path of `execute`. -/
def executeJoin (fuel : Nat) (pkg : QueryPackage) : m (List EncryptedResultBatch) := do
  let (leftKey, rightKey) ← MonadExcept.ofExcept (joinKeys pkg)
  let leftChunks ← storage.listChunks pkg.tableName leftKey
  let rightChunks ← storage.listChunks pkg.joinedTableName rightKey
  let where? ← MonadExcept.ofExcept (buildWhere P pkg fuel)
  leftChunks.foldlM (joinLeft P storage cat pkg where? leftKey rightKey rightChunks) []

/-- The physical columns of a list of logical columns of the package's table. -/
def physicalColumnList (pkg : QueryPackage) (columns : List Str) : Except Exn (List Str) := do
  let parts ← columns.mapM fun column => do
    let t ← cat.getTable pkg.tableName
    let schema ← t.column column
    pure (physicalColumns P schema column)
  pure parts.flatten

/-- The result columns of one projected name of a scanned batch. -/
def scanColumn (pkg : QueryPackage) (batch : EncryptedBatch P.EncryptedVector)
    (colName : Str) : Except Exn (List EncryptedColumnResult) := do
  let t ← cat.getTable pkg.tableName
  let schema ← t.column colName
  (physicalColumns P schema colName).zipIdx.mapM fun (physicalName, position) =>
    match batch.columns.lookup physicalName with
    | none => throw (.runtimeError (str "QueryExecutor: missing column: " ++ physicalName))
    | some chunk =>
      match chunk.ciphertexts with
      | [] =>
        throw (.runtimeError (str "QueryExecutor: empty ciphertext for: " ++ physicalName))
      | ct :: _ => pure (columnResult P colName schema position ct)

def serializeBatch (pkg : QueryPackage) (batchId : UInt32)
    (batch : EncryptedBatch P.EncryptedVector) : Except Exn EncryptedResultBatch := do
  let columns ← pkg.projectColumns.mapM (scanColumn P cat pkg batch)
  pure
    { batchId := batchId
      logicalRowCount := batch.logicalRowCount
      columns := columns.flatten
      selectionMaskBytes := match batch.selectionMask with
        | some mask => P.serialize mask
        | none => []
      hasMask := batch.selectionMask.isSome }

/-- `FilterExec`, when there is a predicate, then `ProjectExec` on one batch. -/
def filterProject (predExpr : Option (Expression P.EncryptedVector))
    (physicalProjectColumns : List Str) (batch : EncryptedBatch P.EncryptedVector) :
    Except Exn (EncryptedBatch P.EncryptedVector) := do
  let filtered ← match predExpr with
    | some e => fromProto1 (P.filterExec e batch)
    | none => pure batch
  fromProto1 (P.projectExec physicalProjectColumns filtered)

/-- The single-table path of `execute`: ProjectExec, FilterExec, TableScanExec,
and the serialization of each streamed batch. -/
def executeScan (fuel : Nat) (pkg : QueryPackage) : m (List EncryptedResultBatch) := do
  let physicalScanColumns ← MonadExcept.ofExcept (physicalColumnList P cat pkg pkg.scanColumns)
  let predExpr ← MonadExcept.ofExcept (buildWhere P pkg fuel)
  let physicalProjectColumns ←
    MonadExcept.ofExcept (physicalColumnList P cat pkg pkg.projectColumns)
  let batches ← storage.tableScan pkg.tableName physicalScanColumns
  batches.zipIdx.mapM fun (batch, i) => do
    let batch ← MonadExcept.ofExcept (filterProject P predExpr physicalProjectColumns batch)
    MonadExcept.ofExcept (serializeBatch P cat pkg (UInt32.ofNat i) batch)

def execute (fuel : Nat) (pkg : QueryPackage) : m (List EncryptedResultBatch) :=
  if pkg.hasJoin then executeJoin P storage cat fuel pkg
  else executeScan P storage cat fuel pkg

end Execution

end QueryExecutor

end FheSql
