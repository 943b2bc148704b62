import FheSql.Lib.Pointwise
import FheSql.Lib.TwoRuns
import FheSql.LiteralConfidentiality
import FheSql.PredicateCompiler
import FheSql.ServerHandler

/-!
# What the server's work gives away

The executor looks at ciphertexts through proto1 only. Where proto1's operations do not
let their course depend on what is encrypted, neither does the executor: packages that
differ in ciphertexts, over storages that differ in ciphertexts, lead to the same
requests in the same order and to batches of the same shape.
-/

namespace FheSql.AccessPattern

open ByteText Throwing Tracing QueryExecutor

/-- A request to the storage, with the chunk it is for. -/
inductive Access where
  | listChunks (table column : Str)
  | getChunk (table column : Str) (partitionId chunkId : Nat)
  | tableScan (table : Str) (columns : List Str)
  deriving DecidableEq, Repr

/-- A storage that answers as another one does and logs what it is asked. -/
def watched {CT : Type} (answers : EncryptedStorage (Except Exn) CT) :
    EncryptedStorage (Traced Access Exn) CT where
  listChunks table column := .ask [.listChunks table column] (answers.listChunks table column)
  getChunk table column partitionId chunkId :=
    .ask [.getChunk table column partitionId chunkId]
      (answers.getChunk table column partitionId chunkId)
  tableScan table columns := .ask [.tableScan table columns] (answers.tableScan table columns)

section Relations

variable {CT : Type} (R : CT → CT → Prop)

/-- Chunks of the same place with related ciphertexts. -/
structure ChunkRel (chunk chunk' : EncryptedColumnChunk CT) : Prop where
  chunkMeta : chunk.chunkMeta = chunk'.chunkMeta
  ciphertexts : List.Forall₂ R chunk.ciphertexts chunk'.ciphertexts

structure BatchRel (batch batch' : EncryptedBatch CT) : Prop where
  columns : ∀ name, Option.Rel (ChunkRel R) (batch.columns.lookup name) (batch'.columns.lookup name)
  rowCount : batch.logicalRowCount = batch'.logicalRowCount
  mask : Option.Rel R batch.selectionMask batch'.selectionMask

/-- Storages of one layout: their chunks and scans differ in the ciphertexts. -/
structure StoredAlike (storage storage' : EncryptedStorage (Except Exn) CT) : Prop where
  listChunks : ∀ table column, storage.listChunks table column = storage'.listChunks table column
  getChunk : ∀ table column partitionId chunkId, Ends (ChunkRel R)
    (storage.getChunk table column partitionId chunkId)
    (storage'.getChunk table column partitionId chunkId)
  tableScan : ∀ table columns, Ends (List.Forall₂ (BatchRel R))
    (storage.tableScan table columns) (storage'.tableScan table columns)

end Relations

/-- Related ciphertexts are of one size, and the operations of proto1 end alike on them. -/
structure Blind (P : Proto1) (R : P.EncryptedVector → P.EncryptedVector → Prop) : Prop where
  logicalSize : ∀ {a b}, R a b → P.logicalSize a = P.logicalSize b
  serialized : ∀ {a b}, R a b → (P.serialize a).length = (P.serialize b).length
  evalMult : ∀ {a a' b b'}, R a a' → R b b' → Ends R (P.evalMult a b) (P.evalMult a' b')
  evaluate : ∀ {e e' batch batch'}, Expression.Rel R e e' → BatchRel R batch batch' →
    Ends R (P.evaluate e batch) (P.evaluate e' batch')
  filterExec : ∀ {e e' batch batch'}, Expression.Rel R e e' → BatchRel R batch batch' →
    Ends (BatchRel R) (P.filterExec e batch) (P.filterExec e' batch')
  projectExec : ∀ {batch batch'} names, BatchRel R batch batch' →
    Ends (BatchRel R) (P.projectExec names batch) (P.projectExec names batch')

/-- As many bytes, that say nothing. -/
def blank (bytes : List UInt8) : List UInt8 := List.replicate bytes.length 0

/-- A result column without its ciphertext. -/
def redactColumn (cr : EncryptedColumnResult) : EncryptedColumnResult :=
  { cr with ciphertextBytes := blank cr.ciphertextBytes }

/-- A batch without its ciphertexts. -/
def redactBatch (rb : EncryptedResultBatch) : EncryptedResultBatch :=
  { rb with
    columns := rb.columns.map redactColumn, selectionMaskBytes := blank rb.selectionMaskBytes }

/-- Result columns that differ in the bytes of their ciphertexts only. -/
def SameColumn (cr cr' : EncryptedColumnResult) : Prop := redactColumn cr = redactColumn cr'

def SameBatch (rb rb' : EncryptedResultBatch) : Prop := redactBatch rb = redactBatch rb'

/-- Literals that are read to related ciphertexts. -/
structure LiteralRel (P : Proto1) (R : P.EncryptedVector → P.EncryptedVector → Prop)
    (lit lit' : EncryptedLiteralEntry) : Prop where
  id : lit.id = lit'.id
  logicalType : lit.logicalType = lit'.logicalType
  length : lit.ciphertextBytes.length = lit'.ciphertextBytes.length
  reads : Ends R (P.deserializeWithSize lit.ciphertextBytes lit.logicalSize)
    (P.deserializeWithSize lit'.ciphertextBytes lit'.logicalSize)

theorem LiteralRel.empty {P : Proto1} {R : P.EncryptedVector → P.EncryptedVector → Prop}
    {lit lit' : EncryptedLiteralEntry} (same : LiteralRel P R lit lit') :
    lit.ciphertextBytes = [] ↔ lit'.ciphertextBytes = [] := by
  rw [← List.length_eq_zero_iff, same.length, List.length_eq_zero_iff]

/-- The package under another query id and with other literals. -/
abbrev relabel (pkg : QueryPackage) (queryId : Str) (literals : List EncryptedLiteralEntry) :
    QueryPackage :=
  { pkg with queryId := queryId, encryptedLiterals := literals }

section Validation

open QueryValidator PredicateTree

variable {P : Proto1} {R : P.EncryptedVector → P.EncryptedVector → Prop} {cat : Catalog}
  {serverParamSetId : Str} {pkg : QueryPackage} {queryId' : Str}
  {literals' : List EncryptedLiteralEntry}
  (literals : List.Forall₂ (LiteralRel P R) pkg.encryptedLiterals literals')

include literals

theorem any_rel {test : EncryptedLiteralEntry → Bool}
    (same : ∀ lit lit', LiteralRel P R lit lit' → test lit = test lit') :
    pkg.encryptedLiterals.any test = literals'.any test := by
  generalize pkg.encryptedLiterals = own at literals
  induction literals with
  | nil => rfl
  | cons head _ ih => rw [List.any_cons, List.any_cons, same _ _ head, ih]

theorem validateLiteral_rel :
    pkg.encryptedLiterals.forM validateLiteral = literals'.forM validateLiteral := by
  generalize pkg.encryptedLiterals = own at literals
  simp only [List.forM_eq_forM]
  induction literals with
  | nil => rfl
  | cons head _ ih =>
    rw [List.forM_cons, List.forM_cons, ih]
    simp only [validateLiteral, head.id, head.empty]

theorem visit_rel (schema : TableSchema) (i : UInt32) :
    visit cat pkg schema i = visit cat (relabel pkg queryId' literals') schema i := by
  have byId : ∀ node, validateLiteralNode pkg node =
      validateLiteralNode (relabel pkg queryId' literals') node := by
    intro node
    unfold validateLiteralNode
    rw [any_rel literals fun lit lit' same => by rw [same.id]]
  have characters : ∀ node, validateStringNode pkg schema node =
      validateStringNode (relabel pkg queryId' literals') schema node := by
    intro node
    have each : ∀ j, pkg.encryptedLiterals.any (isCharacterLiteral (node.literalId + j)) =
        literals'.any (isCharacterLiteral (node.literalId + j)) := by
      intro j
      refine any_rel literals fun lit lit' same => ?_
      have present : (lit.ciphertextBytes != []) = (lit'.ciphertextBytes != []) := by
        rw [Bool.eq_iff_iff, bne_iff_ne, bne_iff_ne]
        exact not_congr same.empty
      rw [isCharacterLiteral, isCharacterLiteral, same.id, same.logicalType, present]
    simp only [validateStringNode, each]
  unfold visit
  simp only [byId, characters]
  rfl

/-- The validator says the same of packages of one shape. -/
theorem validate_rel (fuel : Nat) : validate cat serverParamSetId fuel pkg =
    validate cat serverParamSetId fuel (relabel pkg queryId' literals') := by
  have header : validateHeader cat serverParamSetId pkg =
      validateHeader cat serverParamSetId (relabel pkg queryId' literals') := by
    unfold validateHeader
    rw [validateLiteral_rel literals]
    rfl
  have tree : ∀ schema, validatePredTree cat pkg schema fuel pkg.rootIndex =
      validatePredTree cat (relabel pkg queryId' literals') schema fuel
        pkg.rootIndex := by
    intro schema
    rw [validatePredTree_eq_walk, validatePredTree_eq_walk]
    exact congrArg (fun turn => FlatTree.walk .outOfFuel turn fuel pkg.rootIndex)
      (funext (visit_rel literals schema))
  unfold validate
  rw [header]
  refine congrArg _ (funext fun schema => ?_)
  exact congrArg (fun rest => if pkg.predicateNodes = [] then pure () else rest) (tree schema)

end Validation

section Expressions

variable {P : Proto1} {R : P.EncryptedVector → P.EncryptedVector → Prop} {pkg : QueryPackage}
  {queryId' : Str} {literals' : List EncryptedLiteralEntry}
  (literals : List.Forall₂ (LiteralRel P R) pkg.encryptedLiterals literals')

theorem ends_fromProto1 {α α' : Type} {Q : α → α' → Prop} {x : Except Str α} {y : Except Str α'}
    (h : Ends Q x y) : Ends Q (fromProto1 x) (fromProto1 y) := ends_mapError h Exn.external

include literals

theorem literal?_rel (queryId' : Str) (id : UInt32) : Option.Rel (LiteralRel P R) (pkg.literal? id)
    ((relabel pkg queryId' literals').literal? id) := by
  simp only [QueryPackage.literal?]
  generalize pkg.encryptedLiterals = own at literals
  induction literals with
  | nil => exact .none
  | @cons lit lit' _ _ head _ ih =>
    rw [List.find?_cons, List.find?_cons, ← head.id]
    cases lit.id == id with
    | true => exact .some head
    | false => exact ih

theorem ends_characterComparison (node : PredNode) (position : Nat) :
    Ends (Expression.Rel R) (characterComparison P pkg node position)
      (characterComparison P (relabel pkg queryId' literals') node position) := by
  have found := literal?_rel literals queryId' (node.literalId + UInt32.ofNat position)
  unfold characterComparison
  revert found
  generalize pkg.literal? (node.literalId + UInt32.ofNat position) = own
  generalize QueryPackage.literal? _ (node.literalId + UInt32.ofNat position) = other
  intro found
  cases found with
  | none => exact .error _
  | some related =>
    refine ends_bind (ends_fromProto1 related.reads) fun ct ct' same => ?_
    exact .ok (.equal .columnRef (.encLiteral same))

theorem ends_literalExpression (node : PredNode) :
    Ends (Expression.Rel R) (literalExpression P pkg node)
      (literalExpression P (relabel pkg queryId' literals') node) := by
  have found := literal?_rel literals queryId' node.literalId
  unfold literalExpression
  revert found
  generalize pkg.literal? node.literalId = own
  generalize QueryPackage.literal? _ node.literalId = other
  intro found
  cases found with
  | none => exact .error _
  | some related =>
    refine ends_bind (ends_fromProto1 related.reads) fun ct ct' same => ?_
    exact .ok (.encLiteral same)

omit literals in
theorem ends_combine {cs cs' : List (Expression P.EncryptedVector)}
    (related : List.Forall₂ (Expression.Rel R) cs cs') (fuel first last : Nat) :
    Ends (Expression.Rel R) (combine P cs fuel first last) (combine P cs' fuel first last) := by
  induction fuel generalizing first last with
  | zero => exact .error _
  | succ fuel ih =>
    unfold combine
    by_cases single : last - first = 1
    · rw [if_pos single, if_pos single]
      clear ih single
      induction related generalizing first with
      | nil => exact .error _
      | cons head _ rest =>
        cases first with
        | zero => exact .ok head
        | succ first => exact rest first
    · rw [if_neg single, if_neg single]
      refine ends_bind (ih _ _) fun l l' left => ends_bind (ih _ _) fun r r' right => ?_
      exact .ok (.andExpr left right)

theorem ends_stringEquality (node : PredNode) :
    Ends (Expression.Rel R) (stringEquality P pkg node)
      (stringEquality P (relabel pkg queryId' literals') node) := by
  unfold stringEquality
  refine ends_bind (ends_mapM (R := Expression.Rel R) ?_) fun cs cs' related => ?_
  · exact List.forall₂_same.mpr fun position _ => ends_characterComparison literals node position
  · have length := related.length_eq
    cases related with
    | nil => exact .error _
    | cons head tail =>
      rw [if_neg (List.cons_ne_nil _ _), if_neg (List.cons_ne_nil _ _), ← length]
      exact ends_combine (.cons head tail) _ _ _

/-- The same nodes are built to expressions of the same shape. -/
theorem ends_buildExpression (fuel : Nat) (i : UInt32) :
    Ends (Expression.Rel R) (buildExpression P pkg fuel i)
      (buildExpression P (relabel pkg queryId' literals') fuel i) := by
  induction fuel generalizing i with
  | zero => exact .error _
  | succ fuel ih =>
    have both : ∀ (node : PredNode) {f : Expression P.EncryptedVector →
        Expression P.EncryptedVector → Expression P.EncryptedVector},
        (∀ {l l' r r'}, Expression.Rel R l l' → Expression.Rel R r r' →
          Expression.Rel R (f l r) (f l' r')) →
        Ends (Expression.Rel R)
          (buildExpression P pkg fuel node.left >>= fun l =>
            buildExpression P pkg fuel node.right >>= fun r => pure (f l r))
          (buildExpression P (relabel pkg queryId' literals') fuel node.left >>= fun l =>
            buildExpression P (relabel pkg queryId' literals') fuel node.right >>=
              fun r => pure (f l r)) := by
      intro node f keeps
      refine ends_bind (ih _) fun l l' left => ends_bind (ih _) fun r r' right => ?_
      exact .ok (keeps left right)
    unfold buildExpression
    simp only
    cases pkg.predicateNodes[i.toNat]? with
    | none => exact .error _
    | some node =>
      simp only
      cases node.kind with
      | ColumnRef => exact .ok .columnRef
      | LiteralRef => exact ends_literalExpression literals node
      | StringEqual => exact ends_stringEquality literals node
      | StringNotEqual =>
        refine ends_bind (ends_stringEquality literals node) fun e e' same => ?_
        exact .ok (.notExpr same)
      | Equal => exact both node .equal
      | NotEqual => exact both node fun left right => .notExpr (.equal left right)
      | GreaterThan => exact both node .gt
      | LessThan => exact both node .lt
      | GreaterEqual =>
        exact both node fun left right => .orExpr (.gt left right) (.equal left right)
      | LessEqual => exact both node fun left right => .orExpr (.lt left right) (.equal left right)
      | And => exact both node .andExpr
      | Or => exact both node .orExpr
      | Not => exact ends_bind (ih _) fun e e' same => .ok (.notExpr same)
      | unlisted => exact .error _

theorem ends_buildWhere (fuel : Nat) :
    Ends (Option.Rel (Expression.Rel R)) (buildWhere P pkg fuel)
      (buildWhere P (relabel pkg queryId' literals') fuel) := by
  unfold buildWhere
  by_cases empty : pkg.predicateNodes = []
  · rw [if_pos empty, if_pos empty]
    exact .ok .none
  · rw [if_neg empty, if_neg empty]
    exact ends_bind (ends_buildExpression literals fuel _) fun e e' same => .ok (.some same)

end Expressions

section Execution

variable {P : Proto1} {R : P.EncryptedVector → P.EncryptedVector → Prop} (blind : Blind P R)
  {cat : Catalog} {pkg : QueryPackage} {queryId' : Str}
  {literals' : List EncryptedLiteralEntry}
  {storage storage' : EncryptedStorage (Except Exn) P.EncryptedVector}

theorem alike_eq {α : Type} (x : Except Exn α) :
    Alike Eq (MonadExcept.ofExcept x : Traced Access Exn α) (MonadExcept.ofExcept x) :=
  alike_ofExcept (ends_refl x)

include blind in
theorem sameColumn_columnResult {ct ct' : P.EncryptedVector} (related : R ct ct') (name : Str)
    (c : ColumnSchema) (position : Nat) :
    SameColumn (columnResult P name c position ct) (columnResult P name c position ct') := by
  simp only [SameColumn, redactColumn, columnResult, blank, blind.logicalSize related,
    blind.serialized related]

theorem redact_flatten {columns columns' : List (List EncryptedColumnResult)}
    (same : List.Forall₂ (List.Forall₂ SameColumn) columns columns') :
    columns.flatten.map redactColumn = columns'.flatten.map redactColumn := by
  have each : List.Forall₂ SameColumn columns.flatten columns'.flatten := List.rel_flatten same
  exact List.forall₂_eq_eq_eq ▸ List.forall₂_map_left_iff.mpr (List.forall₂_map_right_iff.mpr each)

theorem columnsRel_insert {CT : Type} {R : CT → CT → Prop}
    {columns columns' : StringMap (EncryptedColumnChunk CT)}
    {chunk chunk' : EncryptedColumnChunk CT}
    (related : ∀ name, Option.Rel (ChunkRel R) (columns.lookup name) (columns'.lookup name))
    (same : ChunkRel R chunk chunk') (name other : Str) :
    Option.Rel (ChunkRel R) ((columns.insert name chunk).lookup other)
      ((columns'.insert name chunk').lookup other) := by
  by_cases own : other = name
  · subst own
    rw [AList.lookup_insert, AList.lookup_insert]
    exact .some same
  · rw [AList.lookup_insert_ne own, AList.lookup_insert_ne own]
    exact related other

theorem batchRel_insert {batch batch' : EncryptedBatch P.EncryptedVector}
    {chunk chunk' : EncryptedColumnChunk P.EncryptedVector} (related : BatchRel R batch batch')
    (same : ChunkRel R chunk chunk') (name : Str) :
    BatchRel R { batch with columns := batch.columns.insert name chunk }
      { batch' with columns := batch'.columns.insert name chunk' } :=
  ⟨columnsRel_insert related.columns same name, related.rowCount, related.mask⟩

theorem batchRel_empty : BatchRel R ({ logicalRowCount := 1 } : EncryptedBatch P.EncryptedVector)
    { logicalRowCount := 1 } := ⟨fun _ => .none, rfl, .none⟩

section Storage

variable (stored : StoredAlike R storage storage')

include stored

theorem alike_getChunk (table column : Str) (partitionId chunkId : Nat) :
    Alike (ChunkRel R) ((watched storage).getChunk table column partitionId chunkId)
      ((watched storage').getChunk table column partitionId chunkId) :=
  alike_ask (stored.getChunk table column partitionId chunkId)

theorem alike_addTableColumns (table aliasName : Str) (chunkId : Nat)
    {batch batch' : EncryptedBatch P.EncryptedVector} (related : BatchRel R batch batch') :
    Alike (BatchRel R) (addTableColumns P (watched storage) cat table aliasName chunkId batch)
      (addTableColumns P (watched storage') cat table aliasName chunkId batch') := by
  unfold addTableColumns
  refine alike_bind (alike_eq _) ?_
  rintro t _ rfl
  refine alike_foldlM (fun b b' same physical _ => ?_) related
  refine alike_bind (alike_getChunk stored _ _ _ _) fun chunk chunk' here => ?_
  exact alike_pure (batchRel_insert same here _)

include blind in
theorem alike_joinColumn (leftChunk rightChunk : Nat) (name : Str) :
    Alike (List.Forall₂ SameColumn)
      (joinColumn P (watched storage) cat pkg leftChunk rightChunk name)
      (joinColumn P (watched storage') cat (relabel pkg queryId' literals') leftChunk
        rightChunk name) := by
  unfold joinColumn
  refine alike_bind (alike_eq _) ?_
  rintro t _ rfl
  refine alike_bind (alike_eq _) ?_
  rintro c _ rfl
  refine alike_mapM (List.forall₂_same.mpr ?_)
  rintro ⟨physical, position⟩ _
  refine alike_bind (alike_getChunk stored _ _ _ _) fun chunk chunk' here => ?_
  obtain ⟨chunkMeta, cts⟩ := chunk
  obtain ⟨chunkMeta', cts'⟩ := chunk'
  cases here.ciphertexts with
  | nil => exact alike_throw _
  | cons head _ => exact alike_pure (sameColumn_columnResult blind head _ _ _)

section Filtered

variable {where? where'? : Option (Expression P.EncryptedVector)}
  (filters : Option.Rel (Expression.Rel R) where? where'?)

include blind filters

theorem alike_leftMask (leftChunk : Nat) :
    Alike (Option.Rel R) (leftMask P (watched storage) cat pkg where? leftChunk)
      (leftMask P (watched storage') cat (relabel pkg queryId' literals') where'?
        leftChunk) := by
  unfold leftMask
  cases filters with
  | none => exact alike_pure .none
  | some shape =>
    have uses : whereUsesJoinedTable (relabel pkg queryId' literals') =
        whereUsesJoinedTable pkg := rfl
    simp only [uses]
    cases whereUsesJoinedTable pkg with
    | true => exact alike_pure .none
    | false =>
      refine alike_bind (alike_addTableColumns stored _ _ _ batchRel_empty) fun b b' same => ?_
      refine alike_bind (alike_ofExcept (ends_fromProto1 (blind.evaluate shape same)))
        fun mask mask' here => ?_
      exact alike_pure (.some here)

omit stored in
theorem ends_pairMask {left? left'? : Option P.EncryptedVector} (masks : Option.Rel R left? left'?)
    {pair pair' : EncryptedBatch P.EncryptedVector} (related : BatchRel R pair pair') :
    Ends R (pairMask P pkg where? left? pair)
      (pairMask P (relabel pkg queryId' literals') where'? left'? pair') := by
  have uses : whereUsesJoinedTable (relabel pkg queryId' literals') =
      whereUsesJoinedTable pkg := rfl
  have keys : Expression.Rel R (.equal (.columnRef pkg.joinLeftColumn)
      (.columnRef pkg.joinRightColumn)) (.equal (.columnRef pkg.joinLeftColumn)
      (.columnRef pkg.joinRightColumn)) := .equal .columnRef .columnRef
  unfold pairMask
  simp only [uses]
  refine ends_bind (ends_fromProto1 (blind.evaluate keys related)) fun mask mask' same => ?_
  cases filters with
  | none => cases masks with
    | none => exact .ok same
    | some here => exact ends_fromProto1 (blind.evalMult same here)
  | some shape =>
    cases whereUsesJoinedTable pkg with
    | true =>
      refine ends_bind (ends_fromProto1 (blind.evaluate shape related)) fun m m' here => ?_
      exact ends_fromProto1 (blind.evalMult same here)
    | false => cases masks with
      | none => exact .ok same
      | some here => exact ends_fromProto1 (blind.evalMult same here)

theorem alike_joinPair (rightKey : Str) (lm rm : ChunkMeta)
    {left? left'? : Option P.EncryptedVector} (masks : Option.Rel R left? left'?)
    (batchId : UInt32) :
    Alike SameBatch (joinPair P (watched storage) cat pkg where? rightKey lm left? batchId rm)
      (joinPair P (watched storage') cat (relabel pkg queryId' literals') where'?
        rightKey lm left'? batchId rm) := by
  unfold joinPair
  refine alike_bind (alike_getChunk stored _ _ _ _) fun chunk chunk' here => ?_
  rw [← here.chunkMeta]
  by_cases single : chunk.chunkMeta.logicalRowCount = 1
  · simp only [single, ne_eq, not_true_eq_false, if_false]
    refine alike_bind (alike_addTableColumns stored _ _ _ batchRel_empty) fun left left' same => ?_
    refine alike_bind (alike_addTableColumns stored _ _ _ same) fun pair pair' both => ?_
    refine alike_bind (alike_ofExcept (ends_pairMask blind filters masks both))
      fun mask mask' chosen => ?_
    refine alike_bind (alike_mapM (List.forall₂_same.mpr fun name _ =>
      alike_joinColumn blind stored _ _ name)) fun cols cols' columns => ?_
    refine alike_pure ?_
    simp only [SameBatch, redactBatch, redact_flatten columns, blank, blind.serialized chosen]
  · simp only [single, ne_eq, not_false_eq_true, if_true]
    exact alike_throw_bind _ _ _

theorem alike_joinLeft (leftKey rightKey : Str) (rightChunks : List ChunkMeta) (lm : ChunkMeta)
    {results results' : List EncryptedResultBatch}
    (so_far : List.Forall₂ SameBatch results results') :
    Alike (List.Forall₂ SameBatch)
      (joinLeft P (watched storage) cat pkg where? leftKey rightKey rightChunks results lm)
      (joinLeft P (watched storage') cat (relabel pkg queryId' literals') where'?
        leftKey rightKey rightChunks results' lm) := by
  unfold joinLeft
  refine alike_bind (alike_getChunk stored _ _ _ _) fun chunk chunk' here => ?_
  rw [← here.chunkMeta]
  by_cases single : chunk.chunkMeta.logicalRowCount = 1
  · simp only [single, ne_eq, not_true_eq_false, if_false]
    refine alike_bind (alike_leftMask blind stored filters _) fun mask mask' masks => ?_
    refine alike_foldlM (fun rs rs' related rm _ => ?_) so_far
    rw [related.length_eq]
    refine alike_bind (alike_joinPair blind stored filters _ _ _ masks _) fun rb rb' same => ?_
    exact alike_pure (List.rel_append related (.cons same .nil))
  · simp only [single, ne_eq, not_false_eq_true, if_true]
    exact alike_throw_bind _ _ _

end Filtered

variable (literals : List.Forall₂ (LiteralRel P R) pkg.encryptedLiterals literals')

include blind literals

theorem alike_executeJoin (fuel : Nat) : Alike (List.Forall₂ SameBatch)
    (executeJoin P (watched storage) cat fuel pkg)
    (executeJoin P (watched storage') cat fuel (relabel pkg queryId' literals')) := by
  have listed : ∀ table column, Alike Eq ((watched storage).listChunks table column)
      ((watched storage').listChunks table column) := by
    intro table column
    refine alike_ask ?_
    rw [stored.listChunks]
    exact ends_refl _
  unfold executeJoin
  refine alike_bind (alike_eq _) ?_
  rintro ⟨leftKey, rightKey⟩ _ rfl
  refine alike_bind (listed _ _) ?_
  rintro leftChunks _ rfl
  refine alike_bind (listed _ _) ?_
  rintro rightChunks _ rfl
  refine alike_bind (alike_ofExcept (ends_buildWhere literals fuel)) fun w w' filters => ?_
  refine alike_foldlM (fun rs rs' related lm _ => ?_) .nil
  exact alike_joinLeft blind stored filters _ _ _ _ related

omit stored literals in
theorem ends_filterProject {where? where'? : Option (Expression P.EncryptedVector)}
    (filters : Option.Rel (Expression.Rel R) where? where'?)
    {batch batch' : EncryptedBatch P.EncryptedVector} (related : BatchRel R batch batch')
    (physical : List Str) :
    Ends (BatchRel R) (filterProject P where? physical batch)
      (filterProject P where'? physical batch') := by
  unfold filterProject
  cases filters with
  | none => exact ends_fromProto1 (blind.projectExec physical related)
  | some shape =>
    refine ends_bind (ends_fromProto1 (blind.filterExec shape related)) fun b b' filtered => ?_
    exact ends_fromProto1 (blind.projectExec physical filtered)

omit stored literals in
theorem ends_scanColumn {batch batch' : EncryptedBatch P.EncryptedVector}
    (related : BatchRel R batch batch') (name : Str) :
    Ends (List.Forall₂ SameColumn) (scanColumn P cat pkg batch name)
      (scanColumn P cat (relabel pkg queryId' literals') batch' name) := by
  unfold scanColumn
  refine ends_bind (ends_refl _) ?_
  rintro t _ rfl
  refine ends_bind (ends_refl _) ?_
  rintro c _ rfl
  refine ends_mapM (List.forall₂_same.mpr ?_)
  rintro ⟨physical, position⟩ _
  have found := related.columns physical
  simp only
  revert found
  generalize batch.columns.lookup physical = own
  generalize batch'.columns.lookup physical = other
  intro found
  cases found with
  | none => exact .error _
  | @some chunk chunk' here =>
    obtain ⟨chunkMeta, cts⟩ := chunk
    obtain ⟨chunkMeta', cts'⟩ := chunk'
    cases here.ciphertexts with
    | nil => exact .error _
    | cons head _ => exact .ok (sameColumn_columnResult blind head _ _ _)

omit stored literals in
theorem ends_serializeBatch {batch batch' : EncryptedBatch P.EncryptedVector}
    (related : BatchRel R batch batch') (batchId : UInt32) :
    Ends SameBatch (serializeBatch P cat pkg batchId batch)
      (serializeBatch P cat (relabel pkg queryId' literals') batchId batch') := by
  unfold serializeBatch
  refine ends_bind (ends_mapM (List.forall₂_same.mpr fun name _ =>
    ends_scanColumn blind related name)) fun cols cols' columns => ?_
  have mask := related.mask
  generalize batch.selectionMask = own at mask
  generalize batch'.selectionMask = other at mask
  refine .ok ?_
  cases mask with
  | none => simp only [SameBatch, redactBatch, redact_flatten columns, related.rowCount]
  | some same =>
    simp only [SameBatch, redactBatch, redact_flatten columns, related.rowCount, blank,
      blind.serialized same, Option.isSome_some]

theorem alike_executeScan (fuel : Nat) : Alike (List.Forall₂ SameBatch)
    (executeScan P (watched storage) cat fuel pkg)
    (executeScan P (watched storage') cat fuel (relabel pkg queryId' literals')) := by
  unfold executeScan
  refine alike_bind (alike_eq _) ?_
  rintro scans _ rfl
  refine alike_bind (alike_ofExcept (ends_buildWhere literals fuel)) fun w w' filters => ?_
  refine alike_bind (alike_eq _) ?_
  rintro projects _ rfl
  refine alike_bind (alike_ask (stored.tableScan _ _)) fun bs bs' batches => alike_mapM ?_
  refine (Pointwise.forall₂_zipIdx batches 0).imp ?_
  rintro ⟨batch, i⟩ ⟨batch', _⟩ ⟨related, rfl⟩
  refine alike_bind (alike_ofExcept (ends_filterProject blind filters related _)) ?_
  exact fun projected projected' kept => alike_ofExcept (ends_serializeBatch blind kept _)

/-- The server's work on packages of one shape over storages of one layout is the same. -/
theorem alike_execute (fuel : Nat) : Alike (List.Forall₂ SameBatch)
    (execute P (watched storage) cat fuel pkg)
    (execute P (watched storage') cat fuel (relabel pkg queryId' literals')) := by
  unfold execute
  simp only
  by_cases joins : pkg.hasJoin = true
  · rw [if_pos joins, if_pos joins]
    exact alike_executeJoin blind stored literals fuel
  · rw [if_neg joins, if_neg joins]
    exact alike_executeScan blind stored literals fuel

end Storage

end Execution

section Outcomes

variable {P : Proto1} (storage : EncryptedStorage (Except Exn) P.EncryptedVector) (cat : Catalog)
  (pkg : QueryPackage) (where? : Option (Expression P.EncryptedVector))

theorem outcome_addTableColumns (table aliasName : Str) (chunkId : Nat)
    (batch : EncryptedBatch P.EncryptedVector) :
    (addTableColumns P (watched storage) cat table aliasName chunkId batch).outcome =
      addTableColumns P storage cat table aliasName chunkId batch := by
  simp only [addTableColumns, outcome_bind, outcome_ofExcept, ofExcept_eq, outcome_foldlM]
  rfl

theorem outcome_joinColumn (leftChunk rightChunk : Nat) (name : Str) :
    (joinColumn P (watched storage) cat pkg leftChunk rightChunk name).outcome =
      joinColumn P storage cat pkg leftChunk rightChunk name := by
  simp only [joinColumn, outcome_bind, outcome_ofExcept, ofExcept_eq, outcome_mapM]
  refine bind_congr fun t => bind_congr fun c => ?_
  refine congrArg (fun turn => List.mapM turn _) (funext fun x => bind_congr fun chunk => ?_)
  cases chunk.ciphertexts with
  | nil => rfl
  | cons ct _ => rfl

theorem outcome_leftMask (leftChunk : Nat) :
    (leftMask P (watched storage) cat pkg where? leftChunk).outcome =
      leftMask P storage cat pkg where? leftChunk := by
  unfold leftMask
  cases where? with
  | none => rfl
  | some e =>
    cases whereUsesJoinedTable pkg with
    | true => rfl
    | false => simp only [Bool.false_eq_true, if_false, outcome_bind, outcome_addTableColumns,
        outcome_ofExcept, ofExcept_eq, outcome_pure]

theorem outcome_joinPair (rightKey : Str) (lm rm : ChunkMeta)
    (left? : Option P.EncryptedVector) (batchId : UInt32) :
    (joinPair P (watched storage) cat pkg where? rightKey lm left? batchId rm).outcome =
      joinPair P storage cat pkg where? rightKey lm left? batchId rm := by
  unfold joinPair
  rw [outcome_bind]
  refine bind_congr fun chunk => ?_
  by_cases single : chunk.chunkMeta.logicalRowCount = 1
  · simp only [single, ne_eq, not_true_eq_false, if_false, outcome_bind, outcome_addTableColumns,
      outcome_ofExcept, ofExcept_eq, outcome_mapM, outcome_joinColumn, outcome_pure]
  · simp only [single, ne_eq, not_false_eq_true, if_true, outcome_bind, outcome_throw]
    rfl

theorem outcome_joinLeft (leftKey rightKey : Str) (rightChunks : List ChunkMeta)
    (results : List EncryptedResultBatch) (lm : ChunkMeta) :
    (joinLeft P (watched storage) cat pkg where? leftKey rightKey rightChunks results lm).outcome =
      joinLeft P storage cat pkg where? leftKey rightKey rightChunks results lm := by
  unfold joinLeft
  rw [outcome_bind]
  refine bind_congr fun chunk => ?_
  by_cases single : chunk.chunkMeta.logicalRowCount = 1
  · simp only [single, ne_eq, not_true_eq_false, if_false, outcome_bind, outcome_leftMask,
      outcome_foldlM, outcome_joinPair, outcome_pure]
  · simp only [single, ne_eq, not_false_eq_true, if_true, outcome_bind, outcome_throw]
    rfl

theorem outcome_execute (fuel : Nat) :
    (execute P (watched storage) cat fuel pkg).outcome = execute P storage cat fuel pkg := by
  have join : (executeJoin P (watched storage) cat fuel pkg).outcome =
      executeJoin P storage cat fuel pkg := by
    simp only [executeJoin, outcome_bind, outcome_ofExcept, ofExcept_eq, outcome_foldlM,
      outcome_joinLeft]
    rfl
  have scan : (executeScan P (watched storage) cat fuel pkg).outcome =
      executeScan P storage cat fuel pkg := by
    simp only [executeScan, outcome_bind, outcome_ofExcept, ofExcept_eq, outcome_mapM]
    rfl
  unfold execute
  by_cases joins : pkg.hasJoin = true
  · rw [if_pos joins, if_pos joins, join]
  · rw [if_neg joins, if_neg joins, scan]

end Outcomes

section Handler

open ServerHandler

/-- The handler over a storage that logs: first the validator, then the executor. -/
def handled (P : Proto1) (storage : EncryptedStorage (Traced Access Exn) P.EncryptedVector)
    (cat : Catalog) (serverParamSetId : Str) (fuel : Nat) (pkg : QueryPackage) :
    Traced Access Exn (List EncryptedResultBatch) := do
  MonadExcept.ofExcept (QueryValidator.validate cat serverParamSetId fuel pkg)
  execute P storage cat fuel pkg

variable {P : Proto1} {R : P.EncryptedVector → P.EncryptedVector → Prop} (blind : Blind P R)
  {storage storage' : EncryptedStorage (Except Exn) P.EncryptedVector}
  (stored : StoredAlike R storage storage') {pkg : QueryPackage}
  {literals' : List EncryptedLiteralEntry}
  (literals : List.Forall₂ (LiteralRel P R) pkg.encryptedLiterals literals')
  (cat : Catalog) (serverParamSetId : Str) (fuel : Nat) (queryId' : Str)

include blind stored literals

theorem handled_alike : Alike (List.Forall₂ SameBatch)
    (handled P (watched storage) cat serverParamSetId fuel pkg)
    (handled P (watched storage') cat serverParamSetId fuel (relabel pkg queryId' literals')) := by
  unfold handled
  rw [← validate_rel literals fuel]
  exact alike_bind (alike_eq _) fun _ _ _ => alike_execute blind stored literals fuel

theorem queryHandler_alike : Ends (List.Forall₂ SameBatch)
    (queryHandler P storage cat serverParamSetId fuel pkg)
    (queryHandler P storage' cat serverParamSetId fuel (relabel pkg queryId' literals')) := by
  have run := (handled_alike blind stored literals cat serverParamSetId fuel queryId').ends
  simp only [handled, outcome_bind, outcome_ofExcept, outcome_execute] at run
  unfold queryHandler
  generalize (QueryValidator.validate cat serverParamSetId fuel pkg >>= fun _ =>
    execute P storage cat fuel pkg) = x at run ⊢
  generalize (QueryValidator.validate cat serverParamSetId fuel (relabel pkg queryId' literals') >>=
    fun _ => execute P storage' cat fuel (relabel pkg queryId' literals')) = y at run ⊢
  cases run with
  | ok same => exact .ok same
  | error e => exact .error e.what

end Handler

section Statements

open LiteralConfidentiality PredicateCode QueryEncryptor ClientPipeline AnalyzedStatement
open ServerHandler

/-- Encryptions of scalars are alike in size and in what is read back from them. -/
structure ScalarsAlike (P : Proto1) (R : P.EncryptedVector → P.EncryptedVector → Prop) : Prop where
  length : ∀ v v' rng rng' ct ct' next next', encryptScalar P v rng = .ok (ct, next) →
    encryptScalar P v' rng' = .ok (ct', next') → (P.serialize ct).length = (P.serialize ct').length
  reads : ∀ v v' rng rng' ct ct' next next', encryptScalar P v rng = .ok (ct, next) →
    encryptScalar P v' rng' = .ok (ct', next') →
    Ends R (P.deserializeWithSize (P.serialize ct) (P.logicalSize ct))
      (P.deserializeWithSize (P.serialize ct') (P.logicalSize ct'))

variable {P : Proto1} {R : P.EncryptedVector → P.EncryptedVector → Prop}

theorem literalRel_of_encrypts (alike : ScalarsAlike P R) {literals literals' : List (Str × Int)}
    (types : literals.map Prod.fst = literals'.map Prod.fst) {l : Nat}
    {entries entries' : List EncryptedLiteralEntry}
    (h : List.Forall₂ (fun lit entry => Encrypts P lit.1 lit.2 entry) (literals.zipIdx l) entries)
    (h' : List.Forall₂ (fun lit entry => Encrypts P lit.1 lit.2 entry) (literals'.zipIdx l)
      entries') :
    List.Forall₂ (LiteralRel P R) entries entries' := by
  induction literals generalizing literals' l entries entries' with
  | nil =>
    obtain rfl : literals' = [] := by simpa using types.symm
    cases h
    cases h'
    exact .nil
  | cons lit literals ih =>
    cases literals' with
    | nil => cases types
    | cons lit' literals' =>
      rw [List.zipIdx_cons] at h h'
      obtain ⟨entry, rest, first, tail, rfl⟩ := List.forall₂_cons_left_iff.mp h
      obtain ⟨entry', rest', first', tail', rfl⟩ := List.forall₂_cons_left_iff.mp h'
      obtain ⟨sameType, sameTypes⟩ := List.cons.inj types
      obtain ⟨rng, ct, next, hct, bytes, size⟩ := first.encrypted
      obtain ⟨rng', ct', next', hct', bytes', size'⟩ := first'.encrypted
      refine .cons ⟨?_, ?_, ?_, ?_⟩ (ih sameTypes tail tail')
      · exact first.id.trans first'.id.symm
      · exact first.logicalType.trans (sameType.trans first'.logicalType.symm)
      · rw [bytes, bytes']
        exact alike.length _ _ _ _ _ _ _ _ hct hct'
      · rw [bytes, bytes', size, size']
        exact alike.reads _ _ _ _ _ _ _ _ hct hct'

theorem attachPredicate_rel (alike : ScalarsAlike P R) {stmt stmt' : SelectStatement}
    (h : DiffersInLiterals stmt stmt') {source : Except Exn TableSchema}
    {pkg built built' : QueryPackage} (plain : pkg.encryptedLiterals = []) {rng rng' : P.Rng}
    (ok : attachPredicate source stmt pkg rng = .ok built)
    (ok' : attachPredicate source stmt' pkg rng' = .ok built') :
    ∃ literals', built' = { built with encryptedLiterals := literals' } ∧
      List.Forall₂ (LiteralRel P R) built.encryptedLiterals literals' := by
  have predicate := h.whereClause
  simp only [attachPredicate] at ok ok'
  generalize stmt.whereClause = w at predicate ok
  generalize stmt'.whereClause = w' at predicate ok'
  cases predicate with
  | none =>
    cases ok
    cases ok'
    exact ⟨pkg.encryptedLiterals, rfl, plain ▸ .nil⟩
  | some shape =>
    obtain ⟨schema, hs, ok⟩ := bind_ok_iff.mp ok
    obtain ⟨schema', hs', ok'⟩ := bind_ok_iff.mp ok'
    rw [hs] at hs'
    cases hs'
    obtain ⟨⟨root, s⟩, hb, ok⟩ := bind_ok_iff.mp ok
    obtain ⟨⟨root', s'⟩, hb', ok'⟩ := bind_ok_iff.mp ok'
    cases ok
    cases ok'
    obtain ⟨code, t, hc, ht, _, rfl⟩ := (buildPredNode_splits schema _ _ 0 _ _ rfl).mp hb
    obtain ⟨code', t', hc', ht', _, rfl⟩ := (buildPredNode_splits schema _ _ 0 _ _ rfl).mp hb'
    have layout := flatten_congr shape hc hc'
    obtain ⟨entries, he, encrypts⟩ := encryptLiterals_entries (l := 0) ht rfl
    obtain ⟨entries', he', encrypts'⟩ := encryptLiterals_entries (l := 0) ht' rfl
    refine ⟨t'.literals, ?_, ?_⟩
    · simp only [layout.nodes, initialState]
    · simp only [initialState, List.nil_append] at he he'
      rw [he, he']
      exact literalRel_of_encrypts alike layout.types encrypts encrypts'

/-- The packages of two statements differ in literals that are read alike. -/
theorem clientPackage_rel (alike : ScalarsAlike P R) {stmt stmt' : SelectStatement}
    (h : DiffersInLiterals stmt stmt') {cat : Catalog} {fheMeta : FHEParamsMeta} {rng rng' : P.Rng}
    {pkg pkg' : QueryPackage} (ok : clientPackage cat fheMeta stmt rng = .ok pkg)
    (ok' : clientPackage cat fheMeta stmt' rng' = .ok pkg') :
    ∃ literals', pkg' = { pkg with encryptedLiterals := literals' } ∧
      List.Forall₂ (LiteralRel P R) pkg.encryptedLiterals literals' := by
  obtain ⟨schema, hs, ok⟩ := bind_ok_iff.mp ok
  obtain ⟨schema', hs', ok'⟩ := bind_ok_iff.mp ok'
  have table := analyze_schema hs
  rw [h.tableName, analyze_schema hs'] at table
  cases table
  obtain ⟨plan, hp, ok⟩ := bind_ok_iff.mp ok
  obtain ⟨plan', hp', ok'⟩ := bind_ok_iff.mp ok'
  rw [planQuery_congr h, hp'] at hp
  cases hp
  obtain ⟨columns, hc, ok⟩ := bind_ok_iff.mp ok
  obtain ⟨columns', hc', ok'⟩ := bind_ok_iff.mp ok'
  rw [hc] at hc'
  cases hc'
  exact attachPredicate_rel alike h rfl ok ok'

/-- Neither the requests to the storage nor the shape of the reply depend on the literals of
a statement or on the stored data, where proto1's operations keep to themselves what they
work on. -/
theorem server_work_hides_data (alike : ScalarsAlike P R) (blind : Blind P R)
    {stmt stmt' : SelectStatement} (h : DiffersInLiterals stmt stmt')
    {storage storage' : EncryptedStorage (Except Exn) P.EncryptedVector}
    (stored : StoredAlike R storage storage') (clientCat serverCat : Catalog)
    (fheMeta : FHEParamsMeta) (rng rng' : P.Rng) (serverParamSetId : Str) (fuel : Nat)
    (queryId queryId' : Str) (pkg pkg' : QueryPackage)
    (ok : clientPackage clientCat fheMeta stmt rng = .ok pkg)
    (ok' : clientPackage clientCat fheMeta stmt' rng' = .ok pkg') :
    (handled P (watched storage) serverCat serverParamSetId fuel
          { pkg with queryId := queryId }).log =
        (handled P (watched storage') serverCat serverParamSetId fuel
          { pkg' with queryId := queryId' }).log ∧
      Ends (List.Forall₂ SameBatch)
        (queryHandler P storage serverCat serverParamSetId fuel { pkg with queryId := queryId })
        (queryHandler P storage' serverCat serverParamSetId fuel
          { pkg' with queryId := queryId' }) := by
  obtain ⟨literals', rfl, literals⟩ := clientPackage_rel alike h ok ok'
  replace literals : List.Forall₂ (LiteralRel P R)
      { pkg with queryId := queryId : QueryPackage }.encryptedLiterals literals' := literals
  exact ⟨(handled_alike blind stored literals serverCat serverParamSetId fuel queryId').log,
    queryHandler_alike blind stored literals serverCat serverParamSetId fuel queryId'⟩

end Statements

section Plain

open PlainProto1 LiteralConfidentiality ClientPipeline ServerHandler

variable {slotCount : Nat}

/-- All that the course of the plaintext operations depends on. -/
structure SameSize (a b : PlainVector) : Prop where
  size : a.size = b.size
  length : a.residues.length = b.residues.length

theorem sameSize_fromSlots (slotCount : Nat) (f g : Nat → Slot) :
    SameSize (fromSlots slotCount f) (fromSlots slotCount g) := by
  constructor
  · rfl
  · rw [fromSlots, fromSlots, List.length_map, List.length_map]

theorem length_serialize (v : PlainVector) :
    (PlainProto1.serialize v).length = 2 * v.residues.length + 1 := by
  obtain ⟨residues, size⟩ := v
  induction residues with
  | nil => rfl
  | cons r residues ih =>
    simp only [PlainProto1.serialize, List.flatMap_cons, List.length_cons, List.length_append,
      List.length_nil] at ih ⊢
    omega

theorem serialize_length_of_sameSize {a b : PlainVector} (same : SameSize a b) :
    (PlainProto1.serialize a).length = (PlainProto1.serialize b).length := by
  rw [length_serialize, length_serialize, same.length]

theorem rel_shape {R : PlainVector → PlainVector → Prop} {e e' : Expression PlainVector}
    (h : Expression.Rel R e e') :
    e.isLeaf = e'.isLeaf ∧ e.isMask = e'.isMask ∧ e.columns = e'.columns := by
  induction h with
  | columnRef | encLiteral _ => exact ⟨rfl, rfl, rfl⟩
  | equal _ _ left right | gt _ _ left right | lt _ _ left right | andExpr _ _ left right
  | orExpr _ _ left right =>
    obtain ⟨leafs, masks, columns⟩ := left
    obtain ⟨leafs', masks', columns'⟩ := right
    refine ⟨rfl, ?_, ?_⟩
    · simp only [Expression.isMask, leafs, leafs', masks, masks']
    · simp only [Expression.columns, columns, columns']
  | notExpr _ child => exact ⟨rfl, child.2.1, child.2.2⟩

theorem first?_rel {batch batch' : EncryptedBatch PlainVector}
    (related : BatchRel SameSize batch batch') (name : Str) :
    (batch.first? name).isSome = (batch'.first? name).isSome := by
  have found := related.columns name
  unfold EncryptedBatch.first?
  generalize batch.columns.lookup name = own at found
  generalize batch'.columns.lookup name = other at found
  cases found with
  | none => rfl
  | @some chunk chunk' here =>
    obtain ⟨chunkMeta, cts⟩ := chunk
    obtain ⟨chunkMeta', cts'⟩ := chunk'
    cases here.ciphertexts with
    | nil => rfl
    | cons _ _ => rfl

theorem evaluate_rel {e e' : Expression PlainVector} {batch batch' : EncryptedBatch PlainVector}
    (shape : Expression.Rel SameSize e e') (related : BatchRel SameSize batch batch') :
    Ends SameSize (PlainProto1.evaluate slotCount e batch)
      (PlainProto1.evaluate slotCount e' batch') := by
  obtain ⟨_, masks, columns⟩ := rel_shape shape
  have present : hasColumns batch e.columns = hasColumns batch' e'.columns := by
    simp only [hasColumns, columns, first?_rel related]
  unfold PlainProto1.evaluate
  rw [masks, present]
  cases e'.isMask with
  | false => exact .error _
  | true =>
    cases hasColumns batch' e'.columns with
    | false => exact .error _
    | true => exact .ok (sameSize_fromSlots _ _ _)

/-- What the requests leave and take differs in the ciphertexts. -/
theorem projectColumns_rel {batch batch' : EncryptedBatch PlainVector} (names : List Str)
    (related : BatchRel SameSize batch batch') :
    Ends (BatchRel SameSize) (projectColumns names batch) (projectColumns names batch') := by
  let Both (state state' : StringMap (EncryptedColumnChunk PlainVector) ×
      StringMap (EncryptedColumnChunk PlainVector)) : Prop :=
    (∀ name, Option.Rel (ChunkRel SameSize) (state.1.lookup name) (state'.1.lookup name)) ∧
      ∀ name, Option.Rel (ChunkRel SameSize) (state.2.lookup name) (state'.2.lookup name)
  have turn : ∀ state state', Both state state' → ∀ name ∈ names,
      Ends Both (takeColumn state name) (takeColumn state' name) := by
    rintro ⟨left, taken⟩ ⟨left', taken'⟩ ⟨lefts, takens⟩ name _
    have found := lefts name
    simp only [takeColumn]
    generalize left.lookup name = own at found
    generalize left'.lookup name = other at found
    cases found with
    | none => exact .error _
    | @some chunk chunk' same =>
      have empty : ChunkRel SameSize chunk.emptied chunk'.emptied := ⟨same.chunkMeta, .nil⟩
      exact .ok ⟨columnsRel_insert lefts empty name, columnsRel_insert takens same name⟩
  refine ends_bind (ends_foldlM turn ⟨related.columns, fun _ => .none⟩) fun state state' both => ?_
  exact .ok ⟨both.2, related.rowCount, related.mask⟩

theorem plain_blind (slotCount : Nat) : Blind (plainProto1 slotCount) SameSize where
  logicalSize same := same.size
  serialized same := serialize_length_of_sameSize same
  evalMult _ _ := .ok (sameSize_fromSlots _ _ _)
  evaluate shape related := evaluate_rel shape related
  filterExec shape related := by
    refine ends_bind (evaluate_rel shape related) fun mask mask' same => ?_
    exact .ok ⟨related.columns, related.rowCount, .some same⟩
  projectExec names related := projectColumns_rel names related

theorem plain_scalarsAlike (slotCount : Nat) : ScalarsAlike (plainProto1 slotCount) SameSize where
  length v v' rng rng' ct ct' next next' h h' := by
    cases h
    cases h'
    simp only [plainProto1, length_serialize, List.length_map, List.length_replicate]
  reads v v' rng rng' ct ct' next next' h h' := by
    cases h
    cases h'
    refine .ok ⟨?_, ?_⟩
    · simp only [plainProto1, List.length_replicate]
    · simp only [plainProto1, PlainProto1.serialize, List.tail_cons, parseResidues_serialized,
        List.length_map, List.length_replicate]

/-- One row of every table, with one number in every column. -/
def shelf (v : Nat) : EncryptedStorage (Except Exn) PlainVector where
  listChunks _ _ := .ok [⟨0, 0, 1⟩]
  getChunk _ _ _ _ := .ok ⟨⟨0, 0, 1⟩, [⟨[v], 1⟩]⟩
  tableScan _ names :=
    .ok [⟨names.foldr (fun name columns => columns.insert name ⟨⟨0, 0, 1⟩, [⟨[v], 1⟩]⟩) ∅, 1, none⟩]

theorem shelf_alike (v v' : Nat) : StoredAlike SameSize (shelf v) (shelf v') := by
  have chunk : ChunkRel SameSize ⟨⟨0, 0, 1⟩, [⟨[v], 1⟩]⟩ ⟨⟨0, 0, 1⟩, [⟨[v'], 1⟩]⟩ :=
    ⟨rfl, .cons ⟨rfl, rfl⟩ .nil⟩
  refine ⟨fun _ _ => rfl, fun _ _ _ _ => .ok chunk, fun _ names => .ok (.cons ?_ .nil)⟩
  induction names with
  | nil => exact ⟨fun _ => .none, rfl, .none⟩
  | cons name names ih => exact batchRel_insert (P := plainProto1 1) ih chunk name

theorem aged_work_hides_data :
    ∃ pkg pkg',
      clientPackage (P := plainProto1 1) makeEmployeesCatalog {}
        (agedQuery 30 (str "Ann") .Ascending (-1)) () = .ok pkg ∧
      clientPackage (P := plainProto1 1) makeEmployeesCatalog {}
        (agedQuery 65 (str "Bob") .Descending 3) () = .ok pkg' ∧
      (∃ columns, (handled (plainProto1 1) (watched (shelf 40)) makeEmployeesCatalog [] 9
        { pkg with queryId := str "q1" }).log = [.tableScan (str "employees") columns]) ∧
      (∃ batch, queryHandler (plainProto1 1) (shelf 40) makeEmployeesCatalog [] 9
        { pkg with queryId := str "q1" } = .ok [batch]) ∧
      (handled (plainProto1 1) (watched (shelf 40)) makeEmployeesCatalog [] 9
          { pkg with queryId := str "q1" }).log =
        (handled (plainProto1 1) (watched (shelf 70)) makeEmployeesCatalog [] 9
          { pkg' with queryId := str "q2" }).log ∧
      Ends (List.Forall₂ SameBatch)
        (queryHandler (plainProto1 1) (shelf 40) makeEmployeesCatalog [] 9
          { pkg with queryId := str "q1" })
        (queryHandler (plainProto1 1) (shelf 70) makeEmployeesCatalog [] 9
          { pkg' with queryId := str "q2" }) :=
  ⟨_, _, rfl, rfl, ⟨_, rfl⟩, ⟨_, rfl⟩,
    server_work_hides_data (P := plainProto1 1) (plain_scalarsAlike 1) (plain_blind 1)
      (agedQuery_differsInLiterals 30 65 (str "Ann") (str "Bob") .Ascending .Descending (-1) 3)
      (shelf_alike 40 70) makeEmployeesCatalog makeEmployeesCatalog {} () () [] 9 (str "q1")
      (str "q2") _ _ rfl rfl⟩

end Plain

end FheSql.AccessPattern
