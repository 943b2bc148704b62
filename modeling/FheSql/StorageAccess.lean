import FheSql.Lib.Traced
import FheSql.PlainProto1
import FheSql.QueryExecutor
import FheSql.ValidatedPackage

/-!
# What a query asks of the storage

`execute` over a storage that logs the table and column of every request. The
names it asks for come from the catalog, with one exception: the join keys, cut
out of the package without being looked up.
-/

namespace FheSql.StorageAccess

open ByteText Throwing Tracing QueryExecutor ValidatedPackage

/-- The table and column of a request. -/
abbrev Request := Str × Str

/-- A storage that answers as another one does and logs what it is asked. A table
scan asks for each of its columns. -/
def logged {CT : Type} (answers : EncryptedStorage (Except Exn) CT) :
    EncryptedStorage (Traced Request Exn) CT where
  listChunks table column := .ask [(table, column)] (answers.listChunks table column)
  getChunk table column partition chunkId :=
    .ask [(table, column)] (answers.getChunk table column partition chunkId)
  tableScan table columns :=
    .ask (columns.map fun column => (table, column)) (answers.tableScan table columns)

section

variable (P : Proto1) (cat : Catalog)

/-- A table of the catalog, and one of its columns or a character column of one. -/
def InCatalog (r : Request) : Prop :=
  ∃ t, cat.getTable r.1 = .ok t ∧ ∃ c ∈ t.columns,
    r.2 = c.name ∨ r.2 ∈ physicalColumns P c c.name

/-- Every request of an execution, whatever the storage answers. -/
def TouchesCatalog (pkg : QueryPackage) : Prop :=
  ∀ (answers : EncryptedStorage (Except Exn) P.EncryptedVector) (fuel : Nat),
    Within (InCatalog P cat) (execute P (logged answers) cat fuel pkg)

/-- The join keys, where there are any, are columns of their tables. -/
def KeysInCatalog (pkg : QueryPackage) : Prop :=
  pkg.hasJoin = true → ∀ keys, joinKeys pkg = .ok keys →
    InCatalog P cat (pkg.tableName, keys.1) ∧ InCatalog P cat (pkg.joinedTableName, keys.2)

end

section Requests

variable {P : Proto1} {cat : Catalog} {pkg : QueryPackage}
  {answers : EncryptedStorage (Except Exn) P.EncryptedVector}

theorem inCatalog_physical {table col physical : Str} {t : TableSchema} {c : ColumnSchema}
    (ht : cat.getTable table = .ok t) (hc : t.column col = .ok c)
    (hp : physical ∈ physicalColumns P c col) : InCatalog P cat (table, physical) := by
  obtain ⟨mem, rfl⟩ := TableSchema.column_ok hc
  exact ⟨t, ht, c, mem, Or.inr hp⟩

theorem within_getChunk {r : Request} {partition chunkId : Nat} (h : InCatalog P cat r) :
    Within (InCatalog P cat) ((logged answers).getChunk r.1 r.2 partition chunkId) := by
  apply within_ask
  intro asked mem
  obtain rfl := List.mem_singleton.mp mem
  exact h

theorem within_addTableColumns (table aliasName : Str) (chunkId : Nat)
    (batch : EncryptedBatch P.EncryptedVector) :
    Within (InCatalog P cat)
      (addTableColumns P (logged answers) cat table aliasName chunkId batch) := by
  unfold addTableColumns
  apply within_bind (within_ofExcept _)
  intro t ht
  rw [outcome_ofExcept] at ht
  apply within_foldlM
  intro batch physical hp
  obtain ⟨c, hc, hp⟩ := List.mem_flatMap.mp hp
  apply within_bind (within_getChunk (r := (table, physical)) ⟨t, ht, c, hc, Or.inr hp⟩)
  intro chunk _
  exact within_pure _

theorem within_joinColumn (leftChunk rightChunk : Nat) (name : Str) :
    Within (InCatalog P cat) (joinColumn P (logged answers) cat pkg leftChunk rightChunk name) := by
  unfold joinColumn
  apply within_bind (within_ofExcept _)
  intro t ht
  rw [outcome_ofExcept] at ht
  apply within_bind (within_ofExcept _)
  intro cs hcs
  rw [outcome_ofExcept] at hcs
  apply within_mapM
  rintro ⟨physical, position⟩ mem
  have hp : physical ∈ physicalColumns P cs (bareName name) := by
    have fst := List.mem_map_of_mem (f := Prod.fst) mem
    rwa [List.zipIdx_map_fst] at fst
  apply within_bind (within_getChunk (r := (_, physical)) (inCatalog_physical ht hcs hp))
  intro chunk _
  cases chunk.ciphertexts with
  | nil => exact within_throw _
  | cons ct cts => exact within_pure _

theorem within_leftMask (where? : Option (Expression P.EncryptedVector)) (leftChunk : Nat) :
    Within (InCatalog P cat) (leftMask P (logged answers) cat pkg where? leftChunk) := by
  cases where? with
  | none => exact within_pure none
  | some e =>
    by_cases uses : whereUsesJoinedTable pkg = true
    · simp only [leftMask, uses, if_true]
      exact within_pure none
    · simp only [leftMask, uses]
      apply within_bind (within_addTableColumns _ _ _ _)
      intro batch _
      apply within_bind (within_ofExcept _)
      intro mask _
      exact within_pure _

section Keys

variable {leftKey rightKey : Str} (left : InCatalog P cat (pkg.tableName, leftKey))
  (right : InCatalog P cat (pkg.joinedTableName, rightKey))

include right in
theorem within_joinPair (where? : Option (Expression P.EncryptedVector)) (lm : ChunkMeta)
    (leftMask? : Option P.EncryptedVector) (batchId : UInt32) (rm : ChunkMeta) :
    Within (InCatalog P cat)
      (joinPair P (logged answers) cat pkg where? rightKey lm leftMask? batchId rm) := by
  unfold joinPair
  apply within_bind (within_getChunk right)
  intro rightJoin _
  by_cases single : rightJoin.chunkMeta.logicalRowCount = 1
  · simp only [single, ne_eq, not_true_eq_false, if_false]
    apply within_bind (within_addTableColumns _ _ _ _)
    intro leftBatch _
    apply within_bind (within_addTableColumns _ _ _ _)
    intro pair _
    apply within_bind (within_ofExcept _)
    intro mask _
    apply within_bind (within_mapM fun name _ => within_joinColumn _ _ name)
    intro columns _
    exact within_pure _
  · simp only [single, ne_eq, not_false_eq_true, if_true]
    exact within_throw_bind _ _

include left right in
theorem within_joinLeft (where? : Option (Expression P.EncryptedVector))
    (rightChunks : List ChunkMeta) (results : List EncryptedResultBatch) (lm : ChunkMeta) :
    Within (InCatalog P cat)
      (joinLeft P (logged answers) cat pkg where? leftKey rightKey rightChunks results lm) := by
  unfold joinLeft
  apply within_bind (within_getChunk left)
  intro leftJoin _
  by_cases single : leftJoin.chunkMeta.logicalRowCount = 1
  · simp only [single, ne_eq, not_true_eq_false, if_false]
    apply within_bind (within_leftMask _ _)
    intro leftMask? _
    apply within_foldlM
    intro results rm _
    apply within_bind (within_joinPair right _ _ _ _ _)
    intro rb _
    exact within_pure _
  · simp only [single, ne_eq, not_false_eq_true, if_true]
    exact within_throw_bind _ _

end Keys

theorem within_listChunks {r : Request} (h : InCatalog P cat r) :
    Within (InCatalog P cat) ((logged answers).listChunks r.1 r.2) := by
  apply within_ask
  intro asked mem
  obtain rfl := List.mem_singleton.mp mem
  exact h

theorem within_executeJoin (fuel : Nat)
    (keys : ∀ keys, joinKeys pkg = .ok keys → InCatalog P cat (pkg.tableName, keys.1) ∧
      InCatalog P cat (pkg.joinedTableName, keys.2)) :
    Within (InCatalog P cat) (executeJoin P (logged answers) cat fuel pkg) := by
  unfold executeJoin
  apply within_bind (within_ofExcept _)
  rintro ⟨leftKey, rightKey⟩ hkeys
  rw [outcome_ofExcept] at hkeys
  obtain ⟨left, right⟩ := keys (leftKey, rightKey) hkeys
  apply within_bind (within_listChunks left)
  intro leftChunks _
  apply within_bind (within_listChunks right)
  intro rightChunks _
  apply within_bind (within_ofExcept _)
  intro where? _
  apply within_foldlM
  intro results lm _
  exact within_joinLeft left right _ _ _ _

/-- The physical scan columns belong to columns of the package's table. -/
theorem inCatalog_scan {columns physicalNames : List Str}
    (h : physicalColumnList P cat pkg columns = .ok physicalNames) {physical : Str}
    (mem : physical ∈ physicalNames) : InCatalog P cat (pkg.tableName, physical) := by
  obtain ⟨parts, hparts, hjoin⟩ := bind_ok_iff.mp h
  cases hjoin
  obtain ⟨part, hpart, hp⟩ := List.mem_flatten.mp mem
  obtain ⟨col, _, hcol⟩ := mapM_ok_mem hparts hpart
  obtain ⟨t, ht, hcol⟩ := bind_ok_iff.mp hcol
  obtain ⟨c, hc, hcol⟩ := bind_ok_iff.mp hcol
  cases hcol
  exact inCatalog_physical ht hc hp

theorem within_executeScan (fuel : Nat) :
    Within (InCatalog P cat) (executeScan P (logged answers) cat fuel pkg) := by
  unfold executeScan
  apply within_bind (within_ofExcept _)
  intro physicalScanColumns hscan
  rw [outcome_ofExcept] at hscan
  apply within_bind (within_ofExcept _)
  intro predExpr _
  apply within_bind (within_ofExcept _)
  intro physicalProjectColumns _
  refine within_bind (within_ask ?_) fun batches _ => within_mapM fun x _ => ?_
  · intro asked mem
    obtain ⟨physical, hp, rfl⟩ := List.mem_map.mp mem
    exact inCatalog_scan hscan hp
  · apply within_bind (within_ofExcept _)
    intro batch _
    exact within_ofExcept _

/-- A storage that has no chunks. -/
def emptyStorage (CT : Type) : EncryptedStorage (Except Exn) CT where
  listChunks _ _ := .ok []
  getChunk _ _ _ _ := .error .outOfBounds
  tableScan _ _ := .ok []

variable (P cat) in
/-- A join lists the chunks of both keys, whatever the keys are. -/
theorem keys_requested {keys : Str × Str} (joins : pkg.hasJoin = true)
    (hkeys : joinKeys pkg = .ok keys) (fuel : Nat) :
    (pkg.tableName, keys.1) ∈
        (execute P (logged (emptyStorage P.EncryptedVector)) cat fuel pkg).log ∧
      (pkg.joinedTableName, keys.2) ∈
        (execute P (logged (emptyStorage P.EncryptedVector)) cat fuel pkg).log := by
  simp only [execute, joins, if_true, executeJoin]
  have cut : (MonadExcept.ofExcept (joinKeys pkg) : Traced Request Exn (Str × Str)).outcome =
      .ok keys := (outcome_ofExcept _).trans hkeys
  constructor
  · apply mem_log_bind_ok cut
    apply mem_log_bind
    exact List.mem_singleton.mpr rfl
  · apply mem_log_bind_ok cut
    apply mem_log_bind_ok (a := []) rfl
    apply mem_log_bind
    exact List.mem_singleton.mpr rfl

end Requests

/-- An execution keeps to the catalog exactly when its join keys do. -/
theorem touchesCatalog_iff (P : Proto1) (cat : Catalog) (pkg : QueryPackage) :
    TouchesCatalog P cat pkg ↔ KeysInCatalog P cat pkg := by
  constructor
  · intro touches joins keys hkeys
    have within := touches (emptyStorage P.EncryptedVector) 0
    obtain ⟨left, right⟩ := keys_requested P cat joins hkeys 0
    exact ⟨within.requests _ left, within.requests _ right⟩
  · intro keys answers fuel
    unfold execute
    by_cases joins : pkg.hasJoin = true
    · rw [if_pos joins]
      exact within_executeJoin fuel (keys joins)
    · rw [if_neg joins]
      exact within_executeScan fuel

/-- A join package whose right key is a path and whose joined table is no table. -/
def pathPackage : QueryPackage where
  tableName := str "employees"
  tableAlias := str "e"
  joinedTableName := str "../../etc"
  joinedTableAlias := str "d"
  joinLeftColumn := str "e.id"
  joinRightColumn := str "d.passwd"
  hasJoin := true

theorem accepted_package_can_leave_the_catalog :
    ¬ ∀ (P : Proto1) (cat : Catalog) (serverParamSetId : Str) (pkg : QueryPackage),
      Accepts cat serverParamSetId pkg → TouchesCatalog P cat pkg := by
  intro all
  have touches := all (plainProto1 1) makeEmployeesCatalog [] pathPackage ⟨0, rfl⟩
  have within := touches (emptyStorage _) 0
  have joins : pathPackage.hasJoin = true := rfl
  have keys : joinKeys pathPackage = .ok (str "id", str "passwd") := rfl
  have asked := (keys_requested (plainProto1 1) makeEmployeesCatalog joins keys 0).2
  obtain ⟨t, ht, _⟩ := within.requests _ asked
  cases ht

end FheSql.StorageAccess
