import FheSql.ColumnResolution
import FheSql.JoinLoop

/-!
# Which chunks the result batches are read from

`listChunks` reports chunks of any partition, and a chunk may hold several
ciphertexts. A join fetches the columns of a pair from partition 0 whatever
partition the chunks were listed in, and a scan ships the first ciphertext of a
chunk only. Both are compared with a reading of every stored row.
-/

namespace FheSql.ChunkOrigin

open ByteText Throwing Pointwise QueryExecutor JoinLoop ColumnResolution

section Join

variable {P : Proto1} (storage : EncryptedStorage (Except Exn) P.EncryptedVector) (cat : Catalog)
  (pkg : QueryPackage)

/-- The table of a projected name and the listed chunk its row is in. -/
def ownSource (pair : ChunkMeta × ChunkMeta) (name : Str) : Str × ChunkMeta :=
  if qualifierOr pkg.tableAlias name = pkg.tableAlias then (pkg.tableName, pair.1)
  else (pkg.joinedTableName, pair.2)

/-- One result column, from the partition and the chunk that were listed. -/
def ownPosition (source : Str × ChunkMeta) (cs : ColumnSchema) (name : Str) (x : Str × Nat) :
    Except Exn EncryptedColumnResult := do
  let chunk ← storage.getChunk source.1 x.1 source.2.partitionId source.2.chunkId
  match chunk.ciphertexts with
  | [] => throw (.runtimeError (str "JOIN result column has no ciphertext"))
  | ct :: _ => pure (columnResult P name cs x.2 ct)

def ownColumn (pair : ChunkMeta × ChunkMeta) (name : Str) :
    Except Exn (List EncryptedColumnResult) := do
  let t ← cat.getTable (ownSource pkg pair name).1
  let cs ← t.column (bareName name)
  (physicalColumns P cs (bareName name)).zipIdx.mapM
    (ownPosition storage (ownSource pkg pair name) cs name)

/-- A batch that holds a pair of stored rows: key, predicate inputs and projected
columns all come from the partitions and chunks the pair was listed with. -/
structure FromOwnChunks (where? : Option (Expression P.EncryptedVector))
    (pair : ChunkMeta × ChunkMeta) (rb : EncryptedResultBatch) : Prop where
  mask : ∃ t u left full mask,
    cat.getTable pkg.tableName = .ok t ∧ cat.getTable pkg.joinedTableName = .ok u ∧
    addColumnsIn storage pkg.tableName pkg.tableAlias pair.1.partitionId pair.1.chunkId
      (tablePhysicals P t) { logicalRowCount := 1 } = .ok left ∧
    addColumnsIn storage pkg.joinedTableName pkg.joinedTableAlias pair.2.partitionId pair.2.chunkId
      (tablePhysicals P u) left = .ok full ∧
    MaskOf P pkg where? left full mask ∧ rb.selectionMaskBytes = P.serialize mask
  columns : ∃ columns, pkg.projectColumns.mapM (ownColumn storage cat pkg pair) = .ok columns ∧
    rb.columns = columns.flatten

end Join

/-- Over these lists of chunks every completed join returns each pair of stored
rows once, in left-major order, from its own chunks. -/
def CarriesPairs (cat : Catalog) (pkg : QueryPackage) (left right : List ChunkMeta) : Prop :=
  ∀ (P : Proto1) (storage : EncryptedStorage (Except Exn) P.EncryptedVector) (fuel : Nat)
    (keys : Str × Str) (results : List EncryptedResultBatch), joinKeys pkg = .ok keys →
    storage.listChunks pkg.tableName keys.1 = .ok left →
    storage.listChunks pkg.joinedTableName keys.2 = .ok right →
    execute P storage cat fuel pkg = .ok results →
    ∃ where?, buildWhere P pkg fuel = .ok where? ∧
      List.Forall₂ (FromOwnChunks storage cat pkg where?) (left ×ˢ right) results

/-- All pairs are listed in partition 0. -/
def FirstPartition (left right : List ChunkMeta) : Prop :=
  ∀ lm ∈ left, ∀ rm ∈ right, lm.partitionId = 0 ∧ rm.partitionId = 0

/-- A join whose tables, keys and projected names are in the catalog, under two
aliases, and whose WHERE builds from any literals that deserialize. -/
structure OrdinaryJoin (cat : Catalog) (pkg : QueryPackage) (keys : Str × Str) : Prop where
  joins : pkg.hasJoin = true
  plainLeft : dot ∉ pkg.tableAlias
  plainRight : dot ∉ pkg.joinedTableAlias
  distinct : pkg.tableAlias ≠ pkg.joinedTableAlias
  left : pkg.joinLeftColumn = qualified pkg.tableAlias keys.1
  right : pkg.joinRightColumn = qualified pkg.joinedTableAlias keys.2
  leftTable : ∃ t c, cat.getTable pkg.tableName = .ok t ∧ t.column keys.1 = .ok c ∧
    c.type ≠ .STRING
  rightTable : ∃ t c, cat.getTable pkg.joinedTableName = .ok t ∧ t.column keys.2 = .ok c ∧
    c.type ≠ .STRING
  projected : ∀ name ∈ pkg.projectColumns, Known cat (executedSource pkg name)
  builds : ∀ P : Proto1, (∀ bytes size, ∃ ct, P.deserializeWithSize bytes size = .ok ct) →
    ∃ fuel where?, buildWhere P pkg fuel = .ok where?

/-- Lists that one storage can report: one key column has one list. -/
def Reportable (pkg : QueryPackage) (keys : Str × Str) (left right : List ChunkMeta) : Prop :=
  (pkg.tableName, keys.1) = (pkg.joinedTableName, keys.2) → left = right

section FirstPartition

variable {P : Proto1} {storage : EncryptedStorage (Except Exn) P.EncryptedVector} {cat : Catalog}
  {pkg : QueryPackage} {where? : Option (Expression P.EncryptedVector)} {name : Str}

theorem ownPosition_eq {own : ChunkMeta} (first : own.partitionId = 0) (table : Str)
    (cs : ColumnSchema) : ownPosition storage (table, own) cs name =
      storedPosition P storage table cs own.chunkId name := by
  cases own with
  | mk =>
    cases first
    rfl

/-- In partition 0 the executor reads a projected name where it is stored. -/
theorem ownColumn_eq {pair : ChunkMeta × ChunkMeta}
    (first : pair.1.partitionId = 0 ∧ pair.2.partitionId = 0) :
    ownColumn storage cat pkg pair name =
      joinColumn P storage cat pkg pair.1.chunkId pair.2.chunkId name := by
  by_cases own : qualifierOr pkg.tableAlias name = pkg.tableAlias
  · simp only [ownColumn, joinColumn, ownSource, joinSource, if_pos own, ofExcept_eq,
      ownPosition_eq first.1]
    rfl
  · simp only [ownColumn, joinColumn, ownSource, joinSource, if_neg own, ofExcept_eq,
      ownPosition_eq first.2]
    rfl

theorem fromOwnChunks_of_readsPair {pair : ChunkMeta × ChunkMeta}
    {left full : EncryptedBatch P.EncryptedVector} {rb : EncryptedResultBatch}
    (first : pair.1.partitionId = 0 ∧ pair.2.partitionId = 0)
    (read : ReadsPair storage cat pkg where? pair left full rb) :
    FromOwnChunks storage cat pkg where? pair rb := by
  obtain ⟨mask, maskOf, bytes⟩ := read.mask
  constructor
  · have hl := read.leftColumns
    have hf := read.rightColumns
    simp only [addTableColumns, ofExcept_eq] at hl hf
    obtain ⟨t, ht, hl⟩ := bind_ok_iff.mp hl
    obtain ⟨u, hu, hf⟩ := bind_ok_iff.mp hf
    refine ⟨t, u, left, full, mask, ht, hu, ?_, ?_, maskOf, bytes⟩
    · rw [first.1]
      exact hl
    · rw [first.2]
      exact hf
  · obtain ⟨columns, hcolumns, flat⟩ := read.columns
    refine ⟨columns, ?_, flat⟩
    rw [← hcolumns]
    congr 1
    funext name
    exact ownColumn_eq first

theorem carriesPairs_of_firstPartition (joins : pkg.hasJoin = true) {left right : List ChunkMeta}
    (first : FirstPartition left right) : CarriesPairs cat pkg left right := by
  intro P storage fuel keys results hkeys hleft hright h
  simp only [execute, joins, if_true] at h
  obtain ⟨keys', left', right', where?, hkeys', hleft', hright', hwhere, all⟩ := executeJoin_ok h
  obtain rfl := Except.ok.inj (hkeys.symm.trans hkeys')
  obtain rfl := Except.ok.inj (hleft.symm.trans hleft')
  obtain rfl := Except.ok.inj (hright.symm.trans hright')
  refine ⟨where?, hwhere, ?_⟩
  have listed : List.Forall₂
      (fun pair rb => PairBatch storage cat pkg where? keys.1 keys.2 pair rb ∧ pair ∈ left ×ˢ right)
      (left ×ˢ right) results := by
    refine (forall₂_and_mem all.flip fun pair mem => mem).flip.imp fun pair rb h => h
  refine listed.imp fun pair rb ⟨batch, mem⟩ => ?_
  obtain ⟨lm, rm⟩ := pair
  obtain ⟨ml, mr⟩ := List.mem_product.mp mem
  obtain ⟨l, f, read⟩ := readsPair_of_pairBatch batch
  exact fromOwnChunks_of_readsPair (first lm ml rm mr) read

end FirstPartition

section OtherPartitions

/-- An expression reads a marked column. -/
def readsMark (e : Expression Bool) (batch : EncryptedBatch Bool) : Bool :=
  e.columns.any fun name => (batch.first? name).getD false

/-- A context whose ciphertexts only tell whether they come from a partition other
than 0; operations pass the mark on. -/
def markedContext : Proto1 where
  EncryptedVector := Bool
  Rng := Unit
  slotCount := 1
  serialize marked := [if marked then 1 else 0]
  logicalSize _ := 1
  deserializeWithSize _ _ := .ok false
  encrypt _ _ := .error []
  decrypt _ _ := .error []
  evalMult a b := .ok (a || b)
  evaluate e batch := .ok (readsMark e batch)
  filterExec _ _ := .error []
  projectExec _ _ := .error []
  stringPhysicalColumn name _ := name

/-- A storage with one row in every chunk, marked outside partition 0. -/
def markedStorage (pkg : QueryPackage) (keys : Str × Str) (left right : List ChunkMeta) :
    EncryptedStorage (Except Exn) markedContext.EncryptedVector where
  listChunks table key :=
    if (table, key) = (pkg.tableName, keys.1) then .ok left else .ok right
  getChunk _ _ partition chunkId :=
    .ok { chunkMeta := ⟨partition, chunkId, 1⟩, ciphertexts := [decide (partition ≠ 0)] }
  tableScan _ _ := .ok []

variable {cat : Catalog} {pkg : QueryPackage} {keys : Str × Str} {left right : List ChunkMeta}

theorem readsMark_eq_false {e : Expression Bool} {batch : EncryptedBatch Bool}
    (unmarked : ∀ name, (batch.first? name).getD false = false) : readsMark e batch = false := by
  rw [readsMark, List.any_eq_false]
  intro name _
  simp [unmarked name]

theorem readsMark_eq_true {e : Expression Bool} {batch : EncryptedBatch Bool} {name : Str}
    (mem : name ∈ e.columns) (marked : batch.first? name = some true) :
    readsMark e batch = true := by
  rw [readsMark, List.any_eq_true]
  exact ⟨name, mem, by rw [marked]; rfl⟩

theorem added_first? {table aliasName : Str} {partition chunkId : Nat} {physicals : List Str}
    {batch batch' : EncryptedBatch markedContext.EncryptedVector}
    (added : Added (markedStorage pkg keys left right) table aliasName partition chunkId physicals
      batch batch') {physical : Str} (mem : physical ∈ physicals) :
    batch'.first? (qualified aliasName physical) = some (decide (partition ≠ 0)) := by
  obtain ⟨chunk, hchunk, found⟩ := added.columns physical mem
  cases hchunk
  simp only [EncryptedBatch.first?, found]
  rfl

/-- Columns of partition 0 carry no mark. -/
theorem added_unmarked {table aliasName : Str} {chunkId : Nat} {physicals : List Str}
    {batch batch' : EncryptedBatch markedContext.EncryptedVector}
    (added : Added (markedStorage pkg keys left right) table aliasName 0 chunkId physicals
      batch batch') (unmarked : ∀ name, (batch.first? name).getD false = false) (name : Str) :
    (batch'.first? name).getD false = false := by
  by_cases own : ∃ physical ∈ physicals, name = qualified aliasName physical
  · obtain ⟨physical, mem, rfl⟩ := own
    rw [added_first? added mem]
    rfl
  · have same : batch'.first? name = batch.first? name := by
      simp only [EncryptedBatch.first?]
      rw [added.others name fun physical mem same => own ⟨physical, mem, same⟩]
    rw [same]
    exact unmarked name

theorem mem_tablePhysicals {P : Proto1} {t : TableSchema} {c : ColumnSchema} {name : Str}
    (column : t.column name = .ok c) (scalar : c.type ≠ .STRING) : name ∈ tablePhysicals P t := by
  obtain ⟨mem, rfl⟩ := TableSchema.column_ok column
  refine List.mem_flatMap.mpr ⟨c, mem, ?_⟩
  rw [physicalColumns, if_neg scalar]
  exact List.mem_singleton_self _

/-- The executor's mask of a pair is unmarked, as it reads partition 0 only. -/
theorem executed_unmarked {where? : Option (Expression markedContext.EncryptedVector)}
    {pair : ChunkMeta × ChunkMeta} {l f : EncryptedBatch markedContext.EncryptedVector}
    {rb : EncryptedResultBatch}
    (read : ReadsPair (markedStorage pkg keys left right) cat pkg where? pair l f rb) :
    rb.selectionMaskBytes = [0] := by
  obtain ⟨t, _, addedLeft⟩ := addTableColumns_ok read.leftColumns
  obtain ⟨u, _, addedRight⟩ := addTableColumns_ok read.rightColumns
  have leftUnmarked := added_unmarked addedLeft fun _ => rfl
  have fullUnmarked := added_unmarked addedRight leftUnmarked
  obtain ⟨mask, ⟨joinMask, hjoin, shape⟩, bytes⟩ := read.mask
  have hjoinMask : joinMask = false :=
    (Except.ok.inj hjoin).symm.trans (readsMark_eq_false fullUnmarked)
  suffices hmask : mask = false by rw [bytes, hmask]; rfl
  cases where? with
  | none => exact shape.trans hjoinMask
  | some e =>
    obtain ⟨whereMask, hwhere, product⟩ := shape
    have hwhereMask : whereMask = false := by
      by_cases uses : whereUsesJoinedTable pkg = true
      · rw [if_pos uses] at hwhere
        exact (Except.ok.inj hwhere).symm.trans (readsMark_eq_false fullUnmarked)
      · rw [if_neg uses] at hwhere
        exact (Except.ok.inj hwhere).symm.trans (readsMark_eq_false leftUnmarked)
    rw [← Except.ok.inj product, hjoinMask, hwhereMask]
    rfl

/-- The mask of the own chunks of a pair is marked when one of them is outside
partition 0. -/
theorem own_marked {where? : Option (Expression markedContext.EncryptedVector)}
    {pair : ChunkMeta × ChunkMeta} {rb : EncryptedResultBatch}
    (ordinary : OrdinaryJoin cat pkg keys)
    (own : FromOwnChunks (markedStorage pkg keys left right) cat pkg where? pair rb)
    (outside : ¬ (pair.1.partitionId = 0 ∧ pair.2.partitionId = 0)) :
    rb.selectionMaskBytes = [1] := by
  obtain ⟨t, u, l, f, mask, ht, hu, hl, hf, ⟨joinMask, hjoin, shape⟩, bytes⟩ := own.mask
  obtain ⟨t', c, ht', hc, scalar⟩ := ordinary.leftTable
  obtain rfl := Except.ok.inj (ht.symm.trans ht')
  obtain ⟨u', d, hu', hd, scalar'⟩ := ordinary.rightTable
  obtain rfl := Except.ok.inj (hu.symm.trans hu')
  have addedLeft := addColumnsIn_ok hl
  have addedRight := addColumnsIn_ok hf
  have leftFirst : f.first? pkg.joinLeftColumn = some (decide (pair.1.partitionId ≠ 0)) := by
    rw [ordinary.left, ← added_first? addedLeft (mem_tablePhysicals hc scalar)]
    simp only [EncryptedBatch.first?]
    rw [addedRight.others]
    intro physical _ same
    exact ordinary.distinct (qualified_inj ordinary.plainLeft ordinary.plainRight same).1
  have rightFirst : f.first? pkg.joinRightColumn = some (decide (pair.2.partitionId ≠ 0)) := by
    rw [ordinary.right]
    exact added_first? addedRight (mem_tablePhysicals hd scalar')
  have hjoinMask : joinMask = true := by
    apply (Except.ok.inj hjoin).symm.trans
    by_cases first : pair.1.partitionId = 0
    · have second : pair.2.partitionId ≠ 0 := fun h => outside ⟨first, h⟩
      rw [decide_eq_true second] at rightFirst
      exact readsMark_eq_true (List.mem_append_right _ (List.mem_singleton_self _)) rightFirst
    · rw [decide_eq_true first] at leftFirst
      exact readsMark_eq_true (List.mem_append_left _ (List.mem_singleton_self _)) leftFirst
  suffices hmask : mask = true by rw [bytes, hmask]; rfl
  cases where? with
  | none => exact shape.trans hjoinMask
  | some e =>
    obtain ⟨whereMask, _, product⟩ := shape
    rw [← Except.ok.inj product, hjoinMask]
    rfl

theorem joinKeys_of_ordinary (ordinary : OrdinaryJoin cat pkg keys) : joinKeys pkg = .ok keys := by
  have starts : ∀ a b : Str, (a ++ [dot]).isPrefixOf (qualified a b) = true := by
    intro a b
    rw [List.isPrefixOf_iff_prefix, qualified]
    exact ⟨b, by simp⟩
  have rest : ∀ a b : Str, (qualified a b).drop (a.length + 1) = b := by
    intro a b
    simp [qualified]
  simp only [joinKeys, ordinary.left, ordinary.right, starts, rest, Bool.not_true,
    Bool.false_eq_true, or_self, if_false, pure_eq_ok]

theorem marked_lists (reportable : Reportable pkg keys left right) :
    (markedStorage pkg keys left right).listChunks pkg.joinedTableName keys.2 = .ok right := by
  by_cases same : (pkg.joinedTableName, keys.2) = (pkg.tableName, keys.1)
  · simp only [markedStorage, if_pos same, reportable same.symm]
  · simp only [markedStorage, if_neg same]

/-- An ordinary join completes over the marked storage. -/
theorem marked_completes (ordinary : OrdinaryJoin cat pkg keys)
    (reportable : Reportable pkg keys left right) :
    ∃ fuel results, execute markedContext (markedStorage pkg keys left right) cat fuel pkg =
      .ok results := by
  obtain ⟨fuel, where?, hwhere⟩ := ordinary.builds markedContext fun _ _ => ⟨false, rfl⟩
  obtain ⟨t, _, ht, _⟩ := ordinary.leftTable
  obtain ⟨u, _, hu, _⟩ := ordinary.rightTable
  have serves : Serves markedContext (markedStorage pkg keys left right) :=
    fun _ _ _ _ => ⟨_, rfl, nofun⟩
  have hleft : (markedStorage pkg keys left right).listChunks pkg.tableName keys.1 = .ok left := by
    simp only [markedStorage, if_true]
  refine ⟨fuel, ?_⟩
  simp only [execute, ordinary.joins, if_true]
  refine executeJoin_total
    (fun _ _ _ _ => ⟨_, rfl, rfl⟩) (fun _ _ => ⟨_, rfl⟩) (fun _ _ => ⟨_, rfl⟩)
    (joinKeys_of_ordinary ordinary) hleft (marked_lists reportable) hwhere ⟨t, ht⟩ ⟨u, hu⟩
    fun leftChunk rightChunk => mapM_isOk_iff.mpr fun name mem => ?_
  rw [joinColumn_eq_readStored markedContext _ ordinary.joins]
  exact readStored_ok markedContext serves (ordinary.projected name mem) _

/-- An ordinary join that carries its pairs has them in partition 0. -/
theorem firstPartition_of_carriesPairs (ordinary : OrdinaryJoin cat pkg keys)
    (reportable : Reportable pkg keys left right) (carries : CarriesPairs cat pkg left right) :
    FirstPartition left right := by
  intro lm ml rm mr
  have hkeys := joinKeys_of_ordinary ordinary
  obtain ⟨fuel, results, h⟩ := marked_completes ordinary reportable
  have hleft : (markedStorage pkg keys left right).listChunks pkg.tableName keys.1 = .ok left := by
    simp only [markedStorage, if_true]
  obtain ⟨where?, hwhere, own⟩ :=
    carries markedContext (markedStorage pkg keys left right) fuel keys
    results hkeys hleft (marked_lists reportable) h
  simp only [execute, ordinary.joins, if_true] at h
  obtain ⟨keys', left', right', where', hkeys', hleft', hright', hwhere', all⟩ := executeJoin_ok h
  obtain rfl := Except.ok.inj (hkeys.symm.trans hkeys')
  obtain rfl := Except.ok.inj (hleft.symm.trans hleft')
  obtain rfl := Except.ok.inj ((marked_lists reportable).symm.trans hright')
  obtain ⟨rb, batch, fromOwn⟩ := forall₂_meet all own (List.mem_product.mpr ⟨ml, mr⟩)
  obtain ⟨l, f, read⟩ := readsPair_of_pairBatch batch
  by_contra outside
  have executed := executed_unmarked read
  rw [own_marked ordinary fromOwn outside] at executed
  revert executed
  decide

end OtherPartitions

section Scan

variable (P : Proto1)

/-- The stored values of a chunk: the slots of all its ciphertexts. -/
def storedCells (chunk : EncryptedColumnChunk P.EncryptedVector) : List (List UInt8 × Nat) :=
  chunk.ciphertexts.flatMap fun ct =>
    (List.range (P.logicalSize ct)).map fun slot => (P.serialize ct, slot)

/-- The values a result column carries. -/
def shippedCells (cr : EncryptedColumnResult) : List (List UInt8 × Nat) :=
  (List.range cr.logicalSize).map fun slot => (cr.ciphertextBytes, slot)

/-- A result batch that carries every value of the physical columns of a scanned
batch, once. -/
def CarriesRows (physicals : List Str) (batch : EncryptedBatch P.EncryptedVector)
    (rb : EncryptedResultBatch) : Prop :=
  rb.logicalRowCount = batch.logicalRowCount ∧
    List.Forall₂ (fun physical cr => ∃ chunk, batch.columns.lookup physical = some chunk ∧
      shippedCells cr = storedCells P chunk) physicals rb.columns

/-- All rows of a chunk are in its first ciphertext. -/
def SingleCiphertexts (physicals : List Str) (batch : EncryptedBatch P.EncryptedVector) : Prop :=
  ∀ physical ∈ physicals, ∀ chunk, batch.columns.lookup physical = some chunk →
    ∀ ct ∈ chunk.ciphertexts.tail, P.logicalSize ct = 0

section Run

variable (storage : EncryptedStorage (Except Exn) P.EncryptedVector) (cat : Catalog)
  (pkg : QueryPackage)

/-- What a scan for the package yields, and the physical columns it projects. -/
def Scans (physicals : List Str) (batches : List (EncryptedBatch P.EncryptedVector)) : Prop :=
  physicalColumnList P cat pkg pkg.projectColumns = .ok physicals ∧
    ∃ scanned, physicalColumnList P cat pkg pkg.scanColumns = .ok scanned ∧
      storage.tableScan pkg.tableName scanned = .ok batches

/-- The results carry all rows of all scanned batches, in order. -/
def CarriesScan (results : List EncryptedResultBatch) : Prop :=
  ∀ physicals batches, Scans P storage cat pkg physicals batches →
    List.Forall₂ (CarriesRows P physicals) batches results

/-- Every scanned chunk has its rows in one ciphertext. -/
def SinglyStored : Prop :=
  ∀ physicals batches, Scans P storage cat pkg physicals batches →
    ∀ batch ∈ batches, SingleCiphertexts P physicals batch

end Run

variable {P} {storage : EncryptedStorage (Except Exn) P.EncryptedVector} {cat : Catalog}
  {pkg : QueryPackage}

/-- A result column made from the first ciphertext under a physical name. -/
def ShipsFirst (batch : EncryptedBatch P.EncryptedVector) (physical : Str)
    (cr : EncryptedColumnResult) : Prop :=
  ∃ chunk ct rest, batch.columns.lookup physical = some chunk ∧ chunk.ciphertexts = ct :: rest ∧
    cr.ciphertextBytes = P.serialize ct ∧ cr.logicalSize = P.logicalSize ct

theorem shipsFirst_cells {batch : EncryptedBatch P.EncryptedVector} {physical : Str}
    {cr : EncryptedColumnResult} (h : ShipsFirst batch physical cr) :
    (∃ chunk, batch.columns.lookup physical = some chunk ∧
        shippedCells cr = storedCells P chunk) ↔
      ∀ chunk, batch.columns.lookup physical = some chunk →
        ∀ ct ∈ chunk.ciphertexts.tail, P.logicalSize ct = 0 := by
  obtain ⟨chunk, ct, rest, found, shape, bytes, size⟩ := h
  have cells : shippedCells cr = storedCells P chunk ↔ ∀ ct ∈ rest, P.logicalSize ct = 0 := by
    simp only [shippedCells, storedCells, shape, bytes, size, List.flatMap_cons]
    rw [eq_comm, List.append_right_eq_self, List.flatMap_eq_nil_iff]
    simp
  simp only [found, Option.some.injEq, exists_eq_left', forall_eq', cells, shape, List.tail_cons]

/-- What a scanned name is read into: one result column for each physical one. -/
theorem scanColumn_shipsFirst {batch : EncryptedBatch P.EncryptedVector} {name : Str}
    {columns : List EncryptedColumnResult} (h : scanColumn P cat pkg batch name = .ok columns)
    {part : List Str}
    (hpart : (do
      let t ← cat.getTable pkg.tableName
      let schema ← t.column name
      pure (physicalColumns P schema name) : Except Exn (List Str)) = .ok part) :
    List.Forall₂ (ShipsFirst batch) part columns := by
  obtain ⟨t, ht, h⟩ := bind_ok_iff.mp h
  obtain ⟨schema, hschema, h⟩ := bind_ok_iff.mp h
  simp only [ht, hschema, ok_bind, pure_eq_ok, Except.ok.injEq] at hpart
  subst hpart
  refine (forall₂_of_zipIdx (mapM_ok_iff.mp h)).imp fun physical cr step => ?_
  obtain ⟨position, step⟩ := step
  cases found : batch.columns.lookup physical with
  | none =>
    simp only [found] at step
    cases step
  | some chunk =>
    simp only [found] at step
    cases shape : chunk.ciphertexts with
    | nil =>
      simp only [shape] at step
      cases step
    | cons ct rest =>
      simp only [shape] at step
      cases step
      exact ⟨chunk, ct, rest, found, shape, rfl, rfl⟩

theorem physicalColumnList_parts {columns physicals : List Str}
    (h : physicalColumnList P cat pkg columns = .ok physicals) :
    ∃ parts, physicals = parts.flatten ∧ List.Forall₂ (fun name part =>
      (do
        let t ← cat.getTable pkg.tableName
        let schema ← t.column name
        pure (physicalColumns P schema name) : Except Exn (List Str)) = .ok part)
        columns parts := by
  obtain ⟨parts, hparts, h⟩ := bind_ok_iff.mp h
  cases h
  exact ⟨parts, rfl, mapM_ok_iff.mp hparts⟩

/-- A serialized batch ships the first ciphertext of every projected chunk. -/
theorem serializeBatch_shipsFirst {batch : EncryptedBatch P.EncryptedVector} {batchId : UInt32}
    {rb : EncryptedResultBatch} (h : serializeBatch P cat pkg batchId batch = .ok rb)
    {physicals : List Str}
    (hphysicals : physicalColumnList P cat pkg pkg.projectColumns = .ok physicals) :
    rb.logicalRowCount = batch.logicalRowCount ∧
      List.Forall₂ (ShipsFirst batch) physicals rb.columns := by
  obtain ⟨columns, hcolumns, h⟩ := bind_ok_iff.mp h
  cases h
  obtain ⟨parts, rfl, hparts⟩ := physicalColumnList_parts hphysicals
  have pieces :=
    forall₂_span (T := List.Forall₂ (ShipsFirst batch)) hparts (mapM_ok_iff.mp hcolumns)
    fun name part columns hpart h => scanColumn_shipsFirst h hpart
  exact ⟨rfl, List.rel_flatten pieces⟩

/-- What FilterExec and ProjectExec leave ciphertexts in is as it was scanned. -/
theorem filterProject_keeps (keeps : KeepsColumns P) {e? : Option (Expression P.EncryptedVector)}
    {physicals : List Str} {batch batch' : EncryptedBatch P.EncryptedVector}
    (h : filterProject P e? physicals batch = .ok batch') :
    batch'.logicalRowCount = batch.logicalRowCount ∧
      ∀ name ∈ physicals, ∀ chunk, batch'.columns.lookup name = some chunk →
        chunk.ciphertexts ≠ [] → batch.columns.lookup name = some chunk := by
  rw [filterProject_eq] at h
  obtain ⟨filtered, hfilter, hproject⟩ := bind_ok_iff.mp h
  obtain ⟨count, same⟩ := filterBatch_keeps keeps hfilter
  obtain ⟨_, count', _, lookups⟩ := keeps.project.of_ok (fromProto1_ok_iff.mp hproject)
  refine ⟨count'.trans count, fun name mem chunk found full => ?_⟩
  rw [lookups name mem, same] at found
  split at found
  · exact found
  · obtain ⟨_, _, rfl⟩ := Option.map_eq_some_iff.mp found
    exact (full rfl).elim

/-- A completed scan ships, for each batch, the first ciphertext of every
projected chunk. -/
theorem executeScan_shipsFirst (keeps : KeepsColumns P) {fuel : Nat}
    {results : List EncryptedResultBatch}
    (h : executeScan P storage cat fuel pkg = .ok results) :
    ∃ physicals batches, Scans P storage cat pkg physicals batches ∧
      List.Forall₂ (fun batch rb => rb.logicalRowCount = batch.logicalRowCount ∧
        List.Forall₂ (ShipsFirst batch) physicals rb.columns) batches results := by
  simp only [executeScan, ofExcept_eq, bind_ok_iff] at h
  obtain ⟨scanned, hscanned, e?, _, physicals, hphysicals, batches, hbatches, h⟩ := h
  refine ⟨physicals, batches, ⟨hphysicals, scanned, hscanned, hbatches⟩, ?_⟩
  refine (forall₂_of_zipIdx (mapM_ok_iff.mp h)).imp fun batch rb step => ?_
  obtain ⟨i, step⟩ := step
  obtain ⟨batch', hbatch', step⟩ := bind_ok_iff.mp step
  obtain ⟨count, same⟩ := filterProject_keeps keeps hbatch'
  obtain ⟨count', ships⟩ := serializeBatch_shipsFirst step hphysicals
  refine ⟨count'.trans count, ?_⟩
  have listed := (forall₂_and_mem ships.flip fun physical mem => mem).flip
  refine listed.imp fun physical cr ⟨shipped, mem⟩ => ?_
  obtain ⟨chunk, ct, rest, found, shape⟩ := shipped
  have full : chunk.ciphertexts ≠ [] := shape.1 ▸ List.cons_ne_nil ct rest
  exact ⟨chunk, ct, rest, same physical mem chunk found full, shape⟩

/-- A completed scan carries all rows exactly when they are in first ciphertexts. -/
theorem carriesScan_iff (keeps : KeepsColumns P) {fuel : Nat} {results : List EncryptedResultBatch}
    (h : executeScan P storage cat fuel pkg = .ok results) :
    CarriesScan P storage cat pkg results ↔ SinglyStored P storage cat pkg := by
  obtain ⟨physicals, batches, scans, ships⟩ := executeScan_shipsFirst keeps h
  have unique : ∀ physicals' batches', Scans P storage cat pkg physicals' batches' →
      physicals' = physicals ∧ batches' = batches := by
    rintro physicals' batches' ⟨hp', scanned', hs', hb'⟩
    obtain ⟨hp, scanned, hs, hb⟩ := scans
    obtain rfl := Except.ok.inj (hs'.symm.trans hs)
    exact ⟨Except.ok.inj (hp'.symm.trans hp), Except.ok.inj (hb'.symm.trans hb)⟩
  have each : List.Forall₂ (CarriesRows P physicals) batches results ↔
      ∀ batch ∈ batches, SingleCiphertexts P physicals batch := by
    apply forall₂_iff_forall_mem ships
    rintro batch rb ⟨count, shipped⟩
    rw [CarriesRows, eq_true count, true_and, SingleCiphertexts]
    exact forall₂_iff_forall_mem shipped fun physical cr first => shipsFirst_cells first
  constructor
  · intro carries physicals' batches' scans'
    obtain ⟨rfl, rfl⟩ := unique physicals' batches' scans'
    exact each.mp (carries _ _ scans')
  · intro single physicals' batches' scans'
    obtain ⟨rfl, rfl⟩ := unique physicals' batches' scans'
    exact each.mpr (single _ _ scans')

end Scan

/-- When the result batches carry the stored rows: a join when its chunks are
listed in partition 0, a scan when each chunk has its rows in one ciphertext. -/
theorem rows_carried_iff (cat : Catalog) (pkg : QueryPackage) :
    (pkg.hasJoin = true → ∀ left right,
      (FirstPartition left right → CarriesPairs cat pkg left right) ∧
      ∀ keys, OrdinaryJoin cat pkg keys → Reportable pkg keys left right →
        (CarriesPairs cat pkg left right ↔ FirstPartition left right)) ∧
    (pkg.hasJoin = false → ∀ (P : Proto1)
      (storage : EncryptedStorage (Except Exn) P.EncryptedVector) (fuel : Nat)
      (results : List EncryptedResultBatch), KeepsColumns P →
      execute P storage cat fuel pkg = .ok results →
      (CarriesScan P storage cat pkg results ↔ SinglyStored P storage cat pkg)) := by
  constructor
  · intro joins left right
    have carries : FirstPartition left right → CarriesPairs cat pkg left right :=
      carriesPairs_of_firstPartition joins
    exact ⟨carries, fun keys ordinary reportable =>
      ⟨firstPartition_of_carriesPairs ordinary reportable, carries⟩⟩
  · intro scans P storage fuel results keeps h
    simp only [execute, scans, Bool.false_eq_true, if_false] at h
    exact carriesScan_iff keeps h

theorem departments_ordinary :
    OrdinaryJoin makeEmployeesCatalog (departmentsPackage (str "e.id"))
      (str "department_id", str "id") where
  joins := rfl
  plainLeft := by decide
  plainRight := by decide
  distinct := by decide
  left := by decide
  right := by decide
  leftTable := ⟨_, _, rfl, rfl, by decide⟩
  rightTable := ⟨_, _, rfl, rfl, by decide⟩
  projected name mem := by
    obtain rfl := List.mem_singleton.mp mem
    exact ⟨_, _, rfl, rfl⟩
  builds _ _ := ⟨0, none, rfl⟩

/-- A scan that yields one chunk of ages, in some ciphertexts. -/
def agesStorage (ciphertexts : List PlainProto1.PlainVector) :
    EncryptedStorage (Except Exn) PlainProto1.PlainVector where
  listChunks _ _ := .ok []
  getChunk _ _ _ _ := .error .outOfBounds
  tableScan _ names :=
    if names = [] then .error (.external (str "TableScanExec: no required columns"))
    else .ok [{
      columns := (∅ : StringMap (EncryptedColumnChunk PlainProto1.PlainVector)).insert (str "age")
        { chunkMeta := ⟨0, 0, 2⟩, ciphertexts := ciphertexts }
      logicalRowCount := 2 }]

/-- One employee in partition 0 and one department in another one; two ages in one ciphertext. -/
theorem departments_carried_from_first_partition :
    CarriesPairs makeEmployeesCatalog (departmentsPackage (str "e.id")) [⟨0, 3, 1⟩] [⟨0, 7, 1⟩] ∧
      ¬ CarriesPairs makeEmployeesCatalog (departmentsPackage (str "e.id"))
        [⟨0, 3, 1⟩] [⟨1, 7, 1⟩] ∧
      ∃ results, execute (plainProto1 2) (agesStorage [⟨[30, 40], 2⟩]) makeEmployeesCatalog 0
          (employeesPackage (str "age")) = .ok results ∧
        CarriesScan (plainProto1 2) (agesStorage [⟨[30, 40], 2⟩]) makeEmployeesCatalog
          (employeesPackage (str "age")) results := by
  have rows := rows_carried_iff makeEmployeesCatalog (departmentsPackage (str "e.id"))
  refine ⟨(rows.1 rfl _ _).1 ?_, fun carries => ?_, ?_⟩
  · intro lm ml rm mr
    obtain rfl := List.mem_singleton.mp ml
    obtain rfl := List.mem_singleton.mp mr
    exact ⟨rfl, rfl⟩
  · have reportable : Reportable (departmentsPackage (str "e.id")) (str "department_id", str "id")
        [⟨0, 3, 1⟩] [⟨1, 7, 1⟩] := fun same => absurd same (by decide)
    have first := ((rows.1 rfl _ _).2 _ departments_ordinary reportable).mp carries
    exact absurd (first _ (List.mem_singleton_self _) _ (List.mem_singleton_self _)).2 (by decide)
  · obtain ⟨results, completes⟩ : ∃ results, execute (plainProto1 2)
        (agesStorage [⟨[30, 40], 2⟩]) makeEmployeesCatalog 0 (employeesPackage (str "age")) =
          .ok results := ⟨_, rfl⟩
    have scan := (rows_carried_iff makeEmployeesCatalog (employeesPackage (str "age"))).2 rfl
    refine ⟨results, completes, (scan _ _ 0 results (plain_keepsColumns 2) completes).mpr ?_⟩
    rintro physicals batches ⟨own, scanned, list, yields⟩ batch mem
    cases own
    cases list
    cases yields
    obtain rfl := List.mem_singleton.mp mem
    intro physical listed chunk found
    obtain rfl := List.mem_singleton.mp listed
    cases found
    exact fun ct rest => by cases rest

/-- A join loses the rows of other partitions, a scan those of further ciphertexts. -/
theorem stored_rows_can_be_lost :
    (¬ ∀ (cat : Catalog) (pkg : QueryPackage) (left right : List ChunkMeta),
      pkg.hasJoin = true → CarriesPairs cat pkg left right) ∧
    ¬ ∀ (P : Proto1) (storage : EncryptedStorage (Except Exn) P.EncryptedVector) (cat : Catalog)
      (pkg : QueryPackage) (fuel : Nat) (results : List EncryptedResultBatch), KeepsColumns P →
      pkg.hasJoin = false → execute P storage cat fuel pkg = .ok results →
      CarriesScan P storage cat pkg results := by
  constructor
  · intro all
    have carries := all makeEmployeesCatalog (departmentsPackage (str "e.id")) [⟨0, 3, 1⟩]
      [⟨1, 7, 1⟩] rfl
    have first := firstPartition_of_carriesPairs departments_ordinary
      (fun same => absurd same (by decide)) carries
    exact absurd (first _ (List.mem_singleton_self _) _ (List.mem_singleton_self _)).2 (by decide)
  · intro all
    have completes : ∃ results, execute (plainProto1 1) (agesStorage [⟨[30], 1⟩, ⟨[40], 1⟩])
        makeEmployeesCatalog 0 (employeesPackage (str "age")) = .ok results := ⟨_, rfl⟩
    obtain ⟨results, h⟩ := completes
    have carries := all (plainProto1 1) (agesStorage [⟨[30], 1⟩, ⟨[40], 1⟩]) makeEmployeesCatalog
      (employeesPackage (str "age")) 0 results (plain_keepsColumns 1) rfl h
    have single := (carriesScan_iff (plain_keepsColumns 1) h).mp carries [str "age"] _
      ⟨rfl, [str "age"], rfl, rfl⟩ _ (List.mem_singleton_self _) (str "age")
      (List.mem_singleton_self _) _ rfl ⟨[40], 1⟩ (List.mem_singleton_self _)
    exact absurd single (by decide)

end FheSql.ChunkOrigin
