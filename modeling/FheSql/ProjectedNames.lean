import FheSql.ColumnResolution
import FheSql.JoinLoop
import FheSql.ValidatedPredicates

/-!
# The ciphertexts of projected names

`validate` checks each projected name against a column, `execute` returns ciphertexts
for it. Whether they are those of the checked column shows in the runs of a package,
beside the runs of the same package without projected names.
-/

namespace FheSql.ProjectedNames

open ByteText Throwing QueryExecutor PredicateTree ValidatedPackage ValidatedPredicates JoinLoop
  ColumnResolution

section Statements

variable (P : Proto1) (storage : EncryptedStorage (Except Exn) P.EncryptedVector) (cat : Catalog)
  (pkg : QueryPackage)

/-- Every scan yields the requested columns; a scan of none throws. -/
structure ServesScans : Prop where
  requested : ∀ table names, names ≠ [] → ∃ batches, storage.tableScan table names = .ok batches ∧
    ∀ batch ∈ batches, ∀ physical, HasCiphertext P batch physical ↔ physical ∈ names
  nothing : ∀ table, ∃ e, storage.tableScan table [] = .error e

/-- The ciphertexts of a column under a name, as the storage has them. -/
def ReadFrom (source : Str × Str) (name : Str) (columns : List EncryptedColumnResult) : Prop :=
  if pkg.hasJoin then ∃ chunkId, readStored P storage cat source chunkId name = .ok columns
  else ∃ physicals batches batch, storage.tableScan source.1 physicals = .ok batches ∧
    batch ∈ batches ∧ readBatch P cat source batch name = .ok columns

/-- A result holds, under a name, the ciphertexts of a source. -/
def ReturnsFrom (source : Str × Str) (name : Str) (rb : EncryptedResultBatch) : Prop :=
  ∃ columns, ReadFrom P storage cat pkg source name columns ∧
    ∀ cr, (cr ∈ rb.columns ∧ cr.columnName = name) ↔ cr ∈ columns

/-- The package without projected names. -/
def unprojected : QueryPackage := { pkg with projectColumns := [] }

/-- What goes through without the projected names goes through with them, and returns
for each of them the ciphertexts of the column that `validate` checks it against. This
is asked of every proto1 that names physical columns as `P` does. -/
def ReadsChecked : Prop :=
  ∀ (Q : Proto1) (storage : EncryptedStorage (Except Exn) Q.EncryptedVector) (fuel : Nat),
    Q.stringPhysicalColumn = P.stringPhysicalColumn → KeepsColumns Q → Serves Q storage →
    ServesScans Q storage →
    (∃ unnamed, execute Q storage cat fuel (unprojected pkg) = .ok unnamed) →
    ∃ results, execute Q storage cat fuel pkg = .ok results ∧
      ∀ rb ∈ results, ∀ name ∈ pkg.projectColumns, ∃ source,
        ChecksAgainst pkg name source ∧ ReturnsFrom Q storage cat pkg source name rb

/-- A STRING column of width 0, for which there is no ciphertext. -/
def Vacant (source : Str × Str) : Prop :=
  ∃ t c, cat.getTable source.1 = .ok t ∧ t.column source.2 = .ok c ∧ c.type = .STRING ∧
    c.maxLength = 0

/-- Nothing but its projected names keeps the package from being executed. -/
def Executable : Prop :=
  KindsListed pkg ∧
    if pkg.hasJoin then
      (∃ keys, joinKeys pkg = .ok keys) ∧ ∃ t, cat.getTable pkg.joinedTableName = .ok t
    else ∃ name ∈ pkg.scanColumns, ¬ Vacant cat (pkg.tableName, name)

/-- In a join the qualifier is the alias of one of the tables but not of both, or the
tables are the same. In a scan there is no qualifier, and each physical column of the name
is scanned and belongs to one projected name. A name without ciphertexts is excepted. -/
def ResolvedAlike (name : Str) : Prop :=
  (if pkg.hasJoin then
    (qualifierOr pkg.tableAlias name = pkg.tableAlias ↔
        qualifierOr pkg.tableAlias name ≠ pkg.joinedTableAlias) ∨
      pkg.tableName = pkg.joinedTableName
  else dot ∉ name ∧ ∀ physical, holds P cat (pkg.tableName, name) physical = true →
    (∃ column ∈ pkg.scanColumns, holds P cat (pkg.tableName, column) physical = true) ∧
      pkg.projectColumns.countP
        (fun column => holds P cat (pkg.tableName, column) physical) = 1) ∨
  Vacant cat (executedSource pkg name) ∧ Vacant cat (checkedSource pkg name)

/-- The sources of a name are the same, or have no ciphertexts. -/
def SourcesAgree (name : Str) : Prop :=
  executedSource pkg name = checkedSource pkg name ∨
    Vacant cat (executedSource pkg name) ∧ Vacant cat (checkedSource pkg name)

/-- Results that return each projected name from the column it is checked against. -/
def ReturnChecked (results : List EncryptedResultBatch) : Prop :=
  ∀ rb ∈ results, ∀ name ∈ pkg.projectColumns,
    ReturnsFrom P storage cat pkg (checkedSource pkg name) name rb

/-- The physical names of a column and a position are of no others. -/
def DistinctNames : Prop :=
  ∀ name position name' position',
    P.stringPhysicalColumn name position = P.stringPhysicalColumn name' position' →
      name = name' ∧ position = position'

end Statements

variable {P : Proto1} {storage : EncryptedStorage (Except Exn) P.EncryptedVector} {cat : Catalog}
  {pkg : QueryPackage} {schema : TableSchema} {name : Str}

theorem physicalColumns_eq_nil {c : ColumnSchema} :
    physicalColumns P c name = [] ↔ c.type = .STRING ∧ c.maxLength = 0 := by
  unfold physicalColumns
  by_cases string : c.type = .STRING
  · rw [if_pos string, List.map_eq_nil_iff, List.range_eq_nil, and_iff_right string]
  · rw [if_neg string]
    simp [string]

/-- What is found for each name under that name can be told from the rest. -/
theorem mem_named {f : Str → Except Exn (List EncryptedColumnResult)} {names : List Str}
    {parts : List (List EncryptedColumnResult)}
    (named : ∀ name part, f name = .ok part → ∀ cr ∈ part, cr.columnName = name)
    (loop : names.mapM f = .ok parts) (mem : name ∈ names) :
    ∃ part, f name = .ok part ∧
      ∀ cr, (cr ∈ parts.flatten ∧ cr.columnName = name) ↔ cr ∈ part := by
  obtain ⟨part, found⟩ := mapM_isOk_iff.mp ⟨parts, loop⟩ name mem
  refine ⟨part, found, fun cr => ⟨?_, fun here => ⟨?_, named name part found cr here⟩⟩⟩
  · rintro ⟨inside, own⟩
    obtain ⟨other, listed, here⟩ := List.mem_flatten.mp inside
    obtain ⟨name', _, found'⟩ := mapM_ok_mem loop listed
    have same := named name' other found' cr here
    rw [← same.symm.trans own] at found
    cases found.symm.trans found'
    exact here
  · refine List.mem_flatten.mpr ⟨part, ?_, here⟩
    have all := mapM_ok_iff.mp loop
    clear loop here
    induction all with
    | nil => cases mem
    | @cons a _ _ _ step _ ih =>
      rcases List.mem_cons.mp mem with rfl | mem
      · cases found.symm.trans step
        exact List.mem_cons_self
      · exact List.mem_cons_of_mem _ (ih mem)

theorem columnName_of_readStored {source : Str × Str} {chunkId : Nat}
    {columns : List EncryptedColumnResult}
    (read : readStored P storage cat source chunkId name = .ok columns) :
    ∀ cr ∈ columns, cr.columnName = name := by
  simp only [readStored, ofExcept_eq] at read
  obtain ⟨t, _, read⟩ := bind_ok_iff.mp read
  obtain ⟨c, _, read⟩ := bind_ok_iff.mp read
  intro cr mem
  obtain ⟨x, _, step⟩ := mapM_ok_mem read mem
  obtain ⟨chunk, _, step⟩ := bind_ok_iff.mp step
  cases shape : chunk.ciphertexts with
  | nil =>
    rw [shape] at step
    cases step
  | cons ct cts =>
    rw [shape] at step
    cases step
    rfl

theorem batchPosition_ok {batch : EncryptedBatch P.EncryptedVector} {c : ColumnSchema}
    {x : Str × Nat} {cr : EncryptedColumnResult} (step : batchPosition P batch c name x = .ok cr) :
    ∃ chunk ct cts, batch.columns.lookup x.1 = some chunk ∧ chunk.ciphertexts = ct :: cts ∧
      cr = columnResult P name c x.2 ct := by
  unfold batchPosition at step
  split at step
  · cases step
  · rename_i chunk found
    split at step
    · cases step
    · rename_i ct cts shape
      cases step
      exact ⟨chunk, ct, cts, found, shape, rfl⟩

theorem columnName_of_readBatch {source : Str × Str} {batch : EncryptedBatch P.EncryptedVector}
    {columns : List EncryptedColumnResult}
    (read : readBatch P cat source batch name = .ok columns) :
    ∀ cr ∈ columns, cr.columnName = name := by
  obtain ⟨t, _, read⟩ := bind_ok_iff.mp read
  obtain ⟨c, _, read⟩ := bind_ok_iff.mp read
  intro cr mem
  obtain ⟨x, _, step⟩ := mapM_ok_mem read mem
  obtain ⟨_, _, _, _, _, rfl⟩ := batchPosition_ok step
  rfl

/-- Two batches with the same physical columns of a source give the same for it. -/
theorem readBatch_congr {source : Str × Str} {batch batch' : EncryptedBatch P.EncryptedVector}
    (same : ∀ t c, cat.getTable source.1 = .ok t → t.column source.2 = .ok c →
      ∀ physical ∈ physicalColumns P c source.2,
        batch.columns.lookup physical = batch'.columns.lookup physical) :
    readBatch P cat source batch name = readBatch P cat source batch' name := by
  unfold readBatch
  cases ht : cat.getTable source.1 with
  | error e => rfl
  | ok t =>
    cases hc : t.column source.2 with
    | error e => simp only [ok_bind, hc, error_bind]
    | ok c =>
      simp only [ok_bind, hc]
      refine mapM_congr fun x mem => ?_
      have inside : x.1 ∈ physicalColumns P c source.2 :=
        forall_zipIdx_fst.mpr (fun physical own => own) x mem
      simp only [batchPosition, same t c ht hc x.1 inside]

theorem nodup_physicalColumns (distinct : DistinctNames P) (c : ColumnSchema) (name : Str) :
    (physicalColumns P c name).Nodup := by
  unfold physicalColumns
  split
  · exact List.nodup_range.map fun i j same => (distinct name i name j same).2
  · exact List.nodup_singleton name

theorem readStored_vacant {source : Str × Str} (vacant : Vacant cat source) (chunkId : Nat) :
    readStored P storage cat source chunkId name = .ok [] := by
  obtain ⟨t, c, ht, hc, empty⟩ := vacant
  simp only [readStored, ofExcept_eq, ht, hc, ok_bind]
  rw [physicalColumns_eq_nil.mpr empty]
  rfl

theorem readBatch_vacant {source : Str × Str} (vacant : Vacant cat source)
    (batch : EncryptedBatch P.EncryptedVector) : readBatch P cat source batch name = .ok [] := by
  obtain ⟨t, c, ht, hc, empty⟩ := vacant
  simp only [readBatch, ht, hc, ok_bind]
  rw [physicalColumns_eq_nil.mpr empty]
  rfl

theorem Vacant.known {source : Str × Str} (vacant : Vacant cat source) : Known cat source := by
  obtain ⟨t, c, ht, hc, _⟩ := vacant
  exact ⟨t, c, ht, hc⟩

theorem buildWhere_of_unprojected {fuel : Nat} {where? : Option (Expression P.EncryptedVector)}
    (built : buildWhere P (unprojected pkg) fuel = .ok where?) :
    buildWhere P pkg fuel = .ok where? := by
  rw [← built]
  exact PredicateExpression.buildWhere_congr pkg (unprojected pkg) rfl rfl fuel

section Joins

variable {where? : Option (Expression P.EncryptedVector)} {leftKey rightKey : Str}
  {lm rm : ChunkMeta} {leftMask? : Option P.EncryptedVector} {batchId : UInt32}
  {rb : EncryptedResultBatch}

/-- A pair reads its projected columns last. -/
theorem joinPair_named {parts : List (List EncryptedColumnResult)}
    (columns : pkg.projectColumns.mapM (joinColumn P storage cat pkg lm.chunkId rm.chunkId) =
      .ok parts)
    (run : joinPair P storage cat (unprojected pkg) where? rightKey lm leftMask? batchId rm =
      .ok rb) :
    joinPair P storage cat pkg where? rightKey lm leftMask? batchId rm =
      .ok { rb with columns := parts.flatten } := by
  obtain ⟨key, hkey, run⟩ := bind_ok_iff.mp run
  by_cases single : key.chunkMeta.logicalRowCount = 1
  · simp only [single, ne_eq, not_true_eq_false, if_false, ofExcept_eq] at run
    obtain ⟨left, hleft, run⟩ := bind_ok_iff.mp run
    obtain ⟨pair, hpair, run⟩ := bind_ok_iff.mp run
    obtain ⟨mask, hmask, run⟩ := bind_ok_iff.mp run
    cases run
    simp only [unprojected] at hkey hleft hpair
    have computed : pairMask P pkg where? leftMask? pair = .ok mask := hmask
    simp only [joinPair, hkey, ok_bind, single, ne_eq, not_true_eq_false, if_false, hleft, hpair,
      ofExcept_eq, computed, columns, pure_eq_ok]
  · simp only [single, ne_eq, not_false_eq_true, if_true, throw_eq_error, error_bind] at run
    cases run

theorem joinPair_joins (run : joinPair P storage cat (unprojected pkg) where? rightKey lm leftMask?
    batchId rm = .ok rb) : ∃ t, cat.getTable pkg.joinedTableName = .ok t := by
  obtain ⟨key, _, run⟩ := bind_ok_iff.mp run
  by_cases single : key.chunkMeta.logicalRowCount = 1
  · simp only [single, ne_eq, not_true_eq_false, if_false, ofExcept_eq] at run
    obtain ⟨left, _, run⟩ := bind_ok_iff.mp run
    obtain ⟨pair, hpair, _⟩ := bind_ok_iff.mp run
    obtain ⟨t, ht, _⟩ := addTableColumns_ok hpair
    exact ⟨t, ht⟩
  · simp only [single, ne_eq, not_false_eq_true, if_true, throw_eq_error, error_bind] at run
    cases run

/-- Where a join reads its names as `validate` checks them, a pair has them. -/
theorem joinColumns_named (serves : Serves P storage) (joins : pkg.hasJoin = true)
    (known : ∀ name ∈ pkg.projectColumns, Known cat (checkedSource pkg name))
    (alike : ∀ name ∈ pkg.projectColumns, SourcesAgree cat pkg name)
    (leftChunk rightChunk : Nat) :
    ∃ parts, pkg.projectColumns.mapM (joinColumn P storage cat pkg leftChunk rightChunk) =
        .ok parts ∧
      ∀ rb : EncryptedResultBatch, rb.columns = parts.flatten → ∀ name ∈ pkg.projectColumns,
        ReturnsFrom P storage cat pkg (checkedSource pkg name) name rb := by
  have same : ∀ name ∈ pkg.projectColumns, joinColumn P storage cat pkg leftChunk rightChunk name =
      readStored P storage cat (checkedSource pkg name)
        (joinSource pkg leftChunk rightChunk name).2 name := by
    intro name mem
    rw [joinColumn_eq_readStored P storage joins]
    rcases alike name mem with same | ⟨executed, checked⟩
    · rw [same]
    · rw [readStored_vacant executed, readStored_vacant checked]
  obtain ⟨parts, loop⟩ := mapM_isOk_iff.mpr fun name mem =>
    readStored_ok P serves (known name mem) (joinSource pkg leftChunk rightChunk name).2
  refine ⟨parts, by rw [mapM_congr same]; exact loop, fun rb holds name mem => ?_⟩
  obtain ⟨part, found, told⟩ := mem_named (fun _ _ read => columnName_of_readStored read) loop mem
  rw [← holds] at told
  exact ⟨part, by rw [ReadFrom, if_pos joins]; exact ⟨_, found⟩, told⟩

/-- The results so far, beside those without the projected names. -/
structure InStep (P : Proto1) (storage : EncryptedStorage (Except Exn) P.EncryptedVector)
    (cat : Catalog) (pkg : QueryPackage) (unnamed results : List EncryptedResultBatch) : Prop where
  size : unnamed.length = results.length
  returns : ReturnChecked P storage cat pkg results

section Turns

variable (serves : Serves P storage) (joins : pkg.hasJoin = true)
  (known : ∀ name ∈ pkg.projectColumns, Known cat (checkedSource pkg name))
  (alike : Executable cat pkg → ∀ name ∈ pkg.projectColumns, SourcesAgree cat pkg name)
  (listed : KindsListed pkg) {keys : Str × Str} (cut : joinKeys pkg = .ok keys)

include serves joins known alike listed cut

/-- One turn of the inner loop keeps the results in step. -/
theorem joinPair_inStep {unnamed results unnamed' : List EncryptedResultBatch}
    (inStep : InStep P storage cat pkg unnamed results)
    (turn : (do
      let rb ← joinPair P storage cat (unprojected pkg) where? keys.2 lm leftMask?
        (UInt32.ofNat unnamed.length) rm
      pure (unnamed ++ [rb]) : Except Exn (List EncryptedResultBatch)) = .ok unnamed') :
    ∃ results', (do
        let rb ← joinPair P storage cat pkg where? keys.2 lm leftMask?
          (UInt32.ofNat results.length) rm
        pure (results ++ [rb]) : Except Exn (List EncryptedResultBatch)) = .ok results' ∧
      InStep P storage cat pkg unnamed' results' := by
  obtain ⟨rb, hrb, turn⟩ := bind_ok_iff.mp turn
  cases turn
  have executable : Executable cat pkg :=
    ⟨listed, by rw [if_pos joins]; exact ⟨⟨keys, cut⟩, joinPair_joins hrb⟩⟩
  obtain ⟨parts, loop, returns⟩ :=
    joinColumns_named serves joins known (alike executable) lm.chunkId rm.chunkId
  rw [inStep.size] at hrb
  refine ⟨_, by rw [joinPair_named loop hrb]; rfl, by simp [inStep.size], fun rb' mem => ?_⟩
  rcases List.mem_append.mp mem with mem | mem
  · exact inStep.returns rb' mem
  · rw [List.mem_singleton.mp mem]
    exact returns _ rfl

/-- So does one turn of the outer loop. -/
theorem joinLeft_inStep {rights : List ChunkMeta} {unnamed results unnamed' :
      List EncryptedResultBatch} (inStep : InStep P storage cat pkg unnamed results)
    (turn : joinLeft P storage cat (unprojected pkg) where? keys.1 keys.2 rights unnamed lm =
      .ok unnamed') :
    ∃ results', joinLeft P storage cat pkg where? keys.1 keys.2 rights results lm = .ok results' ∧
      InStep P storage cat pkg unnamed' results' := by
  obtain ⟨key, hkey, turn⟩ := bind_ok_iff.mp turn
  by_cases single : key.chunkMeta.logicalRowCount = 1
  · simp only [single, ne_eq, not_true_eq_false, if_false] at turn
    obtain ⟨leftMask?, hmask, turn⟩ := bind_ok_iff.mp turn
    obtain ⟨results', loop, last⟩ := foldlM_follows (by
      intro unnamed results inStep rm _ unnamed' turn
      exact joinPair_inStep serves joins known alike listed cut inStep turn) inStep turn
    refine ⟨results', ?_, last⟩
    simp only [unprojected] at hkey
    have mask : leftMask P storage cat pkg where? lm.chunkId = .ok leftMask? := hmask
    simp only [joinLeft, hkey, ok_bind, single, ne_eq, not_true_eq_false, if_false, mask]
    exact loop
  · simp only [single, ne_eq, not_false_eq_true, if_true, throw_eq_error, error_bind] at turn
    cases turn

end Turns

/-- A join that completes without its names does so with them. -/
theorem executeJoin_named {fuel : Nat} (serves : Serves P storage) (joins : pkg.hasJoin = true)
    (known : ∀ name ∈ pkg.projectColumns, Known cat (checkedSource pkg name))
    (alike : Executable cat pkg → ∀ name ∈ pkg.projectColumns, SourcesAgree cat pkg name)
    {unnamed : List EncryptedResultBatch}
    (run : executeJoin P storage cat fuel (unprojected pkg) = .ok unnamed) :
    ∃ results, executeJoin P storage cat fuel pkg = .ok results ∧
      ReturnChecked P storage cat pkg results := by
  simp only [executeJoin, ofExcept_eq, bind_ok_iff] at run
  obtain ⟨keys, hkeys, lefts, hlefts, rights, hrights, where?, hwhere, run⟩ := run
  have ownWhere := buildWhere_of_unprojected hwhere
  have ownKeys : joinKeys pkg = .ok keys := hkeys
  have listed : KindsListed pkg := kindsListed_of_buildWhere ownWhere
  have start : InStep P storage cat pkg [] [] := ⟨rfl, fun _ mem => by cases mem⟩
  obtain ⟨results, loop, inStep⟩ := foldlM_follows (by
    intro unnamed results inStep lm _ unnamed' turn
    exact joinLeft_inStep serves joins known alike listed ownKeys inStep turn) start run
  refine ⟨results, ?_, inStep.returns⟩
  simp only [unprojected] at hlefts hrights
  simp only [executeJoin, ofExcept_eq, ownKeys, hlefts, hrights, ownWhere, ok_bind]
  exact loop

end Joins

section Scans

theorem known_of_physicalColumnList (table : cat.getTable pkg.tableName = .ok schema)
    {columns physicals : List Str} (list : physicalColumnList P cat pkg columns = .ok physicals) :
    ∀ column ∈ columns, schema.hasColumn column = true := by
  simp only [physicalColumnList, table, ok_bind] at list
  obtain ⟨parts, loop, _⟩ := bind_ok_iff.mp list
  intro column mem
  obtain ⟨part, step⟩ := mapM_isOk_iff.mp ⟨parts, loop⟩ column mem
  obtain ⟨c, hc, _⟩ := bind_ok_iff.mp step
  exact TableSchema.hasColumn_iff.mpr ⟨c, hc⟩

theorem mem_physicalColumnList (table : cat.getTable pkg.tableName = .ok schema)
    {columns physicals : List Str} (list : physicalColumnList P cat pkg columns = .ok physicals)
    {physical : Str} : physical ∈ physicals ↔
      ∃ column ∈ columns, holds P cat (pkg.tableName, column) physical = true := by
  obtain ⟨_, same, mems⟩ := physicalColumnList_ok P table (known_of_physicalColumnList table list)
  cases same.symm.trans list
  rw [mems]
  constructor
  · rintro ⟨column, mem, c, hc, own⟩
    exact ⟨column, mem, (holds_iff P).mpr ⟨schema, c, table, hc, own⟩⟩
  · rintro ⟨column, mem, held⟩
    obtain ⟨t, c, ht, hc, own⟩ := (holds_iff P).mp held
    cases ht.symm.trans table
    exact ⟨column, mem, c, hc, own⟩

theorem not_vacant_of_holds {source : Str × Str} {physical : Str}
    (held : holds P cat source physical = true) : ¬ Vacant cat source := by
  rintro ⟨t, c, ht, hc, empty⟩
  obtain ⟨t', c', ht', hc', own⟩ := (holds_iff P).mp held
  cases ht.symm.trans ht'
  cases hc.symm.trans hc'
  rw [physicalColumns_eq_nil.mpr empty] at own
  cases own

/-- The columns of a batch pass the operators above the scan if each is requested once. -/
theorem filterProject_once (keeps : KeepsColumns P) {where? : Option (Expression P.EncryptedVector)}
    {projected : List Str} {batch unnamed : EncryptedBatch P.EncryptedVector}
    (once : ∀ physical ∈ projected, projected.count physical = 1 ∧ HasCiphertext P batch physical)
    (run : filterProject P where? [] batch = .ok unnamed) :
    ∃ batch', filterProject P where? projected batch = .ok batch' ∧
      ∀ physical ∈ projected, batch'.columns.lookup physical = batch.columns.lookup physical := by
  rw [filterProject_eq] at run
  obtain ⟨filtered, filters, _⟩ := bind_ok_iff.mp run
  have same := (filterBatch_keeps keeps filters).2
  obtain ⟨batch', moved, _, _, lookups⟩ := keeps.project.found projected filtered
    fun physical mem => by
      obtain ⟨chunk, found, _⟩ := (once physical mem).2
      exact ⟨chunk, (same physical).trans found⟩
  refine ⟨batch', by rw [filterProject_eq, filters, ok_bind, moved, fromProto1_ok], ?_⟩
  intro physical mem
  rw [lookups physical mem, if_pos (once physical mem).1, same]

/-- A scan has the columns of its names in every batch. -/
theorem serializeBatch_named (single : pkg.hasJoin = false)
    (table : cat.getTable pkg.tableName = .ok schema) {physicals : List Str}
    {batches : List (EncryptedBatch P.EncryptedVector)}
    (scan : storage.tableScan pkg.tableName physicals = .ok batches)
    {batch batch' : EncryptedBatch P.EncryptedVector} (listed : batch ∈ batches)
    (known : ∀ name ∈ pkg.projectColumns, ∃ c, schema.column name = .ok c)
    (kept : ∀ name ∈ pkg.projectColumns, ∀ physical,
      holds P cat (pkg.tableName, name) physical = true → HasCiphertext P batch physical ∧
        batch'.columns.lookup physical = batch.columns.lookup physical)
    (alike : ∀ name ∈ pkg.projectColumns, SourcesAgree cat pkg name) (batchId : UInt32) :
    ∃ rb, serializeBatch P cat pkg batchId batch' = .ok rb ∧ ∀ name ∈ pkg.projectColumns,
      ReturnsFrom P storage cat pkg (checkedSource pkg name) name rb := by
  have executed : ∀ name, executedSource pkg name = (pkg.tableName, name) := by
    intro name
    simp only [executedSource, single, Bool.false_eq_true, if_false]
  have same : ∀ name ∈ pkg.projectColumns,
      scanColumn P cat pkg batch' name = readBatch P cat (pkg.tableName, name) batch name := by
    intro name mem
    rw [scanColumn_eq_readBatch P single, executed]
    apply readBatch_congr
    intro t c ht hc physical own
    exact (kept name mem physical ((holds_iff P).mpr ⟨t, c, ht, hc, own⟩)).2
  have reads : ∀ name ∈ pkg.projectColumns, ∃ columns,
      readBatch P cat (pkg.tableName, name) batch name = .ok columns := by
    intro name mem
    obtain ⟨c, hc⟩ := known name mem
    refine (readBatch_ok_iff P).mpr ⟨schema, c, table, hc, fun physical own => ?_⟩
    exact (kept name mem physical ((holds_iff P).mpr ⟨schema, c, table, hc, own⟩)).1
  obtain ⟨parts, loop⟩ := mapM_isOk_iff.mpr reads
  refine ⟨_, by rw [serializeBatch, mapM_congr same, loop]; rfl, fun name mem => ?_⟩
  obtain ⟨part, found, told⟩ := mem_named (fun _ _ read => columnName_of_readBatch read) loop mem
  refine ⟨part, ?_, told⟩
  rw [ReadFrom, if_neg (by rw [single]; exact Bool.false_ne_true)]
  have source : (checkedSource pkg name).1 = pkg.tableName := by
    simp only [checkedSource, single, Bool.false_eq_true, false_and, if_false]
  refine ⟨physicals, batches, batch, by rw [source]; exact scan, listed, ?_⟩
  rcases alike name mem with same | ⟨vacant, vacant'⟩
  · rw [← same, executed]
    exact found
  · rw [executed] at vacant
    have empty : part = [] := Except.ok.inj (found.symm.trans (readBatch_vacant vacant batch))
    rw [empty]
    exact readBatch_vacant vacant' batch

/-- The names of a scan that are resolved alike are columns of its table, and each of
their physical columns is scanned and projected once. -/
theorem namedOnce (single : pkg.hasJoin = false) (table : cat.getTable pkg.tableName = .ok schema)
    (known : Known cat (checkedSource pkg name)) (alike : ResolvedAlike P cat pkg name) :
    SourcesAgree cat pkg name ∧ (∃ c, schema.column name = .ok c) ∧
      ∀ physical, holds P cat (pkg.tableName, name) physical = true →
        (∃ column ∈ pkg.scanColumns, holds P cat (pkg.tableName, column) physical = true) ∧
          pkg.projectColumns.countP
            (fun column => holds P cat (pkg.tableName, column) physical) = 1 := by
  simp only [ResolvedAlike, SourcesAgree, executedSource, checkedSource, single,
    Bool.false_eq_true, false_and, if_false] at alike known ⊢
  rcases alike with ⟨plain, once⟩ | ⟨vacant, vacant'⟩
  · rw [bareName_plain plain] at known ⊢
    obtain ⟨t, c, ht, hc⟩ := known
    cases ht.symm.trans table
    exact ⟨Or.inl rfl, ⟨c, hc⟩, once⟩
  · obtain ⟨t, c, ht, hc, empty⟩ := vacant
    cases ht.symm.trans table
    exact ⟨Or.inr ⟨⟨schema, c, ht, hc, empty⟩, vacant'⟩, ⟨c, hc⟩, fun physical held =>
      absurd ⟨schema, c, ht, hc, empty⟩ (not_vacant_of_holds held)⟩

/-- A scan of some physical columns is of a column with ciphertexts. -/
theorem executable_of_scan (single : pkg.hasJoin = false)
    (table : cat.getTable pkg.tableName = .ok schema) (listed : KindsListed pkg)
    {scanned : List Str} (list : physicalColumnList P cat pkg pkg.scanColumns = .ok scanned)
    (some : scanned ≠ []) : Executable cat pkg := by
  refine ⟨listed, ?_⟩
  rw [if_neg (by rw [single]; exact Bool.false_ne_true)]
  obtain ⟨physical, mem⟩ := List.exists_mem_of_ne_nil scanned some
  obtain ⟨column, mem, held⟩ := (mem_physicalColumnList table list).mp mem
  exact ⟨column, mem, not_vacant_of_holds held⟩

/-- One streamed batch: what passes without the projected names passes with them. -/
theorem scanTurn_named (distinct : DistinctNames P) (keeps : KeepsColumns P)
    (single : pkg.hasJoin = false) (table : cat.getTable pkg.tableName = .ok schema)
    (known : ∀ name ∈ pkg.projectColumns, Known cat (checkedSource pkg name))
    (alike : ∀ name ∈ pkg.projectColumns, ResolvedAlike P cat pkg name)
    {scanned projected : List Str} {batches : List (EncryptedBatch P.EncryptedVector)}
    (scan : storage.tableScan pkg.tableName scanned = .ok batches)
    (list : physicalColumnList P cat pkg pkg.projectColumns = .ok projected)
    {batch unnamed : EncryptedBatch P.EncryptedVector} (listed : batch ∈ batches)
    (held : ∀ column ∈ pkg.scanColumns, ∀ physical,
      holds P cat (pkg.tableName, column) physical = true → HasCiphertext P batch physical)
    {where? : Option (Expression P.EncryptedVector)}
    (filters : filterProject P where? [] batch = .ok unnamed) (batchId : UInt32) :
    ∃ batch' rb, filterProject P where? projected batch = .ok batch' ∧
      serializeBatch P cat pkg batchId batch' = .ok rb ∧ ∀ name ∈ pkg.projectColumns,
        ReturnsFrom P storage cat pkg (checkedSource pkg name) name rb := by
  have once := fun name mem => namedOnce single table (known name mem) (alike name mem)
  have columns : ∀ name ∈ pkg.projectColumns, ∃ c, schema.column name = .ok c :=
    fun name mem => (once name mem).2.1
  have reached : ∀ name ∈ pkg.projectColumns, ∀ physical,
      holds P cat (pkg.tableName, name) physical = true → HasCiphertext P batch physical := by
    intro name mem physical own
    obtain ⟨column, inside, own⟩ := ((once name mem).2.2 physical own).1
    exact held column inside physical own
  have requested : ∀ physical ∈ projected,
      projected.count physical = 1 ∧ HasCiphertext P batch physical := by
    intro physical inside
    obtain ⟨name, mem, own⟩ := (mem_physicalColumnList table list).mp inside
    refine ⟨?_, reached name mem physical own⟩
    rw [count_physicalColumnList P table
      (fun column _ c _ => nodup_physicalColumns distinct c column) list]
    exact ((once name mem).2.2 physical own).2
  obtain ⟨batch', projects, kept⟩ := filterProject_once keeps requested filters
  have stays : ∀ name ∈ pkg.projectColumns, ∀ physical,
      holds P cat (pkg.tableName, name) physical = true → HasCiphertext P batch physical ∧
        batch'.columns.lookup physical = batch.columns.lookup physical := by
    intro name mem physical own
    exact ⟨reached name mem physical own,
      kept physical ((mem_physicalColumnList table list).mpr ⟨name, mem, own⟩)⟩
  obtain ⟨rb, serializes, returns⟩ := serializeBatch_named single table scan listed columns stays
    (fun name mem => (once name mem).1) batchId
  exact ⟨batch', rb, projects, serializes, returns⟩

/-- A scan that completes without its names does so with them. -/
theorem executeScan_named {fuel : Nat} (distinct : DistinctNames P) (keeps : KeepsColumns P)
    (scans : ServesScans P storage) (single : pkg.hasJoin = false)
    (table : cat.getTable pkg.tableName = .ok schema)
    (known : ∀ name ∈ pkg.projectColumns, Known cat (checkedSource pkg name))
    (alike : Executable cat pkg → ∀ name ∈ pkg.projectColumns, ResolvedAlike P cat pkg name)
    {unnamed : List EncryptedResultBatch}
    (run : executeScan P storage cat fuel (unprojected pkg) = .ok unnamed) :
    ∃ results, executeScan P storage cat fuel pkg = .ok results ∧
      ReturnChecked P storage cat pkg results := by
  simp only [executeScan, ofExcept_eq, bind_ok_iff] at run
  obtain ⟨scanned, hscanned, where?, hwhere, nothing, hnothing, batches, hbatches, run⟩ := run
  cases hnothing
  have ownWhere := buildWhere_of_unprojected hwhere
  have hbatches : storage.tableScan pkg.tableName scanned = .ok batches := hbatches
  have hscanned : physicalColumnList P cat pkg pkg.scanColumns = .ok scanned := hscanned
  have some : scanned ≠ [] := by
    rintro rfl
    obtain ⟨e, thrown⟩ := scans.nothing pkg.tableName
    cases thrown.symm.trans hbatches
  have alike := alike
    (executable_of_scan single table (kindsListed_of_buildWhere ownWhere) hscanned some)
  obtain ⟨projected, hprojected, _⟩ := physicalColumnList_ok P table fun name mem =>
    TableSchema.hasColumn_iff.mpr (namedOnce single table (known name mem) (alike name mem)).2.1
  have held : ∀ batch ∈ batches, ∀ column ∈ pkg.scanColumns, ∀ physical,
      holds P cat (pkg.tableName, column) physical = true → HasCiphertext P batch physical := by
    intro batch listed column inside physical own
    obtain ⟨batches', requested, complete⟩ := scans.requested pkg.tableName scanned some
    cases requested.symm.trans hbatches
    exact (complete batch listed physical).mpr
      ((mem_physicalColumnList table hscanned).mpr ⟨column, inside, own⟩)
  have turn : ∀ x ∈ batches.zipIdx, ∃ rb, (do
      let batch ← MonadExcept.ofExcept (filterProject P where? projected x.1)
      MonadExcept.ofExcept (serializeBatch P cat pkg (UInt32.ofNat x.2) batch) :
        Except Exn EncryptedResultBatch) = .ok rb ∧ ∀ name ∈ pkg.projectColumns,
      ReturnsFrom P storage cat pkg (checkedSource pkg name) name rb := by
    intro x mem
    have listed : x.1 ∈ batches := forall_zipIdx_fst.mpr (fun batch inside => inside) x mem
    obtain ⟨rb, step⟩ := mapM_isOk_iff.mp ⟨unnamed, run⟩ x mem
    simp only [ofExcept_eq] at step ⊢
    obtain ⟨batch, filters, _⟩ := bind_ok_iff.mp step
    obtain ⟨batch', rb, projects, serializes, returns⟩ := scanTurn_named distinct keeps single table
      known alike hbatches hprojected listed (held x.1 listed) filters (UInt32.ofNat x.2)
    exact ⟨rb, by rw [projects, ok_bind, serializes], returns⟩
  obtain ⟨results, loop⟩ := mapM_isOk_iff.mpr fun x mem => (turn x mem).imp fun _ => And.left
  refine ⟨results, ?_, fun rb mem => ?_⟩
  · simp only [executeScan, ofExcept_eq, hscanned, ownWhere, hprojected, hbatches, ok_bind]
    simpa only [ofExcept_eq] using loop
  · obtain ⟨x, inside, step⟩ := mapM_ok_mem loop mem
    obtain ⟨rb', step', returns⟩ := turn x inside
    cases step.symm.trans step'
    exact returns

end Scans

theorem holds_congr {Q : Proto1} (same : Q.stringPhysicalColumn = P.stringPhysicalColumn) :
    holds Q cat = holds P cat := by
  have columns : ∀ c name, physicalColumns Q c name = physicalColumns P c name := by
    intro c name
    simp only [physicalColumns, same]
  funext source physical
  rw [Bool.eq_iff_iff, holds_iff, holds_iff]
  simp only [columns]

theorem known_checkedSource {sid : Str} (accepted : Accepts cat sid pkg)
    (mem : name ∈ pkg.projectColumns) : Known cat (checkedSource pkg name) := by
  obtain ⟨schema, valid⟩ := accepts_iff.mp accepted
  exact (namesColumn_iff_known valid.header.table).mp (valid.header.projectColumns name mem)

/-- Names that are resolved alike are read as they are checked. -/
theorem readsChecked_of_resolvedAlike {sid : Str} (distinct : DistinctNames P)
    (accepted : Accepts cat sid pkg)
    (alike : Executable cat pkg → ∀ name ∈ pkg.projectColumns, ResolvedAlike P cat pkg name) :
    ReadsChecked P cat pkg := by
  rintro Q storage fuel naming keeps serves scans ⟨unnamed, run⟩
  obtain ⟨schema, valid⟩ := accepts_iff.mp accepted
  have known : ∀ name ∈ pkg.projectColumns, Known cat (checkedSource pkg name) :=
    fun name mem => known_checkedSource accepted mem
  have checked : ∀ name, ChecksAgainst pkg name (checkedSource pkg name) :=
    fun name => checksAgainst_iff.mpr rfl
  suffices named : ∃ results, execute Q storage cat fuel pkg = .ok results ∧
      ReturnChecked Q storage cat pkg results by
    obtain ⟨results, completes, returns⟩ := named
    exact ⟨results, completes, fun rb mem name listed =>
      ⟨checkedSource pkg name, checked name, returns rb mem name listed⟩⟩
  cases joins : pkg.hasJoin with
  | true =>
    have run : executeJoin Q storage cat fuel (unprojected pkg) = .ok unnamed := by
      rw [← run, execute, if_pos (show (unprojected pkg).hasJoin = true from joins)]
    rw [execute, if_pos joins]
    refine executeJoin_named serves joins known (fun executable name mem => ?_) run
    rcases alike executable name mem with sources | vacant
    · rw [if_pos joins] at sources
      exact Or.inl ((source_eq_iff_of_join joins).mpr sources)
    · exact Or.inr vacant
  | false =>
    have single : ¬ pkg.hasJoin = true := by
      rw [joins]
      exact Bool.false_ne_true
    have run : executeScan Q storage cat fuel (unprojected pkg) = .ok unnamed := by
      rw [← run, execute, if_neg (show ¬ (unprojected pkg).hasJoin = true from single)]
    rw [execute, if_neg single]
    refine executeScan_named ?_ keeps scans joins valid.header.table known
      (fun executable name mem => ?_) run
    · simpa only [DistinctNames, naming] using distinct
    · simpa only [ResolvedAlike, holds_congr naming] using alike executable name mem

section Tagged

/-- A context whose ciphertexts are texts and whose masks always come out. -/
def taggedContext (P : Proto1) : Proto1 where
  EncryptedVector := Str
  Rng := Unit
  slotCount := 1
  serialize ct := ct
  logicalSize _ := 1
  deserializeWithSize bytes _ := .ok bytes
  encrypt _ rng := .ok ([], rng)
  decrypt _ _ := .ok []
  evalMult a _ := .ok a
  evaluate _ _ := .ok []
  filterExec _ batch := .ok { batch with selectionMask := some [] }
  projectExec := projectColumns
  stringPhysicalColumn := P.stringPhysicalColumn

variable (P)

def taggedChunk (tag : Str) : EncryptedColumnChunk (taggedContext P).EncryptedVector where
  chunkMeta := { partitionId := 0, chunkId := 0, logicalRowCount := 1 }
  ciphertexts := [tag]

def taggedColumns (tag : Str → Str) (names : List Str) :
    StringMap (EncryptedColumnChunk (taggedContext P).EncryptedVector) :=
  names.foldr (fun name columns => columns.insert name (taggedChunk P (tag name))) ∅

def taggedBatch (tag : Str → Str) (names : List Str) :
    EncryptedBatch (taggedContext P).EncryptedVector where
  columns := taggedColumns P tag names
  logicalRowCount := 1

/-- A storage of tables of one row, whose ciphertexts say where they come from. -/
def taggedStorage (tag : Str → Str → Str) :
    EncryptedStorage (Except Exn) (taggedContext P).EncryptedVector where
  listChunks _ _ := .ok [{ partitionId := 0, chunkId := 0, logicalRowCount := 1 }]
  getChunk table physical _ _ := .ok (taggedChunk P (tag table physical))
  tableScan table names :=
    if names = [] then .error (.external (str "TableScanExec: no required columns"))
    else .ok [taggedBatch P (tag table) names]

variable (tag : Str → Str → Str)

theorem lookup_taggedBatch (tag : Str → Str) (names : List Str) (name : Str) :
    (taggedBatch P tag names).columns.lookup name =
      if name ∈ names then some (taggedChunk P (tag name)) else none := by
  change (taggedColumns P tag names).lookup name = _
  induction names with
  | nil => rfl
  | cons own names ih =>
    rw [taggedColumns, List.foldr_cons]
    by_cases same : name = own
    · rw [same, AList.lookup_insert, if_pos List.mem_cons_self]
    · rw [AList.lookup_insert_ne same]
      have mem : name ∈ own :: names ↔ name ∈ names := by
        rw [List.mem_cons, or_iff_right same]
      simp only [mem]
      exact ih

theorem tagged_hasCiphertext (tag : Str → Str) (names : List Str) (name : Str) :
    HasCiphertext (taggedContext P) (taggedBatch P tag names) name ↔ name ∈ names := by
  unfold HasCiphertext
  rw [lookup_taggedBatch]
  by_cases mem : name ∈ names
  · simp [mem, taggedChunk]
  · simp [mem]

theorem tagged_keepsColumns : KeepsColumns (taggedContext P) where
  filter e batch batch' ok := by
    cases ok
    exact ⟨rfl, fun _ => rfl⟩
  project := projectsColumns_of_eq fun _ _ => rfl

theorem tagged_serves : Serves (taggedContext P) (taggedStorage P tag) :=
  fun table physical _ _ => ⟨taggedChunk P (tag table physical), rfl, List.cons_ne_nil _ _⟩

theorem tagged_servesScans : ServesScans (taggedContext P) (taggedStorage P tag) where
  requested table names some := by
    refine ⟨[taggedBatch P (tag table) names], if_neg some, fun batch mem physical => ?_⟩
    rw [List.mem_singleton.mp mem]
    exact tagged_hasCiphertext P (tag table) names physical
  nothing _ := ⟨_, rfl⟩

variable {P tag}

theorem tagged_tableScan {table : Str} {names : List Str}
    {batches : List (EncryptedBatch (taggedContext P).EncryptedVector)}
    (scan : (taggedStorage P tag).tableScan table names = .ok batches) :
    batches = [taggedBatch P (tag table) names] := by
  have some : names ≠ [] := by
    rintro rfl
    cases scan
  exact Except.ok.inj (scan.symm.trans (if_neg some))

variable (P tag)

theorem tagged_buildWhere {sid : Str} (accepted : Accepts cat sid pkg) (listed : KindsListed pkg) :
    ∃ fuel where?, buildWhere (taggedContext P) pkg fuel = .ok where? := by
  obtain ⟨schema, valid⟩ := accepts_iff.mp accepted
  obtain ⟨bound, builds⟩ := exists_buildWhere (P := taggedContext P)
    (fun bytes _ => ⟨bytes, rfl⟩) valid.predicate listed
  exact ⟨bound, builds bound le_rfl⟩

/-- Without its names an executable package goes through there. -/
theorem tagged_completes {sid : Str} (accepted : Accepts cat sid pkg)
    (executable : Executable cat pkg) : ∃ fuel unnamed,
    execute (taggedContext P) (taggedStorage P tag) cat fuel (unprojected pkg) = .ok unnamed := by
  obtain ⟨listed, parts⟩ := executable
  obtain ⟨schema, valid⟩ := accepts_iff.mp accepted
  have table := valid.header.table
  obtain ⟨fuel, where?, hwhere⟩ := tagged_buildWhere (P := P) accepted listed
  have ownWhere : buildWhere (taggedContext P) (unprojected pkg) fuel = .ok where? := by
    rw [← hwhere]
    exact PredicateExpression.buildWhere_congr (unprojected pkg) pkg rfl rfl fuel
  refine ⟨fuel, ?_⟩
  by_cases joins : pkg.hasJoin = true
  · rw [if_pos joins] at parts
    obtain ⟨⟨keys, hkeys⟩, right⟩ := parts
    rw [execute, if_pos (show (unprojected pkg).hasJoin = true from joins)]
    exact executeJoin_total (fun _ _ _ _ => ⟨_, rfl, rfl⟩) (fun _ _ => ⟨_, rfl⟩)
      (fun _ _ => ⟨_, rfl⟩) (show joinKeys (unprojected pkg) = .ok keys from hkeys) rfl rfl ownWhere
      ⟨schema, table⟩ right fun _ _ => ⟨[], rfl⟩
  · rw [if_neg joins] at parts
    obtain ⟨column, mem, full⟩ := parts
    rw [execute, if_neg (show ¬ (unprojected pkg).hasJoin = true from joins)]
    obtain ⟨scanned, hscanned, inScan⟩ := physicalColumnList_ok (taggedContext P) table
      valid.header.scanColumns
    have some : scanned ≠ [] := by
      rintro rfl
      obtain ⟨c, hc⟩ := TableSchema.hasColumn_iff.mp (valid.header.scanColumns column mem)
      have empty : physicalColumns (taggedContext P) c column = [] := by
        refine List.eq_nil_iff_forall_not_mem.mpr fun physical own => ?_
        exact List.not_mem_nil ((inScan physical).mpr ⟨column, mem, c, hc, own⟩)
      exact full ⟨schema, c, table, hc, physicalColumns_eq_nil.mp empty⟩
    have ownScan : physicalColumnList (taggedContext P) cat (unprojected pkg)
        (unprojected pkg).scanColumns = .ok scanned := hscanned
    have ownProject : physicalColumnList (taggedContext P) cat (unprojected pkg)
        (unprojected pkg).projectColumns = .ok [] := rfl
    have batches : (taggedStorage P tag).tableScan (unprojected pkg).tableName scanned =
        .ok [taggedBatch P (tag (unprojected pkg).tableName) scanned] := if_neg some
    simp only [executeScan, ofExcept_eq, ownScan, ownWhere, ownProject, batches, ok_bind]
    refine mapM_isOk_iff.mpr fun x _ => ?_
    cases where? with
    | none => exact ⟨_, rfl⟩
    | some e => exact ⟨_, rfl⟩

end Tagged

theorem vacant_of_readStored {source : Str × Str} {chunkId : Nat}
    (read : readStored P storage cat source chunkId name = .ok []) : Vacant cat source := by
  simp only [readStored, ofExcept_eq] at read
  obtain ⟨t, ht, read⟩ := bind_ok_iff.mp read
  obtain ⟨c, hc, read⟩ := bind_ok_iff.mp read
  have none := List.forall₂_nil_right_iff.mp (mapM_ok_iff.mp read)
  exact ⟨t, c, ht, hc, physicalColumns_eq_nil.mp (List.zipIdx_eq_nil_iff.mp none)⟩

theorem vacant_of_readBatch {source : Str × Str} {batch : EncryptedBatch P.EncryptedVector}
    (read : readBatch P cat source batch name = .ok []) : Vacant cat source := by
  obtain ⟨t, ht, read⟩ := bind_ok_iff.mp read
  obtain ⟨c, hc, read⟩ := bind_ok_iff.mp read
  have none := List.forall₂_nil_right_iff.mp (mapM_ok_iff.mp read)
  exact ⟨t, c, ht, hc, physicalColumns_eq_nil.mp (List.zipIdx_eq_nil_iff.mp none)⟩

/-- Two lists with the same members, none of which can be in both. -/
theorem nil_of_apart {α : Type} {l r : List α} (same : ∀ a, a ∈ l ↔ a ∈ r)
    (apart : ∀ a ∈ l, a ∉ r) : l = [] ∧ r = [] := by
  have left : l = [] :=
    List.eq_nil_iff_forall_not_mem.mpr fun a mem => apart a mem ((same a).mp mem)
  refine ⟨left, List.eq_nil_iff_forall_not_mem.mpr fun a mem => ?_⟩
  have inside := (same a).mpr mem
  rw [left] at inside
  cases inside

/-- Where a ciphertext tells its table, so does what is read from the storage. -/
theorem tagged_readStored {source : Str × Str} {chunkId : Nat}
    {columns : List EncryptedColumnResult}
    (read : readStored (taggedContext P) (taggedStorage P fun table _ => table) cat source chunkId
      name = .ok columns) : ∀ cr ∈ columns, cr.ciphertextBytes = source.1 := by
  simp only [readStored, ofExcept_eq] at read
  obtain ⟨t, _, read⟩ := bind_ok_iff.mp read
  obtain ⟨c, _, read⟩ := bind_ok_iff.mp read
  intro cr mem
  obtain ⟨x, _, step⟩ := mapM_ok_mem read mem
  cases step
  rfl

/-- What a join returns for a name tells where it was read from. -/
theorem join_alike (joins : pkg.hasJoin = true) {fuel : Nat} {results : List EncryptedResultBatch}
    (run : execute (taggedContext P) (taggedStorage P fun table _ => table) cat fuel pkg =
      .ok results)
    (returns : ∀ rb ∈ results, ReturnsFrom (taggedContext P) (taggedStorage P fun table _ => table)
      cat pkg (checkedSource pkg name) name rb) (mem : name ∈ pkg.projectColumns) :
    SourcesAgree cat pkg name := by
  rw [execute, if_pos joins] at run
  obtain ⟨keys, lefts, rights, where?, _, hlefts, hrights, _, batches⟩ := executeJoin_ok run
  cases hlefts
  cases hrights
  obtain ⟨rb, _, batch, _, rfl⟩ := List.forall₂_cons_left_iff.mp batches
  obtain ⟨left, full, pair⟩ := readsPair_of_pairBatch batch
  obtain ⟨parts, loop, flat⟩ := pair.columns
  have named : ∀ name part, joinColumn (taggedContext P) (taggedStorage P fun table _ => table)
      cat pkg 0 0 name = .ok part → ∀ cr ∈ part, cr.columnName = name := by
    intro name part read
    rw [joinColumn_eq_readStored _ _ joins] at read
    exact columnName_of_readStored read
  obtain ⟨part, found, told⟩ := mem_named named loop mem
  rw [joinColumn_eq_readStored _ _ joins] at found
  obtain ⟨columns, from_, told'⟩ := returns rb List.mem_cons_self
  rw [ReadFrom, if_pos joins] at from_
  obtain ⟨chunkId, read⟩ := from_
  rw [flat] at told'
  have same : ∀ cr, cr ∈ part ↔ cr ∈ columns := fun cr => (told cr).symm.trans (told' cr)
  by_cases tables : (executedSource pkg name).1 = (checkedSource pkg name).1
  · refine Or.inl (Prod.ext tables ?_)
    simp only [executedSource, checkedSource, joins, if_true, true_and]
    split <;> rfl
  · obtain ⟨none, none'⟩ := nil_of_apart same fun cr inside inside' =>
      tables ((tagged_readStored found cr inside).symm.trans (tagged_readStored read cr inside'))
    rw [none] at found
    rw [none'] at read
    exact Or.inr ⟨vacant_of_readStored found, vacant_of_readStored read⟩

/-- Where a ciphertext tells its physical column, so does what is read from a batch. -/
theorem told_readBatch {source : Str × Str}
    {batch : EncryptedBatch (taggedContext P).EncryptedVector}
    {columns : List EncryptedColumnResult}
    (tells : ∀ physical chunk, holds P cat source physical = true →
      batch.columns.lookup physical = some chunk → ∀ ct ∈ chunk.ciphertexts, ct = physical)
    (read : readBatch (taggedContext P) cat source batch name = .ok columns) :
    ∀ cr ∈ columns, ∃ t c, cat.getTable source.1 = .ok t ∧ t.column source.2 = .ok c ∧
      cr.logicalType = logicalTypeName c ∧
      cr.ciphertextBytes ∈ physicalColumns P c source.2 := by
  obtain ⟨t, ht, read⟩ := bind_ok_iff.mp read
  obtain ⟨c, hc, read⟩ := bind_ok_iff.mp read
  intro cr mem
  obtain ⟨x, inside, step⟩ := mapM_ok_mem read mem
  have own : x.1 ∈ physicalColumns P c source.2 :=
    forall_zipIdx_fst.mpr (fun physical own => own) x inside
  obtain ⟨chunk, ct, cts, found, shape, rfl⟩ := batchPosition_ok step
  have same : ct = x.1 := tells x.1 chunk ((holds_iff P).mpr ⟨t, c, ht, hc, own⟩) found ct
    (by rw [shape]; exact List.mem_cons_self)
  rw [← same] at own
  exact ⟨t, c, ht, hc, rfl, own⟩

/-- Columns of two names share no physical column of one type. -/
theorem name_eq_of_physical (distinct : DistinctNames P) {c c' : ColumnSchema}
    {name' physical : Str}
    (type : logicalTypeName c = logicalTypeName c') (own : physical ∈ physicalColumns P c name)
    (own' : physical ∈ physicalColumns P c' name') : name = name' := by
  have differ : str "STRING" ≠ str "INT64" := by decide
  unfold logicalTypeName at type
  unfold physicalColumns at own own'
  by_cases string : c.type = .STRING
  · by_cases string' : c'.type = .STRING
    · rw [if_pos string] at own
      rw [if_pos string'] at own'
      obtain ⟨i, _, rfl⟩ := List.mem_map.mp own
      obtain ⟨j, _, same⟩ := List.mem_map.mp own'
      exact (distinct name' j name i same).1.symm
    · rw [if_pos string, if_neg string'] at type
      exact (differ type).elim
  · by_cases string' : c'.type = .STRING
    · rw [if_neg string, if_pos string'] at type
      exact (differ type.symm).elim
    · rw [if_neg string] at own
      rw [if_neg string'] at own'
      exact (List.mem_singleton.mp own).symm.trans (List.mem_singleton.mp own')

/-- The columns of a scanned batch that reach the results: each was scanned, under its own
tag, and has a ciphertext left if it was requested once. -/
structure Reaches (P : Proto1) (scanned projected : List Str)
    (batch : EncryptedBatch (taggedContext P).EncryptedVector) : Prop where
  scanned : ∀ physical ∈ projected, physical ∈ scanned
  tells : ∀ physical ∈ projected, ∀ chunk, batch.columns.lookup physical = some chunk →
    ∀ ct ∈ chunk.ciphertexts, ct = physical
  once : ∀ physical ∈ projected, HasCiphertext (taggedContext P) batch physical →
    projected.count physical = 1

theorem tells_taggedBatch {scanned : List Str} {physical : Str}
    {chunk : EncryptedColumnChunk (taggedContext P).EncryptedVector}
    (found : (taggedBatch P (fun physical => physical) scanned).columns.lookup physical =
      some chunk) : physical ∈ scanned ∧ ∀ ct ∈ chunk.ciphertexts, ct = physical := by
  rw [lookup_taggedBatch] at found
  by_cases mem : physical ∈ scanned
  · rw [if_pos mem] at found
    cases found
    exact ⟨mem, fun ct inside => List.mem_singleton.mp inside⟩
  · rw [if_neg mem] at found
    cases found

theorem reaches_of_filterProject {where? : Option (Expression (taggedContext P).EncryptedVector)}
    {scanned projected : List Str} {batch : EncryptedBatch (taggedContext P).EncryptedVector}
    (run : filterProject (taggedContext P) where? projected
      (taggedBatch P (fun physical => physical) scanned) = .ok batch) :
    Reaches P scanned projected batch := by
  rw [filterProject_eq] at run
  obtain ⟨filtered, filters, projects⟩ := bind_ok_iff.mp run
  have same := (filterBatch_keeps (tagged_keepsColumns P) filters).2
  obtain ⟨present, _, _, lookups⟩ :=
    (tagged_keepsColumns P).project.of_ok (fromProto1_ok_iff.mp projects)
  refine ⟨fun physical mem => ?_, fun physical mem chunk found => ?_, fun physical mem held => ?_⟩
  · obtain ⟨chunk, found⟩ := present physical mem
    exact (tells_taggedBatch ((same physical).symm.trans found)).1
  · obtain ⟨own, found'⟩ := present physical mem
    have tells := (tells_taggedBatch ((same physical).symm.trans found')).2
    rw [lookups physical mem, found'] at found
    split at found
    · cases found
      exact tells
    · cases found
      exact fun ct inside => by cases inside
  · obtain ⟨chunk, found, some⟩ := held
    rw [lookups physical mem] at found
    by_contra more
    rw [if_neg more] at found
    obtain ⟨own, _, rfl⟩ := Option.map_eq_some_iff.mp found
    exact some rfl

/-- A scan returns one result, read from a batch of projected columns. -/
theorem tagged_executeScan {fuel : Nat} {results : List EncryptedResultBatch}
    (run : executeScan (taggedContext P) (taggedStorage P fun _ physical => physical) cat fuel pkg =
      .ok results) :
    ∃ scanned projected batch rb parts,
      physicalColumnList (taggedContext P) cat pkg pkg.scanColumns = .ok scanned ∧
      physicalColumnList (taggedContext P) cat pkg pkg.projectColumns = .ok projected ∧
      Reaches P scanned projected batch ∧ rb ∈ results ∧ rb.columns = parts.flatten ∧
      pkg.projectColumns.mapM (scanColumn (taggedContext P) cat pkg batch) = .ok parts := by
  simp only [executeScan, ofExcept_eq, bind_ok_iff] at run
  obtain ⟨scanned, hscanned, where?, _, projected, hprojected, batches, hbatches, run⟩ := run
  cases tagged_tableScan hbatches
  obtain ⟨rb, _, step, _, rfl⟩ := List.forall₂_cons_left_iff.mp (mapM_ok_iff.mp run)
  obtain ⟨batch, filters, serializes⟩ := bind_ok_iff.mp step
  obtain ⟨parts, loop, serializes⟩ := bind_ok_iff.mp serializes
  cases serializes
  exact ⟨scanned, projected, batch, _, parts, hscanned, hprojected,
    reaches_of_filterProject filters, List.mem_cons_self, rfl, loop⟩

/-- The columns of a dotted name and of its bare name have no ciphertext in common. -/
theorem vacant_of_dotted (distinct : DistinctNames P) {table : Str}
    {batch batch' : EncryptedBatch (taggedContext P).EncryptedVector}
    {part columns : List EncryptedColumnResult} (dotted : dot ∈ name)
    (tells : ∀ physical chunk, holds P cat (table, name) physical = true →
      batch.columns.lookup physical = some chunk → ∀ ct ∈ chunk.ciphertexts, ct = physical)
    (tells' : ∀ physical chunk, holds P cat (table, bareName name) physical = true →
      batch'.columns.lookup physical = some chunk → ∀ ct ∈ chunk.ciphertexts, ct = physical)
    (found : readBatch (taggedContext P) cat (table, name) batch name = .ok part)
    (read : readBatch (taggedContext P) cat (table, bareName name) batch' name = .ok columns)
    (same : ∀ cr, cr ∈ part ↔ cr ∈ columns) :
    Vacant cat (table, name) ∧ Vacant cat (table, bareName name) := by
  obtain ⟨none, none'⟩ := nil_of_apart same fun cr inside inside' => by
    obtain ⟨t, c, ht, hc, type, own⟩ := told_readBatch tells found cr inside
    obtain ⟨t', c', ht', hc', type', own'⟩ := told_readBatch tells' read cr inside'
    have bare := name_eq_of_physical distinct (type.symm.trans type') own own'
    exact bareName_eq_self_iff.mp bare.symm dotted
  rw [none] at found
  rw [none'] at read
  exact ⟨vacant_of_readBatch found, vacant_of_readBatch read⟩

/-- A name that is found has each of its physical columns scanned, and projected once. -/
theorem once_of_found (distinct : DistinctNames P)
    (table : cat.getTable pkg.tableName = .ok schema) {scanned projected : List Str}
    {batch : EncryptedBatch (taggedContext P).EncryptedVector}
    (hscanned : physicalColumnList (taggedContext P) cat pkg pkg.scanColumns = .ok scanned)
    (hprojected : physicalColumnList (taggedContext P) cat pkg pkg.projectColumns = .ok projected)
    (reaches : Reaches P scanned projected batch) {part : List EncryptedColumnResult}
    (found : readBatch (taggedContext P) cat (pkg.tableName, name) batch name = .ok part)
    {physical : Str} (projects : physical ∈ projected)
    (held : holds P cat (pkg.tableName, name) physical = true) :
    (∃ column ∈ pkg.scanColumns, holds P cat (pkg.tableName, column) physical = true) ∧
      pkg.projectColumns.countP
        (fun column => holds P cat (pkg.tableName, column) physical) = 1 := by
  refine ⟨(mem_physicalColumnList table hscanned).mp (reaches.scanned physical projects), ?_⟩
  obtain ⟨t, c, ht, hc, own⟩ := (holds_iff P).mp held
  obtain ⟨t', c', ht', hc', all⟩ := (readBatch_ok_iff _).mp ⟨part, found⟩
  cases ht.symm.trans ht'
  cases hc.symm.trans hc'
  rw [← reaches.once physical projects (all physical own),
    count_physicalColumnList (taggedContext P) table
      (fun column _ c _ => nodup_physicalColumns distinct c column) hprojected]
  rfl

/-- What a scan returns for a name tells what was scanned and projected. -/
theorem scan_alike (distinct : DistinctNames P) (single : pkg.hasJoin = false)
    (table : cat.getTable pkg.tableName = .ok schema) {fuel : Nat}
    {results : List EncryptedResultBatch}
    (run : execute (taggedContext P) (taggedStorage P fun _ physical => physical) cat fuel pkg =
      .ok results)
    (returns : ∀ rb ∈ results, ReturnsFrom (taggedContext P)
      (taggedStorage P fun _ physical => physical) cat pkg (checkedSource pkg name) name rb)
    (mem : name ∈ pkg.projectColumns) : ResolvedAlike P cat pkg name := by
  have joins : ¬ pkg.hasJoin = true := by
    rw [single]
    exact Bool.false_ne_true
  have executed : executedSource pkg name = (pkg.tableName, name) := by
    simp only [executedSource, single, Bool.false_eq_true, if_false]
  have checked : checkedSource pkg name = (pkg.tableName, bareName name) := by
    simp only [checkedSource, single, Bool.false_eq_true, false_and, if_false]
  rw [execute, if_neg joins] at run
  obtain ⟨scanned, projected, batch, rb, parts, hscanned, hprojected, reaches, result, flat,
    loop⟩ := tagged_executeScan run
  have named : ∀ name part, scanColumn (taggedContext P) cat pkg batch name = .ok part →
      ∀ cr ∈ part, cr.columnName = name := by
    intro name part read
    rw [scanColumn_eq_readBatch _ single] at read
    exact columnName_of_readBatch read
  obtain ⟨part, found, told⟩ := mem_named named loop mem
  rw [scanColumn_eq_readBatch _ single, executed] at found
  have projects : ∀ physical, holds P cat (pkg.tableName, name) physical = true →
      physical ∈ projected :=
    fun _ held => (mem_physicalColumnList table hprojected).mpr ⟨name, mem, held⟩
  by_cases dotted : dot ∈ name
  · refine Or.inr ?_
    obtain ⟨columns, from_, told'⟩ := returns rb result
    rw [ReadFrom, if_neg joins, checked] at from_
    obtain ⟨physicals, batches, _, hbatches, listed, read⟩ := from_
    cases tagged_tableScan hbatches
    cases List.mem_singleton.mp listed
    rw [flat] at told'
    rw [executed, checked]
    exact vacant_of_dotted distinct dotted
      (fun physical chunk held => reaches.tells physical (projects physical held) chunk)
      (fun _ _ _ inside => (tells_taggedBatch inside).2) found read
      fun cr => (told cr).symm.trans (told' cr)
  · refine Or.inl ?_
    rw [if_neg joins]
    exact ⟨dotted, fun physical held => once_of_found distinct table hscanned hprojected reaches
      found (projects physical held) held⟩

/-- The condition is seen in runs whose ciphertexts tell where they come from. -/
theorem resolvedAlike_of_readsChecked (distinct : DistinctNames P) {sid : Str}
    (accepted : Accepts cat sid pkg) (reads : ReadsChecked P cat pkg)
    (executable : Executable cat pkg) (mem : name ∈ pkg.projectColumns) :
    ResolvedAlike P cat pkg name := by
  have runs : ∀ tag, ∃ fuel results,
      execute (taggedContext P) (taggedStorage P tag) cat fuel pkg = .ok results ∧
        ∀ rb ∈ results, ReturnsFrom (taggedContext P) (taggedStorage P tag) cat pkg
          (checkedSource pkg name) name rb := by
    intro tag
    obtain ⟨fuel, completes⟩ := tagged_completes P tag accepted executable
    obtain ⟨results, run, returns⟩ := reads (taggedContext P) (taggedStorage P tag) fuel rfl
      (tagged_keepsColumns P) (tagged_serves P tag) (tagged_servesScans P tag) completes
    refine ⟨fuel, results, run, fun rb listed => ?_⟩
    obtain ⟨source, checked, returned⟩ := returns rb listed name mem
    rwa [← checksAgainst_iff.mp checked]
  cases joins : pkg.hasJoin with
  | true =>
    obtain ⟨fuel, results, run, returns⟩ := runs fun table _ => table
    rcases join_alike joins run returns mem with same | vacant
    · refine Or.inl ?_
      rw [if_pos joins]
      exact (source_eq_iff_of_join joins).mp same
    · exact Or.inr vacant
  | false =>
    obtain ⟨fuel, results, run, returns⟩ := runs fun _ physical => physical
    obtain ⟨schema, valid⟩ := accepts_iff.mp accepted
    exact scan_alike distinct joins valid.header.table run returns mem

theorem plain_distinctNames (slotCount : Nat) : DistinctNames (plainProto1 slotCount) := by
  intro name position name' position' same
  have separated : ∀ n, (35 : UInt8) ∉ decimal n := by
    intro n mem
    exact absurd (digit_of_mem_decimal mem).1 (by decide)
  have same : name ++ (str "#" ++ decimal position) = name' ++ (str "#" ++ decimal position') := by
    simpa only [plainProto1, List.append_assoc] using same
  obtain ⟨names, positions⟩ := append_separator_inj (separated _) (separated _) same
  exact ⟨names, decimal_injective positions⟩

theorem kindsListed_of_empty (empty : pkg.predicateNodes = []) : KindsListed pkg := by
  rintro i node ⟨_, hn⟩
  rw [empty] at hn
  cases hn

/-- A column with ciphertexts. -/
theorem not_vacant {source : Str × Str} {t : TableSchema} (table : cat.getTable source.1 = .ok t)
    (numbers : ∀ c ∈ t.columns, c.name = source.2 → c.type = .INT64) : ¬ Vacant cat source := by
  rintro ⟨t', c, ht, hc, string, _⟩
  cases ht.symm.trans table
  obtain ⟨mem, named⟩ := TableSchema.column_ok hc
  rw [numbers c mem named] at string
  cases string

end FheSql.ProjectedNames
