import FheSql.PlainProto1
import FheSql.QueryExecutor
import FheSql.ValidatedPackage

/-!
# Two resolutions of a projected name

The validator checks a projected name against one table and column, the
executor reads a table and column of its own choice. Both choices are stated
here as functions of the package, and compared on every accepted package.
-/

namespace FheSql.ColumnResolution

open ByteText Throwing QueryExecutor PredicateTree ValidatedPackage

/-- A source the catalog has. -/
def Known (cat : Catalog) (source : Str × Str) : Prop :=
  ∃ t c, cat.getTable source.1 = .ok t ∧ t.column source.2 = .ok c

/-- `validate` checks a projected name against a table and a column: over every catalog
the name passes just if the catalog has them. -/
def ChecksAgainst (pkg : QueryPackage) (name : Str) (source : Str × Str) : Prop :=
  ∀ cat schema, cat.getTable pkg.tableName = .ok schema →
    (QueryValidator.validateProjectColumn cat pkg schema name = .ok () ↔ Known cat source)

/-- The table and the column `validate` checks a projected name against. -/
def checkedSource (pkg : QueryPackage) (name : Str) : Str × Str :=
  if pkg.hasJoin ∧ qualifierOr pkg.tableAlias name = pkg.joinedTableAlias then
    (pkg.joinedTableName, bareName name)
  else
    (pkg.tableName, bareName name)

/-- The table and the column `execute` reads a projected name from. A scan takes
the name whole. -/
def executedSource (pkg : QueryPackage) (name : Str) : Str × Str :=
  if pkg.hasJoin then ((joinSource pkg 0 0 name).1, bareName name) else (pkg.tableName, name)

variable {cat : Catalog} {pkg : QueryPackage} {schema : TableSchema} {name : Str}

theorem namesColumn_iff_known (table : cat.getTable pkg.tableName = .ok schema) :
    NamesColumn cat pkg schema name ↔ Known cat (checkedSource pkg name) := by
  simp only [NamesColumn, QueryValidator.targetTable, Known, checkedSource,
    TableSchema.hasColumn_iff, pure_eq_ok]
  by_cases joined : pkg.hasJoin ∧ qualifierOr pkg.tableAlias name = pkg.joinedTableAlias
  · simp only [if_pos joined, exists_and_left]
  · simp only [if_neg joined, exists_and_left, table]

/-- A catalog with a table of one column, and another table without columns. -/
def soleColumn (other : Str) (source : Str × Str) : Catalog :=
  (({} : Catalog).registerTable { tableId := other, columns := [] }).registerTable
    { tableId := source.1, columns := [{ name := source.2, type := .INT64 }] }

theorem soleColumn_other (other : Str) (source : Str × Str) :
    ∃ schema, (soleColumn other source).getTable other = .ok schema := by
  by_cases same : other = source.1
  · subst same
    exact ⟨_, Catalog.getTable_registerTable _ _⟩
  · refine ⟨{ tableId := other, columns := [] }, ?_⟩
    rw [soleColumn, Catalog.getTable_registerTable_ne _ _ same]
    exact Catalog.getTable_registerTable _ _

theorem known_soleColumn {other : Str} {source source' : Str × Str} :
    Known (soleColumn other source) source' ↔ source' = source := by
  constructor
  · rintro ⟨t, c, ht, hc⟩
    obtain ⟨mem, named⟩ := TableSchema.column_ok hc
    by_cases same : source'.1 = source.1
    · rw [same] at ht
      cases ht.symm.trans (Catalog.getTable_registerTable _ _)
      rw [List.mem_singleton.mp mem] at named
      exact Prod.ext same named.symm
    · rw [soleColumn, Catalog.getTable_registerTable_ne _ _ same] at ht
      by_cases left : source'.1 = other
      · rw [left] at ht
        cases ht.symm.trans (Catalog.getTable_registerTable _ _)
        cases mem
      · rw [Catalog.getTable_registerTable_ne _ _ left] at ht
        cases ht
  · rintro rfl
    refine ⟨_, { name := source'.2, type := .INT64 }, Catalog.getTable_registerTable _ _, ?_⟩
    simp [TableSchema.column]

/-- A catalog with the checked column only tells what a name is checked against. -/
theorem checksAgainst_iff {source : Str × Str} :
    ChecksAgainst pkg name source ↔ source = checkedSource pkg name := by
  have checked : ChecksAgainst pkg name (checkedSource pkg name) := fun cat schema table =>
    validateProjectColumn_ok_iff.trans (namesColumn_iff_known table)
  constructor
  · intro against
    obtain ⟨schema, table⟩ := soleColumn_other pkg.tableName (checkedSource pkg name)
    have passes := (checked _ schema table).mpr (known_soleColumn.mpr rfl)
    exact known_soleColumn.mp ((against _ schema table).mp passes)
  · rintro rfl
    exact checked

section Reading

variable (P : Proto1)

/-- One result column, read from a chunk of the storage. -/
def storedPosition {m : Type → Type} [Monad m] [MonadExceptOf Exn m]
    (storage : EncryptedStorage m P.EncryptedVector) (table : Str) (cs : ColumnSchema)
    (chunkId : Nat) (name : Str) (x : Str × Nat) : m EncryptedColumnResult := do
  let chunk ← storage.getChunk table x.1 0 chunkId
  match chunk.ciphertexts with
  | [] => throw (.runtimeError (str "JOIN result column has no ciphertext"))
  | ct :: _ => pure (columnResult P name cs x.2 ct)

/-- The result columns of a column of a table, read from the storage. -/
def readStored {m : Type → Type} [Monad m] [MonadExceptOf Exn m]
    (storage : EncryptedStorage m P.EncryptedVector) (cat : Catalog) (source : Str × Str)
    (chunkId : Nat) (name : Str) : m (List EncryptedColumnResult) := do
  let t ← MonadExcept.ofExcept (cat.getTable source.1)
  let cs ← MonadExcept.ofExcept (t.column source.2)
  (physicalColumns P cs source.2).zipIdx.mapM (storedPosition P storage source.1 cs chunkId name)

/-- One result column, taken from a scanned batch. -/
def batchPosition (batch : EncryptedBatch P.EncryptedVector) (cs : ColumnSchema) (name : Str)
    (x : Str × Nat) : Except Exn EncryptedColumnResult :=
  match batch.columns.lookup x.1 with
  | none => throw (.runtimeError (str "QueryExecutor: missing column: " ++ x.1))
  | some chunk =>
    match chunk.ciphertexts with
    | [] => throw (.runtimeError (str "QueryExecutor: empty ciphertext for: " ++ x.1))
    | ct :: _ => pure (columnResult P name cs x.2 ct)

/-- The same from a batch that holds the physical columns of one table. -/
def readBatch (cat : Catalog) (source : Str × Str) (batch : EncryptedBatch P.EncryptedVector)
    (name : Str) : Except Exn (List EncryptedColumnResult) := do
  let t ← cat.getTable source.1
  let cs ← t.column source.2
  (physicalColumns P cs source.2).zipIdx.mapM (batchPosition P batch cs name)

/-- A join returns for a name what its executed source holds. -/
theorem joinColumn_eq_readStored {m : Type → Type} [Monad m] [MonadExceptOf Exn m]
    (storage : EncryptedStorage m P.EncryptedVector) (joins : pkg.hasJoin = true)
    (leftChunk rightChunk : Nat) :
    joinColumn P storage cat pkg leftChunk rightChunk name =
      readStored P storage cat (executedSource pkg name)
        (joinSource pkg leftChunk rightChunk name).2 name := by
  have table : ∀ l r, (joinSource pkg l r name).1 = (joinSource pkg 0 0 name).1 := by
    intro l r
    by_cases own : qualifierOr pkg.tableAlias name = pkg.tableAlias
    · simp only [joinSource, if_pos own]
    · simp only [joinSource, if_neg own]
  simp only [joinColumn, readStored, executedSource, joins, if_true, table leftChunk rightChunk]
  rfl

/-- So does a scan. -/
theorem scanColumn_eq_readBatch (scans : pkg.hasJoin = false)
    (batch : EncryptedBatch P.EncryptedVector) :
    scanColumn P cat pkg batch name = readBatch P cat (executedSource pkg name) batch name := by
  simp only [scanColumn, readBatch, executedSource, scans, Bool.false_eq_true, if_false]
  rfl

/-- A storage that has a ciphertext for every request. -/
def Serves (storage : EncryptedStorage (Except Exn) P.EncryptedVector) : Prop :=
  ∀ table physical partition chunkId, ∃ chunk,
    storage.getChunk table physical partition chunkId = .ok chunk ∧ chunk.ciphertexts ≠ []

/-- A batch that has a ciphertext under a physical name. -/
def HasCiphertext (batch : EncryptedBatch P.EncryptedVector) (physical : Str) : Prop :=
  ∃ chunk, batch.columns.lookup physical = some chunk ∧ chunk.ciphertexts ≠ []

/-- Every physical column of a table belongs to one column, at one position. -/
structure PhysicalsApart (t : TableSchema) : Prop where
  nodup : ∀ c ∈ t.columns, (physicalColumns P c c.name).Nodup
  apart : ∀ c ∈ t.columns, ∀ d ∈ t.columns, ∀ physical ∈ physicalColumns P c c.name,
    physical ∈ physicalColumns P d d.name → c.name = d.name

theorem forall_zipIdx_fst {α : Type} {l : List α} {p : α → Prop} :
    (∀ x ∈ l.zipIdx, p x.1) ↔ ∀ a ∈ l, p a := by
  rw [← List.forall_mem_map (f := Prod.fst), List.zipIdx_map_fst]

theorem readStored_ok {storage : EncryptedStorage (Except Exn) P.EncryptedVector}
    (serves : Serves P storage) {source : Str × Str} (known : Known cat source) (chunkId : Nat) :
    ∃ columns, readStored P storage cat source chunkId name = .ok columns := by
  obtain ⟨t, c, ht, hc⟩ := known
  simp only [readStored, ofExcept_eq, ht, hc, ok_bind]
  apply mapM_isOk_iff.mpr
  intro x _
  obtain ⟨chunk, hchunk, nonempty⟩ := serves source.1 x.1 0 chunkId
  cases hct : chunk.ciphertexts with
  | nil => exact (nonempty hct).elim
  | cons ct cts =>
    exact ⟨_, by simp only [storedPosition, hchunk, ok_bind, hct, pure_eq_ok]; rfl⟩

theorem batchPosition_ok_iff {batch : EncryptedBatch P.EncryptedVector} {c : ColumnSchema}
    {x : Str × Nat} :
    (∃ column, batchPosition P batch c name x = .ok column) ↔ HasCiphertext P batch x.1 := by
  unfold batchPosition
  cases hl : batch.columns.lookup x.1 with
  | none => simp [HasCiphertext, hl]
  | some chunk => cases hct : chunk.ciphertexts <;> simp [HasCiphertext, hl, hct]

theorem readBatch_ok_iff {source : Str × Str} {batch : EncryptedBatch P.EncryptedVector} :
    (∃ columns, readBatch P cat source batch name = .ok columns) ↔
      ∃ t c, cat.getTable source.1 = .ok t ∧ t.column source.2 = .ok c ∧
        ∀ physical ∈ physicalColumns P c source.2, HasCiphertext P batch physical := by
  simp only [readBatch, bind_ok_iff]
  constructor
  · rintro ⟨columns, t, ht, c, hc, loop⟩
    refine ⟨t, c, ht, hc, forall_zipIdx_fst.mp fun x mem => ?_⟩
    apply (batchPosition_ok_iff P).mp
    exact mapM_isOk_iff.mp ⟨columns, loop⟩ x mem
  · rintro ⟨t, c, ht, hc, all⟩
    obtain ⟨columns, loop⟩ := mapM_isOk_iff.mpr fun x mem =>
      (batchPosition_ok_iff P).mpr (forall_zipIdx_fst.mpr all x mem)
    exact ⟨columns, t, ht, c, hc, loop⟩

/-- The physical columns of known columns, and which they are. -/
theorem physicalColumnList_ok (table : cat.getTable pkg.tableName = .ok schema)
    {columns : List Str} (known : ∀ col ∈ columns, schema.hasColumn col = true) :
    ∃ physicalNames, physicalColumnList P cat pkg columns = .ok physicalNames ∧
      ∀ physical, physical ∈ physicalNames ↔ ∃ col ∈ columns, ∃ c,
        schema.column col = .ok c ∧ physical ∈ physicalColumns P c col := by
  induction columns with
  | nil => exact ⟨[], rfl, by simp⟩
  | cons col columns ih =>
    obtain ⟨c, hc⟩ := TableSchema.hasColumn_iff.mp (known col List.mem_cons_self)
    obtain ⟨rest, hrest, mem⟩ := ih fun d hd => known d (List.mem_cons_of_mem col hd)
    simp only [physicalColumnList, table, ok_bind] at hrest ⊢
    obtain ⟨parts, hparts, hjoin⟩ := bind_ok_iff.mp hrest
    cases hjoin
    refine ⟨physicalColumns P c col ++ parts.flatten, ?_, fun physical => ?_⟩
    · simp only [List.mapM_cons, hc, ok_bind, hparts]
      rfl
    · rw [List.mem_append, mem]
      constructor
      · rintro (own | ⟨d, hd, found⟩)
        · exact ⟨col, List.mem_cons_self, c, hc, own⟩
        · exact ⟨d, List.mem_cons_of_mem col hd, found⟩
      · rintro ⟨d, hd, c', hc', own⟩
        rcases List.mem_cons.mp hd with rfl | hd
        · obtain rfl := Except.ok.inj (hc.symm.trans hc')
          exact Or.inl own
        · exact Or.inr ⟨d, hd, c', hc', own⟩

/-- A physical column of a column of a table. -/
def holds (cat : Catalog) (source : Str × Str) (physical : Str) : Bool :=
  match cat.getTable source.1 with
  | .error _ => false
  | .ok t =>
    match t.column source.2 with
    | .error _ => false
    | .ok c => decide (physical ∈ physicalColumns P c source.2)

theorem holds_iff {source : Str × Str} {physical : Str} :
    holds P cat source physical = true ↔ ∃ t c, cat.getTable source.1 = .ok t ∧
      t.column source.2 = .ok c ∧ physical ∈ physicalColumns P c source.2 := by
  unfold holds
  cases ht : cat.getTable source.1 with
  | error e => simp
  | ok t => cases hc : t.column source.2 <;> simp [hc]

/-- A physical column is listed once for every listed column it belongs to. -/
theorem count_physicalColumnList (table : cat.getTable pkg.tableName = .ok schema)
    {columns physicals : List Str} (nodup : ∀ col ∈ columns, ∀ c, schema.column col = .ok c →
      (physicalColumns P c col).Nodup)
    (list : physicalColumnList P cat pkg columns = .ok physicals) (physical : Str) :
    physicals.count physical =
      columns.countP fun col => holds P cat (pkg.tableName, col) physical := by
  induction columns generalizing physicals with
  | nil =>
    cases list
    rfl
  | cons col columns ih =>
    simp only [physicalColumnList, table, ok_bind, List.mapM_cons] at list ih
    obtain ⟨parts, loop, same⟩ := bind_ok_iff.mp list
    obtain ⟨own, hown, loop⟩ := bind_ok_iff.mp loop
    obtain ⟨rest, hrest, loop⟩ := bind_ok_iff.mp loop
    cases loop
    cases same
    obtain ⟨c, hc, hown⟩ := bind_ok_iff.mp hown
    cases hown
    have tail := ih (fun d mem => nodup d (List.mem_cons_of_mem col mem)) (by rw [hrest]; rfl)
    have once := nodup col List.mem_cons_self c hc
    rw [List.flatten_cons, List.count_append, tail, List.countP_cons, Nat.add_comm]
    by_cases mem : physical ∈ physicalColumns P c col
    · rw [List.count_eq_one_of_mem once mem, if_pos ((holds_iff P).mpr ⟨schema, c, table, hc, mem⟩)]
    · have other : ¬ holds P cat (pkg.tableName, col) physical = true := by
        rintro held
        obtain ⟨t, d, ht, hd, inside⟩ := (holds_iff P).mp held
        cases ht.symm.trans table
        cases hd.symm.trans hc
        exact mem inside
      rw [List.count_eq_zero_of_not_mem mem, if_neg other]

/-- Distinct columns whose physical columns are apart have distinct ones. -/
theorem nodup_physicalColumnList (table : cat.getTable pkg.tableName = .ok schema)
    (apart : PhysicalsApart P schema) {columns physicals : List Str} (distinct : columns.Nodup)
    (list : physicalColumnList P cat pkg columns = .ok physicals) : physicals.Nodup := by
  induction columns generalizing physicals with
  | nil =>
    cases list
    exact List.nodup_nil
  | cons col columns ih =>
    obtain ⟨fresh, unique⟩ := List.nodup_cons.mp distinct
    simp only [physicalColumnList, table, ok_bind, List.mapM_cons] at list ih
    obtain ⟨parts, loop, same⟩ := bind_ok_iff.mp list
    obtain ⟨own, hown, loop⟩ := bind_ok_iff.mp loop
    obtain ⟨rest, hrest, loop⟩ := bind_ok_iff.mp loop
    cases loop
    cases same
    obtain ⟨c, hc, hown⟩ := bind_ok_iff.mp hown
    cases hown
    obtain ⟨inside, rfl⟩ := TableSchema.column_ok hc
    rw [List.flatten_cons]
    refine (apart.nodup c inside).append (ih unique (by rw [hrest]; rfl))
      fun physical mem mem' => ?_
    obtain ⟨part, found, here⟩ := List.mem_flatten.mp mem'
    obtain ⟨other, listed, step⟩ := mapM_ok_mem hrest found
    obtain ⟨d, hd, step⟩ := bind_ok_iff.mp step
    cases step
    obtain ⟨inside', rfl⟩ := TableSchema.column_ok hd
    rw [apart.apart c inside d inside' physical mem here] at fresh
    exact fresh listed

theorem source_eq_iff_of_join (joins : pkg.hasJoin = true) :
    executedSource pkg name = checkedSource pkg name ↔
      (qualifierOr pkg.tableAlias name = pkg.tableAlias ↔
        qualifierOr pkg.tableAlias name ≠ pkg.joinedTableAlias) ∨
      pkg.tableName = pkg.joinedTableName := by
  simp only [executedSource, checkedSource, joinSource, joins, if_true, true_and]
  generalize qualifierOr pkg.tableAlias name = q
  by_cases own : q = pkg.tableAlias
  · by_cases other : q = pkg.joinedTableAlias
    · simp [eq_true own, eq_true other]
    · simp [eq_true own, eq_false other]
  · by_cases other : q = pkg.joinedTableAlias
    · simp [eq_false own, eq_true other]
    · simp [eq_false own, eq_false other, eq_comm]

theorem bareName_eq_self_iff : bareName name = name ↔ dot ∉ name := by
  constructor
  · intro same dotted
    obtain ⟨d, hd⟩ : ∃ d, findDot name = some d := by
      cases h : findDot name with
      | none => exact (findDot_eq_none_iff.mp h dotted).elim
      | some d => exact ⟨d, rfl⟩
    simp only [bareName, hd] at same
    have shorter := congrArg List.length same
    have nonempty := List.length_pos_of_mem dotted
    rw [List.length_drop] at shorter
    omega
  · exact bareName_plain

end Reading

/-- The first half of `filterProject`. -/
def filterBatch {P : Proto1} (where? : Option (Expression P.EncryptedVector))
    (batch : EncryptedBatch P.EncryptedVector) : Except Exn (EncryptedBatch P.EncryptedVector) :=
  match where? with
  | some e => fromProto1 (P.filterExec e batch)
  | none => pure batch

theorem filterProject_eq {P : Proto1} (where? : Option (Expression P.EncryptedVector))
    (listed : List Str) (batch : EncryptedBatch P.EncryptedVector) :
    filterProject P where? listed batch = (filterBatch where? batch >>= fun filtered =>
      fromProto1 (P.projectExec listed filtered)) := by
  cases where? <;> rfl

/-- Filtering leaves the columns of a batch as they are. -/
theorem filterBatch_keeps {P : Proto1} (keeps : KeepsColumns P)
    {where? : Option (Expression P.EncryptedVector)}
    {batch filtered : EncryptedBatch P.EncryptedVector}
    (filters : filterBatch where? batch = .ok filtered) :
    filtered.logicalRowCount = batch.logicalRowCount ∧
      ∀ physical, filtered.columns.lookup physical = batch.columns.lookup physical := by
  cases where? with
  | none =>
    cases filters
    exact ⟨rfl, fun _ => rfl⟩
  | some e => exact keeps.filter e batch filtered (fromProto1_ok_iff.mp filters)

/-- The package of `SELECT column FROM employees e`. -/
def employeesPackage (column : Str) : QueryPackage where
  tableName := str "employees"
  tableAlias := str "e"
  scanColumns := [str "age"]
  projectColumns := [column]

/-- A join of employees `e` and departments `d`, projected to one column. -/
def departmentsPackage (column : Str) : QueryPackage where
  tableName := str "employees"
  tableAlias := str "e"
  joinedTableName := str "departments"
  joinedTableAlias := str "d"
  joinLeftColumn := str "e.department_id"
  joinRightColumn := str "d.id"
  hasJoin := true
  projectColumns := [column]

end FheSql.ColumnResolution
