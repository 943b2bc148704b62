import FheSql.ColumnResolution
import FheSql.DecodedRows
import FheSql.PlanCoverage
import FheSql.PredicateExecution

/-!
# Single-table queries end to end

From an analyzed statement over one table through both planners, the encryptor, the
executor and the decoder: the decoded rows show what the plaintext semantics answers.
-/

namespace FheSql.ScanCorrectness

open ByteText Throwing SemanticAnalyzer AnalyzedStatement StatementPlan ClientPipeline
open QueryEncryptor QueryExecutor ResultDecoder PipelineAcceptance PredicateMeaning
open PredicateExecution SqlSemantics StoredRows DecodedRows IndicatorPoly Pointwise
open ColumnResolution

/-- A table of integers and strings. -/
structure PlainTable (schema : TableSchema) : Prop where
  distinct : (schema.columns.map (·.name)).Nodup
  types : ∀ c ∈ schema.columns, c.type = .INT64 ∨ c.type = .STRING ∧ 1 ≤ c.maxLength

section Storage

variable {P : Proto1} (sem : SlotSemantics P)
  (storage : EncryptedStorage (Except Exn) P.EncryptedVector)

/-- A scanned batch with one ciphertext for each of some physical columns, which holds
the codes of a chunk of rows. -/
structure BatchHolds (schema : TableSchema) (names : List Str)
    (batch : EncryptedBatch P.EncryptedVector) (rows : List Row) : Prop where
  rowCount : batch.logicalRowCount = rows.length
  unmasked : batch.selectionMask = none
  column : ∀ c ∈ schema.columns, ∀ position < width c,
    physicalName P c c.name position ∈ names → ∃ chunk ct,
      batch.columns.lookup (physicalName P c c.name position) = some chunk ∧
      chunk.ciphertexts = [ct] ∧ ∀ (i : Nat) row, rows[i]? = some row →
        sem.slot ct i = (code (row c.name) position : Slot)

/-- A table stored in chunks: every scan of some columns yields one batch for each chunk. -/
structure Stores (table : Str) (schema : TableSchema) (chunks : List (List Row)) : Prop where
  fits : ∀ rows ∈ chunks, ∀ row ∈ rows, RowFits schema row
  slots : ∀ rows ∈ chunks, rows.length ≤ P.slotCount ∧ rows.length < 2 ^ 60
  apart : PhysicalsApart P schema
  scan : ∀ names : List Str, names ≠ [] → (∀ name ∈ names, ∃ c ∈ schema.columns,
      ∃ position < width c, name = physicalName P c c.name position) →
    ∃ batches, storage.tableScan table names = .ok batches ∧
      List.Forall₂ (BatchHolds sem schema names) batches chunks

end Storage

/-- Comparisons of a column with a literal, or of two INT64 columns. -/
def SupportedOperands (schema : TableSchema) : ASTExpr → ASTExpr → Prop
  | .columnRef _, .intLiteral v => 0 ≤ v ∧ v ≤ 128
  | .intLiteral v, .columnRef _ => 0 ≤ v ∧ v ≤ 128
  | .columnRef _, .stringLiteral s => (0 : UInt8) ∉ s
  | .stringLiteral s, .columnRef _ => (0 : UInt8) ∉ s
  | .columnRef a, .columnRef b => ∀ name ∈ [a, b], ∀ c, schema.column name = .ok c → c.type = .INT64
  | _, _ => False

/-- Conditions built from such comparisons. -/
def Supported (schema : TableSchema) : ASTExpr → Prop
  | .comparison _ l r => SupportedOperands schema l r
  | .boolean _ l r => Supported schema l ∧ Supported schema r
  | .notExpr e => Supported schema e
  | _ => False

/-- Statements over one table with unqualified names. -/
structure SupportedQuery (stmt : SelectStatement) (schema : TableSchema) : Prop where
  single : stmt.joins = []
  projections : ∀ name ∈ stmt.projections, dot ∉ name
  conditions : ∀ name ∈ whereReferences stmt, dot ∉ name
  orderBy : ∀ o ∈ stmt.orderByColumns, dot ∉ o.columnName ∧
    ∀ c, schema.column o.columnName = .ok c → c.type = .INT64
  whereOk : ∀ e, stmt.whereClause = some e → Supported schema e

/-- The columns a statement asks for. -/
def requested (stmt : SelectStatement) (schema : TableSchema) : List Str :=
  if stmt.projections = [] then schema.columns.map (·.name) else stmt.projections

/-- The projected columns can be sent: there are some, none is asked for twice, a star
expands to names without dots, and the positions of a string are numbered in 32 bits. -/
structure Projectable (stmt : SelectStatement) (schema : TableSchema) : Prop where
  nonempty : requested stmt schema ≠ []
  distinct : stmt.projections.Nodup
  undotted : stmt.projections = [] → ∀ c ∈ schema.columns, dot ∉ c.name
  narrow : ∀ name ∈ LogicalPlanner.projectColumns stmt schema, ∀ c,
    schema.column name = .ok c → width c < 2 ^ 32

variable {cat : Catalog} {stmt : SelectStatement} {schema : TableSchema}
  {scopes : StringMap TableSchema}

theorem finds_plain (table : cat.getTable stmt.tableName = .ok schema) {name : Str}
    (plain : dot ∉ name) {c : ColumnSchema} (h : Finds cat stmt name c) :
    schema.column name = .ok c := by
  simp only [Finds, resolveInComparison, findDot_eq_none_iff.mpr plain, table, ok_bind,
    throw_eq_error] at h
  exact (guard_ok_iff.mp h).2

variable (schema) in
/-- The columns of a scan. -/
def Scanned (names : List Str) (name : Str) (c : ColumnSchema) : Prop :=
  name ∈ names ∧ schema.column name = .ok c

/-- What `analyze` accepts of a supported condition is typed. -/
theorem typed_of_supported (table : cat.getTable stmt.tableName = .ok schema) {names : List Str}
    {e : ASTExpr} (accepted : validateExpr cat stmt e = .ok ()) (supported : Supported schema e)
    (known : ∀ name ∈ StatementPlan.references e, dot ∉ name ∧ name ∈ names) :
    Typed (Scanned schema names) schema e := by
  induction e with
  | columnRef | intLiteral | stringLiteral => exact supported.elim
  | comparison kind l r =>
    have ok := validateComparison_ok_iff.mp accepted
    have column : ∀ {name c}, name ∈ StatementPlan.references (.comparison kind l r) →
        Finds cat stmt name c → Scanned schema names name c := fun mem found =>
      ⟨(known _ mem).2, finds_plain table (known _ mem).1 found⟩
    have string : ∀ {name s}, name ∈ StatementPlan.references (.comparison kind l r) →
        stringComparison? l r = some (name, s) → (0 : UInt8) ∉ s →
        (CompareKind.isOrdering kind = false ∧ ∃ c, Finds cat stmt name c ∧ c.type = .STRING ∧
          c.maxLength ≠ 0 ∧ s.length ≤ c.maxLength) →
        Typed (Scanned schema names) schema (.comparison kind l r) := by
      rintro name s mem shape nul ⟨ordering, c, found, type, wide, fits⟩
      have here := column mem found
      refine .string shape (isOrdering_false_iff.mp ordering) here type ?_ (by omega) fits nul
      rw [bareName_plain (known _ mem).1]
      exact here.2
    cases l with
    | columnRef a =>
      cases r with
      | columnRef b =>
        obtain ⟨ca, cb, foundA, foundB, _⟩ := ok
        have hereA := column (List.mem_append_left _ (List.mem_singleton.mpr rfl)) foundA
        have hereB := column (List.mem_append_right _ (List.mem_singleton.mpr rfl)) foundB
        exact .int (.column hereA (supported a (by simp) ca hereA.2))
          (.column hereB (supported b (by simp) cb hereB.2))
      | intLiteral v =>
        obtain ⟨c, found, type⟩ := ok
        exact .int (.column (column (List.mem_append_left _ (List.mem_singleton.mpr rfl)) found)
          type) (.literal supported.1 supported.2)
      | stringLiteral s =>
        exact string (List.mem_append_left _ (List.mem_singleton.mpr rfl)) rfl supported ok
      | comparison | boolean | notExpr => exact ok.elim
    | intLiteral v =>
      cases r with
      | columnRef a =>
        obtain ⟨c, found, type⟩ := ok
        exact .int (.literal supported.1 supported.2) (.column (column
          (List.mem_append_right _ (List.mem_singleton.mpr rfl)) found) type)
      | intLiteral | stringLiteral | comparison | boolean | notExpr => exact ok.elim
    | stringLiteral s =>
      cases r with
      | columnRef a =>
        exact string (List.mem_append_right _ (List.mem_singleton.mpr rfl)) rfl supported ok
      | intLiteral | stringLiteral | comparison | boolean | notExpr => exact ok.elim
    | comparison | boolean | notExpr => exact supported.elim
  | boolean kind l r ihl ihr =>
    obtain ⟨u, left, right⟩ := bind_ok_iff.mp accepted
    exact .boolean
      (ihl left supported.1 fun name mem => known name (List.mem_append_left _ mem))
      (ihr right supported.2 fun name mem => known name (List.mem_append_right _ mem))
  | notExpr e ih => exact .notExpr (ih accepted supported known)

/-- The projected columns are some and distinct. -/
theorem Projectable.projected (sendable : Projectable stmt schema) (table : PlainTable schema) :
    LogicalPlanner.projectColumns stmt schema ≠ [] ∧
      (LogicalPlanner.projectColumns stmt schema).Nodup := by
  constructor
  · obtain ⟨name, mem⟩ := List.exists_mem_of_ne_nil _ sendable.nonempty
    exact List.ne_nil_of_mem (StatementPlan.mem_foldl_pushUnique.mpr (Or.inl mem))
  · apply nodup_foldl_pushUnique
    split
    · exact table.distinct
    · exact sendable.distinct

/-- The projected names are columns of the table, without a qualifier. -/
theorem column_of_projected (analyzed : Analyzed cat stmt schema scopes)
    (query : SupportedQuery stmt schema) (table : PlainTable schema)
    (undotted : stmt.projections = [] → ∀ c ∈ schema.columns, dot ∉ c.name) {name : Str}
    (mem : name ∈ LogicalPlanner.projectColumns stmt schema) :
    dot ∉ name ∧ ∃ c, schema.column name = .ok c := by
  rcases StatementPlan.mem_foldl_pushUnique.mp mem with mem | mem
  · by_cases star : stmt.projections = []
    · rw [if_pos star] at mem
      obtain ⟨c, hc, rfl⟩ := List.mem_map.mp mem
      exact ⟨undotted star c hc, c, TableSchema.column_of_mem table.distinct hc⟩
    · rw [if_neg star] at mem
      obtain ⟨c, hc⟩ := analyzed.projections name mem
      have plain := query.projections name mem
      exact ⟨plain, c, resolve_single analyzed query.single plain hc⟩
  · obtain ⟨o, ho, rfl⟩ := List.mem_map.mp mem
    obtain ⟨c, hc⟩ := analyzed.orderBy o ho
    have plain := (query.orderBy o ho).1
    exact ⟨plain, c, resolve_single analyzed query.single plain hc⟩

section Batches

variable {P : Proto1} (sem : SlotSemantics P) {pkg : QueryPackage} {rows : List Row}
  {physical : List Str} {batch : EncryptedBatch P.EncryptedVector}

/-- The ciphertexts of a column of a batch. -/
theorem exists_cells (holds : BatchHolds sem schema physical batch rows) {name : Str}
    {c : ColumnSchema} (hc : schema.column name = .ok c) (wide : 1 ≤ width c)
    (scanned : ∀ position < width c, physicalName P c name position ∈ physical) :
    ∃ ct : Nat → P.EncryptedVector, ∀ position < width c, ∃ chunk,
      batch.columns.lookup (physicalName P c name position) = some chunk ∧
      chunk.ciphertexts = [ct position] ∧ ∀ (i : Nat) row, rows[i]? = some row →
        sem.slot (ct position) i = (code (row name) position : Slot) := by
  obtain ⟨mem, rfl⟩ := TableSchema.column_ok hc
  have cell : ∀ position < width c, ∃ ct chunk,
      batch.columns.lookup (physicalName P c c.name position) = some chunk ∧
      chunk.ciphertexts = [ct] ∧ ∀ (i : Nat) row, rows[i]? = some row →
        sem.slot ct i = (code (row c.name) position : Slot) := by
    intro position inside
    obtain ⟨chunk, ct, found⟩ := holds.column c mem position inside (scanned position inside)
    exact ⟨ct, chunk, found⟩
  exact exists_below wide cell

/-- The result columns of a projected name. -/
theorem scanColumn_carries (tableOk : cat.getTable pkg.tableName = .ok schema)
    (holds : BatchHolds sem schema physical batch rows) {name : Str} {c : ColumnSchema}
    (hc : schema.column name = .ok c) (wide : 1 ≤ width c)
    (scanned : ∀ position < width c, physicalName P c name position ∈ physical)
    {projected : EncryptedBatch P.EncryptedVector}
    (same : ∀ position < width c, projected.columns.lookup (physicalName P c name position) =
      batch.columns.lookup (physicalName P c name position)) :
    ∃ crs, scanColumn P cat pkg projected name = .ok crs ∧ Carries sem rows (name, c) crs := by
  obtain ⟨ct, cells⟩ := exists_cells sem holds hc wide scanned
  refine ⟨(List.range (width c)).map fun position => columnResult P name c position (ct position),
    ?_, ct, rfl, fun position inside => (cells position inside).choose_spec.2.2⟩
  simp only [scanColumn, tableOk, hc, ok_bind, physicalColumns_eq, zipIdx_map_range]
  refine mapM_ok_iff.mpr ?_
  rw [List.forall₂_map_left_iff, List.forall₂_map_right_iff, List.forall₂_same]
  intro position mem
  have inside := List.mem_range.mp mem
  obtain ⟨chunk, found, single, _⟩ := cells position inside
  simp only [same position inside, found, single, pure_eq_ok]

/-- The mask of a filtered batch; without one all rows pass. -/
def Masks (chosen : Row → Bool) (rows : List Row) : Option P.EncryptedVector → Prop
  | none => ∀ row ∈ rows, chosen row = true
  | some mask => ∀ (i : Nat) row, rows[i]? = some row → sem.slot mask i = bit (chosen row = true)

/-- The slots of a batch hold the codes of a row. -/
theorem agrees_of_holds (holds : BatchHolds sem schema physical batch rows) {names : List Str}
    (scanned : ∀ name c, Scanned schema names name c → ∀ position < width c,
      physicalName P c name position ∈ physical)
    (fits : ∀ row ∈ rows, RowFits schema row) {i : Nat} {row : Row} (here : rows[i]? = some row) :
    Agrees P (Scanned schema names) row fun name =>
      ((batch.first? name).map (sem.slot · i)).getD 0 := by
  rintro reference c ⟨listed, hc⟩
  have inside := scanned reference c ⟨listed, hc⟩
  obtain ⟨mem, rfl⟩ := TableSchema.column_ok hc
  refine ⟨fits row (List.mem_of_getElem? here) c mem, fun position lt => ?_⟩
  obtain ⟨chunk, ct, found, single, slots⟩ := holds.column c mem position lt (inside position lt)
  simp only [EncryptedBatch.first?, found, Option.bind_some, single, List.head?_cons,
    Option.map_some, Option.getD_some]
  exact slots i row here

theorem filter_batch (holds : BatchHolds sem schema physical batch rows) {names : List Str}
    (scanned : ∀ name c, Scanned schema names name c → ∀ position < width c,
      physicalName P c name position ∈ physical)
    (fits : ∀ row ∈ rows, RowFits schema row) (small : rows.length ≤ P.slotCount)
    {whereClause : Option ASTExpr} {where? : Option (Expression P.EncryptedVector)}
    (filters : Filters sem (Scanned schema names) whereClause where?) :
    ∃ filtered, filterBatch where? batch = .ok filtered ∧
      filtered.columns = batch.columns ∧ filtered.logicalRowCount = (rows.length : Int) ∧
      Masks sem (satisfies whereClause) rows filtered.selectionMask := by
  cases filters with
  | absent =>
    refine ⟨batch, rfl, rfl, holds.rowCount, ?_⟩
    rw [holds.unmasked]
    exact fun _ _ => rfl
  | @present e built executes =>
    have present : ∀ name ∈ built.columns, ∃ ct, batch.first? name = some ct := by
      intro name mem
      obtain ⟨reference, c, position, ⟨listed, hc⟩, lt, rfl⟩ := executes.reads name mem
      have inside := scanned reference c ⟨listed, hc⟩ position lt
      obtain ⟨member, rfl⟩ := TableSchema.column_ok hc
      obtain ⟨chunk, ct, found, single, _⟩ := holds.column c member position lt inside
      exact ⟨ct, by rw [EncryptedBatch.first?, found, Option.bind_some, single]; rfl⟩
    obtain ⟨mask, evaluated, slots⟩ := sem.evaluate built batch executes.mask present
    refine ⟨{ batch with selectionMask := some mask }, ?_, rfl, holds.rowCount, ?_⟩
    · exact congrArg fromProto1 (sem.filterExec built batch mask holds.unmasked evaluated)
    · intro i row here
      have inside : i < P.slotCount :=
        lt_of_lt_of_le (List.getElem?_eq_some_iff.mp here).1 small
      rw [slots i inside]
      exact executes.value i inside row _ (agrees_of_holds sem holds scanned fits here)

/-- Filtered and projected, a batch has a mask for the condition and still the
columns that are sent. -/
theorem filterProject_ok (holds : BatchHolds sem schema physical batch rows) {names : List Str}
    (scanned : ∀ name c, Scanned schema names name c → ∀ position < width c,
      physicalName P c name position ∈ physical)
    (fits : ∀ row ∈ rows, RowFits schema row) (small : rows.length ≤ P.slotCount)
    {whereClause : Option ASTExpr} {where? : Option (Expression P.EncryptedVector)}
    (filters : Filters sem (Scanned schema names) whereClause where?) {listed : List Str}
    (distinct : listed.Nodup)
    (stored : ∀ name ∈ listed, ∃ chunk, batch.columns.lookup name = some chunk) :
    ∃ projected, filterProject P where? listed batch = .ok projected ∧
      projected.logicalRowCount = (rows.length : Int) ∧
      Masks sem (satisfies whereClause) rows projected.selectionMask ∧
      ∀ name ∈ listed, projected.columns.lookup name = batch.columns.lookup name := by
  obtain ⟨filtered, filterOk, columns, count, mask⟩ :=
    filter_batch sem holds scanned fits small filters
  rw [← columns] at stored ⊢
  obtain ⟨projected, projectOk, sameCount, sameMask, same⟩ :=
    sem.projectExec.of_nodup distinct stored
  refine ⟨projected, ?_, sameCount.trans count, sameMask ▸ mask, same⟩
  rw [filterProject_eq, filterOk, ok_bind, projectOk, fromProto1_ok]

theorem PlainTable.wide (table : PlainTable schema) {name : Str} {c : ColumnSchema}
    (h : schema.column name = .ok c) : 1 ≤ width c := by
  rcases table.types c (TableSchema.column_ok h).1 with int | ⟨string, wide⟩
  · simp [width, int]
  · simpa [width, string] using wide

/-- The columns of some names of a table. -/
def ColumnsOf (schema : TableSchema) (names : List Str) (parts : List (Str × ColumnSchema)) :
    Prop :=
  Parts (fun name c => schema.column name = .ok c) names parts

theorem ColumnsOf.ok {names : List Str} {parts : List (Str × ColumnSchema)}
    (h : ColumnsOf schema names parts) (table : PlainTable schema)
    (narrow : ∀ name ∈ names, ∀ c, schema.column name = .ok c → width c < 2 ^ 32) :
    PartsOk parts where
  unique _ _ _ hc hd := Except.ok.inj ((Parts.column h hc).2.symm.trans (Parts.column h hd).2)
  wide _ mem := table.wide (Parts.column h mem).2
  narrow part mem := narrow part.1 (Parts.column h mem).1 part.2 (Parts.column h mem).2

/-- A serialized batch carries the projected columns of its rows. -/
theorem serializeBatch_carries (tableOk : cat.getTable pkg.tableName = .ok schema)
    (table : PlainTable schema) (holds : BatchHolds sem schema physical batch rows)
    {parts : List (Str × ColumnSchema)} (columns : ColumnsOf schema pkg.projectColumns parts)
    (scanned : ∀ part ∈ parts, ∀ position < width part.2,
      physicalName P part.2 part.1 position ∈ physical)
    {projected : EncryptedBatch P.EncryptedVector}
    (count : projected.logicalRowCount = (rows.length : Int)) {chosen : Row → Bool}
    (mask : Masks sem chosen rows projected.selectionMask)
    (same : ∀ part ∈ parts, ∀ position < width part.2,
      projected.columns.lookup (physicalName P part.2 part.1 position) =
        batch.columns.lookup (physicalName P part.2 part.1 position))
    (fits : ∀ row ∈ rows, RowFits schema row)
    (small : rows.length ≤ P.slotCount ∧ rows.length < 2 ^ 60) (batchId : UInt32) :
    ∃ rb, serializeBatch P cat pkg batchId projected = .ok rb ∧
      BatchCarries sem parts chosen rb rows := by
  have listed : List.Forall₂ (fun name part => (name = part.1 ∧ schema.column part.1 = .ok part.2) ∧
      part ∈ parts) pkg.projectColumns parts := forall₂_and_mem columns fun _ mem => mem
  obtain ⟨crss, loop, carries⟩ := mapM_forall₂ (f := scanColumn P cat pkg projected)
    (S := fun crs part => Carries sem rows part crs) (fun name part here => by
      obtain ⟨⟨rfl, hc⟩, mem⟩ := here
      exact scanColumn_carries sem tableOk holds hc (table.wide hc) (scanned part mem)
        (same part mem)) listed
  refine ⟨_, by rw [serializeBatch, loop, ok_bind, pure_eq_ok], count,
    ⟨crss, rfl, carries.flip⟩, ?_,
    small.1, small.2, fun row mem part hp => ?_⟩
  · cases chosenMask : projected.selectionMask with
    | none =>
      rw [chosenMask] at mask
      exact mask
    | some m =>
      rw [chosenMask] at mask
      exact ⟨m, rfl, mask⟩
  · obtain ⟨member, same⟩ := TableSchema.column_ok (Parts.column columns hp).2
    exact same ▸ fits row mem part.2 member

end Batches

section Runs

variable {P : Proto1} (sem : SlotSemantics P) {pkg : QueryPackage}
  {storage : EncryptedStorage (Except Exn) P.EncryptedVector} {chunks : List (List Row)}
  {parts : List (Str × ColumnSchema)} {whereClause : Option ASTExpr}
  {where? : Option (Expression P.EncryptedVector)} {fuel : Nat}

variable (P) in
/-- The physical columns of some names of a table. -/
def PhysicalOf (schema : TableSchema) (names : List Str) (physical : Str) : Prop :=
  ∃ name c position, Scanned schema names name c ∧ position < width c ∧
    physical = physicalName P c name position

theorem physicalList_ok (tableOk : cat.getTable pkg.tableName = .ok schema) {names : List Str}
    (known : ∀ name ∈ names, ∃ c, schema.column name = .ok c) :
    ∃ physical, physicalColumnList P cat pkg names = .ok physical ∧
      ∀ p, p ∈ physical ↔ PhysicalOf P schema names p := by
  obtain ⟨physical, list, mem⟩ := physicalColumnList_ok P tableOk
    fun name own => TableSchema.hasColumn_iff.mpr (known name own)
  refine ⟨physical, list, fun p => (mem p).trans ⟨?_, ?_⟩⟩
  · rintro ⟨name, own, c, hc, here⟩
    rw [physicalColumns_eq] at here
    obtain ⟨position, inside, rfl⟩ := List.mem_map.mp here
    exact ⟨name, c, position, ⟨own, hc⟩, List.mem_range.mp inside, rfl⟩
  · rintro ⟨name, c, position, ⟨own, hc⟩, inside, rfl⟩
    refine ⟨name, own, c, hc, ?_⟩
    rw [physicalColumns_eq]
    exact List.mem_map_of_mem (List.mem_range.mpr inside)

/-- One turn of the loop over the scanned batches. -/
def scanTurn (cat : Catalog) (pkg : QueryPackage) (where? : Option (Expression P.EncryptedVector))
    (listed : List Str) (x : EncryptedBatch P.EncryptedVector × Nat) :
    Except Exn EncryptedResultBatch := do
  let batch ← filterProject P where? listed x.1
  serializeBatch P cat pkg (UInt32.ofNat x.2) batch

/-- A turn answers a chunk by a batch that carries its rows. -/
theorem scanTurn_ok (tableOk : cat.getTable pkg.tableName = .ok schema)
    (table : PlainTable schema) (covered : ∀ name ∈ pkg.projectColumns, name ∈ pkg.scanColumns)
    (columns : ColumnsOf schema pkg.projectColumns parts)
    (filters : Filters sem (Scanned schema pkg.scanColumns) whereClause where?)
    {physical listed : List Str}
    (isPhysical : ∀ p, p ∈ physical ↔ PhysicalOf P schema pkg.scanColumns p)
    (isListed : ∀ p, p ∈ listed ↔ PhysicalOf P schema pkg.projectColumns p)
    (distinct : listed.Nodup)
    {x : EncryptedBatch P.EncryptedVector × Nat} {rows : List Row}
    (holds : BatchHolds sem schema physical x.1 rows) (fits : ∀ row ∈ rows, RowFits schema row)
    (small : rows.length ≤ P.slotCount ∧ rows.length < 2 ^ 60) :
    ∃ rb, scanTurn cat pkg where? listed x = .ok rb ∧
      BatchCarries sem parts (satisfies whereClause) rb rows := by
  have reads : ∀ name c, Scanned schema pkg.scanColumns name c → ∀ position < width c,
      physicalName P c name position ∈ physical := fun name c scanned position inside =>
    (isPhysical _).mpr ⟨name, c, position, scanned, inside, rfl⟩
  have sends : ∀ part ∈ parts, ∀ position < width part.2,
      physicalName P part.2 part.1 position ∈ listed := fun part mem position inside =>
    (isListed _).mpr ⟨part.1, part.2, position, Parts.column columns mem, inside, rfl⟩
  have stored : ∀ name ∈ listed, ∃ chunk, x.1.columns.lookup name = some chunk := by
    intro name mem
    obtain ⟨name, c, position, ⟨projected, hc⟩, inside, rfl⟩ := (isListed name).mp mem
    have read := reads name c ⟨covered name projected, hc⟩ position inside
    obtain ⟨member, rfl⟩ := TableSchema.column_ok hc
    obtain ⟨chunk, _, found, _⟩ := holds.column c member position inside read
    exact ⟨chunk, found⟩
  obtain ⟨projected, run, count, mask, same⟩ :=
    filterProject_ok sem holds reads fits small.1 filters distinct stored
  obtain ⟨rb, sent, carries⟩ := serializeBatch_carries sem tableOk table holds columns
    (fun part mem => reads part.1 part.2
      ⟨covered _ (Parts.column columns mem).1, (Parts.column columns mem).2⟩)
    count mask (fun part mem position inside => same _ (sends part mem position inside)) fits small
    (UInt32.ofNat x.2)
  exact ⟨rb, by rw [scanTurn, run, ok_bind, sent], carries⟩

/-- Every chunk is answered by a batch that carries its rows. -/
theorem executeScan_ok (tableOk : cat.getTable pkg.tableName = .ok schema)
    (table : PlainTable schema) (stores : Stores sem storage pkg.tableName schema chunks)
    (scanned : ∀ name ∈ pkg.scanColumns, ∃ c, schema.column name = .ok c)
    (covered : ∀ name ∈ pkg.projectColumns, name ∈ pkg.scanColumns)
    (nonempty : pkg.projectColumns ≠ []) (distinct : pkg.projectColumns.Nodup)
    (columns : ColumnsOf schema pkg.projectColumns parts)
    (filters : Filters sem (Scanned schema pkg.scanColumns) whereClause where?)
    (built : buildWhere P pkg fuel = .ok where?) :
    ∃ batches, executeScan P storage cat fuel pkg = .ok batches ∧
      List.Forall₂ (BatchCarries sem parts (satisfies whereClause)) batches chunks := by
  obtain ⟨physical, scanList, isPhysical⟩ := physicalList_ok (P := P) tableOk scanned
  obtain ⟨listed, projectList, isListed⟩ := physicalList_ok (P := P) tableOk
    fun name mem => scanned name (covered name mem)
  have some : physical ≠ [] := by
    obtain ⟨name, mem⟩ := List.exists_mem_of_ne_nil _ nonempty
    obtain ⟨c, hc⟩ := scanned name (covered name mem)
    have first := (isPhysical _).mpr ⟨name, c, 0, ⟨covered name mem, hc⟩, table.wide hc, rfl⟩
    exact List.ne_nil_of_mem first
  have once : listed.Nodup := nodup_physicalColumnList P tableOk stores.apart distinct projectList
  obtain ⟨batches, scanOk, holds⟩ := stores.scan physical some fun p mem => by
    obtain ⟨name, c, position, ⟨_, hc⟩, inside, rfl⟩ := (isPhysical p).mp mem
    obtain ⟨member, rfl⟩ := TableSchema.column_ok hc
    exact ⟨c, member, position, inside, rfl⟩
  have numbered : List.Forall₂ (fun x rows => BatchHolds sem schema physical x.1 rows ∧
      rows ∈ chunks) batches.zipIdx chunks := by
    rw [← List.zipIdx_map_fst 0 batches, List.forall₂_map_left_iff] at holds
    exact forall₂_and_mem holds fun _ mem => mem
  obtain ⟨rbs, loop, carries⟩ := mapM_forall₂ (f := scanTurn cat pkg where? listed)
    (fun x rows here => scanTurn_ok sem tableOk table covered columns filters isPhysical isListed
      once here.1 (stores.fits rows here.2) (stores.slots rows here.2)) numbered
  refine ⟨rbs, ?_, carries⟩
  simp only [executeScan, ofExcept_eq, scanList, built, projectList, scanOk, ok_bind]
  exact loop

variable (P) in
/-- Executing a package and decoding the batches gives the rows the statement asks
for, under the requested columns. -/
def Answers (cat : Catalog) (storage : EncryptedStorage (Except Exn) P.EncryptedVector)
    (stmt : SelectStatement) (schema : TableSchema) (rows : List Row) (pkg : QueryPackage)
    (fuel : Nat) : Prop :=
  ∃ batches decoded, execute P storage cat fuel pkg = .ok batches ∧
    decodeAll P batches = .ok decoded ∧
    List.Forall₂ (Shows (requested stmt schema))
      (applySortAndLimit decoded stmt.orderByColumns stmt.limitCount) (select stmt rows)

/-- A package that scans the columns of a supported query answers it. -/
theorem answers_of_scan (tableOk : cat.getTable pkg.tableName = .ok schema)
    (table : PlainTable schema) (stores : Stores sem storage pkg.tableName schema chunks)
    (query : SupportedQuery stmt schema) (sendable : Projectable stmt schema)
    (single : pkg.hasJoin = false)
    (scanned : ∀ name ∈ pkg.scanColumns, ∃ c, schema.column name = .ok c)
    (covered : ∀ name ∈ pkg.projectColumns, name ∈ pkg.scanColumns)
    (projects : pkg.projectColumns = LogicalPlanner.projectColumns stmt schema)
    (filters : Filters sem (Scanned schema pkg.scanColumns) stmt.whereClause where?)
    (built : buildWhere P pkg fuel = .ok where?) :
    Answers P cat storage stmt schema chunks.flatten pkg fuel := by
  obtain ⟨parts, columns⟩ := exists_parts fun name mem => scanned name (covered name mem)
  obtain ⟨batches, run, carries⟩ := executeScan_ok sem tableOk table stores scanned covered
    (projects ▸ (sendable.projected table).1) (projects ▸ (sendable.projected table).2) columns
    filters built
  have partsOk : PartsOk parts := ColumnsOf.ok columns table fun name mem =>
    sendable.narrow name (projects ▸ mem)
  obtain ⟨decoded, decodes, shows⟩ := decodeAll_ok sem partsOk carries
  rw [Parts.names columns, projects] at shows
  have listed : ∀ o ∈ stmt.orderByColumns,
      o.columnName ∈ LogicalPlanner.projectColumns stmt schema := fun o ho =>
    StatementPlan.mem_foldl_pushUnique.mpr (Or.inr (List.mem_map_of_mem ho))
  have ordered := applySortAndLimit_ok shows listed (fun row mem o ho => by
    obtain ⟨c, hc⟩ := scanned _ (covered _ (projects ▸ listed o ho))
    obtain ⟨rows, chunk, here⟩ := List.mem_flatten.mp (List.mem_filter.mp mem).1
    obtain ⟨member, same⟩ := TableSchema.column_ok hc
    have fits := same ▸ stores.fits rows chunk row here c member
    obtain ⟨n, value, _⟩ := fits.int_of_type ((query.orderBy o ho).2 c hc)
    exact ⟨n, value⟩) stmt.limitCount
  refine ⟨batches, decoded, ?_, decodes, ?_⟩
  · rw [execute, single]
    exact run
  · refine ordered.imp fun r row shows name mem => shows name ?_
    exact StatementPlan.mem_foldl_pushUnique.mpr (Or.inl mem)

end Runs

section Queries

variable {P : Proto1} (sem : SlotSemantics P) {plan : PhysicalPlan} {fheMeta : FHEParamsMeta}
  {rng : P.Rng}

/-- Without a join the scan reads the names of WHERE and of the projection. -/
theorem mem_scanColumns (planOf : PlanOf stmt schema plan) (query : SupportedQuery stmt schema)
    (plain : ∀ name ∈ plan.projectColumns, dot ∉ name) {name : Str} :
    name ∈ plan.scanColumns ↔ name ∈ whereReferences stmt ∨ name ∈ plan.projectColumns := by
  have single : plan.hasJoin = false := by
    rw [planOf.hasJoin, joined?, query.single]
    rfl
  have unjoined : ∀ c, PhysicalPlanner.namesJoinedTable false plan.joinedTableAlias c = false := by
    intro c
    unfold PhysicalPlanner.namesJoinedTable
    split <;> simp
  simp only [planOf.scanColumns, single, unjoined, true_and]
  refine or_congr ⟨?_, fun mem => ?_⟩ ⟨?_, fun mem => ?_⟩
  · rintro ⟨r, mem, rfl⟩
    rwa [bareName_plain (query.conditions r mem)]
  · exact ⟨name, mem, (bareName_plain (query.conditions name mem)).symm⟩
  · rintro ⟨c, mem, rfl⟩
    rwa [bareName_plain (plain c mem)]
  · exact ⟨name, mem, (bareName_plain (plain name mem)).symm⟩

/-- Both overloads send what is built from the plan of a query over plain columns. -/
theorem overloads_send (accepted : analyze cat stmt = .ok schema)
    (planned : planQuery stmt schema = .ok plan) (planOf : PlanOf stmt schema plan)
    (projected : ∀ name ∈ plan.projectColumns, dot ∉ name ∧ ∃ c, schema.column name = .ok c)
    {sent : Except Exn QueryPackage}
    (overload : sent = clientPackage cat fheMeta stmt rng ∨
      sent = schemaPackage cat fheMeta stmt rng) :
    ∃ columns, ∀ pkg, BuiltFrom P schema rng
      { planFields plan fheMeta with resultSchema := columns } stmt.whereClause pkg →
        sent = .ok pkg := by
  rcases overload with rfl | rfl
  · have resolved : ∃ columns, resultSchemaOf cat plan = .ok columns := by
      refine (resultSchemaOf_ok_iff planOf).mpr fun name mem => ?_
      obtain ⟨plain, c, hc⟩ := projected name mem
      have own : encryptorTable stmt name = stmt.tableName := by
        simp [encryptorTable, qualifierOr, findDot_eq_none_iff.mpr plain]
      rw [own, bareName_plain plain]
      exact ⟨schema, analyze_schema accepted, TableSchema.hasColumn_iff.mpr ⟨c, hc⟩⟩
    obtain ⟨columns, found⟩ := resolved
    exact ⟨columns, fun pkg built =>
      (clientPackage_ok_iff accepted planned planOf).mpr ⟨columns, found, built⟩⟩
  · obtain ⟨columns, found⟩ := mapM_isOk_iff.mpr fun name mem => by
      obtain ⟨plain, c, hc⟩ := projected name mem
      exact ⟨ColumnSchema.mk c.name c.type c.maxLength,
        (by rw [bareName_plain plain, hc]; rfl : (do
          let cs ← schema.column (bareName name)
          pure (ColumnSchema.mk cs.name cs.type cs.maxLength)) = .ok _)⟩
    exact ⟨columns, fun pkg built =>
      (schemaPackage_ok_iff accepted planned).mpr ⟨columns, found, built⟩⟩

/-- A supported query over one table is sent by both overloads, and the server's
answer shows the rows the statement selects from the stored ones. -/
theorem scan_answers {storage : EncryptedStorage (Except Exn) P.EncryptedVector}
    {chunks : List (List Row)} (accepted : analyze cat stmt = .ok schema)
    (table : PlainTable schema) (stores : Stores sem storage stmt.tableName schema chunks)
    (query : SupportedQuery stmt schema) (sendable : Projectable stmt schema)
    (fheMeta : FHEParamsMeta) (rng : P.Rng) {sent : Except Exn QueryPackage}
    (overload : sent = clientPackage cat fheMeta stmt rng ∨
      sent = schemaPackage cat fheMeta stmt rng) :
    ∃ pkg, sent = .ok pkg ∧
      (pkg.predicateNodes.length < 2 ^ 32 → pkg.encryptedLiterals.length < 2 ^ 32 →
        ∀ fuel, pkg.predicateNodes.length ≤ fuel →
          Answers P cat storage stmt schema chunks.flatten pkg fuel) := by
  have tableOk := analyze_schema accepted
  obtain ⟨scopes, analyzed⟩ := analyze_ok_iff.mp accepted
  obtain ⟨plan, planned, planOf⟩ := planQuery_analyzed analyzed
  have projected : ∀ name ∈ plan.projectColumns, dot ∉ name ∧ ∃ c, schema.column name = .ok c :=
    fun name mem => column_of_projected analyzed query table sendable.undotted
      (planOf.projectColumns ▸ mem)
  have scans : ∀ {name}, name ∈ plan.scanColumns ↔
      name ∈ whereReferences stmt ∨ name ∈ plan.projectColumns :=
    mem_scanColumns planOf query fun name mem => (projected name mem).1
  have references : ∀ e, stmt.whereClause = some e → ∀ name ∈ StatementPlan.references e,
      name ∈ whereReferences stmt := by
    intro e he name mem
    rwa [whereReferences, he]
  have typed : ∀ e, stmt.whereClause = some e →
      Typed (Scanned schema plan.scanColumns) schema e := fun e he =>
    typed_of_supported tableOk (analyzed.whereOk e he) (query.whereOk e he) fun name mem =>
      have own := references e he name mem
      ⟨query.conditions name own, scans.mpr (Or.inl own)⟩
  have scanned : ∀ name ∈ plan.scanColumns, ∃ c, schema.column name = .ok c := by
    intro name mem
    rcases scans.mp mem with own | own
    · cases hw : stmt.whereClause with
      | none => rw [whereReferences, hw] at own; cases own
      | some e =>
        rw [whereReferences, hw] at own
        obtain ⟨c, _, hc⟩ := references_of_typed (typed e hw) name own
        exact ⟨c, hc⟩
    · exact (projected name own).2
  obtain ⟨columns, sends⟩ := overloads_send accepted planned planOf projected overload
  obtain ⟨pkg, built, runs⟩ := filters_of_typed sem typed rng
    { planFields plan fheMeta with resultSchema := columns } rfl
  have copies := built.copiesPlan
  refine ⟨pkg, sends pkg built, fun fewNodes fewLiterals fuel enough => ?_⟩
  obtain ⟨where?, filters, rebuilt⟩ := runs fewNodes fewLiterals
  have named : pkg.tableName = stmt.tableName := copies.tables.1.trans planOf.tableName
  have single : pkg.hasJoin = false := by
    rw [copies.tables.2.2.1, planOf.hasJoin, joined?, query.single]
    rfl
  rw [← copies.scanColumns] at filters scanned scans
  refine answers_of_scan sem (named ▸ tableOk) table (named ▸ stores) query sendable single scanned
    (fun name mem => scans.mpr (Or.inr (copies.projectColumns ▸ mem)))
    (copies.projectColumns.trans planOf.projectColumns) filters (rebuilt fuel enough)

end Queries

open PlainProto1

def people : TableSchema where
  tableId := str "people"
  columns := [
    { name := str "name", type := .STRING, maxLength := 2 },
    { name := str "age", type := .INT64 }]

def peopleCatalog : Catalog := ({} : Catalog).registerTable people

def person (name : Str) (age : Int) : Row := fun reference =>
  if reference = str "name" then .string name else .int age

def persons : List Row := [person (str "al") 40, person (str "bo") 20]

/-- What is stored in the physical columns: both letters of the names, and the ages. -/
def personCodes (physical : Str) : List Nat :=
  if physical = str "name#0" then [97, 98]
  else if physical = str "name#1" then [108, 111]
  else [40, 20]

/-- The columns of a scan, one ciphertext for each. -/
def personColumns (physicalNames : List Str) : StringMap (EncryptedColumnChunk PlainVector) :=
  physicalNames.foldr (fun physical columns => columns.insert physical
    { chunkMeta := ⟨0, 0, 2⟩, ciphertexts := [⟨personCodes physical, 2⟩] }) ∅

theorem lookup_personColumns {physicalNames : List Str} {physical : Str}
    (mem : physical ∈ physicalNames) : (personColumns physicalNames).lookup physical =
      some { chunkMeta := ⟨0, 0, 2⟩, ciphertexts := [⟨personCodes physical, 2⟩] } := by
  induction physicalNames with
  | nil => cases mem
  | cons own rest ih =>
    rw [personColumns, List.foldr_cons]
    by_cases same : physical = own
    · subst same
      exact AList.lookup_insert _
    · rw [AList.lookup_insert_ne same]
      exact ih ((List.mem_cons.mp mem).resolve_left same)

def peopleStorage : EncryptedStorage (Except Exn) PlainVector where
  listChunks _ _ := .ok [⟨0, 0, 2⟩]
  getChunk _ physical _ _ :=
    .ok { chunkMeta := ⟨0, 0, 2⟩, ciphertexts := [⟨personCodes physical, 2⟩] }
  tableScan _ names :=
    if names = [] then .error (.external (str "TableScanExec: no required columns"))
    else .ok [{ columns := personColumns names, logicalRowCount := 2 }]

theorem persons_fit : ∀ row ∈ persons, RowFits people row := by decide +kernel

theorem people_stored :
    Stores (plainSlotSemantics 2) peopleStorage (str "people") people [persons] where
  fits rows mem := by
    obtain rfl := List.mem_singleton.mp mem
    exact persons_fit
  slots rows mem := by
    obtain rfl := List.mem_singleton.mp mem
    exact ⟨le_refl 2, by decide⟩
  apart := ⟨by decide +kernel, by decide +kernel⟩
  scan names nonempty _ := by
    refine ⟨_, if_neg nonempty, .cons ⟨rfl, rfl, fun c listed position inside here => ?_⟩ .nil⟩
    refine ⟨_, _, lookup_personColumns here, rfl, fun i row found => ?_⟩
    have codes : ∀ c ∈ people.columns, ∀ position < width c, ∀ i : Fin persons.length,
        (personCodes (physicalName (plainProto1 2) c c.name position))[i.val]? =
          some (code (persons.get i c.name) position).toNat := by decide +kernel
    obtain ⟨short, rfl⟩ := List.getElem?_eq_some_iff.mp found
    have stored := codes c listed position inside ⟨i, short⟩
    have low := (code_bounds (persons_fit _ (List.getElem_mem short) c listed) position).1
    change ((PlainVector.mk _ 2).residue i : Slot) = _
    rw [PlainVector.residue, stored, Option.getD_some, ← Int.cast_natCast]
    exact congrArg _ (Int.toNat_of_nonneg low)

/-- The statement of `SELECT name FROM people WHERE age > 30`. -/
def adults : SelectStatement :=
  { projections := [str "name"], tableName := str "people", tableAlias := str "people"
    whereClause := some (.comparison .GreaterThan (.columnRef (str "age")) (.intLiteral 30)) }

theorem people_plain : PlainTable people where
  distinct := by decide
  types := by decide

theorem adults_supported : SupportedQuery adults people where
  single := rfl
  projections := by decide
  conditions := by decide
  orderBy := nofun
  whereOk e same := by
    cases same
    exact ⟨by decide, by decide⟩

theorem adults_answered :
    ∃ pkg, clientPackage (P := plainProto1 2) peopleCatalog {} adults () = .ok pkg ∧
      Answers (plainProto1 2) peopleCatalog peopleStorage adults people persons pkg 3 := by
  have narrow : ∀ c ∈ people.columns, width c < 2 ^ 32 := by decide
  have sendable : Projectable adults people :=
    ⟨by decide, by decide, nofun, fun _ _ c found => narrow c (TableSchema.column_ok found).1⟩
  have accepted : analyze peopleCatalog adults = .ok people := rfl
  obtain ⟨pkg, sent, answers⟩ := scan_answers (plainSlotSemantics 2) accepted people_plain
    people_stored adults_supported sendable {} () (Or.inl rfl)
  have size : ((clientPackage (P := plainProto1 2) peopleCatalog {} adults ()).map fun pkg =>
      (pkg.predicateNodes.length, pkg.encryptedLiterals.length)) = .ok (3, 1) := rfl
  rw [sent, Except.map, Except.ok.injEq, Prod.mk.injEq] at size
  obtain ⟨nodes, literals⟩ := size
  exact ⟨pkg, sent, answers (by omega) (by omega) 3 (by omega)⟩

/-- A table with a dot in a column name. -/
def dotted : TableSchema where
  tableId := str "t"
  columns := [{ name := str "a.b", type := .INT64 }]

/-- A table without columns. -/
def bare : TableSchema where
  tableId := str "bare"
  columns := []

/-- A query of the kind over a stored table, for which there is no package that answers it. -/
def Unanswered {P : Proto1} (sem : SlotSemantics P) (cat : Catalog)
    (storage : EncryptedStorage (Except Exn) P.EncryptedVector) (stmt : SelectStatement)
    (schema : TableSchema) (chunks : List (List Row)) : Prop :=
  (analyze cat stmt = .ok schema ∧ PlainTable schema ∧
    Stores sem storage stmt.tableName schema chunks ∧ SupportedQuery stmt schema) ∧
  ∃ (fheMeta : FHEParamsMeta) (rng : P.Rng), ¬ ∃ pkg fuel,
    clientPackage cat fheMeta stmt rng = .ok pkg ∧
      Answers P cat storage stmt schema chunks.flatten pkg fuel

theorem unanswered_of_error {P : Proto1} {storage : EncryptedStorage (Except Exn) P.EncryptedVector}
    {fheMeta : FHEParamsMeta} {rng : P.Rng} {rows : List Row} {e : Exn}
    (fails : ∀ fuel, (do
      let pkg ← clientPackage cat fheMeta stmt rng
      execute P storage cat fuel pkg) = .error e) : ¬ ∃ pkg fuel,
    clientPackage cat fheMeta stmt rng = .ok pkg ∧
      Answers P cat storage stmt schema rows pkg fuel := by
  rintro ⟨pkg, fuel, sent, batches, _, run, _⟩
  have throws := fails fuel
  rw [sent, ok_bind, run] at throws
  cases throws

/-- The star names a column that the encryptor takes for one of another table. -/
theorem dotted_star_unanswered : Unanswered (plainSlotSemantics 1)
    (({} : Catalog).registerTable dotted)
    ⟨fun _ _ => .ok [], fun _ _ _ _ => .error .outOfBounds, fun _ _ => .ok []⟩
    { projections := [], tableName := str "t", tableAlias := str "t" } dotted [] := by
  refine ⟨⟨rfl, ⟨by decide, by decide⟩, ⟨nofun, nofun, ⟨by decide, by decide⟩,
    fun _ _ _ => ⟨[], rfl, .nil⟩⟩, ⟨rfl, nofun, nofun, nofun, nofun⟩⟩, {}, (), ?_⟩
  rintro ⟨pkg, _, sent, _⟩
  cases sent

/-- The statement of `SELECT age, age FROM people`. -/
def agesTwice : SelectStatement :=
  { projections := [str "age", str "age"], tableName := str "people", tableAlias := str "people" }

/-- What is asked for again has been moved out of its chunk. -/
theorem ages_twice_unanswered :
    Unanswered (plainSlotSemantics 2) peopleCatalog peopleStorage agesTwice people [persons] := by
  refine ⟨⟨rfl, people_plain, people_stored, ⟨rfl, by decide, nofun, nofun, nofun⟩⟩, {}, (), ?_⟩
  exact unanswered_of_error (e := .runtimeError (str "QueryExecutor: empty ciphertext for: age"))
    fun _ => rfl

/-- A scan of no columns is refused. -/
theorem bare_star_unanswered : Unanswered (plainSlotSemantics 2) (({} : Catalog).registerTable bare)
    peopleStorage { projections := [], tableName := str "bare", tableAlias := str "bare" } bare
    [] := by
  refine ⟨⟨rfl, ⟨List.nodup_nil, nofun⟩, ⟨nofun, nofun, ⟨nofun, nofun⟩, fun names some none => ?_⟩,
    ⟨rfl, nofun, nofun, nofun, nofun⟩⟩, {}, (), ?_⟩
  · obtain ⟨name, mem⟩ := List.exists_mem_of_ne_nil names some
    obtain ⟨c, listed, _⟩ := none name mem
    cases listed
  · exact unanswered_of_error
      (e := .external (str "TableScanExec: no required columns")) fun _ => rfl

/-- Of supported queries over stored tables, a star over a dotted name, a column asked for
twice and a star over no columns go unanswered. -/
theorem supported_query_can_go_unanswered :
    (∃ cat storage stmt schema chunks, stmt.projections = [] ∧ schema.columns ≠ [] ∧
      Unanswered (plainSlotSemantics 1) cat storage stmt schema chunks) ∧
    (∃ cat storage stmt schema chunks, ¬ stmt.projections.Nodup ∧
      Unanswered (plainSlotSemantics 2) cat storage stmt schema chunks) ∧
    ∃ cat storage stmt schema chunks, schema.columns = [] ∧
      Unanswered (plainSlotSemantics 2) cat storage stmt schema chunks :=
  ⟨⟨_, _, _, _, _, rfl, List.cons_ne_nil _ _, dotted_star_unanswered⟩,
    ⟨_, _, _, _, _, by decide, ages_twice_unanswered⟩, ⟨_, _, _, _, _, rfl, bare_star_unanswered⟩⟩

end FheSql.ScanCorrectness
