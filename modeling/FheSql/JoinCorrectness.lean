import FheSql.ColumnResolution
import FheSql.DecodedRows
import FheSql.HoistedWhere
import FheSql.JoinLoop
import FheSql.NameResolution
import FheSql.PlainProto1
import FheSql.PredicateExecution

/-!
# Joins end to end

From an analyzed join over two tables that are stored one row per chunk: the decoded
rows show the inner join of the tables, filtered by WHERE, pair by pair in the order
of the two loops.
-/

namespace FheSql.JoinCorrectness

open ByteText Throwing SemanticAnalyzer AnalyzedStatement StatementPlan ClientPipeline
open QueryEncryptor QueryExecutor ResultDecoder PipelineAcceptance PredicateMeaning PredicateCode
open PredicateExecution SqlSemantics StoredRows DecodedRows IndicatorPoly Pointwise JoinLoop
open ColumnResolution (readStored storedPosition executedSource joinColumn_eq_readStored)
open HoistedWhere (usesJoinedTable_iff)

/-- `table aliasName JOIN joinedTable joinedAlias ON aliasName.leftColumn =
joinedAlias.rightColumn`. -/
structure Join where
  table : Str
  aliasName : Str
  joinedTable : Str
  joinedAlias : Str
  leftColumn : Str
  rightColumn : Str

namespace Join

variable (j : Join)

def leftKey : Str := qualified j.aliasName j.leftColumn

def rightKey : Str := qualified j.joinedAlias j.rightColumn

def statement (projections : List Str) (whereClause : Option ASTExpr) : SelectStatement :=
  { projections := projections
    tableName := j.table
    tableAlias := j.aliasName
    joins := [{
      rightTable := { tableName := j.joinedTable, aliasName := j.joinedAlias }
      condition := some (.comparison .Equal (.columnRef j.leftKey) (.columnRef j.rightKey)) }]
    whereClause := whereClause }

/-- The aliases are two identifiers. -/
structure Aliased : Prop where
  distinct : j.aliasName ≠ j.joinedAlias
  nonempty : j.aliasName ≠ []
  plain : dot ∉ j.aliasName
  plainJoined : dot ∉ j.joinedAlias

/-- A column of either table, qualified by its alias. -/
def Qualifies (name : Str) : Prop :=
  ∃ column, name = qualified j.aliasName column ∨ name = qualified j.joinedAlias column

variable (left right : TableSchema)

/-- The column that a qualified name stands for. -/
inductive Names : Str → ColumnSchema → Prop where
  | left {column c} : left.column column = .ok c → Names (qualified j.aliasName column) c
  | right {column c} : right.column column = .ok c → Names (qualified j.joinedAlias column) c

/-- An operand of an integer comparison. -/
def SupportedOperand : ASTExpr → Prop
  | .columnRef name => j.Qualifies name ∧ ∀ c, j.Names left right name c → c.type = .INT64
  | .intLiteral v => 0 ≤ v ∧ v ≤ 128
  | _ => False

/-- Conditions built from integer comparisons. -/
def Supported : ASTExpr → Prop
  | .comparison _ l r => j.SupportedOperand left right l ∧ j.SupportedOperand left right r
  | .boolean _ l r => Supported l ∧ Supported r
  | .notExpr e => Supported e
  | _ => False

/-- A join on integer columns that selects qualified columns. -/
structure Query (projections : List Str) (whereClause : Option ASTExpr) : Prop where
  aliased : j.Aliased
  leftColumn : ∀ c, left.column j.leftColumn = .ok c → c.type = .INT64
  rightColumn : ∀ c, right.column j.rightColumn = .ok c → c.type = .INT64
  selects : projections ≠ []
  projections : ∀ name ∈ projections, j.Qualifies name
  whereOk : ∀ e, whereClause = some e → j.Supported left right e

/-- The projected columns have positions, and numbers for them in 32 bits. -/
def Projectable (projections : List Str) : Prop :=
  ∀ name ∈ projections, ∀ c, j.Names left right name c → 1 ≤ width c ∧ width c < 2 ^ 32

/-- The integer columns that some references stand for. -/
def Referenced (references : List Str) (name : Str) (c : ColumnSchema) : Prop :=
  name ∈ references ∧ j.Names left right name c ∧ c.type = .INT64

end Join

variable {j : Join} {cat : Catalog} {left right : TableSchema} {scopes : StringMap TableSchema}
  {projections : List Str} {whereClause : Option ASTExpr}

theorem names_left (aliased : j.Aliased) {column : Str} {c : ColumnSchema}
    (h : j.Names left right (qualified j.aliasName column) c) : left.column column = .ok c := by
  generalize own : qualified j.aliasName column = name at h
  cases h with
  | left found =>
    obtain ⟨_, rfl⟩ := qualified_inj aliased.plain aliased.plain own
    exact found
  | right => exact (aliased.distinct (qualified_inj aliased.plain aliased.plainJoined own).1).elim

theorem names_right (aliased : j.Aliased) {column : Str} {c : ColumnSchema}
    (h : j.Names left right (qualified j.joinedAlias column) c) : right.column column = .ok c := by
  generalize own : qualified j.joinedAlias column = name at h
  cases h with
  | left =>
    exact (aliased.distinct (qualified_inj aliased.plainJoined aliased.plain own).1.symm).elim
  | right found =>
    obtain ⟨_, rfl⟩ := qualified_inj aliased.plainJoined aliased.plainJoined own
    exact found

theorem names_unique (aliased : j.Aliased) {name : Str} {c d : ColumnSchema}
    (hc : j.Names left right name c) (hd : j.Names left right name d) : c = d := by
  cases hc with
  | left found => exact Except.ok.inj (found.symm.trans (names_left aliased hd))
  | right found => exact Except.ok.inj (found.symm.trans (names_right aliased hd))

theorem take_qualified (a b : Str) : (qualified a b).take a.length = a := by
  simp [qualified]

theorem drop_qualified (a b : Str) : (qualified a b).drop (a.length + 1) = b := by
  simp [qualified]

/-- The scopes of a join. -/
theorem scopes_eq (aliased : j.Aliased) (joined : cat.getTable j.joinedTable = .ok right)
    (scopesOk : scopesOf cat (j.statement projections whereClause) left = .ok scopes) :
    scopes = ((∅ : StringMap TableSchema).insert j.aliasName left).insert j.joinedAlias right := by
  simp only [scopesOf, Join.statement, List.foldlM_cons, List.foldlM_nil] at scopesOk
  obtain ⟨next, step, done⟩ := bind_ok_iff.mp scopesOk
  obtain ⟨t, ht, rfl⟩ := NameResolution.addJoinScope_ok step
  cases done
  cases ht.symm.trans joined
  exact congrArg (fun own =>
    ((∅ : StringMap TableSchema).insert own left).insert j.joinedAlias right)
    (if_neg aliased.nonempty)

/-- What `analyze` resolves is the column of the alias. -/
theorem names_of_resolve (aliased : j.Aliased) (joined : cat.getTable j.joinedTable = .ok right)
    (scopesOk : scopesOf cat (j.statement projections whereClause) left = .ok scopes) {name : Str}
    (qualifies : j.Qualifies name) {c : ColumnSchema} (h : resolve scopes name = .ok c) :
    j.Names left right name c := by
  rw [scopes_eq aliased joined scopesOk] at h
  obtain ⟨column, rfl | rfl⟩ := qualifies
  · have scope : (((∅ : StringMap TableSchema).insert j.aliasName left).insert j.joinedAlias
        right).lookup ((qualified j.aliasName column).take j.aliasName.length) = some left := by
      rw [take_qualified, AList.lookup_insert_ne aliased.distinct, AList.lookup_insert]
    simp only [resolve, findDot_qualified aliased.plain, scope, drop_qualified,
      throw_eq_error] at h
    exact .left (guard_ok_iff.mp h).2
  · have scope : (((∅ : StringMap TableSchema).insert j.aliasName left).insert j.joinedAlias
        right).lookup ((qualified j.joinedAlias column).take j.joinedAlias.length) =
          some right := by
      rw [take_qualified, AList.lookup_insert]
    simp only [resolve, findDot_qualified aliased.plainJoined, scope, drop_qualified,
      throw_eq_error] at h
    exact .right (guard_ok_iff.mp h).2

/-- So is what `validateComparison` finds. -/
theorem names_of_finds (aliased : j.Aliased) (table : cat.getTable j.table = .ok left)
    (joined : cat.getTable j.joinedTable = .ok right) {name : Str} (qualifies : j.Qualifies name)
    {c : ColumnSchema} (h : Finds cat (j.statement projections whereClause) name c) :
    j.Names left right name c := by
  obtain ⟨column, rfl | rfl⟩ := qualifies
  · simp only [Finds, resolveInComparison, findDot_qualified aliased.plain, take_qualified,
      drop_qualified, Join.statement, true_or, if_true, table, ok_bind] at h
    exact .left h
  · have other : ¬ (j.joinedAlias = j.aliasName ∨ j.aliasName = [] ∧ j.joinedAlias = j.table) := by
      rintro (same | ⟨empty, _⟩)
      · exact aliased.distinct same.symm
      · exact aliased.nonempty empty
    simp only [Finds, resolveInComparison, findDot_qualified aliased.plainJoined, take_qualified,
      drop_qualified, Join.statement, if_neg other, List.find?_cons, beq_self_eq_true, joined,
      ok_bind] at h
    exact .right h

/-- What `analyze` accepts of a supported condition is typed. -/
theorem typed_of_supported (aliased : j.Aliased) (table : cat.getTable j.table = .ok left)
    (joined : cat.getTable j.joinedTable = .ok right) {schema : TableSchema}
    {references : List Str} {e : ASTExpr}
    (accepted : validateExpr cat (j.statement projections whereClause) e = .ok ())
    (supported : j.Supported left right e)
    (known : ∀ name ∈ StatementPlan.references e, name ∈ references) :
    Typed (j.Referenced left right references) schema e := by
  induction e with
  | columnRef | intLiteral | stringLiteral => exact supported.elim
  | comparison kind l r =>
    have ok := validateComparison_ok_iff.mp accepted
    obtain ⟨hl, hr⟩ := supported
    have column : ∀ {name c}, name ∈ StatementPlan.references (.comparison kind l r) →
        j.SupportedOperand left right (.columnRef name) →
        Finds cat (j.statement projections whereClause) name c →
        IntOperand (j.Referenced left right references) (.columnRef name) := by
      intro name c mem operand found
      have names := names_of_finds aliased table joined operand.1 found
      have type := operand.2 c names
      exact .column ⟨known name mem, names, type⟩ type
    have first : ∀ {name e},
        name ∈ StatementPlan.references (.comparison kind (.columnRef name) e) :=
      List.mem_append_left _ (List.mem_singleton.mpr rfl)
    have second : ∀ {name e},
        name ∈ StatementPlan.references (.comparison kind e (.columnRef name)) :=
      List.mem_append_right _ (List.mem_singleton.mpr rfl)
    cases l with
    | columnRef a =>
      cases r with
      | columnRef b =>
        obtain ⟨_, _, foundA, foundB, _⟩ := ok
        exact .int (column first hl foundA) (column second hr foundB)
      | intLiteral v =>
        obtain ⟨_, found, _⟩ := ok
        exact .int (column first hl found) (.literal hr.1 hr.2)
      | stringLiteral | comparison | boolean | notExpr => exact hr.elim
    | intLiteral v =>
      cases r with
      | columnRef b =>
        obtain ⟨_, found, _⟩ := ok
        exact .int (.literal hl.1 hl.2) (column second hr found)
      | intLiteral | stringLiteral | comparison | boolean | notExpr => exact ok.elim
    | stringLiteral | comparison | boolean | notExpr => exact hl.elim
  | boolean kind l r ihl ihr =>
    obtain ⟨u, first, second⟩ := bind_ok_iff.mp accepted
    exact .boolean
      (ihl first supported.1 fun name mem => known name (List.mem_append_left _ mem))
      (ihr second supported.2 fun name mem => known name (List.mem_append_right _ mem))
  | notExpr e ih => exact .notExpr (ih accepted supported known)

section Storage

variable {P : Proto1} (sem : SlotSemantics P)
  (storage : EncryptedStorage (Except Exn) P.EncryptedVector)

/-- A row in the chunks of one id, one chunk for each physical column. -/
structure HoldsRow (table : Str) (schema : TableSchema) (listed : ChunkMeta) (row : Row) :
    Prop where
  partition : listed.partitionId = 0
  fits : RowFits schema row
  column : ∀ c ∈ schema.columns, ∀ position < width c, ∃ chunk ct,
    storage.getChunk table (physicalName P c c.name position) 0 listed.chunkId = .ok chunk ∧
    chunk.chunkMeta.logicalRowCount = 1 ∧ chunk.ciphertexts = [ct] ∧
    sem.slot ct 0 = (code (row c.name) position : Slot)

/-- A table stored one row per chunk, with the same chunks in every column. -/
structure StoresRows (table : Str) (schema : TableSchema) (rows : List Row)
    (listed : List ChunkMeta) : Prop where
  chunks : ∀ c ∈ schema.columns, ∀ position < width c,
    storage.listChunks table (physicalName P c c.name position) = .ok listed
  rows : List.Forall₂ (HoldsRow sem storage table schema) listed rows

/-- A column of a batch whose first slot holds a number. -/
def Cell (batch : EncryptedBatch P.EncryptedVector) (name : Str) (v : Int) : Prop :=
  ∃ ct, batch.first? name = some ct ∧ sem.slot ct 0 = (v : Slot)

end Storage

section Pairs

variable {P : Proto1} {sem : SlotSemantics P}
  {storage : EncryptedStorage (Except Exn) P.EncryptedVector} {pkg : QueryPackage}
  {table : Str} {schema : TableSchema} {listed lm rm : ChunkMeta} {row l r : Row}

theorem mem_tablePhysicals {physical : Str} : physical ∈ tablePhysicals P schema ↔
    ∃ c ∈ schema.columns, ∃ position < width c, physical = physicalName P c c.name position := by
  simp only [tablePhysicals, List.mem_flatMap, physicalColumns_eq, List.mem_map, List.mem_range,
    eq_comm]

theorem physicalName_int {c : ColumnSchema} (type : c.type = .INT64) (name : Str) (position : Nat) :
    physicalName P c name position = name := by
  simp [physicalName, type]

theorem width_int {c : ColumnSchema} (type : c.type = .INT64) : width c = 1 := by
  simp [width, type]

/-- The columns of a stored row can be added to a batch. -/
theorem columns_added (ht : cat.getTable table = .ok schema)
    (holds : HoldsRow sem storage table schema listed row) (aliasName : Str)
    (batch : EncryptedBatch P.EncryptedVector) :
    ∃ batch', addTableColumns P storage cat table aliasName listed.chunkId batch = .ok batch' := by
  refine addTableColumns_exists ht (fun physical mem => ?_) batch
  obtain ⟨c, hc, position, inside, rfl⟩ := mem_tablePhysicals.mp mem
  obtain ⟨chunk, _, found, _⟩ := holds.column c hc position inside
  exact ⟨chunk, found⟩

/-- The integers of a row whose columns have been added. -/
theorem cell_added (ht : cat.getTable table = .ok schema)
    (holds : HoldsRow sem storage table schema listed row) {aliasName : Str}
    {batch batch' : EncryptedBatch P.EncryptedVector}
    (ok : addTableColumns P storage cat table aliasName listed.chunkId batch = .ok batch')
    {column : Str} {c : ColumnSchema} (hc : schema.column column = .ok c) (type : c.type = .INT64) :
    Cell sem batch' (qualified aliasName column) (code (row column) 0) := by
  obtain ⟨t, ht', added⟩ := addTableColumns_ok ok
  cases ht.symm.trans ht'
  obtain ⟨mem, rfl⟩ := TableSchema.column_ok hc
  have inside : 0 < width c := by
    rw [width_int type]
    exact Nat.one_pos
  obtain ⟨chunk, ct, found, _, single, slot⟩ := holds.column c mem 0 inside
  obtain ⟨chunk', found', here⟩ := added.columns (physicalName P c c.name 0)
    (mem_tablePhysicals.mpr ⟨c, mem, 0, inside, rfl⟩)
  cases found.symm.trans found'
  rw [physicalName_int type] at here
  exact ⟨ct, by rw [EncryptedBatch.first?, here, Option.bind_some, single]; rfl, slot⟩

/-- Columns under another alias stay. -/
theorem cell_kept {aliasName other : Str} (plain : dot ∉ aliasName) (plainOther : dot ∉ other)
    (differ : aliasName ≠ other) {batch batch' : EncryptedBatch P.EncryptedVector}
    (ok : addTableColumns P storage cat table other listed.chunkId batch = .ok batch')
    {column : Str} {v : Int} (cell : Cell sem batch (qualified aliasName column) v) :
    Cell sem batch' (qualified aliasName column) v := by
  obtain ⟨t, _, added⟩ := addTableColumns_ok ok
  obtain ⟨ct, first, slot⟩ := cell
  refine ⟨ct, ?_, slot⟩
  rw [EncryptedBatch.first?, added.others _ fun physical _ same =>
    differ (qualified_inj plain plainOther same).1]
  exact first

/-- Evaluated on a batch with the cells of its columns, a condition says in the first
slot whether the row satisfies it. -/
theorem condition_evaluated (slots : 0 < P.slotCount) {references : List Str}
    {batch : EncryptedBatch P.EncryptedVector}
    (fits : ∀ name c, j.Names left right name c → Fits c (row name))
    (cells : ∀ name c, j.Referenced left right references name c →
      Cell sem batch name (code (row name) 0)) {e : ASTExpr}
    {built : Expression P.EncryptedVector}
    (executes : Executes sem (j.Referenced left right references) e built) :
    ∃ mask, P.evaluate built batch = .ok mask ∧ sem.slot mask 0 = bit (holds row e = true) := by
  have integer : ∀ {name c position}, j.Referenced left right references name c →
      position < width c → physicalName P c name position = name ∧ position = 0 := by
    intro name c position referenced inside
    rw [width_int referenced.2.2] at inside
    exact ⟨physicalName_int referenced.2.2 name position, by omega⟩
  obtain ⟨mask, evaluated, value⟩ := sem.evaluate built batch executes.mask fun name mem => by
    obtain ⟨reference, c, position, referenced, inside, rfl⟩ := executes.reads name mem
    obtain ⟨ct, first, _⟩ := cells reference c referenced
    rw [(integer referenced inside).1]
    exact ⟨ct, first⟩
  refine ⟨mask, evaluated, (value 0 slots).trans (executes.value 0 slots row _ ?_)⟩
  intro reference c referenced
  refine ⟨fits reference c referenced.2.1, fun position inside => ?_⟩
  obtain ⟨ct, first, slot⟩ := cells reference c referenced
  obtain ⟨same, rfl⟩ := integer referenced inside
  simp only [same, first, Option.map_some, Option.getD_some]
  exact slot

/-- The condition behind ON. -/
def Join.on (j : Join) : ASTExpr :=
  .comparison .Equal (.columnRef j.leftKey) (.columnRef j.rightKey)

/-- The equality of the join keys executes it. -/
theorem on_executes (sem : SlotSemantics P) {cl cr : ColumnSchema}
    (hl : left.column j.leftColumn = .ok cl) (hr : right.column j.rightColumn = .ok cr)
    (intL : cl.type = .INT64) (intR : cr.type = .INT64) :
    Executes sem (j.Referenced left right [j.leftKey, j.rightKey]) j.on
      (.equal (.columnRef j.leftKey) (.columnRef j.rightKey)) := by
  have typed : Typed (j.Referenced left right [j.leftKey, j.rightKey]) left j.on :=
    .int (.column ⟨List.mem_cons_self, .left hl, intL⟩ intL)
      (.column ⟨List.mem_cons_of_mem _ List.mem_cons_self, .right hr, intR⟩ intR)
  obtain ⟨compiled, same, means⟩ := compile_means (P := P) typed
  cases same
  exact executes_of_rel sem means (.equal .columnRef .columnRef)

theorem pairRow_left (aliased : j.Aliased) (column : Str) :
    pairRow j.aliasName l r (qualified j.aliasName column) = l column := by
  simp [pairRow, qualifierOr_qualified aliased.plain, bareName_qualified aliased.plain]

theorem pairRow_right (aliased : j.Aliased) (column : Str) :
    pairRow j.aliasName l r (qualified j.joinedAlias column) = r column := by
  simp [pairRow, qualifierOr_qualified aliased.plainJoined, bareName_qualified aliased.plainJoined,
    aliased.distinct.symm]

theorem pairRow_fits (aliased : j.Aliased) (hl : RowFits left l) (hr : RowFits right r) {name : Str}
    {c : ColumnSchema} (names : j.Names left right name c) :
    Fits c (pairRow j.aliasName l r name) := by
  cases names with
  | left found =>
    obtain ⟨mem, rfl⟩ := TableSchema.column_ok found
    rw [pairRow_left aliased]
    exact hl c mem
  | right found =>
    obtain ⟨mem, rfl⟩ := TableSchema.column_ok found
    rw [pairRow_right aliased]
    exact hr c mem

variable (j cat left right sem storage) in
/-- Two stored rows, at two chunks of a join of known tables. -/
structure PairStored (lm rm : ChunkMeta) (l r : Row) : Prop where
  table : cat.getTable j.table = .ok left
  joined : cat.getTable j.joinedTable = .ok right
  holdsLeft : HoldsRow sem storage j.table left lm l
  holdsRight : HoldsRow sem storage j.joinedTable right rm r

/-- The batch of a left row has the integers of the row, whatever the right row. -/
theorem left_cells (aliased : j.Aliased) (table : cat.getTable j.table = .ok left)
    (holds : HoldsRow sem storage j.table left lm l)
    {batch batch' : EncryptedBatch P.EncryptedVector}
    (ok : addTableColumns P storage cat j.table j.aliasName lm.chunkId batch = .ok batch')
    {column : Str} {c : ColumnSchema} (found : left.column column = .ok c)
    (type : c.type = .INT64) : Cell sem batch' (qualified j.aliasName column)
      (code (pairRow j.aliasName l r (qualified j.aliasName column)) 0) := by
  rw [pairRow_left aliased]
  exact cell_added table holds ok found type

/-- The batch of a pair has the integers of both rows. -/
theorem pair_cells (aliased : j.Aliased)
    (stored : PairStored j cat left right sem storage lm rm l r)
    {batch leftBatch full : EncryptedBatch P.EncryptedVector}
    (hleft : addTableColumns P storage cat j.table j.aliasName lm.chunkId batch = .ok leftBatch)
    (hfull : addTableColumns P storage cat j.joinedTable j.joinedAlias rm.chunkId leftBatch =
      .ok full) {name : Str} {c : ColumnSchema} (names : j.Names left right name c)
    (type : c.type = .INT64) : Cell sem full name (code (pairRow j.aliasName l r name) 0) := by
  cases names with
  | left found =>
    exact cell_kept aliased.plain aliased.plainJoined aliased.distinct hfull
      (left_cells aliased stored.table stored.holdsLeft hleft found type)
  | right found =>
    rw [pairRow_right aliased]
    exact cell_added stored.joined stored.holdsRight hfull found type

/-- The result columns of a stored column show its value under any name. -/
theorem readStored_carries (ht : cat.getTable table = .ok schema)
    (holds : HoldsRow sem storage table schema listed row) {column : Str} {c : ColumnSchema}
    (hc : schema.column column = .ok c) (wide : 1 ≤ width c) {name : Str} {shown : Row}
    (same : shown name = row column) :
    ∃ crs, readStored P storage cat (table, column) listed.chunkId name = .ok crs ∧
      Carries sem [shown] (name, c) crs := by
  obtain ⟨mem, rfl⟩ := TableSchema.column_ok hc
  have cell : ∀ position < width c, ∃ ct chunk,
      storage.getChunk table (physicalName P c c.name position) 0 listed.chunkId = .ok chunk ∧
      chunk.chunkMeta.logicalRowCount = 1 ∧ chunk.ciphertexts = [ct] ∧
      sem.slot ct 0 = (code (row c.name) position : Slot) := by
    intro position inside
    obtain ⟨chunk, ct, found⟩ := holds.column c mem position inside
    exact ⟨ct, chunk, found⟩
  obtain ⟨ct, cells⟩ := exists_below wide cell
  refine ⟨(List.range (width c)).map fun position => columnResult P name c position (ct position),
    ?_, ct, rfl, fun position inside i here found => ?_⟩
  · simp only [readStored, ofExcept_eq, ht, hc, ok_bind, physicalColumns_eq, zipIdx_map_range]
    refine mapM_ok_iff.mpr ?_
    rw [List.forall₂_map_left_iff, List.forall₂_map_right_iff, List.forall₂_same]
    intro position mem
    obtain ⟨chunk, found, _, single, _⟩ := cells position (List.mem_range.mp mem)
    simp only [storedPosition, found, ok_bind, single, pure_eq_ok]
  · obtain ⟨chunk, _, _, _, slot⟩ := cells position inside
    obtain ⟨first, rfl⟩ := List.getElem?_eq_some_iff.mp found
    obtain rfl : i = 0 := by simpa using first
    simpa [same] using slot

/-- What the executor needs of a package, from its statement. -/
structure CarriesJoin (j : Join) (pkg : QueryPackage) : Prop where
  joins : pkg.hasJoin = true
  tableName : pkg.tableName = j.table
  tableAlias : pkg.tableAlias = j.aliasName
  joinedTableName : pkg.joinedTableName = j.joinedTable
  joinedTableAlias : pkg.joinedTableAlias = j.joinedAlias
  joinLeftColumn : pkg.joinLeftColumn = j.leftKey
  joinRightColumn : pkg.joinRightColumn = j.rightKey

theorem joinColumn_carries (aliased : j.Aliased) (tables : CarriesJoin j pkg)
    (stored : PairStored j cat left right sem storage lm rm l r) {name : Str} {c : ColumnSchema}
    (names : j.Names left right name c) (wide : 1 ≤ width c) :
    ∃ crs, joinColumn P storage cat pkg lm.chunkId rm.chunkId name = .ok crs ∧
      Carries sem [pairRow j.aliasName l r] (name, c) crs := by
  rw [joinColumn_eq_readStored P storage tables.joins]
  cases names with
  | @left column c found =>
    have source : joinSource pkg lm.chunkId rm.chunkId (qualified j.aliasName column) =
        (j.table, lm.chunkId) := by
      rw [joinSource, tables.tableAlias, tables.tableName, qualifierOr_qualified aliased.plain,
        if_pos rfl]
    have executed : executedSource pkg (qualified j.aliasName column) = (j.table, column) := by
      rw [executedSource, if_pos tables.joins, joinSource, tables.tableAlias, tables.tableName,
        qualifierOr_qualified aliased.plain, if_pos rfl, bareName_qualified aliased.plain]
    rw [source, executed]
    exact readStored_carries stored.table stored.holdsLeft found wide (pairRow_left aliased column)
  | @right column c found =>
    have source : joinSource pkg lm.chunkId rm.chunkId (qualified j.joinedAlias column) =
        (j.joinedTable, rm.chunkId) := by
      rw [joinSource, tables.tableAlias, tables.joinedTableName,
        qualifierOr_qualified aliased.plainJoined, if_neg aliased.distinct.symm]
    have executed : executedSource pkg (qualified j.joinedAlias column) =
        (j.joinedTable, column) := by
      rw [executedSource, if_pos tables.joins, joinSource, tables.tableAlias,
        tables.joinedTableName, qualifierOr_qualified aliased.plainJoined,
        if_neg aliased.distinct.symm, bareName_qualified aliased.plainJoined]
    rw [source, executed]
    exact readStored_carries stored.joined stored.holdsRight found wide
      (pairRow_right aliased column)

/-- The pairs that the join and WHERE keep. -/
def Join.keeps (j : Join) (whereClause : Option ASTExpr) (row : Row) : Bool :=
  SqlSemantics.holds row j.on && satisfies whereClause row

/-- The join keys are integers. -/
structure Join.Keyed (j : Join) (left right : TableSchema) : Prop where
  left : ∃ c, left.column j.leftColumn = .ok c ∧ c.type = .INT64
  right : ∃ c, right.column j.rightColumn = .ok c ∧ c.type = .INT64

theorem singleRow_of_holds (holds : HoldsRow sem storage table schema listed row) {column : Str}
    {c : ColumnSchema} (hc : schema.column column = .ok c) (type : c.type = .INT64) :
    SingleRow storage table column listed := by
  obtain ⟨mem, rfl⟩ := TableSchema.column_ok hc
  have inside : 0 < width c := by
    rw [width_int type]
    exact Nat.one_pos
  obtain ⟨chunk, _, found, single, _⟩ := holds.column c mem 0 inside
  rw [physicalName_int type] at found
  exact ⟨chunk, by rw [holds.partition]; exact found, single⟩

variable {where? : Option (Expression P.EncryptedVector)} {references : List Str}
  {parts : List (Str × ColumnSchema)}

variable (sem j left right pkg whereClause where? references parts) in
/-- A package of a join with the WHERE the server has rebuilt: it reads columns of the
left table only, if no node names one of the joined table. -/
structure Prepared : Prop where
  slots : 0 < P.slotCount
  aliased : j.Aliased
  keyed : j.Keyed left right
  tables : CarriesJoin j pkg
  columns : Parts (j.Names left right) pkg.projectColumns parts
  partsOk : PartsOk parts
  filters : Filters sem (j.Referenced left right references) whereClause where?
  hoisted : whereUsesJoinedTable pkg = false →
    ∀ name ∈ references, ∃ column, name = qualified j.aliasName column

variable (ready : Prepared j left right whereClause sem pkg where? references parts)
include ready

/-- The mask of a pair tells whether it is kept, on whichever batch WHERE is evaluated. -/
theorem maskOf_exists (stored : PairStored j cat left right sem storage lm rm l r)
    {batch leftBatch full : EncryptedBatch P.EncryptedVector}
    (hleft : addTableColumns P storage cat j.table j.aliasName lm.chunkId batch = .ok leftBatch)
    (hfull : addTableColumns P storage cat j.joinedTable j.joinedAlias rm.chunkId leftBatch =
      .ok full) :
    ∃ mask, MaskOf P pkg where? leftBatch full mask ∧
      sem.slot mask 0 = bit (j.keeps whereClause (pairRow j.aliasName l r) = true) := by
  obtain ⟨cl, hcl, intL⟩ := ready.keyed.left
  obtain ⟨cr, hcr, intR⟩ := ready.keyed.right
  have fits : ∀ name c, j.Names left right name c → Fits c (pairRow j.aliasName l r name) :=
    fun _ _ => pairRow_fits ready.aliased stored.holdsLeft.fits stored.holdsRight.fits
  have inPair : ∀ name c, j.Names left right name c → c.type = .INT64 →
      Cell sem full name (code (pairRow j.aliasName l r name) 0) := fun _ _ =>
    pair_cells ready.aliased stored hleft hfull
  obtain ⟨joinMask, joined, joinSlot⟩ := condition_evaluated ready.slots fits
    (fun name c referenced => inPair name c referenced.2.1 referenced.2.2)
    (on_executes sem hcl hcr intL intR)
  rw [← ready.tables.joinLeftColumn, ← ready.tables.joinRightColumn] at joined
  cases ready.filters with
  | absent =>
    refine ⟨joinMask, ⟨joinMask, joined, rfl⟩, joinSlot.trans (bit_congr ?_)⟩
    simp [Join.keeps, satisfies]
  | @present e built executes =>
    have cells : ∀ name c, j.Referenced left right references name c →
        Cell sem (if whereUsesJoinedTable pkg then full else leftBatch) name
          (code (pairRow j.aliasName l r name) 0) := by
      rintro name c ⟨mem, names, type⟩
      by_cases uses : whereUsesJoinedTable pkg = true
      · rw [if_pos uses]
        exact inPair name c names type
      · rw [if_neg uses]
        obtain ⟨column, rfl⟩ := ready.hoisted (by simpa using uses) name mem
        exact left_cells ready.aliased stored.table stored.holdsLeft hleft
          (names_left ready.aliased names) type
    obtain ⟨whereMask, evaluated, whereSlot⟩ := condition_evaluated ready.slots fits cells executes
    obtain ⟨mask, product, slot⟩ := sem.evalMult joinMask whereMask
    refine ⟨mask, ⟨joinMask, joined, whereMask, evaluated, product⟩, ?_⟩
    rw [slot 0 ready.slots, joinSlot, whereSlot, bit_and]
    exact bit_congr (by simp [Join.keeps, satisfies])

/-- The WHERE of a left row can be evaluated, if it is hoisted. -/
theorem leftMask_ok (table : cat.getTable j.table = .ok left)
    (holds : HoldsRow sem storage j.table left lm l) :
    ∃ leftMask?, leftMask P storage cat pkg where? lm.chunkId = .ok leftMask? := by
  obtain ⟨leftBatch, hleft⟩ := columns_added table holds j.aliasName
    ({ logicalRowCount := 1 } : EncryptedBatch P.EncryptedVector)
  have added := hleft
  rw [← ready.tables.tableName, ← ready.tables.tableAlias] at hleft
  refine leftMask_exists where? hleft fun unused e same => ?_
  cases ready.filters with
  | absent => cases same
  | present executes =>
    cases same
    obtain ⟨mask, evaluated, _⟩ := sem.evaluate e leftBatch executes.mask fun name mem => by
      obtain ⟨reference, c, position, ⟨listed, names, type⟩, _, rfl⟩ := executes.reads name mem
      rw [physicalName_int type]
      obtain ⟨column, rfl⟩ := ready.hoisted unused reference listed
      obtain ⟨ct, first, _⟩ := cell_added table holds added (names_left ready.aliased names) type
      exact ⟨ct, first⟩
    exact ⟨mask, evaluated⟩

/-- The result columns of a pair. -/
theorem columns_carry (stored : PairStored j cat left right sem storage lm rm l r) :
    ∃ crss, pkg.projectColumns.mapM (joinColumn P storage cat pkg lm.chunkId rm.chunkId) =
        .ok crss ∧
      List.Forall₂ (Carries sem [pairRow j.aliasName l r]) parts crss := by
  have listed : List.Forall₂ (fun name part => (name = part.1 ∧ j.Names left right part.1 part.2) ∧
      part ∈ parts) pkg.projectColumns parts := forall₂_and_mem ready.columns fun _ mem => mem
  obtain ⟨crss, loop, carries⟩ := mapM_forall₂
    (S := fun crs part => Carries sem [pairRow j.aliasName l r] part crs) (fun name part here => by
      obtain ⟨⟨rfl, names⟩, mem⟩ := here
      exact joinColumn_carries ready.aliased ready.tables stored names
        (ready.partsOk.wide part mem)) listed
  exact ⟨crss, loop, carries.flip⟩

/-- The batch of a pair carries its row. -/
theorem pairBatch_carries (stored : PairStored j cat left right sem storage lm rm l r)
    {leftKey rightKey : Str} {rb : EncryptedResultBatch}
    (batch : PairBatch storage cat pkg where? leftKey rightKey (lm, rm) rb) :
    BatchCarries sem parts (j.keeps whereClause) rb [pairRow j.aliasName l r] := by
  obtain ⟨leftBatch, full, reads⟩ := readsPair_of_pairBatch batch
  have hleft := reads.leftColumns
  have hfull := reads.rightColumns
  rw [ready.tables.tableName, ready.tables.tableAlias] at hleft
  rw [ready.tables.joinedTableName, ready.tables.joinedTableAlias] at hfull
  obtain ⟨mask, maskOf, slot⟩ := maskOf_exists ready stored hleft hfull
  obtain ⟨mask', maskOf', bytes⟩ := reads.mask
  obtain rfl := maskOf_unique maskOf maskOf'
  obtain ⟨crss, loop, carries⟩ := columns_carry ready stored
  obtain ⟨crss', loop', same⟩ := reads.columns
  cases loop.symm.trans loop'
  have few : [pairRow j.aliasName l r].length < 2 ^ 60 := by
    rw [List.length_singleton]
    omega
  refine ⟨reads.rowCount, ⟨crss, same, carries⟩, ?_, ready.slots, few, fun row mem part hp => ?_⟩
  · rw [Selects, reads.masked, if_pos rfl]
    refine ⟨mask, bytes, fun i row found => ?_⟩
    obtain ⟨first, rfl⟩ := List.getElem?_eq_some_iff.mp found
    obtain rfl : i = 0 := by simpa using first
    exact slot
  · obtain rfl := List.mem_singleton.mp mem
    exact pairRow_fits ready.aliased stored.holdsLeft.fits stored.holdsRight.fits
      (Parts.column ready.columns hp).2

/-- A pair of stored rows has a batch. -/
theorem pair_answered (stored : PairStored j cat left right sem storage lm rm l r)
    {leftMask? : Option P.EncryptedVector}
    (hmask : leftMask P storage cat pkg where? lm.chunkId = .ok leftMask?) (batchId : UInt32) :
    ∃ rb, joinPair P storage cat pkg where? j.rightColumn lm leftMask? batchId rm = .ok rb := by
  obtain ⟨cr, hcr, intR⟩ := ready.keyed.right
  obtain ⟨leftBatch, hleft⟩ := columns_added stored.table stored.holdsLeft j.aliasName
    ({ logicalRowCount := 1 } : EncryptedBatch P.EncryptedVector)
  obtain ⟨full, hfull⟩ := columns_added stored.joined stored.holdsRight j.joinedAlias leftBatch
  obtain ⟨mask, maskOf, _⟩ := maskOf_exists ready stored hleft hfull
  obtain ⟨crss, loop, _⟩ := columns_carry ready stored
  have single := singleRow_of_holds stored.holdsRight hcr intR
  rw [← ready.tables.tableName, ← ready.tables.tableAlias] at hleft
  rw [← ready.tables.joinedTableName, ← ready.tables.joinedTableAlias] at hfull
  rw [← ready.tables.joinedTableName] at single
  exact joinPair_exists (lm, rm) single hleft hfull hmask maskOf loop batchId

theorem joinKeys_ok : joinKeys pkg = .ok (j.leftColumn, j.rightColumn) := by
  have cut : ∀ a b : Str, (a ++ [dot]).isPrefixOf (qualified a b) = true ∧
      (qualified a b).drop (a.length + 1) = b := fun a b =>
    ⟨List.isPrefixOf_iff_prefix.mpr ⟨b, by simp [qualified]⟩, drop_qualified a b⟩
  obtain ⟨leftPrefix, leftDrop⟩ := cut j.aliasName j.leftColumn
  obtain ⟨rightPrefix, rightDrop⟩ := cut j.joinedAlias j.rightColumn
  rw [joinKeys, ready.tables.joinLeftColumn, ready.tables.joinRightColumn, ready.tables.tableAlias,
    ready.tables.joinedTableAlias, Join.leftKey, Join.rightKey]
  simp only [leftPrefix, rightPrefix, leftDrop, rightDrop, Bool.not_true, Bool.false_eq_true,
    or_self, if_false, pure_eq_ok]

/-- Every pair of rows is answered by a batch that carries its row. -/
theorem executeJoin_carries (table : cat.getTable j.table = .ok left)
    (joined : cat.getTable j.joinedTable = .ok right) {leftRows rightRows : List Row}
    {leftListed rightListed : List ChunkMeta}
    (storedLeft : StoresRows sem storage j.table left leftRows leftListed)
    (storedRight : StoresRows sem storage j.joinedTable right rightRows rightListed) {fuel : Nat}
    (built : buildWhere P pkg fuel = .ok where?) :
    ∃ results, executeJoin P storage cat fuel pkg = .ok results ∧
      List.Forall₂ (BatchCarries sem parts (j.keeps whereClause)) results
        ((leftRows ×ˢ rightRows).map fun pair => [pairRow j.aliasName pair.1 pair.2]) := by
  have keys := joinKeys_ok ready
  obtain ⟨cl, hcl, intL⟩ := ready.keyed.left
  obtain ⟨cr, hcr, intR⟩ := ready.keyed.right
  have listing : ∀ {table : Str} {schema : TableSchema} {rows : List Row} {listed : List ChunkMeta}
      {column : Str} {c : ColumnSchema}, StoresRows sem storage table schema rows listed →
      schema.column column = .ok c → c.type = .INT64 →
      storage.listChunks table column = .ok listed := by
    intro table schema rows listed column c stores hc type
    obtain ⟨mem, rfl⟩ := TableSchema.column_ok hc
    have chunks := stores.chunks c mem 0 (by rw [width_int type]; exact Nat.one_pos)
    rwa [physicalName_int type] at chunks
  have leftChunks := listing storedLeft hcl intL
  have rightChunks := listing storedRight hcr intR
  rw [← ready.tables.tableName] at leftChunks
  rw [← ready.tables.joinedTableName] at rightChunks
  have pairs := forall₂_prod storedLeft.rows storedRight.rows
  have stored : ∀ {lm rm l r}, HoldsRow sem storage j.table left lm l →
      HoldsRow sem storage j.joinedTable right rm r →
      PairStored j cat left right sem storage lm rm l r := fun hl hr => ⟨table, joined, hl, hr⟩
  obtain ⟨results, run⟩ := executeJoin_exists keys leftChunks rightChunks built fun lm ml => by
    obtain ⟨l, holdsLeft, _⟩ := forall₂_meet storedLeft.rows storedLeft.rows ml
    have single := singleRow_of_holds holdsLeft hcl intL
    rw [← ready.tables.tableName] at single
    obtain ⟨leftMask?, hmask⟩ := leftMask_ok ready table holdsLeft
    refine ⟨single, leftMask?, hmask, fun rm mr batchId => ?_⟩
    obtain ⟨r, holdsRight, _⟩ := forall₂_meet storedRight.rows storedRight.rows mr
    exact pair_answered ready (stored holdsLeft holdsRight) hmask batchId
  refine ⟨results, run, ?_⟩
  obtain ⟨keys', leftChunks', rightChunks', where', hkeys, hleft, hright, hwhere, batches⟩ :=
    executeJoin_ok run
  cases keys.symm.trans hkeys
  cases leftChunks.symm.trans hleft
  cases rightChunks.symm.trans hright
  cases built.symm.trans hwhere
  rw [List.forall₂_map_right_iff]
  refine forall₂_span batches pairs fun pair rb rows batch holds => ?_
  exact pairBatch_carries ready (stored holds.1 holds.2) batch

end Pairs

/-- The pairs kept are the filtered inner join, left row by left row. -/
theorem kept_eq_innerJoin (aliased : j.Aliased) (whereClause : Option ASTExpr)
    (leftRows rightRows : List Row) :
    ((leftRows ×ˢ rightRows).map fun pair => [pairRow j.aliasName pair.1 pair.2]).flatten.filter
        (j.keeps whereClause) =
      (innerJoin j.aliasName j.leftColumn j.rightColumn leftRows rightRows).filter
        (satisfies whereClause) := by
  have on : ∀ l r, SqlSemantics.holds (pairRow j.aliasName l r) j.on =
      decide (l j.leftColumn = r j.rightColumn) := by
    intro l r
    have leftValue := pairRow_left (l := l) (r := r) aliased j.leftColumn
    have rightValue := pairRow_right (l := l) (r := r) aliased j.rightColumn
    simp only [Join.on, SqlSemantics.holds, compares, operand, Join.leftKey, Join.rightKey,
      leftValue, rightValue]
    rfl
  have keeps : j.keeps whereClause = fun row =>
      satisfies whereClause row && SqlSemantics.holds row j.on := by
    funext row
    exact Bool.and_comm _ _
  have singles : ∀ pairs : List (Row × Row),
      (pairs.map fun pair => [pairRow j.aliasName pair.1 pair.2]).flatten =
        pairs.map fun pair => pairRow j.aliasName pair.1 pair.2 := by
    intro pairs
    rw [← List.flatMap_def, List.map_eq_flatMap]
  rw [singles, keeps, ← List.filter_filter]
  refine congrArg (List.filter (satisfies whereClause)) ?_
  induction leftRows with
  | nil => rfl
  | cons l leftRows ih =>
    rw [List.product_cons, List.map_append, List.filter_append, ih, innerJoin, innerJoin,
      List.flatMap_cons, List.map_map, List.filter_map]
    refine congrArg (· ++ _) (congrArg (List.map _) (List.filter_congr fun r _ => ?_))
    exact on l r

section Queries

variable {P : Proto1} (sem : SlotSemantics P)
  {storage : EncryptedStorage (Except Exn) P.EncryptedVector} {leftRows rightRows : List Row}
  {leftListed rightListed : List ChunkMeta}

variable (P) in
/-- Executing a package and decoding the batches gives the rows of the filtered inner
join, in its order, under the projected names. -/
def Answers (j : Join) (cat : Catalog) (storage : EncryptedStorage (Except Exn) P.EncryptedVector)
    (projections : List Str) (whereClause : Option ASTExpr) (leftRows rightRows : List Row)
    (pkg : QueryPackage) (fuel : Nat) : Prop :=
  ∃ batches decoded, execute P storage cat fuel pkg = .ok batches ∧
    decodeAll P batches = .ok decoded ∧
    List.Forall₂ (Shows projections) decoded
      ((innerJoin j.aliasName j.leftColumn j.rightColumn leftRows rightRows).filter
        (satisfies whereClause))

/-- What the analysis of a join says of its columns. -/
theorem columns_of_analyzed
    (analyzed : Analyzed cat (j.statement projections whereClause) left scopes)
    (joined : cat.getTable j.joinedTable = .ok right)
    (query : j.Query left right projections whereClause) :
    j.Keyed left right ∧ (∀ name ∈ projections, ∃ c, j.Names left right name c) ∧
      ∀ e, whereClause = some e →
        Typed (j.Referenced left right (StatementPlan.references e)) left e := by
  have resolved : ∀ {name c}, j.Qualifies name → resolve scopes name = .ok c →
      j.Names left right name c := fun qualifies found =>
    names_of_resolve query.aliased joined analyzed.scopesOk qualifies found
  refine ⟨?_, fun name mem => ?_, fun e same => ?_⟩
  · have condition := analyzed.joins _ (List.mem_singleton_self _)
    obtain ⟨cl, hl, condition⟩ := bind_ok_iff.mp condition
    obtain ⟨cr, hr, _⟩ := bind_ok_iff.mp condition
    have leftFound := names_left query.aliased (resolved ⟨j.leftColumn, Or.inl rfl⟩ hl)
    have rightFound := names_right query.aliased (resolved ⟨j.rightColumn, Or.inr rfl⟩ hr)
    exact ⟨⟨cl, leftFound, query.leftColumn cl leftFound⟩,
      cr, rightFound, query.rightColumn cr rightFound⟩
  · obtain ⟨c, hc⟩ := analyzed.projections name mem
    exact ⟨c, resolved (query.projections name mem) hc⟩
  · exact typed_of_supported query.aliased analyzed.table joined (analyzed.whereOk e same)
      (query.whereOk e same) fun _ mem => mem

/-- The tables and keys of a package are those of its join. -/
theorem carriesJoin_of_builtFrom {schema : TableSchema} {plan : PhysicalPlan}
    {fheMeta : FHEParamsMeta} {rng : P.Rng} {columns : List ColumnSchema} {pkg : QueryPackage}
    (planOf : PlanOf (j.statement projections whereClause) schema plan)
    (built : BuiltFrom P schema rng { planFields plan fheMeta with resultSchema := columns }
      whereClause pkg) : CarriesJoin j pkg := by
  have tables := built.copiesPlan.packageOf planOf
  have keys : pkg.joinLeftColumn = plan.joinLeftColumn ∧
      pkg.joinRightColumn = plan.joinRightColumn := by
    cases built <;> exact ⟨rfl, rfl⟩
  obtain ⟨leftKey, rightKey, condition, hleft, hright⟩ := planOf.joinColumns _ rfl
  cases condition
  exact ⟨tables.hasJoin, tables.tableName, tables.tableAlias, tables.joinedTableName,
    tables.joinedTableAlias, keys.1.trans hleft, keys.2.trans hright⟩

/-- The encryptor finds a projected column in the table of its alias. -/
theorem tableHas_of_names (aliased : j.Aliased) (table : cat.getTable j.table = .ok left)
    (joined : cat.getTable j.joinedTable = .ok right) {name : Str} {c : ColumnSchema}
    (names : j.Names left right name c) :
    TableHas cat (encryptorTable (j.statement projections whereClause) name) (bareName name) := by
  cases names with
  | @left column c found =>
    have own : encryptorTable (j.statement projections whereClause) (qualified j.aliasName column) =
        j.table := if_pos (qualifierOr_qualified aliased.plain _ _)
    rw [own, bareName_qualified aliased.plain]
    exact ⟨left, table, TableSchema.hasColumn_iff.mpr ⟨c, found⟩⟩
  | @right column c found =>
    have other : qualifierOr j.aliasName (qualified j.joinedAlias column) ≠ j.aliasName := by
      rw [qualifierOr_qualified aliased.plainJoined]
      exact aliased.distinct.symm
    have own : encryptorTable (j.statement projections whereClause)
        (qualified j.joinedAlias column) = j.joinedTable := if_neg other
    rw [own, bareName_qualified aliased.plainJoined]
    exact ⟨right, joined, TableSchema.hasColumn_iff.mpr ⟨c, found⟩⟩

include sem in
/-- When no node names a column of the joined table, neither does WHERE. -/
theorem hoisted_of_builtFrom {schema : TableSchema} {rng : P.Rng} {base pkg : QueryPackage}
    {references : List Str} {e : ASTExpr}
    (typed : Typed (j.Referenced left right references) schema e)
    (built : BuiltFrom P schema rng base (some e) pkg)
    (carried : pkg.joinedTableAlias = j.joinedAlias) (unused : whereUsesJoinedTable pkg = false) :
    ∀ name ∈ StatementPlan.references e, ∃ column, name = qualified j.aliasName column := by
  intro name mem
  obtain ⟨c, _, names, _⟩ := references_of_typed typed name mem
  cases names with
  | @left column => exact ⟨column, rfl⟩
  | @right column =>
    obtain ⟨node, listed, kind, named⟩ := columnRef_of_builtFrom sem typed
      (fun _ _ referenced => referenced.2.2) built _ mem
    have used : whereUsesJoinedTable pkg = true := usesJoinedTable_iff.mpr ⟨node, listed, kind, by
      rw [named, carried, List.isPrefixOf_iff_prefix]
      exact ⟨column, by simp [qualified]⟩⟩
    rw [unused] at used
    cases used

/-- An integer join of two stored tables is sent, and the server's answer shows the
pairs of rows that the inner join and WHERE keep. -/
theorem join_answers (accepted : analyze cat (j.statement projections whereClause) = .ok left)
    (joined : cat.getTable j.joinedTable = .ok right) (slots : 0 < P.slotCount)
    (storedLeft : StoresRows sem storage j.table left leftRows leftListed)
    (storedRight : StoresRows sem storage j.joinedTable right rightRows rightListed)
    (query : j.Query left right projections whereClause)
    (sendable : j.Projectable left right projections) (fheMeta : FHEParamsMeta) (rng : P.Rng) :
    ∃ pkg, clientPackage cat fheMeta (j.statement projections whereClause) rng = .ok pkg ∧
      (pkg.predicateNodes.length < 2 ^ 32 → pkg.encryptedLiterals.length < 2 ^ 32 →
        ∀ fuel, pkg.predicateNodes.length ≤ fuel →
          Answers P j cat storage projections whereClause leftRows rightRows pkg fuel) := by
  have table := analyze_schema accepted
  obtain ⟨scopes, analyzed⟩ := analyze_ok_iff.mp accepted
  obtain ⟨plan, planned, planOf⟩ := planQuery_analyzed analyzed
  obtain ⟨keyed, known, typed⟩ := columns_of_analyzed analyzed joined query
  have projects : plan.projectColumns = projections :=
    planOf.projectColumns.trans (if_neg query.selects)
  have resolved : ∃ columns, resultSchemaOf cat plan = .ok columns :=
    (resultSchemaOf_ok_iff planOf).mpr fun name mem => by
      obtain ⟨c, names⟩ := known name (projects ▸ mem)
      exact tableHas_of_names query.aliased table joined names
  obtain ⟨columns, found⟩ := resolved
  have typed' : ∀ e, whereClause = some e → Typed (j.Referenced left right
      (whereReferences (j.statement projections whereClause))) left e := by
    rintro e rfl
    exact typed e rfl
  obtain ⟨pkg, built, runs⟩ := filters_of_typed sem typed' rng
    { planFields plan fheMeta with resultSchema := columns } rfl
  refine ⟨pkg, (clientPackage_ok_iff accepted planned planOf).mpr ⟨columns, found, built⟩,
    fun fewNodes fewLiterals fuel enough => ?_⟩
  obtain ⟨where?, filters, rebuilt⟩ := runs fewNodes fewLiterals
  have tables := carriesJoin_of_builtFrom planOf built
  obtain ⟨parts, columns⟩ := exists_parts known
  have partsOk : PartsOk parts := by
    refine ⟨fun name c d hc hd => ?_, fun part mem => ?_, fun part mem => ?_⟩
    · exact names_unique query.aliased (Parts.column columns hc).2 (Parts.column columns hd).2
    · obtain ⟨listed, names⟩ := Parts.column columns mem
      exact (sendable _ listed _ names).1
    · obtain ⟨listed, names⟩ := Parts.column columns mem
      exact (sendable _ listed _ names).2
  have copied : pkg.projectColumns = projections := built.copiesPlan.projectColumns.trans projects
  have ready : Prepared j left right whereClause sem pkg where?
      (whereReferences (j.statement projections whereClause)) parts := by
    refine ⟨slots, query.aliased, keyed, tables, copied ▸ columns, partsOk, filters, ?_⟩
    intro unused name mem
    cases whereClause with
    | none => cases mem
    | some e =>
      exact hoisted_of_builtFrom sem (typed e rfl) built tables.joinedTableAlias unused name mem
  obtain ⟨results, run, carries⟩ := executeJoin_carries ready table joined storedLeft storedRight
    (rebuilt fuel enough)
  obtain ⟨decoded, decodes, shows⟩ := decodeAll_ok sem partsOk carries
  rw [Parts.names columns, kept_eq_innerJoin query.aliased] at shows
  refine ⟨results, decoded, ?_, decodes, shows⟩
  rw [execute, tables.joins]
  exact run

end Queries

open PlainProto1

def owners : TableSchema where
  tableId := str "owners"
  columns := [
    { name := str "id", type := .INT64 },
    { name := str "name", type := .STRING, maxLength := 2 }]

def pets : TableSchema where
  tableId := str "pets"
  columns := [{ name := str "owner", type := .INT64 }, { name := str "age", type := .INT64 }]

def petCatalog : Catalog := (({} : Catalog).registerTable owners).registerTable pets

def ownerRow (id : Int) (name : Str) : Row := fun reference =>
  if reference = str "name" then .string name else .int id

def petRow (owner age : Int) : Row := fun reference =>
  .int (if reference = str "age" then age else owner)

def ownerRows : List Row := [ownerRow 1 (str "al"), ownerRow 2 (str "bo")]

def petRows : List Row := [petRow 2 4, petRow 1 2, petRow 2 7]

/-- The codes in the physical columns, row by row. -/
def petCodes (physical : Str) : List Nat :=
  if physical = str "name#0" then [97, 98]
  else if physical = str "name#1" then [108, 111]
  else if physical = str "id" then [1, 2]
  else if physical = str "age" then [4, 2, 7]
  else [2, 1, 2]

/-- A chunk for each of some rows. -/
def rowChunks (count : Nat) : List ChunkMeta := (List.range count).map fun i => ⟨0, i, 1⟩

/-- Columns stored row by row. -/
def rowStorage (codes : Str → List Nat) (count : Str → Nat) :
    EncryptedStorage (Except Exn) PlainVector where
  listChunks table _ := .ok (rowChunks (count table))
  getChunk _ physical partitionId chunkId :=
    .ok { chunkMeta := ⟨partitionId, chunkId, 1⟩
          ciphertexts := [⟨[((codes physical)[chunkId]?).getD 0], 1⟩] }
  tableScan _ _ := .ok []

def petStorage : EncryptedStorage (Except Exn) PlainVector :=
  rowStorage petCodes fun table => if table = str "owners" then 2 else 3

theorem rows_stored {codes : Str → List Nat} {count : Str → Nat} {table : Str}
    {schema : TableSchema} {rows : List Row} (size : count table = rows.length)
    (fits : ∀ row ∈ rows, RowFits schema row)
    (stored : ∀ i : Fin rows.length, ∀ c ∈ schema.columns, ∀ position < width c,
      (codes (physicalName (plainProto1 1) c c.name position))[i.val]? =
        some (code (rows.get i c.name) position).toNat) :
    StoresRows (plainSlotSemantics 1) (rowStorage codes count) table schema rows
      (rowChunks rows.length) where
  chunks _ _ _ _ := congrArg (fun n => Except.ok (rowChunks n)) size
  rows := by
    refine List.forall₂_iff_get.mpr ⟨by simp [rowChunks], fun i hi hr => ?_⟩
    have own : (rowChunks rows.length).get ⟨i, hi⟩ = ⟨0, i, 1⟩ := by simp [rowChunks]
    have holds := fits _ (List.getElem_mem hr)
    rw [own]
    refine ⟨rfl, holds, fun c listed position inside => ⟨_, _, rfl, rfl, rfl, ?_⟩⟩
    have low := (code_bounds (holds c listed) position).1
    change ((((codes (physicalName (plainProto1 1) c c.name position))[i]?).getD 0 : Nat) : Slot) =
      _
    rw [stored ⟨i, hr⟩ c listed position inside, Option.getD_some, ← Int.cast_natCast]
    exact congrArg _ (Int.toNat_of_nonneg low)

/-- The statement of `SELECT o.name, p.age FROM owners o JOIN pets p ON o.id = p.owner`. -/
def ownership : Join := ⟨str "owners", str "o", str "pets", str "p", str "id", str "owner"⟩

/-- `WHERE p.age > 3`. -/
def grown : ASTExpr := .comparison .GreaterThan (.columnRef (str "p.age")) (.intLiteral 3)

theorem ownership_query :
    ownership.Query owners pets [str "o.name", str "p.age"] (some grown) where
  aliased := ⟨by decide, by decide, by decide, by decide⟩
  leftColumn c found := by
    cases found
    rfl
  rightColumn c found := by
    cases found
    rfl
  selects := by decide
  projections name mem := by
    rcases List.mem_cons.mp mem with rfl | mem
    · exact ⟨str "name", Or.inl rfl⟩
    · obtain rfl := List.mem_singleton.mp mem
      exact ⟨str "age", Or.inr rfl⟩
  whereOk e same := by
    cases same
    have aliased : ownership.Aliased := ⟨by decide, by decide, by decide, by decide⟩
    refine ⟨⟨⟨str "age", Or.inr rfl⟩, fun c names => ?_⟩, by decide, by decide⟩
    have found : pets.column (str "age") = .ok c := names_right aliased names
    cases found
    rfl

theorem pets_answered : ∃ pkg,
    clientPackage (P := plainProto1 1) petCatalog {}
      (ownership.statement [str "o.name", str "p.age"] (some grown)) () = .ok pkg ∧
    Answers (plainProto1 1) ownership petCatalog petStorage [str "o.name", str "p.age"]
      (some grown) ownerRows petRows pkg 3 := by
  have widths : ∀ c ∈ owners.columns ++ pets.columns, 1 ≤ width c ∧ width c < 2 ^ 32 := by decide
  have sendable : ownership.Projectable owners pets [str "o.name", str "p.age"] := by
    intro name _ c names
    cases names with
    | left found => exact widths c (List.mem_append_left _ (TableSchema.column_ok found).1)
    | right found => exact widths c (List.mem_append_right _ (TableSchema.column_ok found).1)
  have storedOwners : StoresRows (plainSlotSemantics 1) petStorage (str "owners") owners ownerRows
      (rowChunks 2) := rows_stored (by decide) (by decide +kernel) (by decide +kernel)
  have storedPets : StoresRows (plainSlotSemantics 1) petStorage (str "pets") pets petRows
      (rowChunks 3) := rows_stored (by decide) (by decide +kernel) (by decide +kernel)
  have accepted : analyze petCatalog
      (ownership.statement [str "o.name", str "p.age"] (some grown)) = .ok owners := rfl
  obtain ⟨pkg, sent, answers⟩ := join_answers (plainSlotSemantics 1) accepted rfl Nat.one_pos
    storedOwners storedPets ownership_query sendable {} ()
  have size : ((clientPackage (P := plainProto1 1) petCatalog {}
      (ownership.statement [str "o.name", str "p.age"] (some grown)) ()).map fun pkg =>
      (pkg.predicateNodes.length, pkg.encryptedLiterals.length)) = .ok (3, 1) := rfl
  rw [sent, Except.map, Except.ok.injEq, Prod.mk.injEq] at size
  obtain ⟨nodes, literals⟩ := size
  exact ⟨pkg, sent, answers (by omega) (by omega) 3 (by omega)⟩

/-- A table with a string column of no width. -/
def widthless : TableSchema where
  tableId := str "owners"
  columns := [{ name := str "id", type := .INT64 }, { name := str "name", type := .STRING }]

set_option maxRecDepth 2000 in
/-- A projected string column of no width is missing from the decoded rows. -/
theorem widthless_column_unanswered :
    ¬ ∀ (P : Proto1) (sem : SlotSemantics P) (cat : Catalog) (j : Join) (left right : TableSchema)
      (projections : List Str) (whereClause : Option ASTExpr)
      (storage : EncryptedStorage (Except Exn) P.EncryptedVector) (leftRows rightRows : List Row)
      (leftListed rightListed : List ChunkMeta),
      analyze cat (j.statement projections whereClause) = .ok left →
      cat.getTable j.joinedTable = .ok right → 0 < P.slotCount →
      StoresRows sem storage j.table left leftRows leftListed →
      StoresRows sem storage j.joinedTable right rightRows rightListed →
      j.Query left right projections whereClause →
      ∀ (fheMeta : FHEParamsMeta) (rng : P.Rng), ∃ pkg fuel,
        clientPackage cat fheMeta (j.statement projections whereClause) rng = .ok pkg ∧
          Answers P j cat storage projections whereClause leftRows rightRows pkg fuel := by
  intro all
  have query : ownership.Query widthless pets [str "o.name"] none := by
    refine ⟨ownership_query.aliased, fun c found => ?_, ownership_query.rightColumn, by decide,
      fun name mem => ?_, nofun⟩
    · cases found
      rfl
    · exact ⟨str "name", Or.inl (List.mem_singleton.mp mem)⟩
  let cat := (({} : Catalog).registerTable widthless).registerTable pets
  let storage := rowStorage (fun _ => [1]) fun _ => 1
  have storedOwner : StoresRows (plainSlotSemantics 1) storage (str "owners") widthless
      [ownerRow 1 []] (rowChunks 1) := rows_stored rfl (by decide +kernel) (by decide +kernel)
  have storedPet : StoresRows (plainSlotSemantics 1) storage (str "pets") pets [petRow 1 1]
      (rowChunks 1) := rows_stored rfl (by decide +kernel) (by decide +kernel)
  obtain ⟨pkg, fuel, sent, batches, decoded, run, decodes, shows⟩ := all (plainProto1 1)
    (plainSlotSemantics 1) cat ownership widthless pets [str "o.name"] none storage _ _ _ _ rfl rfl
    Nat.one_pos storedOwner storedPet query {} ()
  have reply : (do
      let pkg ← clientPackage (P := plainProto1 1) cat {}
        (ownership.statement [str "o.name"] none) ()
      let batches ← execute (plainProto1 1) storage cat fuel pkg
      let rows ← decodeAll (plainProto1 1) batches
      pure (rows.map fun (r : ResultRow) => r.value? (str "o.name"))) = .ok [none] := rfl
  simp only [sent, run, decodes, ok_bind, pure_eq_ok, Except.ok.injEq] at reply
  obtain ⟨r, rfl, missing⟩ := List.map_eq_singleton_iff.mp reply
  cases shows with
  | cons shown _ => cases missing.symm.trans (shown _ (List.mem_singleton_self _))

end FheSql.JoinCorrectness
