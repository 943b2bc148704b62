import FheSql.DecodedRows
import FheSql.JoinLoop
import FheSql.ResultPrinter

/-!
# Printing decoded rows

The executor gives all columns of one name the same type, so a decoded row has each
value in one of its two maps only. What the client prints of such rows is the table of
the rows they show.
-/

namespace FheSql.PrintedRows

open ByteText Throwing QueryExecutor ResultDecoder SqlSemantics DecodedRows JoinLoop ResultPrinter

/-- The columns of a batch are strings or not by their names. -/
def Kinded (string : Str → Prop) (rb : EncryptedResultBatch) : Prop :=
  ∀ cr ∈ rb.columns, cr.logicalType = str "STRING" ↔ string cr.columnName

/-- A name that is read from a STRING column of its table. -/
def IsString (cat : Catalog) (source : Str → Str × Str) (name : Str) : Prop :=
  ∃ t c, cat.getTable (source name).1 = .ok t ∧ t.column (source name).2 = .ok c ∧
    c.type = .STRING

section Executed

variable {P : Proto1} {storage : EncryptedStorage (Except Exn) P.EncryptedVector} {cat : Catalog}
  {pkg : QueryPackage}

theorem string_iff {c : ColumnSchema} : logicalTypeName c = str "STRING" ↔ c.type = .STRING := by
  unfold logicalTypeName
  by_cases string : c.type = .STRING
  · simp [string]
  · have other : str "INT64" ≠ str "STRING" := by decide
    simp [string, other]

theorem columnResult_kinded (source : Str → Str × Str) {name : Str} {t : TableSchema}
    {c : ColumnSchema} (table : cat.getTable (source name).1 = .ok t)
    (column : t.column (source name).2 = .ok c) (position : Nat) (ct : P.EncryptedVector) :
    (columnResult P name c position ct).logicalType = str "STRING" ↔
      IsString cat source (columnResult P name c position ct).columnName := by
  refine string_iff.trans ⟨fun string => ⟨t, c, table, column, string⟩, ?_⟩
  rintro ⟨t', c', table', column', string⟩
  cases table.symm.trans table'
  cases column.symm.trans column'
  exact string

theorem scanColumn_kinded {batch : EncryptedBatch P.EncryptedVector} {name : Str}
    {crs : List EncryptedColumnResult} (ok : scanColumn P cat pkg batch name = .ok crs)
    {cr : EncryptedColumnResult} (mem : cr ∈ crs) :
    cr.logicalType = str "STRING" ↔
      IsString cat (fun name => (pkg.tableName, name)) cr.columnName := by
  simp only [scanColumn, bind_ok_iff] at ok
  obtain ⟨t, table, c, column, loop⟩ := ok
  obtain ⟨⟨physical, position⟩, _, cell⟩ := mapM_ok_mem loop mem
  simp only at cell
  cases found : batch.columns.lookup physical with
  | none =>
    rw [found] at cell
    cases cell
  | some chunk =>
    rw [found] at cell
    simp only at cell
    cases first : chunk.ciphertexts with
    | nil =>
      rw [first] at cell
      cases cell
    | cons ct rest =>
      rw [first] at cell
      cases cell
      exact columnResult_kinded (fun name => (pkg.tableName, name)) table column _ _

theorem joinColumn_kinded {leftChunk rightChunk : Nat} {name : Str}
    {crs : List EncryptedColumnResult}
    (ok : joinColumn P storage cat pkg leftChunk rightChunk name = .ok crs)
    {cr : EncryptedColumnResult} (mem : cr ∈ crs) :
    cr.logicalType = str "STRING" ↔
      IsString cat (fun name => ((joinSource pkg 0 0 name).1, bareName name)) cr.columnName := by
  simp only [joinColumn, ofExcept_eq, bind_ok_iff] at ok
  obtain ⟨t, table, c, column, loop⟩ := ok
  obtain ⟨⟨physical, position⟩, _, cell⟩ := mapM_ok_mem loop mem
  obtain ⟨chunk, _, cell⟩ := bind_ok_iff.mp cell
  have same : (joinSource pkg leftChunk rightChunk name).1 = (joinSource pkg 0 0 name).1 := by
    unfold joinSource
    split <;> rfl
  rw [same] at table
  cases first : chunk.ciphertexts with
  | nil =>
    rw [first] at cell
    cases cell
  | cons ct rest =>
    rw [first] at cell
    cases cell
    exact columnResult_kinded (fun name => ((joinSource pkg 0 0 name).1, bareName name)) table
      column _ _

/-- All batches of an answer agree on which names are strings. -/
theorem execute_kinded {fuel : Nat} {results : List EncryptedResultBatch}
    (run : execute P storage cat fuel pkg = .ok results) :
    ∃ string, ∀ rb ∈ results, Kinded string rb := by
  unfold execute at run
  cases joins : pkg.hasJoin with
  | true =>
    rw [joins, if_pos rfl] at run
    obtain ⟨keys, leftChunks, rightChunks, where?, _, _, _, _, pairs⟩ := executeJoin_ok run
    refine ⟨IsString cat fun name => ((joinSource pkg 0 0 name).1, bareName name),
      fun rb mem cr here => ?_⟩
    obtain ⟨pair, batch, _⟩ := Pointwise.forall₂_meet pairs.flip pairs.flip mem
    obtain ⟨left, full, reads⟩ := readsPair_of_pairBatch batch
    obtain ⟨columns, loop, same⟩ := reads.columns
    rw [same] at here
    obtain ⟨crs, listed, own⟩ := List.mem_flatten.mp here
    obtain ⟨name, _, ok⟩ := mapM_ok_mem loop listed
    exact joinColumn_kinded ok own
  | false =>
    rw [joins, if_neg Bool.false_ne_true] at run
    simp only [executeScan, ofExcept_eq, bind_ok_iff] at run
    obtain ⟨_, _, _, _, _, _, _, _, loop⟩ := run
    refine ⟨IsString cat fun name => (pkg.tableName, name), fun rb mem cr here => ?_⟩
    obtain ⟨⟨batch, i⟩, _, turn⟩ := mapM_ok_mem loop mem
    obtain ⟨projected, _, serialized⟩ := bind_ok_iff.mp turn
    obtain ⟨columns, columnsOk, same⟩ := bind_ok_iff.mp serialized
    cases same
    obtain ⟨crs, listed, own⟩ := List.mem_flatten.mp here
    obtain ⟨name, _, ok⟩ := mapM_ok_mem columnsOk listed
    exact scanColumn_kinded ok own

end Executed

/-- No name stands in both maps of a row. -/
def Apart (r : ResultRow) : Prop :=
  ∀ name, r.values.lookup name = none ∨ r.stringValues.lookup name = none

section Decoded

variable {P : Proto1} {string : Str → Prop}

/-- The decoded columns stand in the maps of their types. -/
def Sorted (string : Str → Prop) (columns : Columns) : Prop :=
  (∀ name, string name → columns.cols.lookup name = none) ∧
    ∀ name, ¬ string name → columns.stringCols.lookup name = none

theorem sorted_decodeColumn {rowCount : Nat} {columns columns' : Columns}
    {cr : EncryptedColumnResult} (sorted : Sorted string columns)
    (kinded : cr.logicalType = str "STRING" ↔ string cr.columnName)
    (ok : decodeColumn P rowCount columns cr = .ok columns') : Sorted string columns' := by
  obtain ⟨values, _, ok⟩ := bind_ok_iff.mp ok
  by_cases isString : cr.logicalType = str "STRING"
  · rw [if_pos isString] at ok
    obtain ⟨positions, _, same⟩ := bind_ok_iff.mp ok
    cases same
    refine ⟨sorted.1, fun name other => ?_⟩
    have differ : name ≠ cr.columnName := by
      rintro rfl
      exact other (kinded.mp isString)
    rw [AList.lookup_insert_ne differ]
    exact sorted.2 name other
  · rw [if_neg isString] at ok
    cases ok
    refine ⟨fun name own => ?_, sorted.2⟩
    have differ : name ≠ cr.columnName := by
      rintro rfl
      exact isString (kinded.mpr own)
    rw [AList.lookup_insert_ne differ]
    exact sorted.1 name own

theorem sorted_columns {rowCount : Nat} {crs : List EncryptedColumnResult}
    (kinded : ∀ cr ∈ crs, cr.logicalType = str "STRING" ↔ string cr.columnName)
    {columns columns' : Columns} (sorted : Sorted string columns)
    (ok : crs.foldlM (decodeColumn P rowCount) columns = .ok columns') :
    Sorted string columns' := by
  induction crs generalizing columns with
  | nil =>
    cases ok
    exact sorted
  | cons cr crs ih =>
    rw [List.foldlM_cons] at ok
    obtain ⟨next, head, rest⟩ := bind_ok_iff.mp ok
    apply ih (fun cr mem => kinded cr (List.mem_cons_of_mem _ mem)) ?_ rest
    exact sorted_decodeColumn sorted (kinded cr List.mem_cons_self) head

/-- A filled row has no name its columns do not have. -/
theorem fillRow_none {V W : Type} {f : V → Except Exn W} {columns : StringMap V}
    {row : StringMap W} (ok : fillRow f columns = .ok row) {name : Str}
    (missing : columns.lookup name = none) : row.lookup name = none := by
  have step : ∀ (entries : List (Sigma fun _ : Str => V)) (start row : StringMap W),
      (∀ col ∈ entries, col.1 ≠ name) → start.lookup name = none →
      entries.foldlM (fun row col => do
        let value ← f col.2
        pure (row.insert col.1 value)) start = .ok row → row.lookup name = none := by
    intro entries
    induction entries with
    | nil =>
      rintro start row _ empty ok
      cases ok
      exact empty
    | cons col entries ih =>
      intro start row others empty ok
      rw [List.foldlM_cons] at ok
      obtain ⟨next, head, rest⟩ := bind_ok_iff.mp ok
      obtain ⟨value, _, same⟩ := bind_ok_iff.mp head
      cases same
      apply ih _ _ (fun c mem => others c (List.mem_cons_of_mem _ mem)) ?_ rest
      rw [AList.lookup_insert_ne (others col List.mem_cons_self).symm]
      exact empty
  have absent := AList.lookup_eq_none.mp missing
  refine step columns.entries ∅ row (fun col mem same => absent ?_) (AList.lookup_empty name) ok
  rw [← same]
  exact AList.mem_keys.mpr (List.mem_map_of_mem mem)

/-- The rows of a batch whose columns have one type for each name. -/
theorem decode_apart {rb : EncryptedResultBatch} {rows : List ResultRow} (kinded : Kinded string rb)
    (ok : decode P rb = .ok rows) : ∀ r ∈ rows, Apart r := by
  simp only [decode, bind_ok_iff] at ok
  obtain ⟨mask, _, columns, columnsOk, rs, loop, same⟩ := ok
  have sorted := sorted_columns kinded ⟨fun _ _ => rfl, fun _ _ => rfl⟩ columnsOk
  cases same
  intro r mem
  obtain ⟨i, _, row⟩ := mapM_ok_mem loop (List.reduceOption_mem_iff.mp mem)
  unfold decodeRow at row
  by_cases one : mask[i]? = some 1
  · rw [if_pos one] at row
    simp only [bind_ok_iff] at row
    obtain ⟨ints, filledInts, strings, filledStrings, same⟩ := row
    cases same
    intro name
    by_cases isString : string name
    · exact Or.inl (fillRow_none filledInts (sorted.1 name isString))
    · exact Or.inr (fillRow_none filledStrings (sorted.2 name isString))
  · rw [if_neg one] at row
    cases row

theorem decodeAll_apart {batches : List EncryptedResultBatch} {rows : List ResultRow}
    (kinded : ∀ rb ∈ batches, Kinded string rb) (ok : decodeAll P batches = .ok rows) :
    ∀ r ∈ rows, Apart r := by
  obtain ⟨rowss, loop, same⟩ := bind_ok_iff.mp ok
  cases same
  intro r mem
  obtain ⟨own, listed, here⟩ := List.mem_flatten.mp mem
  obtain ⟨rb, ours, decoded⟩ := mapM_ok_mem loop listed
  exact decode_apart (kinded rb ours) decoded r here

end Decoded

/-- A row as the client holds it under some names. -/
def asResult (names : List Str) (row : Row) : ResultRow :=
  names.foldr (fun name r => match row name with
    | .int n => { r with values := r.values.insert name n }
    | .string s => { r with stringValues := r.stringValues.insert name s }) {}

/-- What the client prints of some rows under some names. -/
def tableOf (names : List Str) (rows : List Row) : Str :=
  printResult names (rows.map (asResult names))

example : tableOf [str "name", str "age"] [fun name =>
    if name = str "name" then .string (str "al") else .int 40] =
    str "name | age\n-----+----\nal   | 40 \n(1 row)\n" := by
  decide +kernel

/-- Two rows with the same entries under some names. -/
def SameCells (names : List Str) (r r' : ResultRow) : Prop :=
  ∀ name ∈ names, r.values.lookup name = r'.values.lookup name ∧
    r.stringValues.lookup name = r'.stringValues.lookup name

variable {names : List Str}

/-- It has nothing that the row does not have. -/
theorem asResult_only (names : List Str) (row : Row) (name : Str) :
    (∀ n, (asResult names row).values.lookup name = some n → row name = .int n) ∧
      ∀ s, (asResult names row).stringValues.lookup name = some s → row name = .string s := by
  induction names with
  | nil => exact ⟨nofun, nofun⟩
  | cons own names ih =>
    rw [asResult, List.foldr_cons]
    cases value : row own with
    | int n =>
      refine ⟨fun m found => ?_, ih.2⟩
      by_cases same : name = own
      · subst same
        rw [AList.lookup_insert] at found
        rw [value, Option.some.inj found]
      · rw [AList.lookup_insert_ne same] at found
        exact ih.1 m found
    | string s =>
      refine ⟨ih.1, fun t found => ?_⟩
      by_cases same : name = own
      · subst same
        rw [AList.lookup_insert] at found
        rw [value, Option.some.inj found]
      · rw [AList.lookup_insert_ne same] at found
        exact ih.2 t found

theorem asResult_apart (names : List Str) (row : Row) : Apart (asResult names row) := by
  intro name
  obtain ⟨int, string⟩ := asResult_only names row name
  cases found : (asResult names row).values.lookup name with
  | none => exact Or.inl rfl
  | some n =>
    cases found' : (asResult names row).stringValues.lookup name with
    | none => exact Or.inr rfl
    | some s => cases (int n found).symm.trans (string s found')

theorem asResult_shows (names : List Str) (row : Row) : Shows names (asResult names row) row := by
  induction names with
  | nil => exact nofun
  | cons own names ih =>
    intro name mem
    have only := (asResult_only (own :: names) row name).1
    rw [asResult, List.foldr_cons] at only ⊢
    cases value : row own with
    | int n =>
      simp only [value] at only ⊢
      by_cases same : name = own
      · subst same
        simp only [ResultRow.value?, AList.lookup_insert, value]
      · simp only [ResultRow.value?, AList.lookup_insert_ne same]
        exact ih name ((List.mem_cons.mp mem).resolve_left same)
    | string s =>
      simp only [value] at only ⊢
      by_cases same : name = own
      · subst same
        have none : (names.foldr (fun name r => match row name with
            | .int n => { r with values := r.values.insert name n }
            | .string s => { r with stringValues := r.stringValues.insert name s })
            ({} : ResultRow)).values.lookup name = none := by
          cases found : AList.lookup name _ with
          | none => rfl
          | some n => cases value.symm.trans (only n found)
        simp only [ResultRow.value?, none, AList.lookup_insert, value, Option.map_some]
      · simp only [ResultRow.value?, AList.lookup_insert_ne same]
        exact ih name ((List.mem_cons.mp mem).resolve_left same)

/-- The entries of a row are known from what it shows. -/
theorem sameCells_of_shows {r r' : ResultRow} {row : Row} (shows : Shows names r row)
    (shows' : Shows names r' row) (apart : Apart r) (apart' : Apart r') : SameCells names r r' := by
  have cells : ∀ {r : ResultRow}, Shows names r row → Apart r → ∀ name ∈ names,
      match row name with
      | .int n => r.values.lookup name = some n ∧ r.stringValues.lookup name = none
      | .string s => r.values.lookup name = none ∧ r.stringValues.lookup name = some s := by
    intro r shows apart name mem
    have value := shows name mem
    cases own : row name with
    | int n =>
      have int := value?_int (value.trans (congrArg some own))
      refine ⟨int, (apart name).resolve_left ?_⟩
      rw [int]
      exact nofun
    | string s =>
      rw [own] at value
      unfold ResultRow.value? at value
      cases int : r.values.lookup name with
      | some n =>
        rw [int] at value
        cases value
      | none =>
        rw [int] at value
        obtain ⟨t, found, same⟩ := Option.map_eq_some_iff.mp value
        cases same
        exact ⟨rfl, found⟩
  intro name mem
  have own := cells shows apart name mem
  have other := cells shows' apart' name mem
  cases value : row name with
  | int n =>
    rw [value] at own other
    exact ⟨own.1.trans other.1.symm, own.2.trans other.2.symm⟩
  | string s =>
    rw [value] at own other
    exact ⟨own.1.trans other.1.symm, own.2.trans other.2.symm⟩

theorem columnWidth_congr {rows rows' : List ResultRow}
    (same : List.Forall₂ (SameCells names) rows rows') {col : Str} (mem : col ∈ names) :
    columnWidth rows col = columnWidth rows' col := by
  unfold columnWidth
  generalize col.length = width
  induction same generalizing width with
  | nil => rfl
  | cons head _ ih =>
    rw [List.foldl_cons, List.foldl_cons, ← ih]
    unfold widen
    rw [(head col mem).1, (head col mem).2]

/-- What is printed depends on the entries under the printed names. -/
theorem printResult_congr {rows rows' : List ResultRow}
    (same : List.Forall₂ (SameCells names) rows rows') :
    printResult names rows = printResult names rows' := by
  have width : ∀ col ∈ names, columnWidth rows col = columnWidth rows' col :=
    fun col mem => columnWidth_congr same mem
  have line : ∀ {r r' : ResultRow}, SameCells names r r' →
      rowLine names rows r = rowLine names rows' r' := by
    intro r r' cells
    refine congrArg _ (List.map_congr_left fun col mem => ?_)
    rw [width col mem, cellText, cellText, (cells col mem).1, (cells col mem).2]
  have header : headerLine names rows = headerLine names rows' := by
    unfold headerLine
    rw [List.map_congr_left fun col mem => by rw [width col mem]]
  have rule : ruleLine names rows = ruleLine names rows' := by
    unfold ruleLine
    rw [List.map_congr_left fun col mem => by rw [width col mem]]
  have length := same.length_eq
  have body : rows.flatMap (fun row => rowLine names rows row ++ str "\n") =
      rows'.flatMap fun row => rowLine names rows' row ++ str "\n" := by
    clear width header rule length
    revert line
    generalize rowLine names rows = f
    generalize rowLine names rows' = g
    intro line
    induction same with
    | nil => rfl
    | cons head _ ih => rw [List.flatMap_cons, List.flatMap_cons, line head, ih]
  unfold printResult
  rw [header, rule, body, footer, footer, length]
  by_cases empty : rows = []
  · rw [if_pos empty, if_pos (List.length_eq_zero_iff.mp (by rw [← length, empty]; rfl))]
  · have some' : rows' ≠ [] := fun none =>
      empty (List.length_eq_zero_iff.mp (by rw [length, none]; rfl))
    rw [if_neg empty, if_neg some']

theorem mem_of_applySortAndLimit {rows : List ResultRow} {orderBy : List OrderByColumn}
    {limit : Int} {r : ResultRow} (mem : r ∈ applySortAndLimit rows orderBy limit) : r ∈ rows := by
  have sortedMem : ∀ {r}, r ∈ (if orderBy = [] then rows
      else rows.mergeSort fun a b => !comesBefore b a orderBy) → r ∈ rows := by
    intro r mem
    by_cases unordered : orderBy = []
    · rwa [if_pos unordered] at mem
    · rw [if_neg unordered] at mem
      exact List.mem_mergeSort.mp mem
  unfold applySortAndLimit at mem
  by_cases cut : 0 ≤ limit ∧ limit.toNat < (if orderBy = [] then rows
      else rows.mergeSort fun a b => !comesBefore b a orderBy).length
  · rw [if_pos cut] at mem
    exact sortedMem (List.mem_of_mem_take mem)
  · rw [if_neg cut] at mem
    exact sortedMem mem

/-- Decoded rows are printed as the rows they show. -/
theorem printed_of_shows {rows : List ResultRow} {answer : List Row} (apart : ∀ r ∈ rows, Apart r)
    (shows : List.Forall₂ (Shows names) rows answer) :
    printResult names rows = tableOf names answer := by
  apply printResult_congr
  rw [List.forall₂_map_right_iff]
  have both := (Pointwise.forall₂_and_mem shows.flip apart).flip
  refine both.imp fun r row here => ?_
  exact sameCells_of_shows here.1 (asResult_shows names row) here.2 (asResult_apart names row)

end FheSql.PrintedRows
