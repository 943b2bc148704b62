import FheSql.Lib.ByteText
import FheSql.Lib.Throwing
import Mathlib.Data.List.AList

/-!
# Exceptions and the table catalog

`include/proto2/catalog.h`. The catalog is the registry both sides resolve
names against; its lookups throw `std::runtime_error` for a missing name.
-/

namespace FheSql

open ByteText Throwing

/-- The exceptions of the pipeline with their `what()` text. `external` is
raised inside proto1 or OpenFHE; `outOfBounds` stands for an access outside a
vector; `outOfFuel` is no exception of the source, it marks a recursion that
has not returned within its bound on the depth of calls. -/
inductive Exn where
  | runtimeError (what : Str)
  | parseError (what : Str)
  | semanticError (what : Str)
  | validationError (what : Str)
  | lengthError (what : Str)
  | external (what : Str)
  | outOfBounds
  | outOfFuel
  deriving DecidableEq, Repr

/-- `std::unordered_map<std::string, V>`. -/
abbrev StringMap (V : Type) := AList fun _ : Str => V

/-- `enum class DataType`. A received `int` need not be one of the enumerators;
`unlisted` holds the others. -/
inductive DataType where
  | INT64
  | BOOL
  | STRING
  | unlisted (value : UInt32) (above : 2 < value)
  deriving DecidableEq, Repr

structure ColumnSchema where
  name : Str
  type : DataType
  maxLength : Nat := 0
  deriving DecidableEq, Repr

structure TableSchema where
  tableId : Str
  columns : List ColumnSchema
  deriving DecidableEq, Repr

def TableSchema.hasColumn (t : TableSchema) (name : Str) : Bool :=
  t.columns.any fun c => c.name == name

def TableSchema.column (t : TableSchema) (name : Str) : Except Exn ColumnSchema :=
  match t.columns.find? fun c => c.name == name with
  | some c => .ok c
  | none => .error (.runtimeError (str "Column not found: " ++ name))

structure Catalog where
  tables : StringMap TableSchema := ∅

namespace Catalog

def registerTable (cat : Catalog) (schema : TableSchema) : Catalog where
  tables := cat.tables.insert schema.tableId schema

def hasTable (cat : Catalog) (id : Str) : Bool := (cat.tables.lookup id).isSome

def getTable (cat : Catalog) (id : Str) : Except Exn TableSchema :=
  match cat.tables.lookup id with
  | some t => .ok t
  | none => .error (.runtimeError (str "Table not found: " ++ id))

end Catalog

def makeEmployeesCatalog : Catalog :=
  let employees : TableSchema :=
    { tableId := str "employees"
      columns := [
        { name := str "id", type := .INT64 },
        { name := str "age", type := .INT64 },
        { name := str "salary", type := .INT64 },
        { name := str "department_id", type := .INT64 },
        { name := str "name", type := .STRING, maxLength := 16 }] }
  let departments : TableSchema :=
    { tableId := str "departments"
      columns := [
        { name := str "id", type := .INT64 },
        { name := str "department_name", type := .STRING, maxLength := 16 }] }
  (({} : Catalog).registerTable employees).registerTable departments

namespace TableSchema

theorem column_ok {t : TableSchema} {name : Str} {c : ColumnSchema}
    (h : t.column name = .ok c) : c ∈ t.columns ∧ c.name = name := by
  unfold column at h
  cases hf : t.columns.find? fun c => c.name == name with
  | none => rw [hf] at h; cases h
  | some d =>
    rw [hf] at h
    cases h
    exact ⟨List.mem_of_find?_eq_some hf, by simpa using List.find?_some hf⟩

theorem hasColumn_iff {t : TableSchema} {name : Str} :
    t.hasColumn name = true ↔ ∃ c, t.column name = .ok c := by
  unfold hasColumn column
  cases hf : t.columns.find? fun c => c.name == name with
  | none =>
    have hn := List.find?_eq_none.mp hf
    simpa [List.any_eq_true] using hn
  | some c =>
    have hm := List.mem_of_find?_eq_some hf
    have hp := List.find?_some hf
    simp only [List.any_eq_true, Except.ok.injEq, exists_eq', iff_true]
    exact ⟨c, hm, hp⟩

theorem column_error {t : TableSchema} {name : Str} (h : t.hasColumn name = false) :
    t.column name = .error (.runtimeError (str "Column not found: " ++ name)) := by
  cases hc : t.column name with
  | ok c => rw [hasColumn_iff.mpr ⟨c, hc⟩] at h; cases h
  | error e =>
    unfold column at hc
    split at hc
    · cases hc
    · exact hc.symm

theorem hasColumn_of_mem {t : TableSchema} {c : ColumnSchema} (h : c ∈ t.columns) :
    t.hasColumn c.name = true := by
  simp only [hasColumn, List.any_eq_true, beq_iff_eq]
  exact ⟨c, h, rfl⟩

/-- With distinct column names a lookup returns the column itself. -/
theorem column_of_mem {t : TableSchema} (distinct : (t.columns.map (·.name)).Nodup)
    {c : ColumnSchema} (h : c ∈ t.columns) : t.column c.name = .ok c := by
  obtain ⟨d, hd⟩ := hasColumn_iff.mp (hasColumn_of_mem h)
  obtain ⟨hm, hn⟩ := column_ok hd
  rw [hd, List.inj_on_of_nodup_map distinct hm h hn]

end TableSchema

namespace Catalog

theorem hasTable_iff {cat : Catalog} {id : Str} :
    cat.hasTable id = true ↔ ∃ t, cat.getTable id = .ok t := by
  unfold hasTable getTable
  cases cat.tables.lookup id <;> simp

theorem getTable_registerTable (cat : Catalog) (schema : TableSchema) :
    (cat.registerTable schema).getTable schema.tableId = .ok schema := by
  simp [getTable, registerTable, AList.lookup_insert]

theorem getTable_registerTable_ne (cat : Catalog) (schema : TableSchema) {id : Str}
    (h : id ≠ schema.tableId) :
    (cat.registerTable schema).getTable id = cat.getTable id := by
  simp [getTable, registerTable, AList.lookup_insert_ne h]

end Catalog

end FheSql
