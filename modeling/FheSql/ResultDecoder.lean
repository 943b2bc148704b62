import FheSql.Ast
import FheSql.ResultBatch
import Mathlib.Data.List.ReduceOption
import Mathlib.Algebra.Group.Int.Defs
import Mathlib.Algebra.Group.Nat.Defs

/-!
# The result decoder

`result/result_decoder.cpp`. A batch is decrypted column by column; a row is
reconstructed for each slot whose mask is 1. Sorting and limiting happen on the
rows of all batches.
-/

namespace FheSql

open ByteText Throwing

/-- A reconstructed row: integers and strings under their column names. -/
structure ResultRow where
  values : StringMap Int := ∅
  stringValues : StringMap Str := ∅

namespace ResultDecoder

/-- `static_cast<size_t>` of an `int64_t`. -/
def toSize (n : Int) : Nat := (n % 2 ^ 64).toNat

section Decoding

variable (P : Proto1)

/-- `deserializeWithSize` and `decrypt`, both for the rows of the batch. -/
def decryptBytes (rowCount : Nat) (bytes : List UInt8) : Except Exn (List Int) := do
  let ct ← fromProto1 (P.deserializeWithSize bytes rowCount)
  fromProto1 (P.decrypt ct rowCount)

/-- `std::vector<int64_t>(n, value)`, which throws past its `max_size()`. -/
def filled (n : Nat) (value : Int) : Except Exn (List Int) :=
  if 2 ^ 60 ≤ n then
    throw (.lengthError (str "cannot create std::vector larger than max_size()"))
  else pure (List.replicate n value)

def decryptMask (batch : EncryptedResultBatch) : Except Exn (List Int) :=
  if !batch.hasMask then filled (toSize batch.logicalRowCount) 1
  else decryptBytes P (toSize batch.logicalRowCount) batch.selectionMaskBytes

/-- The maps `cols` and `stringCols`. -/
structure Columns where
  cols : StringMap (List Int) := ∅
  stringCols : StringMap (List (List Int)) := ∅

/-- `positions.resize(n)`. -/
def resize (positions : List (List Int)) (n : Nat) : List (List Int) :=
  positions.take n ++ List.replicate (n - positions.length) []

/-- `positions[position] = values`, after a resize when the vector is too short.
The new size is computed in 32 bits. -/
def setPosition (positions : List (List Int)) (position : UInt32) (values : List Int) :
    Except Exn (List (List Int)) :=
  let positions :=
    if positions.length ≤ position.toNat then resize positions (position + 1).toNat
    else positions
  if position.toNat < positions.length then pure (positions.set position.toNat values)
  else throw .outOfBounds

/-- Every position but the last one has a next one. -/
theorem toNat_next {position : UInt32} (inside : position.toNat + 1 < 2 ^ 32) :
    (position + 1).toNat = position.toNat + 1 := by
  rw [UInt32.toNat_add]
  exact Nat.mod_eq_of_lt inside

/-- One turn of the loop over the columns of a batch. -/
def decodeColumn (rowCount : Nat) (columns : Columns) (cr : EncryptedColumnResult) :
    Except Exn Columns := do
  let values ← decryptBytes P rowCount cr.ciphertextBytes
  if cr.logicalType = str "STRING" then do
    let positions ← setPosition ((columns.stringCols.lookup cr.columnName).getD [])
      cr.stringPosition values
    pure { columns with stringCols := columns.stringCols.insert cr.columnName positions }
  else
    pure { columns with cols := columns.cols.insert cr.columnName values }

/-- The characters of a row, up to the first 0 or the first position without one. -/
def decodeString (i : Nat) : List (List Int) → Except Exn Str
  | [] => pure []
  | chars :: positions =>
    match chars[i]? with
    | none => pure []
    | some c =>
      if c = 0 then pure []
      else if c < 0 ∨ 127 < c then
        throw (.runtimeError (str "Decoded string contains invalid ASCII"))
      else do
        let rest ← decodeString i positions
        pure (UInt8.ofNat c.toNat :: rest)

/-- `vals[i]`. -/
def valueAt (i : Nat) (vals : List Int) : Except Exn Int :=
  match vals[i]? with
  | some v => pure v
  | none => throw .outOfBounds

/-- A loop over a map that fills the row under the same names. -/
def fillRow {V W : Type} (f : V → Except Exn W) (columns : StringMap V) :
    Except Exn (StringMap W) :=
  columns.entries.foldlM
    (fun row col => do
      let value ← f col.2
      pure (row.insert col.1 value))
    ∅

/-- The row of a slot, if its mask is 1. -/
def decodeRow (mask : List Int) (columns : Columns) (i : Nat) : Except Exn (Option ResultRow) :=
  if mask[i]? = some 1 then do
    let values ← fillRow (valueAt i) columns.cols
    let stringValues ← fillRow (decodeString i) columns.stringCols
    pure (some { values := values, stringValues := stringValues })
  else
    pure none

def decode (batch : EncryptedResultBatch) : Except Exn (List ResultRow) := do
  let rowCount := toSize batch.logicalRowCount
  let mask ← decryptMask P batch
  let columns ← batch.columns.foldlM (decodeColumn P rowCount) {}
  let rows ← (List.range rowCount).mapM (decodeRow mask columns)
  pure rows.reduceOption

/-- The rows of all batches, in the order they arrive. -/
def decodeAll (batches : List EncryptedResultBatch) : Except Exn (List ResultRow) := do
  let rows ← batches.mapM (decode P)
  pure rows.flatten

end Decoding

/-- The comparator of `applySortAndLimit`: is `a` to stand before `b`? -/
def comesBefore (a b : ResultRow) : List OrderByColumn → Bool
  | [] => false
  | orderCol :: rest =>
    match a.values.lookup orderCol.columnName, b.values.lookup orderCol.columnName with
    | some valA, some valB =>
      if valA ≠ valB then
        match orderCol.direction with
        | .Ascending => valA < valB
        | .Descending => valA > valB
      else comesBefore a b rest
    | _, _ => comesBefore a b rest

/-- `std::stable_sort` by the comparator, then LIMIT. -/
def applySortAndLimit (rows : List ResultRow) (orderBy : List OrderByColumn) (limit : Int) :
    List ResultRow :=
  let rows :=
    if orderBy = [] then rows
    else rows.mergeSort fun a b => !comesBefore b a orderBy
  if 0 ≤ limit ∧ limit.toNat < rows.length then rows.take limit.toNat else rows

end ResultDecoder

end FheSql
