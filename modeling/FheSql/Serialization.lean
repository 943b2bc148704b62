import FheSql.Lib.BinaryCodec
import FheSql.QueryPackage
import FheSql.ResultBatch

/-!
# Serialization

`query/query_package.cpp`, `result/result.cpp` and the response header of
`transport/transport.cpp`, as cereal's binary archive writes them on a
little-endian machine with 64-bit sizes: scalars in their own width, a size
before the bytes of a string and the elements of a vector, fields in the order
in which `serialize` lists them.
-/

namespace FheSql

open ByteText BinaryCodec

/-- The exceptions of serialization and transport. `cereal` is the archive's own for
a read past the end; its text counts bytes and is not kept. -/
inductive WireExn where
  | runtimeError (what : Str)
  | cereal
  deriving DecidableEq, Repr

namespace Cereal

def bool : Codec Bool :=
  Codec.byte.view (fun b => b != 0) (fun b => if b then 1 else 0) (fun _ => True)
    fun b _ => by cases b <;> rfl

def uint32 : Codec UInt32 :=
  (Codec.wordLE 4).view UInt32.ofNat UInt32.toNat (fun _ => True) fun _ _ => UInt32.ofNat_toNat

def uint64 : Codec UInt64 :=
  (Codec.wordLE 8).view UInt64.ofNat UInt64.toNat (fun _ => True) fun _ _ => UInt64.ofNat_toNat

def int64 : Codec Int :=
  (Codec.wordLE 8).view (fun n => if n < 2 ^ 63 then (n : Int) else (n : Int) - 2 ^ 64)
    (fun v => (v % 2 ^ 64).toNat) (fun v => -2 ^ 63 ≤ v ∧ v < 2 ^ 63) fun v range => by
      split <;> omega

def size : Codec Nat := Codec.wordLE 8

def string : Codec Str := Codec.sized size

def vector {α : Type} (c : Codec α) : Codec (List α) := Codec.counted size c

end Cereal

open Cereal

/-- The enumerators of `PredNodeKind` in the order of their values. -/
def predNodeKinds : List PredNodeKind :=
  [.ColumnRef, .LiteralRef, .Equal, .NotEqual, .GreaterThan, .LessThan, .GreaterEqual, .LessEqual,
    .And, .Or, .Not, .StringEqual, .StringNotEqual]

def PredNodeKind.ofByte (b : UInt8) : PredNodeKind :=
  if above : 12 < b then .unlisted b above else predNodeKinds.getD b.toNat .ColumnRef

def PredNodeKind.byte : PredNodeKind → UInt8
  | .unlisted b _ => b
  | kind => UInt8.ofNat (predNodeKinds.idxOf kind)

theorem PredNodeKind.ofByte_byte (kind : PredNodeKind) : ofByte kind.byte = kind := by
  cases kind with
  | unlisted b above => exact dif_pos above
  | _ => rfl

def DataType.ofValue (v : UInt32) : DataType :=
  if above : 2 < v then .unlisted v above
  else if v = 0 then .INT64 else if v = 1 then .BOOL else .STRING

def DataType.value : DataType → UInt32
  | .INT64 => 0
  | .BOOL => 1
  | .STRING => 2
  | .unlisted v _ => v

theorem DataType.ofValue_value (type : DataType) : ofValue type.value = type := by
  cases type with
  | unlisted v above => exact dif_pos above
  | _ => rfl

namespace Cereal

def predNodeKind : Codec PredNodeKind :=
  Codec.byte.view PredNodeKind.ofByte PredNodeKind.byte (fun _ => True) fun kind _ =>
    kind.ofByte_byte

def dataType : Codec DataType :=
  uint32.view DataType.ofValue DataType.value (fun _ => True) fun type _ => type.ofValue_value

def fheParamsMeta : Codec FHEParamsMeta :=
  (string.pair (uint64.pair (uint32.pair (uint32.pair (size.pair string))))).view
    (fun (paramSetId, plaintextModulus, multiplicativeDepth, ringDimension, slotCount, keyId) =>
      { paramSetId, plaintextModulus, multiplicativeDepth, ringDimension, slotCount, keyId })
    (fun m => (m.paramSetId, m.plaintextModulus, m.multiplicativeDepth, m.ringDimension,
      m.slotCount, m.keyId))
    (fun _ => True) fun _ _ => rfl

def encryptedLiteralEntry : Codec EncryptedLiteralEntry :=
  (uint32.pair (string.pair (string.pair size))).view
    (fun (id, logicalType, ciphertextBytes, logicalSize) =>
      { id, logicalType, ciphertextBytes, logicalSize })
    (fun e => (e.id, e.logicalType, e.ciphertextBytes, e.logicalSize))
    (fun _ => True) fun _ _ => rfl

def predNode : Codec PredNode :=
  (predNodeKind.pair (string.pair (uint32.pair (uint32.pair (uint32.pair uint32))))).view
    (fun (kind, columnName, literalId, stringWidth, left, right) =>
      { kind, columnName, literalId, stringWidth, left, right })
    (fun n => (n.kind, n.columnName, n.literalId, n.stringWidth, n.left, n.right))
    (fun _ => True) fun _ _ => rfl

def columnSchema : Codec ColumnSchema :=
  (string.pair (dataType.pair size)).view
    (fun (name, type, maxLength) => { name, type, maxLength })
    (fun c => (c.name, c.type, c.maxLength)) (fun _ => True) fun _ _ => rfl

def queryPackage : Codec QueryPackage :=
  (string.pair (uint32.pair (uint32.pair
    (string.pair (string.pair (string.pair (string.pair
    (string.pair (string.pair (bool.pair
    ((vector string).pair ((vector string).pair
    ((vector columnSchema).pair ((vector predNode).pair ((vector encryptedLiteralEntry).pair
    (fheParamsMeta.pair (uint32.pair uint32))))))))))))))))).view
    (fun (queryId, protocolVersion, schemaVersion, tableName, tableAlias, joinedTableName,
        joinedTableAlias, joinLeftColumn, joinRightColumn, hasJoin, scanColumns, projectColumns,
        resultSchema, predicateNodes, encryptedLiterals, fheParams, shardId, partitionId) =>
      { queryId, protocolVersion, schemaVersion, tableName, tableAlias, joinedTableName,
        joinedTableAlias, joinLeftColumn, joinRightColumn, hasJoin, scanColumns, projectColumns,
        resultSchema, predicateNodes, encryptedLiterals, fheParams, shardId, partitionId })
    (fun p => (p.queryId, p.protocolVersion, p.schemaVersion,
      p.tableName, p.tableAlias, p.joinedTableName, p.joinedTableAlias,
      p.joinLeftColumn, p.joinRightColumn, p.hasJoin,
      p.scanColumns, p.projectColumns,
      p.resultSchema, p.predicateNodes, p.encryptedLiterals,
      p.fheParams, p.shardId, p.partitionId))
    (fun _ => True) fun _ _ => rfl

def encryptedColumnResult : Codec EncryptedColumnResult :=
  (string.pair (string.pair (uint32.pair (string.pair size)))).view
    (fun (columnName, logicalType, stringPosition, ciphertextBytes, logicalSize) =>
      { columnName, logicalType, stringPosition, ciphertextBytes, logicalSize })
    (fun c => (c.columnName, c.logicalType, c.stringPosition, c.ciphertextBytes, c.logicalSize))
    (fun _ => True) fun _ _ => rfl

def encryptedResultBatch : Codec EncryptedResultBatch :=
  (uint32.pair (int64.pair ((vector encryptedColumnResult).pair (string.pair bool)))).view
    (fun (batchId, logicalRowCount, columns, selectionMaskBytes, hasMask) =>
      { batchId, logicalRowCount, columns, selectionMaskBytes, hasMask })
    (fun b => (b.batchId, b.logicalRowCount, b.columns, b.selectionMaskBytes, b.hasMask))
    (fun _ => True) fun _ _ => rfl

end Cereal

namespace Cereal

@[simp] theorem fits_bool (b : Bool) : bool.Fits b := ⟨trivial, trivial⟩

@[simp] theorem fits_uint32 (v : UInt32) : uint32.Fits v := ⟨trivial, v.toNat_lt⟩

@[simp] theorem fits_uint64 (v : UInt64) : uint64.Fits v := ⟨trivial, v.toNat_lt⟩

@[simp] theorem fits_predNodeKind (kind : PredNodeKind) : predNodeKind.Fits kind :=
  ⟨trivial, trivial⟩

@[simp] theorem fits_dataType (type : DataType) : dataType.Fits type := ⟨trivial, fits_uint32 _⟩

@[simp] theorem fits_int64 {v : Int} : int64.Fits v ↔ -2 ^ 63 ≤ v ∧ v < 2 ^ 63 := by
  refine and_iff_left_of_imp fun range => ?_
  change (v % 2 ^ 64).toNat < 256 ^ 8
  omega

@[simp] theorem fits_size {n : Nat} : size.Fits n ↔ n < 2 ^ 64 := Iff.rfl

@[simp] theorem fits_string {s : Str} : string.Fits s ↔ s.length < 2 ^ 64 := Iff.rfl

@[simp] theorem fits_vector {α : Type} {c : Codec α} {l : List α} :
    (vector c).Fits l ↔ l.length < 2 ^ 64 ∧ ∀ a ∈ l, c.Fits a := Iff.rfl

end Cereal

/-- `QueryPackage::serialize`. -/
def QueryPackage.serialize (pkg : QueryPackage) : Bytes := queryPackage.put pkg

/-- `QueryPackage::deserialize`; bytes behind the package are left unread. -/
def QueryPackage.deserialize (bytes : Bytes) : Except WireExn QueryPackage :=
  match queryPackage.get bytes with
  | some (pkg, _) => .ok pkg
  | none => .error .cereal

def EncryptedResultBatch.serialize (batch : EncryptedResultBatch) : Bytes :=
  encryptedResultBatch.put batch

def EncryptedResultBatch.deserialize (bytes : Bytes) : Except WireExn EncryptedResultBatch :=
  match encryptedResultBatch.get bytes with
  | some (batch, _) => .ok batch
  | none => .error .cereal

theorem QueryPackage.deserialize_serialize {pkg : QueryPackage} (fits : queryPackage.Fits pkg) :
    deserialize pkg.serialize = .ok pkg := by
  rw [deserialize, serialize, queryPackage.get_whole fits]

theorem QueryPackage.deserialize_cut {pkg : QueryPackage} (fits : queryPackage.Fits pkg)
    {cut : Bytes} (beginning : cut <+: pkg.serialize) (proper : cut ≠ pkg.serialize) :
    deserialize cut = .error .cereal := by
  rw [deserialize, queryPackage.get_cut fits beginning proper]

theorem EncryptedResultBatch.deserialize_serialize {batch : EncryptedResultBatch}
    (fits : encryptedResultBatch.Fits batch) : deserialize batch.serialize = .ok batch := by
  rw [deserialize, serialize, encryptedResultBatch.get_whole fits]

theorem EncryptedResultBatch.deserialize_cut {batch : EncryptedResultBatch}
    (fits : encryptedResultBatch.Fits batch) {cut : Bytes} (beginning : cut <+: batch.serialize)
    (proper : cut ≠ batch.serialize) : deserialize cut = .error .cereal := by
  rw [deserialize, encryptedResultBatch.get_cut fits beginning proper]

theorem consumes_uint32 : Consumes uint32.get fun _ => 4 :=
  Codec.consumes_view (Codec.consumes_wordLE 4) fun _ => Nat.le_refl _

theorem consumes_string : Consumes string.get fun s => 8 + s.length :=
  Codec.consumes_sized (Codec.consumes_wordLE 8)

/-- A package is longer than its query id by two versions and the size of either
string at least. -/
theorem QueryPackage.queryId_length {bytes : Bytes} {pkg : QueryPackage}
    (h : deserialize bytes = .ok pkg) : pkg.queryId.length + 24 ≤ bytes.length := by
  have tail := (Codec.consumes_pair consumes_string
    (Codec.consumes_pair consumes_uint32 (Codec.consumes_pair consumes_uint32
      (Codec.consumes_pair consumes_string (consumes_none
        (string.pair (string.pair (string.pair (string.pair (string.pair (bool.pair
          ((vector string).pair ((vector string).pair ((vector columnSchema).pair
          ((vector predNode).pair ((vector encryptedLiteralEntry).pair
          (fheParamsMeta.pair (uint32.pair uint32))))))))))))).reads)))))
  have consumed : Consumes queryPackage.get fun pkg => pkg.queryId.length + 24 :=
    Codec.consumes_view tail fun _ => by dsimp only; omega
  unfold deserialize at h
  cases found : queryPackage.get bytes with
  | none =>
    rw [found] at h
    cases h
  | some x =>
    rw [found] at h
    cases h
    exact le_trans (Nat.le_add_right _ _) (consumed bytes x.1 x.2 found)

/-- The strings and byte vectors of a package. -/
def QueryPackage.texts (pkg : QueryPackage) : List Str :=
  [pkg.queryId, pkg.tableName, pkg.tableAlias, pkg.joinedTableName, pkg.joinedTableAlias,
    pkg.joinLeftColumn, pkg.joinRightColumn, pkg.fheParams.paramSetId, pkg.fheParams.keyId] ++
  pkg.scanColumns ++ pkg.projectColumns ++ pkg.resultSchema.map (·.name) ++
  pkg.predicateNodes.map (·.columnName) ++
  pkg.encryptedLiterals.flatMap fun entry => [entry.logicalType, entry.ciphertextBytes]

/-- The `size_t` fields of a package, and the sizes of its vectors. -/
def QueryPackage.sizes (pkg : QueryPackage) : List Nat :=
  [pkg.scanColumns.length, pkg.projectColumns.length, pkg.resultSchema.length,
    pkg.predicateNodes.length, pkg.encryptedLiterals.length, pkg.fheParams.slotCount] ++
  pkg.resultSchema.map (·.maxLength) ++ pkg.encryptedLiterals.map (·.logicalSize)

/-- A package whose sizes are values of `size_t`. -/
structure QueryPackage.Sized (pkg : QueryPackage) : Prop where
  texts : ∀ s ∈ pkg.texts, s.length < 2 ^ 64
  sizes : ∀ n ∈ pkg.sizes, n < 2 ^ 64

def EncryptedResultBatch.texts (batch : EncryptedResultBatch) : List Str :=
  batch.selectionMaskBytes ::
    batch.columns.flatMap fun c => [c.columnName, c.logicalType, c.ciphertextBytes]

/-- A batch whose sizes are values of `size_t` and whose row count is one of `int64_t`. -/
structure EncryptedResultBatch.Sized (batch : EncryptedResultBatch) : Prop where
  texts : ∀ s ∈ batch.texts, s.length < 2 ^ 64
  sizes : ∀ c ∈ batch.columns, c.logicalSize < 2 ^ 64
  columns : batch.columns.length < 2 ^ 64
  rowCount : -2 ^ 63 ≤ batch.logicalRowCount ∧ batch.logicalRowCount < 2 ^ 63

@[simp] theorem fits_columnSchema {c : ColumnSchema} :
    columnSchema.Fits c ↔ c.name.length < 2 ^ 64 ∧ c.maxLength < 2 ^ 64 := by
  simp [columnSchema]

@[simp] theorem fits_predNode {n : PredNode} : predNode.Fits n ↔ n.columnName.length < 2 ^ 64 := by
  simp [predNode]

@[simp] theorem fits_encryptedLiteralEntry {e : EncryptedLiteralEntry} :
    encryptedLiteralEntry.Fits e ↔ (e.logicalType.length < 2 ^ 64 ∧
      e.ciphertextBytes.length < 2 ^ 64) ∧ e.logicalSize < 2 ^ 64 := by
  simp [encryptedLiteralEntry, and_assoc]

@[simp] theorem fits_fheParamsMeta {m : FHEParamsMeta} :
    fheParamsMeta.Fits m ↔ m.paramSetId.length < 2 ^ 64 ∧ m.slotCount < 2 ^ 64 ∧
      m.keyId.length < 2 ^ 64 := by
  simp [fheParamsMeta]

@[simp] theorem fits_encryptedColumnResult {c : EncryptedColumnResult} :
    encryptedColumnResult.Fits c ↔ (c.columnName.length < 2 ^ 64 ∧ c.logicalType.length < 2 ^ 64 ∧
      c.ciphertextBytes.length < 2 ^ 64) ∧ c.logicalSize < 2 ^ 64 := by
  simp [encryptedColumnResult, and_assoc]

theorem fits_queryPackage {pkg : QueryPackage} (sized : pkg.Sized) : queryPackage.Fits pkg := by
  have texts := sized.texts
  have sizes := sized.sizes
  simp only [QueryPackage.texts, QueryPackage.sizes, List.forall_mem_append, List.forall_mem_cons,
    List.forall_mem_map, List.forall_mem_flatMap] at texts sizes
  simp only [queryPackage, Codec.fits_view, Codec.fits_pair, fits_string, fits_uint32, fits_bool,
    fits_vector, fits_columnSchema, fits_predNode, fits_encryptedLiteralEntry, fits_fheParamsMeta,
    true_and, and_true]
  grind

theorem fits_encryptedResultBatch {batch : EncryptedResultBatch} (sized : batch.Sized) :
    encryptedResultBatch.Fits batch := by
  have texts := sized.texts
  have sizes := sized.sizes
  simp only [EncryptedResultBatch.texts, List.forall_mem_cons, List.forall_mem_flatMap] at texts
  simp only [encryptedResultBatch, Codec.fits_view, Codec.fits_pair, fits_string, fits_uint32,
    fits_bool, fits_int64, fits_vector, fits_encryptedColumnResult, true_and, and_true]
  refine ⟨sized.rowCount, ⟨sized.columns, fun c mem => ⟨?_, sizes c mem⟩⟩, texts.1⟩
  obtain ⟨name, type, bytes, _⟩ := texts.2 c mem
  exact ⟨name, type, bytes⟩

/-- Both wire formats give back what was written, and no beginning of it can be read. -/
theorem wire_formats_lossless :
    (∀ pkg : QueryPackage, pkg.Sized → QueryPackage.deserialize pkg.serialize = .ok pkg ∧
      ∀ cut, cut <+: pkg.serialize → cut ≠ pkg.serialize →
        QueryPackage.deserialize cut = .error .cereal) ∧
    ∀ batch : EncryptedResultBatch, batch.Sized →
      EncryptedResultBatch.deserialize batch.serialize = .ok batch ∧
      ∀ cut, cut <+: batch.serialize → cut ≠ batch.serialize →
        EncryptedResultBatch.deserialize cut = .error .cereal := by
  constructor
  · intro pkg sized
    have fits := fits_queryPackage sized
    exact ⟨QueryPackage.deserialize_serialize fits,
      fun cut beginning proper => QueryPackage.deserialize_cut fits beginning proper⟩
  · intro batch sized
    have fits := fits_encryptedResultBatch sized
    exact ⟨EncryptedResultBatch.deserialize_serialize fits,
      fun cut beginning proper => EncryptedResultBatch.deserialize_cut fits beginning proper⟩

/-- A package with a predicate and a literal, and a batch with a string column. -/
def samplePackage : QueryPackage where
  tableName := str "employees"
  projectColumns := [str "id"]
  predicateNodes := [{ columnName := str "id" }, { kind := .LiteralRef, literalId := 7 },
    { kind := .Equal, left := 0, right := 1 }]
  encryptedLiterals := [{ id := 7, logicalType := str "INT64", ciphertextBytes := [1, 2, 3] }]

def sampleBatch : EncryptedResultBatch where
  logicalRowCount := -1
  columns := [{
    columnName := str "name", logicalType := str "STRING", ciphertextBytes := [0, 255] }]
  hasMask := true

theorem samples_lossless :
    QueryPackage.deserialize samplePackage.serialize = .ok samplePackage ∧
    EncryptedResultBatch.deserialize (sampleBatch.serialize.take 30) = .error .cereal := by
  have sized : samplePackage.Sized := ⟨by decide, by decide⟩
  have sizedBatch : sampleBatch.Sized := ⟨by decide, by decide, by decide, by decide⟩
  exact ⟨(wire_formats_lossless.1 samplePackage sized).1,
    (wire_formats_lossless.2 sampleBatch sizedBatch).2 _ (List.take_prefix _ _) (by decide)⟩

end FheSql
