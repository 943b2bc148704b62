import FheSql.Catalog

/-!
# The query package

`include/proto2/query_package.h`. Every field can hold whatever bytes a client
sends, so indices and ids are fixed-width words and a kind byte outside the
enumeration is a kind of its own.
-/

namespace FheSql

open ByteText

structure FHEParamsMeta where
  paramSetId : Str := []
  plaintextModulus : UInt64 := 0
  multiplicativeDepth : UInt32 := 0
  ringDimension : UInt32 := 0
  slotCount : Nat := 0
  keyId : Str := []
  deriving DecidableEq, Repr

structure EncryptedLiteralEntry where
  id : UInt32 := 0
  logicalType : Str := []
  ciphertextBytes : List UInt8 := []
  logicalSize : Nat := 0
  deriving DecidableEq, Repr

/-- `enum class PredNodeKind : uint8_t`. A received byte need not be one of the
enumerators; `unlisted` holds the others. -/
inductive PredNodeKind where
  | ColumnRef
  | LiteralRef
  | Equal
  | NotEqual
  | GreaterThan
  | LessThan
  | GreaterEqual
  | LessEqual
  | And
  | Or
  | Not
  | StringEqual
  | StringNotEqual
  | unlisted (byte : UInt8) (above : 12 < byte)
  deriving DecidableEq, Repr

/-- `UINT32_MAX`, the index of no node. -/
def UINT32_MAX : UInt32 := 4294967295

structure PredNode where
  kind : PredNodeKind := .ColumnRef
  columnName : Str := []
  literalId : UInt32 := 0
  stringWidth : UInt32 := 0
  left : UInt32 := UINT32_MAX
  right : UInt32 := UINT32_MAX
  deriving DecidableEq, Repr

structure QueryPackage where
  queryId : Str := []
  protocolVersion : UInt32 := 2
  schemaVersion : UInt32 := 1
  tableName : Str := []
  tableAlias : Str := []
  joinedTableName : Str := []
  joinedTableAlias : Str := []
  joinLeftColumn : Str := []
  joinRightColumn : Str := []
  hasJoin : Bool := false
  scanColumns : List Str := []
  projectColumns : List Str := []
  resultSchema : List ColumnSchema := []
  predicateNodes : List PredNode := []
  encryptedLiterals : List EncryptedLiteralEntry := []
  fheParams : FHEParamsMeta := {}
  shardId : UInt32 := 0
  partitionId : UInt32 := 0
  deriving DecidableEq, Repr

/-- `static_cast<uint32_t>(predicateNodes.size() - 1)`. -/
def QueryPackage.rootIndex (pkg : QueryPackage) : UInt32 :=
  UInt32.ofNat (pkg.predicateNodes.length - 1)

/-- The first entry with an id, as the executor's searches find it. -/
def QueryPackage.literal? (pkg : QueryPackage) (id : UInt32) : Option EncryptedLiteralEntry :=
  pkg.encryptedLiterals.find? fun lit => lit.id == id

end FheSql
