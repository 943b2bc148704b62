import FheSql.Proto1

/-!
# Result batches

`include/proto2/result.h`: what the server sends back, and the rows the client
reconstructs from it.
-/

namespace FheSql

open ByteText

structure EncryptedColumnResult where
  columnName : Str
  logicalType : Str := str "INT64"
  stringPosition : UInt32 := 0
  ciphertextBytes : List UInt8 := []
  logicalSize : Nat := 0
  deriving DecidableEq, Repr

structure EncryptedResultBatch where
  batchId : UInt32 := 0
  logicalRowCount : Int := 0
  columns : List EncryptedColumnResult := []
  selectionMaskBytes : List UInt8 := []
  hasMask : Bool := false
  deriving DecidableEq, Repr

end FheSql
