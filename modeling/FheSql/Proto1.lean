import FheSql.Catalog

/-!
# The proto1 interface

proto1 (encryption contexts, expression executor, physical operators, storage)
is linked from outside the repository. Its records are given as data; its
operations are the fields of `Proto1` and `EncryptedStorage`, over which the
whole development is parametric.
-/

namespace FheSql

open ByteText

/-- `proto1::Expression`, with the constructors the executor calls. -/
inductive Expression (CT : Type) where
  | columnRef (name : Str)
  | encLiteral (ct : CT)
  | equal (l r : Expression CT)
  | gt (l r : Expression CT)
  | lt (l r : Expression CT)
  | andExpr (l r : Expression CT)
  | orExpr (l r : Expression CT)
  | notExpr (e : Expression CT)
  deriving DecidableEq

structure ChunkMeta where
  partitionId : Nat
  chunkId : Nat
  logicalRowCount : Int
  deriving DecidableEq, Repr

structure EncryptedColumnChunk (CT : Type) where
  chunkMeta : ChunkMeta
  ciphertexts : List CT

/-- A chunk after its ciphertexts have been moved out of it. -/
def EncryptedColumnChunk.emptied {CT : Type} (chunk : EncryptedColumnChunk CT) :
    EncryptedColumnChunk CT := { chunk with ciphertexts := [] }

structure EncryptedBatch (CT : Type) where
  columns : StringMap (EncryptedColumnChunk CT) := ∅
  logicalRowCount : Int := 0
  selectionMask : Option CT := none

/-- The operations of proto1 that proto2 calls. Encryption draws from a random
source that is threaded through; each operation may throw. -/
structure Proto1 where
  EncryptedVector : Type
  Rng : Type
  slotCount : Nat
  serialize : EncryptedVector → List UInt8
  logicalSize : EncryptedVector → Nat
  deserializeWithSize : List UInt8 → Nat → Except Str EncryptedVector
  encrypt : List Int → Rng → Except Str (EncryptedVector × Rng)
  decrypt : EncryptedVector → Nat → Except Str (List Int)
  evalMult : EncryptedVector → EncryptedVector → Except Str EncryptedVector
  /-- `ExpressionExecutor::evaluate`. -/
  evaluate : Expression EncryptedVector → EncryptedBatch EncryptedVector →
    Except Str EncryptedVector
  /-- `FilterExec` on one batch. -/
  filterExec : Expression EncryptedVector → EncryptedBatch EncryptedVector →
    Except Str (EncryptedBatch EncryptedVector)
  /-- `ProjectExec` on one batch. -/
  projectExec : List Str → EncryptedBatch EncryptedVector →
    Except Str (EncryptedBatch EncryptedVector)
  stringPhysicalColumn : Str → Nat → Str

/-- An exception of proto1 seen from proto2. -/
def fromProto1 {α : Type} (x : Except Str α) : Except Exn α := x.mapError .external

/-- `proto1::EncryptedStorage` in a monad of the reader's choice, and the
batches a `TableScanExec` over it yields. -/
structure EncryptedStorage (m : Type → Type) (CT : Type) where
  listChunks : Str → Str → m (List ChunkMeta)
  getChunk : Str → Str → Nat → Nat → m (EncryptedColumnChunk CT)
  tableScan : Str → List Str → m (List (EncryptedBatch CT))

/-- `ClientCryptoContext::encryptScalar`: the scalar in every slot. -/
def encryptScalar (P : Proto1) (v : Int) (rng : P.Rng) :
    Except Exn (P.EncryptedVector × P.Rng) :=
  fromProto1 (P.encrypt (List.replicate P.slotCount v) rng)

@[simp] theorem fromProto1_ok {α : Type} (a : α) : fromProto1 (.ok a) = .ok a := rfl

theorem fromProto1_ok_iff {α : Type} {x : Except Str α} {a : α} :
    fromProto1 x = .ok a ↔ x = .ok a := by
  cases x <;> simp [fromProto1, Except.mapError]

end FheSql
