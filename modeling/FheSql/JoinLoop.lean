import FheSql.Lib.Pointwise
import FheSql.QueryExecutor

/-!
# The nested loop of a join

What a completed join says about its results: one batch for each pair of listed
chunks, in left-major order, each computed from its own pair.
-/

namespace FheSql.JoinLoop

open ByteText Throwing QueryExecutor Pointwise

variable {P : Proto1} {storage : EncryptedStorage (Except Exn) P.EncryptedVector} {cat : Catalog}
  {pkg : QueryPackage} {where? : Option (Expression P.EncryptedVector)} {leftKey rightKey : Str}

section Batches

variable (P) in
/-- The physical columns of a table, as `addTableColumns` runs through them. -/
def tablePhysicals (t : TableSchema) : List Str :=
  t.columns.flatMap fun c => physicalColumns P c c.name

variable (storage) in
/-- A batch to which columns of a table have been added under an alias, from one
chunk of a partition. -/
structure Added (table aliasName : Str) (partition chunkId : Nat) (physicals : List Str)
    (batch batch' : EncryptedBatch P.EncryptedVector) : Prop where
  rowCount : batch'.logicalRowCount = batch.logicalRowCount
  mask : batch'.selectionMask = batch.selectionMask
  columns : ∀ physical ∈ physicals, ∃ chunk,
    storage.getChunk table physical partition chunkId = .ok chunk ∧
    batch'.columns.lookup (qualified aliasName physical) = some chunk
  others : ∀ name, (∀ physical ∈ physicals, name ≠ qualified aliasName physical) →
    batch'.columns.lookup name = batch.columns.lookup name

/-- `addTableColumns`, with the chunks of any one partition. -/
def addColumnsIn (storage : EncryptedStorage (Except Exn) P.EncryptedVector)
    (table aliasName : Str) (partition chunkId : Nat) (physicals : List Str)
    (batch : EncryptedBatch P.EncryptedVector) :
    Except Exn (EncryptedBatch P.EncryptedVector) :=
  physicals.foldlM
    (fun batch physical => do
      let chunk ← storage.getChunk table physical partition chunkId
      pure { batch with columns := batch.columns.insert (qualified aliasName physical) chunk })
    batch

theorem addColumnsIn_ok {table aliasName : Str} {partition chunkId : Nat} {physicals : List Str}
    {batch batch' : EncryptedBatch P.EncryptedVector}
    (ok : addColumnsIn storage table aliasName partition chunkId physicals batch = .ok batch') :
    Added storage table aliasName partition chunkId physicals batch batch' := by
  induction physicals generalizing batch with
  | nil =>
    cases ok
    exact ⟨rfl, rfl, nofun, fun _ _ => rfl⟩
  | cons physical physicals ih =>
    rw [addColumnsIn, List.foldlM_cons] at ok
    obtain ⟨next, step, rest⟩ := bind_ok_iff.mp ok
    obtain ⟨chunk, hchunk, step⟩ := bind_ok_iff.mp step
    cases step
    have added := ih rest
    refine ⟨added.rowCount, added.mask, fun p mem => ?_, fun name other => ?_⟩
    · by_cases later : p ∈ physicals
      · exact added.columns p later
      · rcases List.mem_cons.mp mem with rfl | mem
        · refine ⟨chunk, hchunk, ?_⟩
          rw [added.others _ fun q hq same => later ?_]
          · exact AList.lookup_insert _
          · have tail := List.append_cancel_left same
            rwa [(List.cons.inj tail).2]
        · exact (later mem).elim
    · rw [added.others name fun p mem => other p (List.mem_cons_of_mem physical mem)]
      exact AList.lookup_insert_ne (other physical List.mem_cons_self)

theorem addColumnsIn_exists {table aliasName : Str} {partition chunkId : Nat}
    {physicals : List Str} (stored : ∀ physical ∈ physicals, ∃ chunk,
      storage.getChunk table physical partition chunkId = .ok chunk)
    (batch : EncryptedBatch P.EncryptedVector) :
    ∃ batch', addColumnsIn storage table aliasName partition chunkId physicals batch =
      .ok batch' := by
  induction physicals generalizing batch with
  | nil => exact ⟨batch, rfl⟩
  | cons physical physicals ih =>
    obtain ⟨chunk, hchunk⟩ := stored physical List.mem_cons_self
    obtain ⟨batch', h⟩ := ih (fun p mem => stored p (List.mem_cons_of_mem physical mem))
      { batch with columns := batch.columns.insert (qualified aliasName physical) chunk }
    refine ⟨batch', ?_⟩
    rw [addColumnsIn, List.foldlM_cons, hchunk]
    exact h

theorem addTableColumns_ok {table aliasName : Str} {chunkId : Nat}
    {batch batch' : EncryptedBatch P.EncryptedVector}
    (ok : addTableColumns P storage cat table aliasName chunkId batch = .ok batch') :
    ∃ t, cat.getTable table = .ok t ∧
      Added storage table aliasName 0 chunkId (tablePhysicals P t) batch batch' := by
  simp only [addTableColumns, ofExcept_eq] at ok
  obtain ⟨t, ht, ok⟩ := bind_ok_iff.mp ok
  exact ⟨t, ht, addColumnsIn_ok ok⟩

theorem addTableColumns_exists {table aliasName : Str} {chunkId : Nat} {t : TableSchema}
    (ht : cat.getTable table = .ok t) (stored : ∀ physical ∈ tablePhysicals P t, ∃ chunk,
      storage.getChunk table physical 0 chunkId = .ok chunk)
    (batch : EncryptedBatch P.EncryptedVector) :
    ∃ batch', addTableColumns P storage cat table aliasName chunkId batch = .ok batch' := by
  simp only [addTableColumns, ofExcept_eq, ht, ok_bind]
  exact addColumnsIn_exists stored batch

end Batches

/-- The chunk of a join key holds one row. -/
def SingleRow (storage : EncryptedStorage (Except Exn) P.EncryptedVector) (table key : Str)
    (listed : ChunkMeta) : Prop :=
  ∃ chunk, storage.getChunk table key listed.partitionId listed.chunkId = .ok chunk ∧
    chunk.chunkMeta.logicalRowCount = 1

/-- A batch computed by the two turns of the loops for a pair of chunks. -/
structure PairBatch (storage : EncryptedStorage (Except Exn) P.EncryptedVector) (cat : Catalog)
    (pkg : QueryPackage) (where? : Option (Expression P.EncryptedVector))
    (leftKey rightKey : Str) (pair : ChunkMeta × ChunkMeta) (rb : EncryptedResultBatch) : Prop where
  single : SingleRow storage pkg.tableName leftKey pair.1
  computed : ∃ leftMask? batchId,
    leftMask P storage cat pkg where? pair.1.chunkId = .ok leftMask? ∧
    joinPair P storage cat pkg where? rightKey pair.1 leftMask? batchId pair.2 = .ok rb

variable (P pkg) in
/-- The mask of a pair: its join equality, times the WHERE if there is one. The
WHERE is evaluated on the left row or on the whole pair. -/
def MaskOf (where? : Option (Expression P.EncryptedVector))
    (left full : EncryptedBatch P.EncryptedVector) (mask : P.EncryptedVector) : Prop :=
  ∃ joinMask,
    P.evaluate (.equal (.columnRef pkg.joinLeftColumn) (.columnRef pkg.joinRightColumn)) full =
      .ok joinMask ∧
    match where? with
    | none => mask = joinMask
    | some e => ∃ whereMask,
      P.evaluate e (if whereUsesJoinedTable pkg then full else left) = .ok whereMask ∧
      P.evalMult joinMask whereMask = .ok mask

theorem maskOf_unique {left full : EncryptedBatch P.EncryptedVector}
    {mask mask' : P.EncryptedVector}
    (h : MaskOf P pkg where? left full mask) (h' : MaskOf P pkg where? left full mask') :
    mask = mask' := by
  obtain ⟨joinMask, hj, h⟩ := h
  obtain ⟨joinMask', hj', h'⟩ := h'
  cases hj.symm.trans hj'
  cases where? with
  | none => exact Eq.trans h h'.symm
  | some e =>
    obtain ⟨whereMask, hw, h⟩ := h
    obtain ⟨whereMask', hw', h'⟩ := h'
    cases hw.symm.trans hw'
    exact Except.ok.inj (h.symm.trans h')

/-- The batch of a pair, from the columns read for it. -/
structure ReadsPair (storage : EncryptedStorage (Except Exn) P.EncryptedVector) (cat : Catalog)
    (pkg : QueryPackage) (where? : Option (Expression P.EncryptedVector))
    (pair : ChunkMeta × ChunkMeta) (left full : EncryptedBatch P.EncryptedVector)
    (rb : EncryptedResultBatch) : Prop where
  leftColumns : addTableColumns P storage cat pkg.tableName pkg.tableAlias pair.1.chunkId
    { logicalRowCount := 1 } = .ok left
  rightColumns : addTableColumns P storage cat pkg.joinedTableName pkg.joinedTableAlias
    pair.2.chunkId left = .ok full
  mask : ∃ mask, MaskOf P pkg where? left full mask ∧ rb.selectionMaskBytes = P.serialize mask
  masked : rb.hasMask = true
  rowCount : rb.logicalRowCount = 1
  columns : ∃ columns, pkg.projectColumns.mapM
      (joinColumn P storage cat pkg pair.1.chunkId pair.2.chunkId) = .ok columns ∧
    rb.columns = columns.flatten

theorem pairMask_ok_iff {leftMask? : Option P.EncryptedVector}
    {left full : EncryptedBatch P.EncryptedVector} {mask : P.EncryptedVector}
    {chunkId : Nat} (hleft : addTableColumns P storage cat pkg.tableName pkg.tableAlias chunkId
      { logicalRowCount := 1 } = .ok left)
    (hmask : leftMask P storage cat pkg where? chunkId = .ok leftMask?) :
    pairMask P pkg where? leftMask? full = .ok mask ↔ MaskOf P pkg where? left full mask := by
  simp only [pairMask, MaskOf, bind_ok_iff, fromProto1_ok_iff]
  refine exists_congr fun joinMask => and_congr_right fun _ => ?_
  cases where? with
  | none =>
    cases hmask
    simp [eq_comm]
  | some e =>
    by_cases uses : whereUsesJoinedTable pkg = true
    · simp only [uses, bind_ok_iff, fromProto1_ok_iff, if_true]
    · simp only [leftMask, uses, Bool.false_eq_true, if_false, ofExcept_eq, hleft, ok_bind,
        bind_ok_iff, fromProto1_ok_iff] at hmask
      obtain ⟨whereMask, hwhere, hmask⟩ := hmask
      cases hmask
      simp [uses, hwhere, fromProto1_ok_iff]

variable (where?) in
theorem leftMask_exists {left : EncryptedBatch P.EncryptedVector} {chunkId : Nat}
    (hleft : addTableColumns P storage cat pkg.tableName pkg.tableAlias chunkId
      { logicalRowCount := 1 } = .ok left)
    (evaluates : whereUsesJoinedTable pkg = false → ∀ e, where? = some e →
      ∃ mask, P.evaluate e left = .ok mask) :
    ∃ leftMask?, leftMask P storage cat pkg where? chunkId = .ok leftMask? := by
  cases where? with
  | none => exact ⟨none, rfl⟩
  | some e =>
    by_cases uses : whereUsesJoinedTable pkg = true
    · simp only [leftMask, uses, if_true]
      exact ⟨none, rfl⟩
    · obtain ⟨mask, hmask⟩ := evaluates (by simpa using uses) e rfl
      simp only [leftMask, uses, Bool.false_eq_true, if_false, hleft, ok_bind, hmask, fromProto1_ok,
        ofExcept_eq]
      exact ⟨some mask, rfl⟩

/-- What the batch of a pair is computed from. -/
theorem readsPair_of_pairBatch {pair : ChunkMeta × ChunkMeta} {rb : EncryptedResultBatch}
    (h : PairBatch storage cat pkg where? leftKey rightKey pair rb) :
    ∃ left full, ReadsPair storage cat pkg where? pair left full rb := by
  obtain ⟨_, leftMask?, batchId, hleft, h⟩ := h
  obtain ⟨rightJoin, _, h⟩ := bind_ok_iff.mp h
  by_cases single : rightJoin.chunkMeta.logicalRowCount = 1
  · simp only [single, ne_eq, not_true_eq_false, if_false, ofExcept_eq] at h
    obtain ⟨left, hl, h⟩ := bind_ok_iff.mp h
    obtain ⟨full, hf, h⟩ := bind_ok_iff.mp h
    obtain ⟨mask, hmask, h⟩ := bind_ok_iff.mp h
    obtain ⟨columns, hcolumns, h⟩ := bind_ok_iff.mp h
    cases h
    have maskOf := (pairMask_ok_iff hl hleft).mp hmask
    exact ⟨left, full, hl, hf, ⟨mask, maskOf, rfl⟩, rfl, rfl, columns, hcolumns, rfl⟩
  · simp only [single, ne_eq, not_false_eq_true, if_true, throw_eq_error, error_bind] at h
    cases h

/-- A pair whose columns, mask and projections can be read has a batch. -/
theorem joinPair_exists (pair : ChunkMeta × ChunkMeta) {leftMask? : Option P.EncryptedVector}
    {left full : EncryptedBatch P.EncryptedVector} {mask : P.EncryptedVector}
    {columns : List (List EncryptedColumnResult)}
    (single : SingleRow storage pkg.joinedTableName rightKey pair.2)
    (hleft : addTableColumns P storage cat pkg.tableName pkg.tableAlias pair.1.chunkId
      { logicalRowCount := 1 } = .ok left)
    (hfull : addTableColumns P storage cat pkg.joinedTableName pkg.joinedTableAlias
      pair.2.chunkId left = .ok full)
    (hmask : leftMask P storage cat pkg where? pair.1.chunkId = .ok leftMask?)
    (maskOf : MaskOf P pkg where? left full mask)
    (hcolumns : pkg.projectColumns.mapM
      (joinColumn P storage cat pkg pair.1.chunkId pair.2.chunkId) = .ok columns)
    (batchId : UInt32) :
    ∃ rb, joinPair P storage cat pkg where? rightKey pair.1 leftMask? batchId pair.2 = .ok rb := by
  obtain ⟨rightJoin, hkey, one⟩ := single
  have computed := (pairMask_ok_iff hleft hmask).mpr maskOf
  simp only [joinPair, hkey, ok_bind, one, ne_eq, not_true_eq_false, if_false, hleft, hfull,
    ofExcept_eq, computed, hcolumns, pure_eq_ok]
  exact ⟨_, rfl⟩

/-- One turn of the outer loop appends the batches of one left chunk. -/
theorem joinLeft_ok {rightChunks : List ChunkMeta} {results results' : List EncryptedResultBatch}
    {lm : ChunkMeta}
    (h : joinLeft P storage cat pkg where? leftKey rightKey rightChunks results lm = .ok results') :
    ∃ batches, results' = results ++ batches ∧ List.Forall₂
      (fun rm rb => PairBatch storage cat pkg where? leftKey rightKey (lm, rm) rb)
      rightChunks batches := by
  obtain ⟨leftJoin, hkey, h⟩ := bind_ok_iff.mp h
  by_cases single : leftJoin.chunkMeta.logicalRowCount = 1
  · simp only [single, ne_eq, not_true_eq_false, if_false] at h
    obtain ⟨leftMask?, hmask, h⟩ := bind_ok_iff.mp h
    have appends : ∀ results rm results',
        (do
          let rb ← joinPair P storage cat pkg where? rightKey lm leftMask?
            (UInt32.ofNat results.length) rm
          pure (results ++ [rb]) : Except Exn (List EncryptedResultBatch)) = .ok results' →
        ∃ bs, results' = results ++ bs ∧
          ∃ rb, bs = [rb] ∧ PairBatch storage cat pkg where? leftKey rightKey (lm, rm) rb := by
      intro results rm results' step
      obtain ⟨rb, hrb, step⟩ := bind_ok_iff.mp step
      cases step
      exact ⟨[rb], rfl, rb, rfl, ⟨leftJoin, hkey, single⟩, leftMask?, _, hmask, hrb⟩
    obtain ⟨pieces, rfl, all⟩ := foldlM_append_ok appends h
    exact ⟨pieces.flatten, rfl, forall₂_singletons all⟩
  · simp only [single, ne_eq, not_false_eq_true, if_true, throw_eq_error, error_bind] at h
    cases h

/-- A completed join: its keys, its chunks and its WHERE, and the batch of every
pair. -/
theorem executeJoin_ok {fuel : Nat} {results : List EncryptedResultBatch}
    (h : executeJoin P storage cat fuel pkg = .ok results) :
    ∃ keys leftChunks rightChunks where?, joinKeys pkg = .ok keys ∧
      storage.listChunks pkg.tableName keys.1 = .ok leftChunks ∧
      storage.listChunks pkg.joinedTableName keys.2 = .ok rightChunks ∧
      buildWhere P pkg fuel = .ok where? ∧
      List.Forall₂ (PairBatch storage cat pkg where? keys.1 keys.2)
        (leftChunks ×ˢ rightChunks) results := by
  simp only [executeJoin, ofExcept_eq, bind_ok_iff] at h
  obtain ⟨keys, hkeys, leftChunks, hleft, rightChunks, hright, where?, hwhere, h⟩ := h
  have appends : ∀ results lm results',
      joinLeft P storage cat pkg where? keys.1 keys.2 rightChunks results lm = .ok results' →
      ∃ batches, results' = results ++ batches ∧ List.Forall₂
        (fun rm rb => PairBatch storage cat pkg where? keys.1 keys.2 (lm, rm) rb)
        rightChunks batches := fun _ _ _ step => joinLeft_ok step
  obtain ⟨pieces, rfl, all⟩ := foldlM_append_ok appends h
  exact ⟨keys, leftChunks, rightChunks, where?, hkeys, hleft, hright, hwhere, forall₂_product all⟩

/-- The loops complete when every key chunk holds one row and every pair has a
batch. -/
theorem executeJoin_exists {fuel : Nat} {keys : Str × Str} {leftChunks rightChunks : List ChunkMeta}
    (hkeys : joinKeys pkg = .ok keys)
    (left : storage.listChunks pkg.tableName keys.1 = .ok leftChunks)
    (right : storage.listChunks pkg.joinedTableName keys.2 = .ok rightChunks)
    (hwhere : buildWhere P pkg fuel = .ok where?)
    (pairs : ∀ lm ∈ leftChunks, SingleRow storage pkg.tableName keys.1 lm ∧
      ∃ leftMask?, leftMask P storage cat pkg where? lm.chunkId = .ok leftMask? ∧
        ∀ rm ∈ rightChunks, ∀ batchId, ∃ rb,
          joinPair P storage cat pkg where? keys.2 lm leftMask? batchId rm = .ok rb) :
    ∃ results, executeJoin P storage cat fuel pkg = .ok results := by
  have outer : ∀ lm ∈ leftChunks, ∀ results, ∃ batches,
      joinLeft P storage cat pkg where? keys.1 keys.2 rightChunks results lm =
        .ok (results ++ batches) := by
    intro lm mem results
    obtain ⟨⟨leftJoin, hkey, single⟩, leftMask?, hmask, inner⟩ := pairs lm mem
    simp only [joinLeft, hkey, ok_bind, single, ne_eq, not_true_eq_false, if_false, hmask]
    apply foldlM_append_exists
    intro rm mem results
    obtain ⟨rb, hrb⟩ := inner rm mem (UInt32.ofNat results.length)
    exact ⟨[rb], by simp only [hrb, ok_bind, pure_eq_ok]⟩
  obtain ⟨results, h⟩ := foldlM_append_exists outer []
  refine ⟨results, ?_⟩
  simp only [executeJoin, ofExcept_eq, hkeys, left, right, hwhere, ok_bind, h, List.nil_append]

/-- Where every chunk is read and every mask comes out, the projections decide. -/
theorem executeJoin_total {fuel : Nat} {keys : Str × Str} {leftChunks rightChunks : List ChunkMeta}
    (stored : ∀ table physical partition chunkId, ∃ chunk,
      storage.getChunk table physical partition chunkId = .ok chunk ∧
        chunk.chunkMeta.logicalRowCount = 1)
    (evaluates : ∀ e batch, ∃ mask, P.evaluate e batch = .ok mask)
    (multiplies : ∀ a b, ∃ mask, P.evalMult a b = .ok mask)
    (hkeys : joinKeys pkg = .ok keys)
    (left : storage.listChunks pkg.tableName keys.1 = .ok leftChunks)
    (right : storage.listChunks pkg.joinedTableName keys.2 = .ok rightChunks)
    (hwhere : buildWhere P pkg fuel = .ok where?)
    (leftTable : ∃ t, cat.getTable pkg.tableName = .ok t)
    (rightTable : ∃ t, cat.getTable pkg.joinedTableName = .ok t)
    (projects : ∀ leftChunk rightChunk, ∃ columns,
      pkg.projectColumns.mapM (joinColumn P storage cat pkg leftChunk rightChunk) = .ok columns) :
    ∃ results, executeJoin P storage cat fuel pkg = .ok results := by
  apply executeJoin_exists hkeys left right hwhere
  intro lm _
  have single : ∀ table key listed, SingleRow storage table key listed :=
    fun table key listed => stored table key listed.partitionId listed.chunkId
  have read : ∀ table aliasName chunkId batch, (∃ t, cat.getTable table = .ok t) →
      ∃ batch', addTableColumns P storage cat table aliasName chunkId batch = .ok batch' := by
    rintro table aliasName chunkId batch ⟨t, ht⟩
    exact addTableColumns_exists ht
      (fun p _ => (stored table p 0 chunkId).imp fun _ => And.left) batch
  obtain ⟨l, hl⟩ := read pkg.tableName pkg.tableAlias lm.chunkId { logicalRowCount := 1 } leftTable
  obtain ⟨leftMask?, hmask⟩ := leftMask_exists where? hl fun _ e _ => evaluates e l
  refine ⟨single _ _ lm, leftMask?, hmask, fun rm _ batchId => ?_⟩
  obtain ⟨f, hf⟩ := read pkg.joinedTableName pkg.joinedTableAlias rm.chunkId l rightTable
  have maskOf : ∃ mask, MaskOf P pkg where? l f mask := by
    obtain ⟨joinMask, hj⟩ := evaluates
      (.equal (.columnRef pkg.joinLeftColumn) (.columnRef pkg.joinRightColumn)) f
    cases where? with
    | none => exact ⟨joinMask, joinMask, hj, rfl⟩
    | some e =>
      obtain ⟨whereMask, hw⟩ := evaluates e (if whereUsesJoinedTable pkg then f else l)
      obtain ⟨mask, hm⟩ := multiplies joinMask whereMask
      exact ⟨mask, joinMask, hj, whereMask, hw, hm⟩
  obtain ⟨mask, hmaskOf⟩ := maskOf
  obtain ⟨columns, hcolumns⟩ := projects lm.chunkId rm.chunkId
  exact joinPair_exists (lm, rm) (single _ _ rm) hl hf hmask hmaskOf hcolumns batchId

end FheSql.JoinLoop
