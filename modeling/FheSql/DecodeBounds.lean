import FheSql.PlainProto1
import FheSql.ResultDecoder

/-!
# Accesses of the decoder

A batch comes from the network. Every vector the decoder indexes is as long as
the batch says, with one exception: the table of character positions is resized
to a length computed in 32 bits, which is 0 for the last position.
-/

namespace FheSql.DecodeBounds

open ByteText Throwing ResultDecoder

/-- Decryption returns as many values as it is asked for. -/
def CountedDecryption (P : Proto1) : Prop :=
  ∀ ct n values, P.decrypt ct n = .ok values → values.length = n

/-- proto1 deserializes and decrypts a ciphertext of so many rows. -/
def Decrypts (P : Proto1) (rowCount : Nat) (bytes : List UInt8) : Prop :=
  ∃ ct values, P.deserializeWithSize bytes rowCount = .ok ct ∧ P.decrypt ct rowCount = .ok values

/-- The last position of a STRING column, behind which a 32-bit counter wraps. -/
def LastPosition (cr : EncryptedColumnResult) : Prop :=
  cr.logicalType = str "STRING" ∧ cr.stringPosition = 4294967295

instance : DecidablePred LastPosition := fun cr =>
  inferInstanceAs (Decidable (cr.logicalType = str "STRING" ∧ cr.stringPosition = 4294967295))

/-- The mask is decrypted or, without one, a vector of so many rows exists. -/
def MaskRead (P : Proto1) (batch : EncryptedResultBatch) : Prop :=
  (batch.hasMask = true → Decrypts P (toSize batch.logicalRowCount) batch.selectionMaskBytes) ∧
    (batch.hasMask = false → toSize batch.logicalRowCount < 2 ^ 60)

/-- Whatever stands at a last position is not reached: the mask or a ciphertext
up to it is refused. -/
def LastPositionsUnreached (P : Proto1) (batch : EncryptedResultBatch) : Prop :=
  ∀ before cr after, batch.columns = before ++ cr :: after → LastPosition cr → MaskRead P batch →
    ¬ ∀ c ∈ before ++ [cr], Decrypts P (toSize batch.logicalRowCount) c.ciphertextBytes

/-- The columns decrypted so far: values for every row, and tables of positions
that a 32-bit counter can count. -/
structure Sized (rowCount : Nat) (columns : Columns) : Prop where
  values : ∀ name vals, columns.cols.lookup name = some vals → vals.length = rowCount
  tables : ∀ name positions, columns.stringCols.lookup name = some positions →
    positions.length < 2 ^ 32

variable {P : Proto1} {batch : EncryptedResultBatch} {rowCount : Nat}

theorem sized_empty : Sized rowCount {} := ⟨nofun, nofun⟩

theorem avoids_fromProto1 {α : Type} (x : Except Str α) : Avoids .outOfBounds (fromProto1 x) := by
  cases x with
  | error what => exact avoids_error nofun
  | ok a => exact avoids_ok a

theorem avoids_decryptBytes (bytes : List UInt8) :
    Avoids .outOfBounds (decryptBytes P rowCount bytes) :=
  avoids_bind (avoids_fromProto1 _) fun _ _ => avoids_fromProto1 _

theorem avoids_decryptMask : Avoids .outOfBounds (decryptMask P batch) := by
  unfold decryptMask
  by_cases masked : batch.hasMask = true
  · simpa only [masked, Bool.not_true, Bool.false_eq_true, if_false] using avoids_decryptBytes _
  · simp only [masked, Bool.not_false, if_true, filled, throw_eq_error, pure_eq_ok]
    exact avoids_guard (by decide) (avoids_ok _)

theorem decryptBytes_ok_iff {bytes : List UInt8} {values : List Int} :
    decryptBytes P rowCount bytes = .ok values ↔
      ∃ ct, P.deserializeWithSize bytes rowCount = .ok ct ∧ P.decrypt ct rowCount = .ok values := by
  simp only [decryptBytes, bind_ok_iff, fromProto1_ok_iff]

theorem decrypts_iff {bytes : List UInt8} :
    Decrypts P rowCount bytes ↔ ∃ values, decryptBytes P rowCount bytes = .ok values := by
  simp only [Decrypts, decryptBytes_ok_iff]
  exact exists_comm

/-- A position other than the last one is written inside the table, which grows up to it
and keeps the other positions. -/
theorem setPosition_grows (positions : List (List Int)) {position : UInt32}
    (inside : position ≠ 4294967295) (values : List Int) :
    ∃ positions', setPosition positions position values = .ok positions' ∧
      positions'.length = max positions.length (position.toNat + 1) ∧
      positions'[position.toNat]? = some values ∧
      ∀ k chars, k ≠ position.toNat → positions[k]? = some chars → positions'[k]? = some chars := by
  have next : (position + 1).toNat = position.toNat + 1 := by
    have bound : position.toNat ≠ 4294967295 := fun h => inside (UInt32.toNat_inj.mp h)
    have word : position.toNat < 2 ^ 32 := position.toNat_lt
    exact toNat_next (by omega)
  by_cases short : positions.length ≤ position.toNat
  · have whole : positions.take (position.toNat + 1) = positions :=
      List.take_of_length_le (by omega)
    have length : (resize positions (position + 1).toNat).length = position.toNat + 1 := by
      simp only [resize, next, whole, List.length_append, List.length_replicate]
      omega
    refine ⟨(resize positions (position + 1).toNat).set position.toNat values, ?_, ?_, ?_, ?_⟩
    · simp only [setPosition, short, if_true, length, Nat.lt_succ_self, pure_eq_ok]
    · rw [List.length_set, length]
      omega
    · exact List.getElem?_set_self (by omega)
    · intro k chars other found
      rw [List.getElem?_set_ne other.symm, resize, next, whole]
      rw [List.getElem?_append_left (List.getElem?_eq_some_iff.mp found).1]
      exact found
  · refine ⟨positions.set position.toNat values, ?_, ?_, ?_, ?_⟩
    · simp only [setPosition, short, if_false, Nat.lt_of_not_le short, if_true, pure_eq_ok]
    · rw [List.length_set]
      omega
    · exact List.getElem?_set_self (by omega)
    · intro k chars other found
      rw [List.getElem?_set_ne other.symm]
      exact found

theorem setPosition_inside {positions : List (List Int)} {position : UInt32}
    (few : positions.length < 2 ^ 32) (inside : position ≠ 4294967295) (values : List Int) :
    ∃ positions', setPosition positions position values = .ok positions' ∧
      positions'.length < 2 ^ 32 := by
  obtain ⟨positions', written, length, _⟩ := setPosition_grows positions inside values
  have bound : position.toNat ≠ 4294967295 := fun h => inside (UInt32.toNat_inj.mp h)
  have word : position.toNat < 2 ^ 32 := position.toNat_lt
  exact ⟨positions', written, by omega⟩

/-- The last position is not: the table is emptied before it is indexed. -/
theorem setPosition_last {positions : List (List Int)} (few : positions.length < 2 ^ 32)
    (values : List Int) : setPosition positions 4294967295 values = .error .outOfBounds := by
  have last : (4294967295 : UInt32).toNat = 4294967295 := rfl
  have wrapped : ((4294967295 : UInt32) + 1).toNat = 0 := rfl
  have short : positions.length ≤ 4294967295 := by omega
  simp only [setPosition, last, wrapped, short, if_true, resize, List.take_zero, List.nil_append,
    Nat.zero_sub, List.replicate_zero, List.length_nil, Nat.not_lt_zero, if_false, throw_eq_error]

theorem table_few {columns : Columns} (sized : Sized rowCount columns) (name : Str) :
    ((columns.stringCols.lookup name).getD []).length < 2 ^ 32 := by
  cases found : columns.stringCols.lookup name with
  | none => simp
  | some positions => exact sized.tables name positions found

/-- One turn of the loop keeps the sizes, unless it reaches a last position. -/
theorem decodeColumn_sized (counted : CountedDecryption P) {columns columns' : Columns}
    {cr : EncryptedColumnResult} (sized : Sized rowCount columns) (inside : ¬ LastPosition cr)
    (h : decodeColumn P rowCount columns cr = .ok columns') : Sized rowCount columns' := by
  obtain ⟨values, decrypted, h⟩ := bind_ok_iff.mp h
  by_cases text : cr.logicalType = str "STRING"
  · rw [if_pos text] at h
    obtain ⟨positions, written, h⟩ := bind_ok_iff.mp h
    cases h
    obtain ⟨positions', written', few⟩ := setPosition_inside (table_few sized cr.columnName)
      (fun last => inside ⟨text, last⟩) values
    obtain rfl := Except.ok.inj (written.symm.trans written')
    refine ⟨sized.values, fun name table found => ?_⟩
    by_cases own : name = cr.columnName
    · subst own
      rw [AList.lookup_insert] at found
      exact Option.some.inj found ▸ few
    · rw [AList.lookup_insert_ne own] at found
      exact sized.tables name table found
  · rw [if_neg text] at h
    cases h
    refine ⟨fun name vals found => ?_, sized.tables⟩
    by_cases own : name = cr.columnName
    · subst own
      rw [AList.lookup_insert] at found
      obtain ⟨ct, _, hd⟩ := decryptBytes_ok_iff.mp decrypted
      exact Option.some.inj found ▸ counted ct rowCount values hd
    · rw [AList.lookup_insert_ne own] at found
      exact sized.values name vals found

theorem decodeColumn_avoids {columns : Columns} {cr : EncryptedColumnResult}
    (sized : Sized rowCount columns) (inside : ¬ LastPosition cr) :
    Avoids .outOfBounds (decodeColumn P rowCount columns cr) := by
  apply avoids_bind (avoids_decryptBytes _)
  intro values _
  by_cases text : cr.logicalType = str "STRING"
  · obtain ⟨positions', written, _⟩ := setPosition_inside (table_few sized cr.columnName)
      (fun last => inside ⟨text, last⟩) values
    simp only [if_pos text, written, ok_bind, pure_eq_ok]
    exact avoids_ok _
  · simp only [if_neg text, pure_eq_ok]
    exact avoids_ok _

/-- At a last position the turn stops: at the ciphertext, or outside the table. -/
theorem decodeColumn_last {columns : Columns} {cr : EncryptedColumnResult}
    (sized : Sized rowCount columns) (last : LastPosition cr) :
    decodeColumn P rowCount columns cr = .error .outOfBounds ↔
      Decrypts P rowCount cr.ciphertextBytes := by
  rw [decrypts_iff, decodeColumn, bind_error_iff]
  simp only [last.1, if_true, last.2, setPosition_last (table_few sized cr.columnName), error_bind,
    and_true, or_iff_right_iff_imp]
  intro refused
  exact (avoids_decryptBytes _ refused).elim

theorem decodeColumn_last_error {columns columns' : Columns} {cr : EncryptedColumnResult}
    (sized : Sized rowCount columns) (last : LastPosition cr) :
    decodeColumn P rowCount columns cr ≠ .ok columns' := by
  intro h
  obtain ⟨values, _, h⟩ := bind_ok_iff.mp h
  simp only [last.1, if_true, last.2, setPosition_last (table_few sized cr.columnName),
    error_bind] at h
  cases h

/-- A column that is not at a last position decodes if its ciphertext decrypts. -/
theorem decodeColumn_ok_iff {columns : Columns} {cr : EncryptedColumnResult}
    (sized : Sized rowCount columns) (inside : ¬ LastPosition cr) :
    (∃ columns', decodeColumn P rowCount columns cr = .ok columns') ↔
      Decrypts P rowCount cr.ciphertextBytes := by
  rw [decrypts_iff]
  constructor
  · rintro ⟨columns', h⟩
    obtain ⟨values, decrypted, _⟩ := bind_ok_iff.mp h
    exact ⟨values, decrypted⟩
  · rintro ⟨values, decrypted⟩
    by_cases text : cr.logicalType = str "STRING"
    · obtain ⟨positions', written, _⟩ := setPosition_inside (table_few sized cr.columnName)
        (fun last => inside ⟨text, last⟩) values
      simp only [decodeColumn, decrypted, ok_bind, if_pos text, written, pure_eq_ok]
      exact ⟨_, rfl⟩
    · simp only [decodeColumn, decrypted, ok_bind, if_neg text, pure_eq_ok]
      exact ⟨_, rfl⟩

/-- The loop leaves the vectors exactly when it decrypts up to a last position. -/
theorem decodeColumns_outOfBounds_iff (counted : CountedDecryption P)
    (crs : List EncryptedColumnResult) {columns : Columns} (sized : Sized rowCount columns) :
    crs.foldlM (decodeColumn P rowCount) columns = .error .outOfBounds ↔
      ∃ before cr after, crs = before ++ cr :: after ∧ LastPosition cr ∧
        ∀ c ∈ before ++ [cr], Decrypts P rowCount c.ciphertextBytes := by
  induction crs generalizing columns with
  | nil => simp
  | cons cr crs ih =>
    rw [List.foldlM_cons, bind_error_iff]
    by_cases last : LastPosition cr
    · constructor
      · rintro (h | ⟨columns', h, _⟩)
        · refine ⟨[], cr, crs, rfl, last, fun c mem => ?_⟩
          obtain rfl := List.mem_singleton.mp mem
          exact (decodeColumn_last sized last).mp h
        · exact (decodeColumn_last_error sized last h).elim
      · rintro ⟨before, c, after, split, _, decrypts⟩
        refine Or.inl ((decodeColumn_last sized last).mpr (decrypts cr ?_))
        cases before with
        | nil => cases split; exact List.mem_singleton_self _
        | cons d before => cases split; exact List.mem_cons_self
    · constructor
      · rintro (h | ⟨columns', h, rest⟩)
        · exact (decodeColumn_avoids sized last h).elim
        · have sized' := decodeColumn_sized counted sized last h
          obtain ⟨before, c, after, rfl, lastc, decrypts⟩ := (ih sized').mp rest
          refine ⟨cr :: before, c, after, rfl, lastc, fun d mem => ?_⟩
          rcases List.mem_cons.mp mem with rfl | mem
          · exact (decodeColumn_ok_iff sized last).mp ⟨columns', h⟩
          · exact decrypts d mem
      · rintro ⟨before, c, after, split, lastc, decrypts⟩
        cases before with
        | nil => cases split; exact (last lastc).elim
        | cons d before =>
          cases split
          obtain ⟨columns', h⟩ := (decodeColumn_ok_iff sized last).mpr (decrypts cr (by simp))
          refine Or.inr ⟨columns', h, (ih (decodeColumn_sized counted sized last h)).mpr ?_⟩
          exact ⟨before, c, after, rfl, lastc,
            fun d mem => decrypts d (List.mem_cons_of_mem cr mem)⟩

/-- A loop that ends keeps the sizes. -/
theorem decodeColumns_sized (counted : CountedDecryption P) (crs : List EncryptedColumnResult)
    {columns columns' : Columns} (sized : Sized rowCount columns)
    (h : crs.foldlM (decodeColumn P rowCount) columns = .ok columns') :
    Sized rowCount columns' := by
  induction crs generalizing columns with
  | nil =>
    cases h
    exact sized
  | cons cr crs ih =>
    rw [List.foldlM_cons] at h
    obtain ⟨next, step, rest⟩ := bind_ok_iff.mp h
    by_cases last : LastPosition cr
    · exact (decodeColumn_last_error sized last step).elim
    · exact ih (decodeColumn_sized counted sized last step) rest

theorem avoids_decodeString (i : Nat) (positions : List (List Int)) :
    Avoids .outOfBounds (decodeString i positions) := by
  induction positions with
  | nil => exact avoids_ok _
  | cons chars positions ih =>
    unfold decodeString
    cases chars[i]? with
    | none => exact avoids_ok _
    | some c =>
      by_cases stop : c = 0
      · simpa only [stop, if_true, pure_eq_ok] using avoids_ok _
      · simp only [stop, if_false]
        exact avoids_guard nofun (avoids_bind ih fun rest _ => avoids_ok _)

theorem avoids_fillRow {V W : Type} {f : V → Except Exn W} {columns : StringMap V}
    (each : ∀ name v, columns.lookup name = some v → Avoids .outOfBounds (f v)) :
    Avoids .outOfBounds (fillRow f columns) := by
  have loop : ∀ entries : List (Sigma fun _ : Str => V),
      (∀ col ∈ entries, Avoids .outOfBounds (f col.2)) → ∀ row : StringMap W,
        Avoids .outOfBounds (entries.foldlM
          (fun row col => do
            let value ← f col.2
            pure (row.insert col.1 value)) row) := by
    intro entries
    induction entries with
    | nil => exact fun _ row => avoids_ok row
    | cons col entries ih =>
      intro all row
      rw [List.foldlM_cons]
      apply avoids_bind
      · exact avoids_bind (all col List.mem_cons_self) fun value _ => avoids_ok _
      · exact fun row' _ => ih (fun c mem => all c (List.mem_cons_of_mem col mem)) row'
  exact loop columns.entries (fun col mem => each col.1 col.2 (AList.mem_lookup_iff.mpr mem)) ∅

/-- With sized columns every row is reconstructed in bounds. -/
theorem avoids_decodeRow {columns : Columns} (sized : Sized rowCount columns) (mask : List Int)
    {i : Nat} (inside : i < rowCount) : Avoids .outOfBounds (decodeRow mask columns i) := by
  unfold decodeRow
  by_cases chosen : mask[i]? = some 1
  · simp only [chosen, if_true]
    apply avoids_bind
    · apply avoids_fillRow
      intro name vals found
      have stored : i < vals.length := by rw [sized.values name vals found]; exact inside
      simp only [valueAt, List.getElem?_eq_getElem stored]
      exact avoids_ok _
    · intro values _
      apply avoids_bind (avoids_fillRow fun name positions _ => avoids_decodeString i positions)
      exact fun stringValues _ => avoids_ok _
  · simp only [chosen, if_false]
    exact avoids_ok _

theorem decryptMask_ok_iff :
    (∃ mask, decryptMask P batch = .ok mask) ↔ MaskRead P batch := by
  unfold decryptMask MaskRead
  by_cases masked : batch.hasMask = true
  · simp only [masked, Bool.not_true, Bool.false_eq_true, if_false, decrypts_iff, true_implies,
      Bool.true_eq_false, false_implies, and_true]
  · simp only [masked, Bool.not_false, if_true, filled, throw_eq_error, pure_eq_ok, guard_ok_iff,
      Bool.false_eq_true, false_implies, true_implies, true_and, Nat.not_le]
    simp

/-- Every access of `decode` to a vector is inside it exactly when no STRING
column is decrypted at the last 32-bit position. -/
theorem decode_in_bounds_iff (counted : CountedDecryption P) (batch : EncryptedResultBatch) :
    Avoids .outOfBounds (decode P batch) ↔ LastPositionsUnreached P batch := by
  have rows : ∀ mask columns, Sized (toSize batch.logicalRowCount) columns →
      Avoids .outOfBounds
        ((List.range (toSize batch.logicalRowCount)).mapM (decodeRow mask columns)) := by
    intro mask columns sized
    exact avoids_mapM fun i mem => avoids_decodeRow sized mask (List.mem_range.mp mem)
  constructor
  · intro avoids before cr after split last masked decrypts
    obtain ⟨mask, hmask⟩ := decryptMask_ok_iff.mpr masked
    have leaves := (decodeColumns_outOfBounds_iff counted batch.columns sized_empty).mpr
      ⟨before, cr, after, split, last, decrypts⟩
    apply avoids
    simp only [decode, hmask, ok_bind, leaves, error_bind]
  · intro unreached
    apply avoids_bind avoids_decryptMask
    intro mask hmask
    apply avoids_bind
    · intro leaves
      obtain ⟨before, cr, after, split, last, decrypts⟩ :=
        (decodeColumns_outOfBounds_iff counted batch.columns sized_empty).mp leaves
      exact unreached before cr after split last (decryptMask_ok_iff.mp ⟨mask, hmask⟩) decrypts
    · intro columns hcolumns
      have sized := decodeColumns_sized counted batch.columns sized_empty hcolumns
      exact avoids_bind (rows mask columns sized) fun rows _ => avoids_ok _

theorem plain_counted (slotCount : Nat) : CountedDecryption (plainProto1 slotCount) := by
  intro ct n values h
  cases h
  simp

/-- One STRING column, its ciphertext empty, at a position. -/
def stringBatch (position : UInt32) : EncryptedResultBatch where
  logicalRowCount := 1
  columns := [{ columnName := str "name", logicalType := str "STRING", stringPosition := position }]

theorem stringBatch_in_bounds :
    Avoids .outOfBounds (decode (plainProto1 1) (stringBatch 4294967294)) := by
  refine (decode_in_bounds_iff (plain_counted 1) _).mpr ?_
  intro before cr after split last
  have mem : cr ∈ (stringBatch 4294967294).columns := by
    rw [split]
    exact List.mem_append_right _ List.mem_cons_self
  obtain rfl := List.mem_singleton.mp mem
  exact absurd last.2 (by decide)

/-- The last position makes the decoder write into an empty vector. -/
theorem received_batch_can_leave_bounds :
    ¬ ∀ (P : Proto1) (batch : EncryptedResultBatch), CountedDecryption P →
      0 ≤ batch.logicalRowCount → Avoids .outOfBounds (decode P batch) := by
  intro all
  exact all (plainProto1 1) (stringBatch 4294967295) (plain_counted 1) (by decide) rfl

end FheSql.DecodeBounds
