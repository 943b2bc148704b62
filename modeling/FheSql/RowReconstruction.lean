import FheSql.DecodeBounds
import FheSql.DecodedRows

/-!
# Rows from columns in any order

A batch brings its columns one by one, a string one character position at a time, in any
order. `decode` gathers them in tables that grow; at the end they hold what the batch
holds, whatever the order.
-/

namespace FheSql.RowReconstruction

open ByteText Throwing ResultDecoder DecodeBounds DecodedRows

/-- A character position of a STRING column. -/
def IsCharacter (cr : EncryptedColumnResult) : Prop := cr.logicalType = str "STRING"

instance : DecidablePred IsCharacter := fun cr => inferInstanceAs (Decidable (cr.logicalType = _))

/-- Two columns that do not fill the same place: their names differ, or they are different
positions of one string. -/
def Apart (a b : EncryptedColumnResult) : Prop :=
  a.columnName = b.columnName → IsCharacter a ∧ IsCharacter b ∧ a.stringPosition ≠ b.stringPosition

instance : DecidableRel Apart := fun a b =>
  inferInstanceAs (Decidable (a.columnName = b.columnName →
    IsCharacter a ∧ IsCharacter b ∧ a.stringPosition ≠ b.stringPosition))

section Content

variable (P : Proto1) (rowCount : Nat) (columns : List EncryptedColumnResult)

/-- The decrypted values of a column that is no string. -/
def IntColumn (name : Str) (values : List Int) : Prop :=
  ∃ cr ∈ columns, ¬ IsCharacter cr ∧ cr.columnName = name ∧
    decryptBytes P rowCount cr.ciphertextBytes = .ok values

/-- The decrypted values of a position of a STRING column. -/
def CharacterColumn (name : Str) (position : Nat) (values : List Int) : Prop :=
  ∃ cr ∈ columns, IsCharacter cr ∧ cr.columnName = name ∧ cr.stringPosition.toNat = position ∧
    decryptBytes P rowCount cr.ciphertextBytes = .ok values

/-- The decrypted positions of a STRING column, in their order. -/
def StringTable (name : Str) (table : List (List Int)) : Prop :=
  table ≠ [] ∧
    ∀ position values, table[position]? = some values ↔
      CharacterColumn P rowCount columns name position values

/-- The characters of a slot, up to the first 0. -/
def text (i : Nat) (table : List (List Int)) : Str :=
  ((table.filterMap fun values => values[i]?).takeWhile (· ≠ 0)).map fun c => UInt8.ofNat c.toNat

/-- A row with the values and the strings of a slot, and no others. -/
structure RowOf (i : Nat) (r : ResultRow) : Prop where
  values : ∀ name v, r.values.lookup name = some v ↔
    ∃ values, IntColumn P rowCount columns name values ∧ values[i]? = some v
  stringValues : ∀ name s, r.stringValues.lookup name = some s ↔
    ∃ table, StringTable P rowCount columns name table ∧ s = text i table

end Content

section Batches

variable (P : Proto1) (batch : EncryptedResultBatch)

/-- The number of slots. -/
def slotCount : Nat := batch.logicalRowCount.toNat

/-- The slots with mask 1, all of them without a mask. -/
def Chosen (i : Nat) : Prop :=
  i < slotCount batch ∧ (batch.hasMask = true → ∃ mask,
    decryptBytes P (slotCount batch) batch.selectionMaskBytes = .ok mask ∧ mask[i]? = some 1)

/-- One row for each chosen slot, in the order of the slots. -/
def Rebuilds (rows : List ResultRow) : Prop :=
  ∃ slots : List Nat, slots.Pairwise (· < ·) ∧ (∀ i, i ∈ slots ↔ Chosen P batch i) ∧
    List.Forall₂ (fun r i => RowOf P (slotCount batch) batch.columns i r) rows slots

/-- The batches that hold a table: every name once, or as the positions 0, 1, … of a
string, and ASCII codes at the positions. -/
structure HoldsTable : Prop where
  count : 0 ≤ batch.logicalRowCount
  int64 : batch.logicalRowCount < 2 ^ 63
  mask : batch.hasMask = true → Decrypts P (slotCount batch) batch.selectionMaskBytes
  decrypts : ∀ cr ∈ batch.columns, Decrypts P (slotCount batch) cr.ciphertextBytes
  apart : batch.columns.Pairwise Apart
  gapless : ∀ cr ∈ batch.columns, IsCharacter cr → ∀ position < cr.stringPosition.toNat,
    ∃ other ∈ batch.columns, IsCharacter other ∧ other.columnName = cr.columnName ∧
      other.stringPosition.toNat = position
  codes : ∀ name position values,
    CharacterColumn P (slotCount batch) batch.columns name position values →
      ∀ v ∈ values, 0 ≤ v ∧ v ≤ 127

end Batches

section Filling

variable {P : Proto1} {rowCount : Nat}

theorem intColumn_append {done rest : List EncryptedColumnResult} {name : Str} {values : List Int} :
    IntColumn P rowCount (done ++ rest) name values ↔
      IntColumn P rowCount done name values ∨ IntColumn P rowCount rest name values := by
  simp only [IntColumn, List.mem_append, or_and_right, exists_or]

theorem characterColumn_append {done rest : List EncryptedColumnResult} {name : Str}
    {position : Nat} {values : List Int} :
    CharacterColumn P rowCount (done ++ rest) name position values ↔
      CharacterColumn P rowCount done name position values ∨
        CharacterColumn P rowCount rest name position values := by
  simp only [CharacterColumn, List.mem_append, or_and_right, exists_or]

variable (P rowCount) in
/-- What the maps hold once some columns are decoded: the values of each name, and tables
of positions, filled at those that have come and not longer than the last of them. -/
structure Filled (done : List EncryptedColumnResult) (columns : Columns) : Prop where
  cols : ∀ name values, columns.cols.lookup name = some values ↔
    IntColumn P rowCount done name values
  filled : ∀ name position values, CharacterColumn P rowCount done name position values →
    ∃ positions, columns.stringCols.lookup name = some positions ∧
      positions[position]? = some values
  bounded : ∀ name positions, columns.stringCols.lookup name = some positions →
    positions ≠ [] ∧ ∀ position < positions.length, ∃ cr ∈ done, IsCharacter cr ∧
      cr.columnName = name ∧ position ≤ cr.stringPosition.toNat

theorem filled_nil : Filled P rowCount [] {} := by
  refine ⟨fun name values => ?_, ?_, ?_⟩
  · refine iff_of_false nofun ?_
    rintro ⟨cr, mem, _⟩
    cases mem
  · rintro name position values ⟨cr, mem, _⟩
    cases mem
  · exact nofun

/-- A column that is no string goes under its name. -/
theorem filled_int {done : List EncryptedColumnResult} {columns : Columns}
    {cr : EncryptedColumnResult} {values : List Int} (filled : Filled P rowCount done columns)
    (int : ¬ IsCharacter cr) (apart : ∀ other ∈ done, Apart other cr)
    (decrypted : decryptBytes P rowCount cr.ciphertextBytes = .ok values) :
    Filled P rowCount (done ++ [cr])
      { columns with cols := columns.cols.insert cr.columnName values } := by
  have fresh : ∀ values, ¬ IntColumn P rowCount done cr.columnName values := by
    rintro values ⟨other, mem, _, same, _⟩
    exact int (apart other mem same).2.1
  have single : ∀ name values', IntColumn P rowCount [cr] name values' ↔
      cr.columnName = name ∧ values = values' := by
    intro name values'
    simp only [IntColumn, List.mem_singleton, exists_eq_left, int, not_false_eq_true, true_and,
      decrypted, Except.ok.injEq]
  refine ⟨fun name values' => ?_, fun name position values' h => ?_, fun name positions h => ?_⟩
  · rw [intColumn_append, single]
    by_cases own : name = cr.columnName
    · subst own
      rw [AList.lookup_insert, Option.some.injEq]
      simp only [fresh, true_and, false_or]
    · rw [AList.lookup_insert_ne own, filled.cols]
      simp only [Ne.symm own, false_and, or_false]
  · rcases characterColumn_append.mp h with h | ⟨other, mem, character, _⟩
    · exact filled.filled name position values' h
    · rw [List.mem_singleton.mp mem] at character
      exact absurd character int
  · obtain ⟨nonempty, bound⟩ := filled.bounded name positions h
    refine ⟨nonempty, fun position inside => ?_⟩
    obtain ⟨other, mem, rest⟩ := bound position inside
    exact ⟨other, List.mem_append_left _ mem, rest⟩

/-- A position of a string goes into its table. -/
theorem filled_character {done : List EncryptedColumnResult} {columns : Columns}
    {cr : EncryptedColumnResult} {values : List Int} {positions : List (List Int)}
    (filled : Filled P rowCount done columns) (character : IsCharacter cr)
    (apart : ∀ other ∈ done, Apart other cr)
    (decrypted : decryptBytes P rowCount cr.ciphertextBytes = .ok values)
    (length : positions.length =
      max ((columns.stringCols.lookup cr.columnName).getD []).length (cr.stringPosition.toNat + 1))
    (here : positions[cr.stringPosition.toNat]? = some values)
    (others : ∀ k chars, k ≠ cr.stringPosition.toNat →
      ((columns.stringCols.lookup cr.columnName).getD [])[k]? = some chars →
        positions[k]? = some chars) :
    Filled P rowCount (done ++ [cr])
      { columns with stringCols := columns.stringCols.insert cr.columnName positions } := by
  refine ⟨fun name values' => ?_, fun name position values' h => ?_, fun name table h => ?_⟩
  · rw [intColumn_append, filled.cols, or_iff_left]
    rintro ⟨other, mem, int, _⟩
    rw [List.mem_singleton.mp mem] at int
    exact int character
  · by_cases own : name = cr.columnName
    · subst own
      refine ⟨positions, AList.lookup_insert _, ?_⟩
      rcases characterColumn_append.mp h with h | ⟨other, mem, _, _, place, decrypted'⟩
      · obtain ⟨table, found, at_position⟩ := filled.filled _ position values' h
        obtain ⟨other, mem, _, same, place, _⟩ := h
        refine others position values' ?_ ?_
        · rintro rfl
          exact (apart other mem same).2.2 (UInt32.toNat_inj.mp place)
        · rw [found]
          exact at_position
      · rw [List.mem_singleton.mp mem] at place decrypted'
        cases decrypted.symm.trans decrypted'
        rw [← place]
        exact here
    · rw [AList.lookup_insert_ne own]
      rcases characterColumn_append.mp h with h | ⟨other, mem, _, same, _⟩
      · exact filled.filled name position values' h
      · rw [List.mem_singleton.mp mem] at same
        exact absurd same.symm own
  · by_cases own : name = cr.columnName
    · subst own
      rw [AList.lookup_insert, Option.some.injEq] at h
      subst h
      refine ⟨List.ne_nil_of_length_pos (by omega), fun position inside => ?_⟩
      by_cases near : position ≤ cr.stringPosition.toNat
      · exact ⟨cr, List.mem_append_right _ (List.mem_singleton_self _), character, rfl, near⟩
      · cases found : columns.stringCols.lookup cr.columnName with
        | none =>
          rw [found] at length
          simp only [Option.getD_none, List.length_nil] at length
          omega
        | some table =>
          rw [found] at length
          simp only [Option.getD_some] at length
          obtain ⟨other, mem, rest⟩ := (filled.bounded _ table found).2 position (by omega)
          exact ⟨other, List.mem_append_left _ mem, rest⟩
    · rw [AList.lookup_insert_ne own] at h
      obtain ⟨nonempty, bound⟩ := filled.bounded name table h
      refine ⟨nonempty, fun position inside => ?_⟩
      obtain ⟨other, mem, rest⟩ := bound position inside
      exact ⟨other, List.mem_append_left _ mem, rest⟩

/-- One turn of the loop over the columns. -/
theorem decodeColumn_filled {done : List EncryptedColumnResult} {columns : Columns}
    {cr : EncryptedColumnResult} (filled : Filled P rowCount done columns)
    (apart : ∀ other ∈ done, Apart other cr) (inside : ¬ LastPosition cr)
    (decrypts : Decrypts P rowCount cr.ciphertextBytes) :
    ∃ columns', decodeColumn P rowCount columns cr = .ok columns' ∧
      Filled P rowCount (done ++ [cr]) columns' := by
  obtain ⟨values, decrypted⟩ := decrypts_iff.mp decrypts
  by_cases character : cr.logicalType = str "STRING"
  · obtain ⟨positions, written, length, here, others⟩ := setPosition_grows
      ((columns.stringCols.lookup cr.columnName).getD []) (fun last => inside ⟨character, last⟩)
      values
    refine ⟨_, ?_, filled_character filled character apart decrypted length here others⟩
    simp only [decodeColumn, decrypted, ok_bind, if_pos character, written, pure_eq_ok]
  · refine ⟨_, ?_, filled_int filled character apart decrypted⟩
    simp only [decodeColumn, decrypted, ok_bind, if_neg character, pure_eq_ok]

/-- The whole loop. -/
theorem decodeColumns_filled {done rest : List EncryptedColumnResult} {columns : Columns}
    (filled : Filled P rowCount done columns) (apart : (done ++ rest).Pairwise Apart)
    (inside : ∀ cr ∈ rest, ¬ LastPosition cr)
    (decrypts : ∀ cr ∈ rest, Decrypts P rowCount cr.ciphertextBytes) :
    ∃ columns', rest.foldlM (decodeColumn P rowCount) columns = .ok columns' ∧
      Filled P rowCount (done ++ rest) columns' := by
  induction rest generalizing done columns with
  | nil => exact ⟨columns, rfl, by rwa [List.append_nil]⟩
  | cons cr rest ih =>
    have before : ∀ other ∈ done, Apart other cr := fun other mem =>
      (List.pairwise_append.mp apart).2.2 other mem cr List.mem_cons_self
    obtain ⟨next, step, filled⟩ := decodeColumn_filled filled before
      (inside cr List.mem_cons_self) (decrypts cr List.mem_cons_self)
    rw [List.append_cons] at apart ⊢
    obtain ⟨columns', run, filled⟩ := ih filled apart
      (fun c mem => inside c (List.mem_cons_of_mem cr mem))
      fun c mem => decrypts c (List.mem_cons_of_mem cr mem)
    exact ⟨columns', by rw [List.foldlM_cons, step, ok_bind, run], filled⟩

end Filling

section Reading

variable {P : Proto1} {batch : EncryptedResultBatch} {columns : Columns}

theorem characterColumn_exists (holds : HoldsTable P batch) {cr : EncryptedColumnResult}
    (mem : cr ∈ batch.columns) (character : IsCharacter cr) :
    ∃ values, CharacterColumn P (slotCount batch) batch.columns cr.columnName
      cr.stringPosition.toNat values := by
  obtain ⟨values, decrypted⟩ := decrypts_iff.mp (holds.decrypts cr mem)
  exact ⟨values, cr, mem, character, rfl, rfl, decrypted⟩

/-- A table without gaps is the table of its string. -/
theorem stringTable_of_lookup (holds : HoldsTable P batch)
    (filled : Filled P (slotCount batch) batch.columns columns) {name : Str}
    {positions : List (List Int)} (found : columns.stringCols.lookup name = some positions) :
    StringTable P (slotCount batch) batch.columns name positions := by
  obtain ⟨nonempty, bound⟩ := filled.bounded name positions found
  have stored : ∀ position values,
      CharacterColumn P (slotCount batch) batch.columns name position values →
        positions[position]? = some values := by
    intro position values h
    obtain ⟨positions', found', here⟩ := filled.filled name position values h
    cases found.symm.trans found'
    exact here
  refine ⟨nonempty, fun position values => ⟨fun here => ?_, stored position values⟩⟩
  obtain ⟨cr, mem, character, rfl, below⟩ :=
    bound position (List.getElem?_eq_some_iff.mp here).1
  have present : ∃ values', CharacterColumn P (slotCount batch) batch.columns cr.columnName
      position values' := by
    rcases Nat.lt_or_eq_of_le below with less | same
    · obtain ⟨other, otherMem, otherCharacter, sameName, place⟩ :=
        holds.gapless cr mem character position less
      rw [← sameName, ← place]
      exact characterColumn_exists holds otherMem otherCharacter
    · rw [same]
      exact characterColumn_exists holds mem character
  obtain ⟨values', h⟩ := present
  have same := (stored position values' h).symm.trans here
  cases same
  exact h

theorem stringTable_unique {rowCount : Nat} {crs : List EncryptedColumnResult} {name : Str}
    {table table' : List (List Int)} (h : StringTable P rowCount crs name table)
    (h' : StringTable P rowCount crs name table') : table = table' := by
  refine List.ext_getElem? fun position => Option.ext fun values => ?_
  rw [h.2, h'.2]

theorem lookup_iff_stringTable (holds : HoldsTable P batch)
    (filled : Filled P (slotCount batch) batch.columns columns) {name : Str}
    {table : List (List Int)} :
    columns.stringCols.lookup name = some table ↔
      StringTable P (slotCount batch) batch.columns name table := by
  refine ⟨stringTable_of_lookup holds filled, fun h => ?_⟩
  have start : table[0]? = some (table.head h.1) := by
    rw [← List.head?_eq_getElem?, List.head?_eq_some_head]
  obtain ⟨positions, found, _⟩ := filled.filled name 0 _ ((h.2 0 _).mp start)
  rw [found, stringTable_unique (stringTable_of_lookup holds filled found) h]

/-- `decodeString` reads the text of a table of ASCII codes. -/
theorem decodeString_text {i : Nat} {table : List (List Int)}
    (codes : ∀ values ∈ table, ∃ c, values[i]? = some c ∧ 0 ≤ c ∧ c ≤ 127) :
    decodeString i table = .ok (text i table) := by
  induction table with
  | nil => rfl
  | cons values table ih =>
    obtain ⟨c, here, low, high⟩ := codes values List.mem_cons_self
    have rest := ih fun values' mem => codes values' (List.mem_cons_of_mem values mem)
    by_cases stop : c = 0
    · have ended : text i (values :: table) = [] := by simp [text, here, stop]
      simp only [decodeString, here, if_pos stop, pure_eq_ok, ended]
    · have ascii : ¬ (c < 0 ∨ 127 < c) := by omega
      have goes : text i (values :: table) = UInt8.ofNat c.toNat :: text i table := by
        simp [text, here, stop]
      simp only [decodeString, here, if_neg stop, if_neg ascii, rest, ok_bind, pure_eq_ok, goes]

theorem valueAt_toOption (i : Nat) (values : List Int) :
    (valueAt i values).toOption = values[i]? := by
  unfold valueAt
  cases values[i]? <;> rfl

/-- The row of a chosen slot. -/
theorem decodeRow_of_chosen (counted : CountedDecryption P) (holds : HoldsTable P batch)
    (filled : Filled P (slotCount batch) batch.columns columns) {mask : List Int} {i : Nat}
    (inside : i < slotCount batch) (chosen : mask[i]? = some 1) :
    ∃ r, decodeRow mask columns i = .ok (some r) ∧
      RowOf P (slotCount batch) batch.columns i r := by
  have decrypted : ∀ bytes values, decryptBytes P (slotCount batch) bytes = .ok values →
      ∃ v, values[i]? = some v := by
    intro bytes values h
    obtain ⟨ct, _, hd⟩ := decryptBytes_ok_iff.mp h
    have length := counted ct _ values hd
    exact ⟨_, List.getElem?_eq_getElem (by omega)⟩
  have readable : ∀ name table, StringTable P (slotCount batch) batch.columns name table →
      decodeString i table = .ok (text i table) := by
    intro name table h
    refine decodeString_text fun values mem => ?_
    obtain ⟨position, place⟩ := List.mem_iff_getElem?.mp mem
    have column := (h.2 position values).mp place
    obtain ⟨cr, _, _, _, _, run⟩ := id column
    obtain ⟨c, here⟩ := decrypted _ values run
    exact ⟨c, here, holds.codes name position values column c (List.mem_of_getElem? here)⟩
  obtain ⟨ints, filledInts, intsOf⟩ :=
      fillRow_ok (valueAt i) columns.cols fun name values found => by
    obtain ⟨cr, _, _, _, run⟩ := (filled.cols name values).mp found
    obtain ⟨v, here⟩ := decrypted _ values run
    exact ⟨v, by simp only [valueAt, here, pure_eq_ok]⟩
  obtain ⟨strings, filledStrings, stringsOf⟩ := fillRow_ok (decodeString i) columns.stringCols
    fun name table found => ⟨_, readable name table (stringTable_of_lookup holds filled found)⟩
  refine ⟨{ values := ints, stringValues := strings }, ?_, ?_, ?_⟩
  · simp only [decodeRow, chosen, if_true, filledInts, filledStrings, ok_bind, pure_eq_ok]
  · intro name v
    simp only [intsOf, Option.bind_eq_some_iff, filled.cols, valueAt_toOption]
  · intro name s
    simp only [stringsOf, Option.bind_eq_some_iff, lookup_iff_stringTable holds filled]
    refine exists_congr fun table => and_congr_right fun h => ?_
    rw [readable name table h]
    exact ⟨fun same => (Option.some.inj same).symm, fun same => congrArg some same.symm⟩

theorem toSize_of_holds (holds : HoldsTable P batch) :
    toSize batch.logicalRowCount = slotCount batch := by
  have count := holds.count
  have range := holds.int64
  rw [toSize, slotCount, Int.emod_eq_of_lt (by omega) (by omega)]

/-- The mask tells the chosen slots. -/
theorem decryptMask_chosen (holds : HoldsTable P batch)
    (few : batch.hasMask = false → batch.logicalRowCount < 2 ^ 60) :
    ∃ mask, decryptMask P batch = .ok mask ∧
      ∀ i < slotCount batch, mask[i]? = some 1 ↔ Chosen P batch i := by
  unfold decryptMask
  rw [toSize_of_holds holds]
  cases masked : batch.hasMask with
  | false =>
    have small : ¬ 2 ^ 60 ≤ slotCount batch := by
      have count := few masked
      rw [slotCount]
      omega
    refine ⟨List.replicate (slotCount batch) 1, if_neg small, fun i inside => ?_⟩
    refine iff_of_true ?_ ⟨inside, fun absurd => ?_⟩
    · rw [List.getElem?_replicate, if_pos inside]
    · rw [masked] at absurd
      cases absurd
  | true =>
    obtain ⟨mask, decrypted⟩ := decrypts_iff.mp (holds.mask masked)
    refine ⟨mask, decrypted, fun i inside =>
      ⟨fun one => ⟨inside, fun _ => ⟨mask, decrypted, one⟩⟩, ?_⟩⟩
    rintro ⟨_, chosen⟩
    obtain ⟨mask', decrypted', one⟩ := chosen masked
    cases decrypted.symm.trans decrypted'
    exact one

/-- A batch without a last position is rebuilt. -/
theorem decode_rebuilds (counted : CountedDecryption P) (holds : HoldsTable P batch)
    (few : batch.hasMask = false → batch.logicalRowCount < 2 ^ 60)
    (inside : ∀ cr ∈ batch.columns, ¬ LastPosition cr) :
    ∃ rows, decode P batch = .ok rows ∧ Rebuilds P batch rows := by
  obtain ⟨mask, hmask, chosen⟩ := decryptMask_chosen holds few
  obtain ⟨columns, run, filled⟩ := decodeColumns_filled filled_nil holds.apart inside holds.decrypts
  rw [List.nil_append] at filled
  have slots : List.Forall₂ (fun i j => i = j ∧ i < slotCount batch)
      (List.range (slotCount batch)) (List.range (slotCount batch)) :=
    List.forall₂_same.mpr fun i mem => ⟨rfl, List.mem_range.mp mem⟩
  obtain ⟨rs, loop, related⟩ := mapM_forall₂ (f := decodeRow mask columns)
    (S := fun r? i => if decide (mask[i]? = some 1) = true then
      ∃ r, r? = some r ∧ RowOf P (slotCount batch) batch.columns i r else r? = none)
    (fun i j same => by
      obtain ⟨rfl, bound⟩ := same
      by_cases one : mask[i]? = some 1
      · obtain ⟨r, row, rowOf⟩ := decodeRow_of_chosen counted holds filled bound one
        exact ⟨some r, row, by simp [one, rowOf]⟩
      · exact ⟨none, by simp [decodeRow, one], by simp [one]⟩) slots
  refine ⟨rs.reduceOption, ?_, (List.range (slotCount batch)).filter fun i =>
    decide (mask[i]? = some 1), ?_, fun i => ?_, Pointwise.forall₂_reduceOption related⟩
  · simp only [decode, hmask, toSize_of_holds holds, ok_bind, run, loop, pure_eq_ok]
  · exact List.pairwise_lt_range.filter _
  · rw [List.mem_filter, List.mem_range, decide_eq_true_iff]
    constructor
    · rintro ⟨bound, one⟩
      exact (chosen i bound).mp one
    · intro h
      exact ⟨h.1, (chosen i h.1).mpr h⟩

end Reading

section Orders

variable {P : Proto1} {batch : EncryptedResultBatch} {columns columns' : List EncryptedColumnResult}
  {rowCount : Nat}

theorem intColumn_perm (perm : columns.Perm columns') {name : Str} {values : List Int} :
    IntColumn P rowCount columns name values ↔ IntColumn P rowCount columns' name values := by
  simp only [IntColumn, perm.mem_iff]

theorem characterColumn_perm (perm : columns.Perm columns') {name : Str} {position : Nat}
    {values : List Int} :
    CharacterColumn P rowCount columns name position values ↔
      CharacterColumn P rowCount columns' name position values := by
  simp only [CharacterColumn, perm.mem_iff]

theorem rowOf_perm (perm : columns.Perm columns') {i : Nat} {r : ResultRow}
    (h : RowOf P rowCount columns i r) : RowOf P rowCount columns' i r := by
  constructor
  · intro name v
    simp only [h.values, intColumn_perm perm]
  · intro name s
    simp only [h.stringValues, StringTable, characterColumn_perm perm]

theorem apart_symm {a b : EncryptedColumnResult} (h : Apart a b) : Apart b a := by
  intro same
  obtain ⟨ha, hb, differ⟩ := h same.symm
  exact ⟨hb, ha, differ.symm⟩

theorem holdsTable_perm (holds : HoldsTable P batch) (perm : columns.Perm batch.columns) :
    HoldsTable P { batch with columns := columns } where
  count := holds.count
  int64 := holds.int64
  mask := holds.mask
  decrypts := fun cr mem => holds.decrypts cr (perm.mem_iff.mp mem)
  apart := (perm.pairwise_iff fun h => apart_symm h).mpr holds.apart
  gapless := fun cr mem character position below => by
    obtain ⟨other, otherMem, rest⟩ :=
      holds.gapless cr (perm.mem_iff.mp mem) character position below
    exact ⟨other, perm.mem_iff.mpr otherMem, rest⟩
  codes := fun name position values h =>
    holds.codes name position values ((characterColumn_perm perm).mp h)

/-- In every order of its columns a batch decodes to the rows it holds just when no STRING
column reaches the last 32-bit position and, without a mask, a vector of so many rows exists. -/
theorem rows_rebuilt_iff (counted : CountedDecryption P) (holds : HoldsTable P batch) :
    (∀ columns : List EncryptedColumnResult, columns.Perm batch.columns →
      ∃ rows, decode P { batch with columns := columns } = .ok rows ∧ Rebuilds P batch rows) ↔
        (∀ cr ∈ batch.columns, ¬ LastPosition cr) ∧
          (batch.hasMask = false → batch.logicalRowCount < 2 ^ 60) := by
  constructor
  · intro all
    obtain ⟨rows, run, _⟩ := all batch.columns (List.Perm.refl _)
    obtain ⟨mask, hmask, _⟩ := bind_ok_iff.mp (show decode P batch = .ok rows from run)
    have read := decryptMask_ok_iff.mp ⟨mask, hmask⟩
    refine ⟨fun cr mem last => ?_, fun masked => ?_⟩
    · have bounds : Avoids .outOfBounds (decode P batch) := fun leaves => by
        rw [show decode P batch = .ok rows from run] at leaves
        cases leaves
      obtain ⟨before, after, split⟩ := List.append_of_mem mem
      refine (decode_in_bounds_iff counted batch).mp bounds before cr after split last read ?_
      intro c within
      rw [toSize_of_holds holds]
      refine holds.decrypts c ?_
      rw [split, List.append_cons]
      exact List.mem_append_left _ within
    · have few := read.2 masked
      have count := holds.count
      rw [toSize_of_holds holds, slotCount] at few
      omega
  · rintro ⟨inside, few⟩ columns perm
    obtain ⟨rows, run, slots, increasing, chosen, related⟩ := decode_rebuilds counted
      (holdsTable_perm holds perm) few fun cr mem => inside cr (perm.mem_iff.mp mem)
    exact ⟨rows, run, slots, increasing, chosen, related.imp fun _ _ h => rowOf_perm perm h⟩

end Orders

/-- A position of a STRING column without a ciphertext. -/
def nameCharacter (position : Nat) : EncryptedColumnResult where
  columnName := str "name"
  logicalType := str "STRING"
  stringPosition := UInt32.ofNat position

/-- One row with a STRING column of a width, every character 0. -/
def emptyName (width : Nat) : EncryptedResultBatch where
  logicalRowCount := 1
  columns := (List.range width).map nameCharacter

theorem mem_emptyName {width position : Nat} (inside : position < width) :
    nameCharacter position ∈ (emptyName width).columns :=
  List.mem_map_of_mem (List.mem_range.mpr inside)

theorem nameCharacter_position {position : Nat} (small : position < 2 ^ 32) :
    (nameCharacter position).stringPosition.toNat = position := UInt32.toNat_ofNat_of_lt' small

theorem nameCharacter_last {position : Nat} (small : position < 2 ^ 32) :
    LastPosition (nameCharacter position) ↔ position = 4294967295 := by
  constructor
  · intro last
    have place := congrArg UInt32.toNat last.2
    rwa [nameCharacter_position small] at place
  · rintro rfl
    exact ⟨rfl, rfl⟩

theorem emptyName_holds {width : Nat} (positions : width ≤ 2 ^ 32) :
    HoldsTable (plainProto1 1) (emptyName width) where
  count := Int.one_nonneg
  int64 := (by decide : (1 : Int) < 2 ^ 63)
  mask := nofun
  decrypts := fun cr mem => by
    obtain ⟨position, _, rfl⟩ := List.mem_map.mp mem
    exact ⟨_, _, rfl, rfl⟩
  apart := by
    refine List.pairwise_map.mpr (List.pairwise_lt_range.imp_of_mem fun ha hb less _ => ?_)
    have small := List.mem_range.mp hb
    refine ⟨rfl, rfl, fun same => ?_⟩
    have places := congrArg UInt32.toNat same
    rw [nameCharacter_position (by omega), nameCharacter_position (by omega)] at places
    omega
  gapless := fun cr mem _ position below => by
    obtain ⟨last, inside, rfl⟩ := List.mem_map.mp mem
    have small := List.mem_range.mp inside
    rw [nameCharacter_position (by omega)] at below
    exact ⟨nameCharacter position, mem_emptyName (by omega), rfl, rfl,
      nameCharacter_position (by omega)⟩
  codes := by
    rintro name position values ⟨cr, mem, _, _, _, run⟩ v hv
    obtain ⟨last, _, rfl⟩ := List.mem_map.mp mem
    cases run
    obtain rfl := List.mem_singleton.mp hv
    exact (by decide : (0 : Int) ≤ 0 ∧ (0 : Int) ≤ 127)

/-- Two rows, of which the mask selects the second. -/
def staffBatch (columns : List EncryptedColumnResult) : EncryptedResultBatch where
  logicalRowCount := 2
  columns := columns
  selectionMaskBytes := PlainProto1.serialize ⟨[0, 1], 2⟩
  hasMask := true

/-- A letter of the names `al` and `bo`. -/
def staffLetter (position : UInt32) (codes : List Nat) : EncryptedColumnResult where
  columnName := str "name"
  logicalType := str "STRING"
  stringPosition := position
  ciphertextBytes := PlainProto1.serialize ⟨codes, 2⟩

def staffAge : EncryptedColumnResult where
  columnName := str "age"
  logicalType := str "INT64"
  ciphertextBytes := PlainProto1.serialize ⟨[40, 20], 2⟩

def staffColumns : List EncryptedColumnResult :=
  [staffLetter 0 [97, 98], staffLetter 1 [108, 111], staffAge]

theorem staff_holds : HoldsTable (plainProto1 2) (staffBatch staffColumns) where
  count := (by decide : (0 : Int) ≤ 2)
  int64 := (by decide : (2 : Int) < 2 ^ 63)
  mask _ := ⟨_, _, rfl, rfl⟩
  decrypts _ _ := ⟨_, _, rfl, rfl⟩
  apart := by decide
  gapless := by decide
  codes := by
    rintro name position values ⟨cr, mem, character, _, _, run⟩
    rcases List.mem_cons.mp mem with rfl | mem
    · cases run
      decide
    rcases List.mem_cons.mp mem with rfl | mem
    · cases run
      decide
    · obtain rfl := List.mem_singleton.mp mem
      exact absurd character (by decide)

/-- The letters come in the wrong order and behind the ages. -/
theorem staff_rebuilt :
    ∃ rows, decode (plainProto1 2)
        (staffBatch [staffAge, staffLetter 1 [108, 111], staffLetter 0 [97, 98]]) = .ok rows ∧
      Rebuilds (plainProto1 2) (staffBatch staffColumns) rows ∧
      rows.map (fun r => (r.stringValues.lookup (str "name"), r.values.lookup (str "age"))) =
        [(some (str "bo"), some 20)] := by
  have reversed : [staffAge, staffLetter 1 [108, 111], staffLetter 0 [97, 98]].Perm staffColumns :=
    List.reverse_perm staffColumns
  obtain ⟨rows, run, rebuilds⟩ := (rows_rebuilt_iff (plain_counted 2) staff_holds).mpr
    ⟨by decide, nofun⟩ _ reversed
  refine ⟨rows, run, rebuilds, ?_⟩
  have shown : (decode (plainProto1 2)
      (staffBatch [staffAge, staffLetter 1 [108, 111], staffLetter 0 [97, 98]])).map
      (fun rows => rows.map fun r =>
        (r.stringValues.lookup (str "name"), r.values.lookup (str "age"))) =
      .ok [(some (str "bo"), some 20)] := by
    decide +kernel
  rw [show decode (plainProto1 2) (staffBatch [staffAge, staffLetter 1 [108, 111],
    staffLetter 0 [97, 98]]) = .ok rows from run] at shown
  exact Except.ok.inj shown

/-- A string of 2³² positions is not rebuilt. -/
theorem widest_string_not_rebuilt :
    ¬ ∀ (P : Proto1) (batch : EncryptedResultBatch), CountedDecryption P → HoldsTable P batch →
      ∀ columns : List EncryptedColumnResult, columns.Perm batch.columns →
        ∃ rows, decode P { batch with columns := columns } = .ok rows ∧ Rebuilds P batch rows := by
  intro all
  have inside := (rows_rebuilt_iff (plain_counted 1) (emptyName_holds (le_refl (2 ^ 32)))).mp
    (all (plainProto1 1) (emptyName (2 ^ 32)) (plain_counted 1) (emptyName_holds (le_refl _)))
  exact inside.1 _ (mem_emptyName (by omega : 4294967295 < 2 ^ 32))
    ((nameCharacter_last (by omega)).mpr rfl)

end FheSql.RowReconstruction
