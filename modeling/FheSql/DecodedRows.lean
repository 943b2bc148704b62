import FheSql.Lib.Pointwise
import FheSql.ResultDecoder
import FheSql.StoredRows

/-!
# The rows a batch decodes to

A batch whose slots hold the codes of some rows, and whose mask selects some of
them, decodes to the selected rows: `decode` undoes what `StoredRows` lays out.
-/

namespace FheSql

open ByteText SqlSemantics

/-- The value a decoded row shows under a name. -/
def ResultRow.value? (r : ResultRow) (name : Str) : Option Value :=
  match r.values.lookup name with
  | some n => some (.int n)
  | none => (r.stringValues.lookup name).map .string

namespace DecodedRows

open Throwing IndicatorPoly QueryEncryptor QueryExecutor ResultDecoder StoredRows Pointwise

/-- A decoded row that has the values of a row under some names. -/
def Shows (names : List Str) (r : ResultRow) (row : Row) : Prop :=
  ∀ name ∈ names, r.value? name = some (row name)

section Conditions

variable {P : Proto1} (sem : SlotSemantics P)

/-- The result columns of a column, with the codes of the rows in their slots. -/
def Carries (rows : List Row) (part : Str × ColumnSchema) (crs : List EncryptedColumnResult) :
    Prop :=
  ∃ ct : Nat → P.EncryptedVector,
    crs = (List.range (width part.2)).map (fun position =>
      columnResult P part.1 part.2 position (ct position)) ∧
    ∀ position < width part.2, ∀ (i : Nat) row, rows[i]? = some row →
      sem.slot (ct position) i = (code (row part.1) position : Slot)

/-- A mask that selects the chosen rows; without one all rows are chosen. -/
def Selects (rows : List Row) (chosen : Row → Bool) (rb : EncryptedResultBatch) : Prop :=
  if rb.hasMask then
    ∃ mask, rb.selectionMaskBytes = P.serialize mask ∧ ∀ (i : Nat) row, rows[i]? = some row →
      sem.slot mask i = bit (chosen row = true)
  else ∀ row ∈ rows, chosen row = true

/-- A batch that carries the columns of some rows. -/
structure BatchCarries (parts : List (Str × ColumnSchema)) (chosen : Row → Bool)
    (rb : EncryptedResultBatch) (rows : List Row) : Prop where
  rowCount : rb.logicalRowCount = rows.length
  columns : ∃ crss, rb.columns = crss.flatten ∧ List.Forall₂ (Carries sem rows) parts crss
  mask : Selects sem rows chosen rb
  fitsSlots : rows.length ≤ P.slotCount
  fitsCount : rows.length < 2 ^ 60
  fits : ∀ row ∈ rows, ∀ part ∈ parts, Fits part.2 (row part.1)

/-- The columns of a batch: one column for each name, of a width the positions can
be numbered in. -/
structure PartsOk (parts : List (Str × ColumnSchema)) : Prop where
  unique : ∀ name c d, (name, c) ∈ parts → (name, d) ∈ parts → c = d
  wide : ∀ part ∈ parts, 1 ≤ width part.2
  narrow : ∀ part ∈ parts, width part.2 < 2 ^ 32

end Conditions

section Parts

variable {column? : Str → ColumnSchema → Prop} {asked : List Str}
  {parts : List (Str × ColumnSchema)}

variable (column?) in
/-- Some names with the columns they stand for. -/
def Parts (names : List Str) (parts : List (Str × ColumnSchema)) : Prop :=
  List.Forall₂ (fun name part => name = part.1 ∧ column? part.1 part.2) names parts

theorem exists_parts (known : ∀ name ∈ asked, ∃ c, column? name c) :
    ∃ parts, Parts column? asked parts := by
  induction asked with
  | nil => exact ⟨[], .nil⟩
  | cons name asked ih =>
    obtain ⟨c, hc⟩ := known name List.mem_cons_self
    obtain ⟨parts, rest⟩ := ih fun n mem => known n (List.mem_cons_of_mem name mem)
    exact ⟨(name, c) :: parts, .cons ⟨rfl, hc⟩ rest⟩

theorem Parts.names (h : Parts column? asked parts) : parts.map Prod.fst = asked := by
  induction h with
  | nil => rfl
  | cons head _ ih => rw [List.map_cons, ih, head.1]

theorem Parts.column (h : Parts column? asked parts) {part : Str × ColumnSchema}
    (mem : part ∈ parts) : part.1 ∈ asked ∧ column? part.1 part.2 := by
  induction h with
  | nil => cases mem
  | @cons name own asked parts head _ ih =>
    rcases List.mem_cons.mp mem with rfl | mem
    · exact ⟨List.mem_cons.mpr (Or.inl head.1.symm), head.2⟩
    · exact ⟨List.mem_cons_of_mem name (ih mem).1, (ih mem).2⟩

end Parts

section Decrypting

variable {P : Proto1} (sem : SlotSemantics P)

theorem toSize_natCast {n : Nat} (h : n < 2 ^ 60) : toSize (n : Int) = n := by
  rw [toSize, Int.emod_eq_of_lt (by omega) (by omega), Int.toNat_natCast]

/-- Slots that hold numbers between 0 and 128 are decrypted to these numbers. -/
theorem decryptBytes_ok (ct : P.EncryptedVector) (values : List Int)
    (fits : values.length ≤ P.slotCount) (small : ∀ v ∈ values, 0 ≤ v ∧ v ≤ 128)
    (slots : ∀ (i : Nat) v, values[i]? = some v → sem.slot ct i = (v : Slot)) :
    decryptBytes P values.length (P.serialize ct) = .ok values := by
  obtain ⟨ct', received, same⟩ := sem.deserialize ct values.length fits
  obtain ⟨plain, decrypted, length, residues⟩ := sem.decrypt ct' values.length fits
  have equal : plain = values := by
    refine List.ext_getElem length fun i hp hv => ?_
    obtain ⟨residue, low, high⟩ := residues i _ (List.getElem?_eq_getElem hp)
    have bounds := small _ (List.getElem_mem hv)
    rw [same i (by omega), slots i _ (List.getElem?_eq_getElem hv)] at residue
    exact (intCast_inj (by omega) (by omega)).mp residue
  simp only [decryptBytes, received, decrypted, fromProto1_ok, ok_bind, equal]

variable {parts : List (Str × ColumnSchema)} {chosen : Row → Bool} {rb : EncryptedResultBatch}
  {rows : List Row}

/-- The decrypted mask. -/
def maskOf (chosen : Row → Bool) (rows : List Row) : List Int :=
  rows.map fun row => if chosen row then 1 else 0

theorem decryptMask_ok (carries : BatchCarries sem parts chosen rb rows) :
    decryptMask P rb = .ok (maskOf chosen rows) := by
  have mask := carries.mask
  unfold Selects at mask
  unfold decryptMask
  rw [carries.rowCount, toSize_natCast carries.fitsCount]
  cases has : rb.hasMask with
  | false =>
    simp only [has, Bool.false_eq_true, if_false] at mask
    have ones : maskOf chosen rows = rows.map fun _ => 1 :=
      List.map_congr_left fun row mem => if_pos (mask row mem)
    rw [ones, List.map_const']
    exact if_neg (Nat.not_le.mpr carries.fitsCount)
  | true =>
    simp only [has, if_true] at mask
    obtain ⟨m, bytes, slots⟩ := mask
    have length : (maskOf chosen rows).length = rows.length := List.length_map _
    have decrypted := decryptBytes_ok sem m (maskOf chosen rows)
      (by rw [length]; exact carries.fitsSlots) ?_ ?_
    · rw [length] at decrypted
      simpa only [bytes, Bool.not_true, Bool.false_eq_true, if_false] using decrypted
    · intro v mem
      obtain ⟨row, -, rfl⟩ := List.mem_map.mp mem
      split <;> decide
    · intro i v hv
      rw [maskOf, List.getElem?_map] at hv
      obtain ⟨row, hrow, rfl⟩ := Option.map_eq_some_iff.mp hv
      rw [slots i row hrow]
      cases chosen row <;> simp [bit]

end Decrypting

section Columns

variable {P : Proto1} (sem : SlotSemantics P) {rows : List Row} {name : Str} {c : ColumnSchema}

/-- The numbers at a position of a column, row by row. -/
def codesAt (rows : List Row) (name : Str) (position : Nat) : List Int :=
  rows.map fun row => code (row name) position

/-- The numbers at every position of a column. -/
def codesOf (rows : List Row) (name : Str) (c : ColumnSchema) : List (List Int) :=
  (List.range (width c)).map (codesAt rows name)

variable (rows name c) in
theorem length_codesOf : (codesOf rows name c).length = width c := by simp [codesOf]

variable (rows name c) in
theorem codesOf_getElem? {k : Nat} (inside : k < width c) :
    (codesOf rows name c)[k]? = some (codesAt rows name k) := by
  simp [codesOf, inside]

theorem decryptBytes_codesAt {ct : P.EncryptedVector} {position : Nat}
    (fits : rows.length ≤ P.slotCount) (stored : ∀ row ∈ rows, Fits c (row name))
    (slots : ∀ (i : Nat) row, rows[i]? = some row →
      sem.slot ct i = (code (row name) position : Slot)) :
    decryptBytes P rows.length (P.serialize ct) = .ok (codesAt rows name position) := by
  have length : (codesAt rows name position).length = rows.length := List.length_map _
  have decrypted := decryptBytes_ok sem ct (codesAt rows name position)
    (by rw [length]; exact fits) ?_ ?_
  · rwa [length] at decrypted
  · intro v mem
    obtain ⟨row, hrow, rfl⟩ := List.mem_map.mp mem
    exact code_bounds (stored row hrow) position
  · intro i v hv
    rw [codesAt, List.getElem?_map] at hv
    obtain ⟨row, hrow, rfl⟩ := Option.map_eq_some_iff.mp hv
    exact slots i row hrow

/-- A position is filled in behind the ones before it, in a new vector or over an
equal older one. -/
theorem setPosition_ok {chars start : List (List Int)} (old : start = [] ∨ start = chars) {k : Nat}
    (inside : k < chars.length) (narrow : chars.length < 2 ^ 32) :
    setPosition (chars.take k ++ start.drop k) (UInt32.ofNat k) chars[k] =
      .ok (chars.take (k + 1) ++ start.drop (k + 1)) := by
  have index : (UInt32.ofNat k).toNat = k := by
    have word : k < 2 ^ 32 := by omega
    exact UInt32.toNat_ofNat_of_lt' word
  have next : (UInt32.ofNat k + 1).toNat = k + 1 := by
    rw [toNat_next (by omega), index]
  have front : (chars.take k).length = k := by
    rw [List.length_take]
    omega
  have extended : chars.take (k + 1) = chars.take k ++ [chars[k]] := by
    rw [List.take_add_one, List.getElem?_eq_getElem inside]
    rfl
  rcases old with rfl | rfl
  · simp only [setPosition, index, next, List.drop_nil, List.append_nil, front, le_refl, if_true,
      resize, extended]
    have whole : (chars.take k).take (k + 1) = chars.take k :=
      List.take_of_length_le (by omega)
    rw [whole, show k + 1 - k = 1 by omega, if_pos (by simp [front])]
    simp [List.set_append_right, front]
  · have long : ¬ start.length ≤ k := by omega
    simp only [setPosition, index, List.take_append_drop, if_neg long, if_pos inside,
      List.set_getElem_self, pure_eq_ok]

/-- Columns that differ in the positions of one string column. -/
structure StringColumn (columns columns' : Columns) (name : Str) (positions : List (List Int)) :
    Prop where
  cols : columns'.cols = columns.cols
  others : ∀ other, other ≠ name →
    columns'.stringCols.lookup other = columns.stringCols.lookup other
  own : (columns'.stringCols.lookup name).getD [] = positions

theorem decode_positions {ct : Nat → P.EncryptedVector} (string : c.type = .STRING)
    (fits : rows.length ≤ P.slotCount) (stored : ∀ row ∈ rows, Fits c (row name))
    (narrow : width c < 2 ^ 32)
    (slots : ∀ position < width c, ∀ (i : Nat) row, rows[i]? = some row →
      sem.slot (ct position) i = (code (row name) position : Slot))
    (columns : Columns) {start : List (List Int)}
    (before : (columns.stringCols.lookup name).getD [] = start)
    (old : start = [] ∨ start = codesOf rows name c) {k : Nat} (inside : k ≤ width c) :
    ∃ columns', ((List.range k).map fun position =>
        columnResult P name c position (ct position)).foldlM (decodeColumn P rows.length) columns =
        .ok columns' ∧
      StringColumn columns columns' name ((codesOf rows name c).take k ++ start.drop k) := by
  induction k with
  | zero => exact ⟨columns, rfl, rfl, fun _ _ => rfl, by simp [before]⟩
  | succ k ih =>
    obtain ⟨mid, run, same⟩ := ih (by omega)
    have decrypted := decryptBytes_codesAt sem fits stored (slots k (by omega))
    have length := length_codesOf rows name c
    have position := setPosition_ok old (k := k) (by omega) (by omega)
    have here := codesOf_getElem? rows name c (by omega : k < width c)
    rw [List.getElem?_eq_getElem (by omega)] at here
    rw [Option.some.inj here] at position
    refine ⟨⟨mid.cols, mid.stringCols.insert name
      ((codesOf rows name c).take (k + 1) ++ start.drop (k + 1))⟩, ?_, same.cols, ?_, ?_⟩
    · rw [List.range_succ, List.map_append, List.foldlM_append, run]
      simp only [ok_bind, List.map_singleton, List.foldlM_cons, List.foldlM_nil, decodeColumn,
        columnResult, logicalTypeName, if_pos string, if_true, decrypted, same.own, position,
        pure_eq_ok]
    · intro other differ
      rw [← same.others other differ]
      exact AList.lookup_insert_ne differ
    · simp [AList.lookup_insert]

/-- What the maps hold once some columns are decoded. -/
structure Decoded (rows : List Row) (done : List (Str × ColumnSchema)) (columns : Columns) :
    Prop where
  cols : ∀ name values, columns.cols.lookup name = some values ↔
    ∃ c, (name, c) ∈ done ∧ c.type ≠ .STRING ∧ values = codesAt rows name 0
  stringCols : ∀ name positions, columns.stringCols.lookup name = some positions ↔
    ∃ c, (name, c) ∈ done ∧ c.type = .STRING ∧ positions = codesOf rows name c

variable {parts done : List (Str × ColumnSchema)}

theorem decoded_nil : Decoded rows [] {} :=
  ⟨fun _ _ => ⟨nofun, fun ⟨_, mem, _⟩ => (List.not_mem_nil mem).elim⟩,
    fun _ _ => ⟨nofun, fun ⟨_, mem, _⟩ => (List.not_mem_nil mem).elim⟩⟩

/-- The columns of done parts, seen from a name. -/
theorem mem_done_append {other : Str} {d : ColumnSchema} :
    (other, d) ∈ done ++ [(name, c)] ↔ (other, d) ∈ done ∨ (other = name ∧ d = c) := by
  simp

theorem decode_integer {ct : P.EncryptedVector} (integer : c.type ≠ .STRING)
    (fits : rows.length ≤ P.slotCount) (stored : ∀ row ∈ rows, Fits c (row name))
    (slots : ∀ (i : Nat) row, rows[i]? = some row →
      sem.slot ct i = (code (row name) 0 : Slot))
    {columns : Columns} (decoded : Decoded rows done columns) :
    ∃ columns', decodeColumn P rows.length columns (columnResult P name c 0 ct) = .ok columns' ∧
      Decoded rows (done ++ [(name, c)]) columns' := by
  have decrypted := decryptBytes_codesAt sem fits stored slots
  have named : str "INT64" ≠ str "STRING" := by decide
  refine ⟨⟨columns.cols.insert name (codesAt rows name 0), columns.stringCols⟩, ?_, ?_, ?_⟩
  · simp only [decodeColumn, columnResult, logicalTypeName, if_neg integer, decrypted, ok_bind,
      if_neg named, pure_eq_ok]
  · intro other values
    simp only [mem_done_append]
    by_cases same : other = name
    · subst same
      rw [AList.lookup_insert, Option.some.injEq]
      constructor
      · rintro rfl
        exact ⟨c, Or.inr ⟨rfl, rfl⟩, integer, rfl⟩
      · rintro ⟨_, _, _, rfl⟩
        rfl
    · rw [AList.lookup_insert_ne same, decoded.cols]
      simp only [same, false_and, or_false]
  · intro other positions
    simp only [decoded.stringCols, mem_done_append]
    refine exists_congr fun d => ⟨fun h => ⟨Or.inl h.1, h.2⟩, fun h => ⟨?_, h.2⟩⟩
    rcases h.1 with mem | ⟨-, rfl⟩
    · exact mem
    · exact (integer h.2.1).elim

theorem decode_string {ct : Nat → P.EncryptedVector} (string : c.type = .STRING)
    (unique : ∀ d, (name, d) ∈ done → d = c) (wide : 1 ≤ width c)
    (fits : rows.length ≤ P.slotCount) (stored : ∀ row ∈ rows, Fits c (row name))
    (narrow : width c < 2 ^ 32)
    (slots : ∀ position < width c, ∀ (i : Nat) row, rows[i]? = some row →
      sem.slot (ct position) i = (code (row name) position : Slot))
    {columns : Columns} (decoded : Decoded rows done columns) :
    ∃ columns', ((List.range (width c)).map fun position =>
        columnResult P name c position (ct position)).foldlM (decodeColumn P rows.length) columns =
        .ok columns' ∧ Decoded rows (done ++ [(name, c)]) columns' := by
  have length := length_codesOf rows name c
  have old : (columns.stringCols.lookup name).getD [] = [] ∨
      (columns.stringCols.lookup name).getD [] = codesOf rows name c := by
    cases found : columns.stringCols.lookup name with
    | none => exact Or.inl rfl
    | some positions =>
      obtain ⟨d, mem, _, rfl⟩ := (decoded.stringCols name positions).mp found
      rw [unique d mem]
      exact Or.inr rfl
  obtain ⟨columns', run, same⟩ :=
    decode_positions sem string fits stored narrow slots columns rfl old (le_refl _)
  have whole : (columns'.stringCols.lookup name).getD [] = codesOf rows name c := by
    rw [same.own, List.take_of_length_le (by omega), List.drop_of_length_le, List.append_nil]
    rcases old with old | old
    · simp [old]
    · rw [old, length]
  have own : columns'.stringCols.lookup name = some (codesOf rows name c) := by
    cases found : columns'.stringCols.lookup name with
    | none =>
      rw [found, Option.getD_none] at whole
      rw [← whole] at length
      simp only [List.length_nil] at length
      omega
    | some positions => rw [← whole, found, Option.getD_some]
  refine ⟨columns', run, fun other values => ?_, fun other positions => ?_⟩
  · rw [same.cols, decoded.cols]
    simp only [mem_done_append]
    refine exists_congr fun d => ⟨fun h => ⟨Or.inl h.1, h.2⟩, fun h => ⟨?_, h.2⟩⟩
    rcases h.1 with mem | ⟨-, rfl⟩
    · exact mem
    · exact (h.2.1 string).elim
  · simp only [mem_done_append]
    by_cases named : other = name
    · subst named
      rw [own, Option.some.injEq]
      constructor
      · rintro rfl
        exact ⟨c, Or.inr ⟨rfl, rfl⟩, string, rfl⟩
      · rintro ⟨d, mem | ⟨-, rfl⟩, _, rfl⟩
        · rw [unique d mem]
        · rfl
    · rw [same.others other named, decoded.stringCols]
      simp only [named, false_and, or_false]

/-- The result columns of one column, decoded behind the ones before it. -/
theorem decode_part (ok : PartsOk (done ++ [(name, c)])) {crs : List EncryptedColumnResult}
    (carries : Carries sem rows (name, c) crs) (fits : rows.length ≤ P.slotCount)
    (stored : ∀ row ∈ rows, Fits c (row name)) {columns : Columns}
    (decoded : Decoded rows done columns) :
    ∃ columns', crs.foldlM (decodeColumn P rows.length) columns = .ok columns' ∧
      Decoded rows (done ++ [(name, c)]) columns' := by
  obtain ⟨ct, rfl, slots⟩ := carries
  have mem : (name, c) ∈ done ++ [(name, c)] := mem_done_append.mpr (Or.inr ⟨rfl, rfl⟩)
  by_cases string : c.type = .STRING
  · refine decode_string sem string (fun d hd => ?_) (ok.wide _ mem) fits stored (ok.narrow _ mem)
      slots decoded
    exact ok.unique name d c (mem_done_append.mpr (Or.inl hd)) mem
  · have single : width c = 1 := if_neg string
    obtain ⟨columns', step, same⟩ :=
      decode_integer sem string fits stored (slots 0 (by simp only; omega)) decoded
    refine ⟨columns', ?_, same⟩
    rw [single]
    simp only [List.range_one, List.map_singleton, List.foldlM_cons, List.foldlM_nil, step,
      ok_bind, pure_eq_ok]

theorem decode_parts {rest : List (Str × ColumnSchema)} {crss : List (List EncryptedColumnResult)}
    (ok : PartsOk (done ++ rest)) (carries : List.Forall₂ (Carries sem rows) rest crss)
    (fits : rows.length ≤ P.slotCount)
    (stored : ∀ row ∈ rows, ∀ part ∈ rest, Fits part.2 (row part.1)) {columns : Columns}
    (decoded : Decoded rows done columns) :
    ∃ columns', crss.flatten.foldlM (decodeColumn P rows.length) columns = .ok columns' ∧
      Decoded rows (done ++ rest) columns' := by
  induction carries generalizing done columns with
  | nil => exact ⟨columns, rfl, by rwa [List.append_nil]⟩
  | @cons part crs rest crss head _ ih =>
    have regroup : done ++ part :: rest = done ++ [part] ++ rest := by simp
    rw [regroup] at ok ⊢
    have first : PartsOk (done ++ [part]) :=
      ⟨fun name c d hc hd => ok.unique name c d (List.mem_append_left _ hc)
        (List.mem_append_left _ hd), fun p hp => ok.wide p (List.mem_append_left _ hp),
        fun p hp => ok.narrow p (List.mem_append_left _ hp)⟩
    obtain ⟨mid, step, same⟩ := decode_part sem first head fits
      (fun row mem => stored row mem part List.mem_cons_self) decoded
    obtain ⟨columns', run, all⟩ := ih ok
      (fun row mem p hp => stored row mem p (List.mem_cons_of_mem _ hp)) same
    exact ⟨columns', by rw [List.flatten_cons, List.foldlM_append, step, ok_bind, run], all⟩

end Columns

section Rows

variable {P : Proto1} (sem : SlotSemantics P) {rows : List Row}
  {parts : List (Str × ColumnSchema)} {chosen : Row → Bool}

/-- The loop of `fillRow`, from a row that is partly filled. -/
theorem fillEntries_ok {V W : Type} {f : V → Except Exn W}
    {entries : List (Sigma fun _ : Str => V)} (nodup : entries.NodupKeys)
    (works : ∀ col ∈ entries, ∃ w, f col.2 = .ok w) (start : StringMap W) :
    ∃ row, entries.foldlM (fun row col => do
        let value ← f col.2
        pure (row.insert col.1 value)) start = .ok row ∧
      ∀ name, row.lookup name =
        ((entries.dlookup name).bind fun v => (f v).toOption).or (start.lookup name) := by
  induction entries generalizing start with
  | nil => exact ⟨start, rfl, fun name => rfl⟩
  | cons col entries ih =>
    obtain ⟨fresh, nodup⟩ := List.nodupKeys_cons.mp nodup
    obtain ⟨w, hw⟩ := works col List.mem_cons_self
    obtain ⟨row, run, found⟩ := ih nodup (fun c hc => works c (List.mem_cons_of_mem _ hc))
      (start.insert col.1 w)
    refine ⟨row, ?_, fun name => ?_⟩
    · simp only [List.foldlM_cons, hw, ok_bind, pure_eq_ok]
      exact run
    · rw [found]
      by_cases own : name = col.1
      · subst own
        have here : (List.dlookup col.1 (col :: entries)) = some col.2 := List.dlookup_cons_eq _ _ _
        rw [List.dlookup_eq_none.mpr fresh, here, AList.lookup_insert, Option.bind_some, hw]
        rfl
      · rw [List.dlookup_cons_ne _ _ own, AList.lookup_insert_ne own]

/-- A filled row has for each column the value made of it. -/
theorem fillRow_ok {V W : Type} (f : V → Except Exn W) (columns : StringMap V)
    (works : ∀ name v, columns.lookup name = some v → ∃ w, f v = .ok w) :
    ∃ row, fillRow f columns = .ok row ∧
      ∀ name, row.lookup name = (columns.lookup name).bind fun v => (f v).toOption := by
  obtain ⟨row, run, found⟩ := fillEntries_ok columns.nodupKeys
    (fun col mem => works col.1 col.2 (List.mem_dlookup columns.nodupKeys mem)) ∅
  refine ⟨row, run, fun name => ?_⟩
  rw [found, AList.lookup_empty, Option.or_none]
  rfl

/-- The characters of a string, up to its end or its last position. -/
theorem decodeString_ok {i : Nat} {s : Str} {positions : List (List Int)}
    (codes : ∀ (position : Nat) chars, positions[position]? = some chars →
      chars[i]? = some (characterCode s position))
    (short : s.length ≤ positions.length) (ascii : ∀ b ∈ s, 1 ≤ b ∧ b ≤ 127) :
    decodeString i positions = .ok s := by
  induction positions generalizing s with
  | nil =>
    rw [List.length_nil, Nat.le_zero, List.length_eq_zero_iff] at short
    rw [short]
    rfl
  | cons chars positions ih =>
    have here := codes 0 chars rfl
    cases s with
    | nil => simp [decodeString, here, characterCode]
    | cons b s =>
      have bounds := ascii b List.mem_cons_self
      have low := UInt8.le_iff_toNat_le.mp bounds.1
      have high := UInt8.le_iff_toNat_le.mp bounds.2
      rw [UInt8.toNat_one] at low
      rw [show (127 : UInt8).toNat = 127 from rfl] at high
      have value : chars[i]? = some (b.toNat : Int) := here
      have rest := ih (s := s) (fun position chars' found => codes (position + 1) chars' found)
        (by simpa using short) fun c mem => ascii c (List.mem_cons_of_mem b mem)
      have nonzero : ¬ (b.toNat : Int) = 0 := by omega
      have inRange : ¬ ((b.toNat : Int) < 0 ∨ 127 < (b.toNat : Int)) := by omega
      simp only [decodeString, value, if_neg nonzero, if_neg inRange, rest, ok_bind, pure_eq_ok,
        Int.toNat_natCast, UInt8.ofNat_toNat]

theorem codesAt_getElem? {name : Str} {position i : Nat} {row : Row} (h : rows[i]? = some row) :
    (codesAt rows name position)[i]? = some (code (row name) position) := by
  rw [codesAt, List.getElem?_map, h, Option.map_some]

theorem decodeString_codesOf {name : Str} {c : ColumnSchema} {i : Nat} {row : Row} {s : Str}
    (h : rows[i]? = some row) (value : row name = .string s) (fits : Fits c (.string s)) :
    decodeString i (codesOf rows name c) = .ok s := by
  cases fits with
  | string string short ascii =>
    refine decodeString_ok (fun position chars found => ?_) ?_ ascii
    · have inside := (List.getElem?_eq_some_iff.mp found).1
      rw [length_codesOf] at inside
      rw [codesOf_getElem? _ _ _ inside] at found
      cases found
      rw [codesAt_getElem? h, value, code]
    · rwa [length_codesOf, width, if_pos string]

/-- The maps of decoded columns fill a row with a value under each name. -/
theorem fillRows_ok {columns : Columns} (decoded : Decoded rows parts columns)
    (stored : ∀ row ∈ rows, ∀ part ∈ parts, Fits part.2 (row part.1)) {i : Nat} {row : Row}
    (h : rows[i]? = some row) :
    ∃ ints strings, fillRow (valueAt i) columns.cols = .ok ints ∧
      fillRow (decodeString i) columns.stringCols = .ok strings ∧
      (∀ name, ints.lookup name =
        (columns.cols.lookup name).bind fun v => (valueAt i v).toOption) ∧
      ∀ name, strings.lookup name =
        (columns.stringCols.lookup name).bind fun v => (decodeString i v).toOption := by
  have mem := List.mem_of_getElem? h
  obtain ⟨ints, filledInts, lookupInt⟩ := fillRow_ok (valueAt i) columns.cols (by
    intro name values found
    obtain ⟨c, _, _, rfl⟩ := (decoded.cols name values).mp found
    exact ⟨_, by rw [valueAt, codesAt_getElem? h]; rfl⟩)
  obtain ⟨strings, filledStrings, lookupString⟩ := fillRow_ok (decodeString i)
    columns.stringCols (by
      intro name positions found
      obtain ⟨c, hc, string, rfl⟩ := (decoded.stringCols name positions).mp found
      have fits := stored row mem _ hc
      obtain ⟨s, value, _⟩ := fits.string_of_type string
      rw [value] at fits
      exact ⟨s, decodeString_codesOf h value fits⟩)
  exact ⟨ints, strings, filledInts, filledStrings, lookupInt, lookupString⟩

theorem value?_ok {columns : Columns} (ok : PartsOk parts) (decoded : Decoded rows parts columns)
    {r : ResultRow} {i : Nat} {row : Row} (h : rows[i]? = some row)
    (ints : ∀ name, r.values.lookup name =
      (columns.cols.lookup name).bind fun v => (valueAt i v).toOption)
    (strings : ∀ name, r.stringValues.lookup name =
      (columns.stringCols.lookup name).bind fun v => (decodeString i v).toOption)
    {name : Str} {c : ColumnSchema} (mem : (name, c) ∈ parts) (fits : Fits c (row name)) :
    r.value? name = some (row name) := by
  cases value : row name with
  | int n =>
    rw [value] at fits
    cases fits with
    | int integer _ _ =>
      have found := (decoded.cols name _).mpr ⟨c, mem, by simp [integer], rfl⟩
      have own : r.values.lookup name = some n := by
        rw [ints, found, Option.bind_some, valueAt, codesAt_getElem? h, value]
        rfl
      simp only [ResultRow.value?, own]
  | string s =>
    rw [value] at fits
    have string : c.type = .STRING := by
      cases fits
      assumption
    have found := (decoded.stringCols name _).mpr ⟨c, mem, string, rfl⟩
    have none : r.values.lookup name = none := by
      rw [ints]
      cases other : columns.cols.lookup name with
      | none => rfl
      | some values =>
        obtain ⟨d, hd, integer, _⟩ := (decoded.cols name values).mp other
        rw [ok.unique name d c hd mem] at integer
        exact (integer string).elim
    have own : r.stringValues.lookup name = some s := by
      rw [strings, found, Option.bind_some, decodeString_codesOf h value fits]
      rfl
    simp only [ResultRow.value?, none, own, Option.map_some]

variable (chosen) in
/-- The row of a slot, when it is chosen. -/
theorem decodeRow_ok {columns : Columns} (ok : PartsOk parts)
    (stored : ∀ row ∈ rows, ∀ part ∈ parts, Fits part.2 (row part.1))
    (decoded : Decoded rows parts columns) {i : Nat} {row : Row} (h : rows[i]? = some row) :
    ∃ r?, decodeRow (maskOf chosen rows) columns i = .ok r? ∧
      if chosen row then ∃ r, r? = some r ∧ Shows (parts.map Prod.fst) r row else r? = none := by
  have mask : (maskOf chosen rows)[i]? = some (if chosen row then 1 else 0) := by
    rw [maskOf, List.getElem?_map, h, Option.map_some]
  cases pass : chosen row with
  | false =>
    rw [pass] at mask
    refine ⟨none, ?_, by simp⟩
    simp only [decodeRow, mask, Bool.false_eq_true, if_false, Option.some.injEq, zero_ne_one,
      pure_eq_ok]
  | true =>
    rw [pass, if_pos rfl] at mask
    obtain ⟨ints, strings, filledInts, filledStrings, lookupInt, lookupString⟩ :=
      fillRows_ok decoded stored h
    refine ⟨some { values := ints, stringValues := strings }, ?_, ?_⟩
    · simp only [decodeRow, mask, if_true, filledInts, filledStrings, ok_bind, pure_eq_ok]
    · refine (if_pos rfl).mpr ⟨_, rfl, fun name mem => ?_⟩
      obtain ⟨⟨name, c⟩, part, rfl⟩ := List.mem_map.mp mem
      exact value?_ok ok decoded h lookupInt lookupString part
        (stored row (List.mem_of_getElem? h) _ part)

/-- A batch decodes to the rows its mask selects. -/
theorem decode_ok {rb : EncryptedResultBatch} (ok : PartsOk parts)
    (carries : BatchCarries sem parts chosen rb rows) :
    ∃ decoded, decode P rb = .ok decoded ∧
      List.Forall₂ (Shows (parts.map Prod.fst)) decoded (rows.filter chosen) := by
  obtain ⟨crss, columnsEq, columns⟩ := carries.columns
  have mask := decryptMask_ok sem carries
  have all : PartsOk ([] ++ parts) := ok
  obtain ⟨maps, run, decoded⟩ :=
    decode_parts sem all columns carries.fitsSlots carries.fits decoded_nil
  obtain ⟨rs, loop, related⟩ := mapM_forall₂ (fun i row h =>
    decodeRow_ok chosen ok carries.fits decoded h) (forall₂_range rows)
  refine ⟨rs.reduceOption, ?_, forall₂_reduceOption related⟩
  simp only [decode, mask, carries.rowCount, toSize_natCast carries.fitsCount, columnsEq, ok_bind,
    run, loop, pure_eq_ok]

/-- The rows of all batches, in their order. -/
theorem decodeAll_ok {batches : List EncryptedResultBatch} {rowss : List (List Row)}
    (ok : PartsOk parts) (carries : List.Forall₂ (BatchCarries sem parts chosen) batches rowss) :
    ∃ decoded, decodeAll P batches = .ok decoded ∧
      List.Forall₂ (Shows (parts.map Prod.fst)) decoded (rowss.flatten.filter chosen) := by
  obtain ⟨decodeds, loop, related⟩ := mapM_forall₂
    (S := fun decoded rows =>
      List.Forall₂ (Shows (parts.map Prod.fst)) decoded (rows.filter chosen))
    (fun rb rows h => decode_ok sem ok h) carries
  refine ⟨decodeds.flatten, by simp only [decodeAll, loop, ok_bind, pure_eq_ok], ?_⟩
  rw [List.filter_flatten]
  exact List.rel_flatten (List.forall₂_map_right_iff.mpr related)

end Rows

section Ordering

variable {names : List Str}

theorem value?_int {r : ResultRow} {name : Str} {n : Int} (h : r.value? name = some (.int n)) :
    r.values.lookup name = some n := by
  unfold ResultRow.value? at h
  cases found : r.values.lookup name with
  | none => cases hs : r.stringValues.lookup name <;> simp [found, hs] at h
  | some m =>
    simp only [found, Option.some.injEq, Value.int.injEq] at h
    rw [h]

/-- The comparator of the decoder is the order of the rows it shows. -/
theorem comesBefore_eq {orderBy : List OrderByColumn} (shown : ∀ o ∈ orderBy, o.columnName ∈ names)
    {r r' : ResultRow} {row row' : Row} (h : Shows names r row) (h' : Shows names r' row')
    (int : ∀ o ∈ orderBy, ∃ n n', row o.columnName = .int n ∧ row' o.columnName = .int n') :
    comesBefore r r' orderBy = before row row' orderBy := by
  induction orderBy with
  | nil => rfl
  | cons o rest ih =>
    obtain ⟨n, n', hn, hn'⟩ := int o List.mem_cons_self
    have mem := shown o List.mem_cons_self
    have own := value?_int ((h _ mem).trans (congrArg some hn))
    have own' := value?_int ((h' _ mem).trans (congrArg some hn'))
    have rest := ih (fun o ho => shown o (List.mem_cons_of_mem _ ho))
      fun o ho => int o (List.mem_cons_of_mem _ ho)
    by_cases same : n = n'
    · simp [comesBefore, before, own, own', hn, hn', same, rest]
    · cases hd : o.direction <;>
        simp [comesBefore, before, own, own', hn, hn', same, hd, Value.lt]

/-- Decoded rows are sorted and limited as the rows they show. -/
theorem applySortAndLimit_ok {orderBy : List OrderByColumn} {decoded : List ResultRow}
    {rows : List Row} (shows : List.Forall₂ (Shows names) decoded rows)
    (shown : ∀ o ∈ orderBy, o.columnName ∈ names)
    (int : ∀ row ∈ rows, ∀ o ∈ orderBy, ∃ n, row o.columnName = .int n) (limit : Int) :
    List.Forall₂ (Shows names) (applySortAndLimit decoded orderBy limit)
      (limited limit (sorted orderBy rows)) := by
  have sortedRows : List.Forall₂ (Shows names)
      (if orderBy = [] then decoded else decoded.mergeSort fun a b => !comesBefore b a orderBy)
      (sorted orderBy rows) := by
    by_cases empty : orderBy = []
    · have unsorted : sorted orderBy rows = rows := by
        subst empty
        exact List.mergeSort_of_pairwise (List.pairwise_of_forall fun _ _ => rfl)
      rwa [if_pos empty, unsorted]
    · rw [if_neg empty]
      have both : List.Forall₂ (fun r row => Shows names r row ∧
          ∀ o ∈ orderBy, ∃ n, row o.columnName = .int n) decoded rows :=
        forall₂_and_mem shows int
      refine (forall₂_mergeSort both fun a b a' b' h h' => ?_).imp fun _ _ h => h.1
      rw [comesBefore_eq shown h'.1 h.1 fun o ho => ?_]
      obtain ⟨n, hn⟩ := h.2 o ho
      obtain ⟨n', hn'⟩ := h'.2 o ho
      exact ⟨n', n, hn', hn⟩
  have length := sortedRows.length_eq
  unfold applySortAndLimit limited
  by_cases positive : 0 ≤ limit
  · rw [if_pos positive]
    by_cases less : limit.toNat < (sorted orderBy rows).length
    · rw [if_pos ⟨positive, by rw [length]; exact less⟩]
      exact List.forall₂_take _ sortedRows
    · rw [if_neg (fun h => less (by rw [← length]; exact h.2)),
        List.take_of_length_le (by omega)]
      exact sortedRows
  · rw [if_neg positive, if_neg (fun h => positive h.1)]
    exact sortedRows

end Ordering

end DecodedRows

end FheSql
