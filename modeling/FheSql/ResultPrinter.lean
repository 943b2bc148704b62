import FheSql.ResultDecoder
import Mathlib.Algebra.BigOperators.Group.List.Basic
import Mathlib.Algebra.Order.BigOperators.Group.List
import Mathlib.Algebra.GroupWithZero.Nat
import Mathlib.Algebra.Order.Ring.Nat
import Mathlib.Data.List.DropRight

/-!
# Printing a result

`printResult` of `client/client_main.cpp`: a header, a rule and one line for each row,
every cell padded to the width of its column. A row without a value shows `NULL`, which
no width accounts for, so the lines match only where it fits. Where they do, the cells
can be read back.
-/

namespace FheSql.ResultPrinter

open ByteText

/-- The integer of a cell, else its string, else `NULL`. -/
def cellText (row : ResultRow) (col : Str) : Str :=
  match row.values.lookup col with
  | some n => decimalInt n
  | none => (row.stringValues.lookup col).getD (str "NULL")

/-- One turn of the loop over the rows: both maps are looked at. -/
def widen (col : Str) (width : Nat) (row : ResultRow) : Nat :=
  let width := match row.values.lookup col with
    | some n => max width (decimalInt n).length
    | none => width
  match row.stringValues.lookup col with
  | some s => max width s.length
  | none => width

def columnWidth (rows : List ResultRow) (col : Str) : Nat :=
  rows.foldl (widen col) col.length

/-- The width `std::setw` is given: an `int`, and no padding for a negative one. -/
def setw (width : Nat) : Nat := if width % 2 ^ 32 < 2 ^ 31 then width % 2 ^ 32 else 0

/-- `std::setw(width) << std::left << text`. -/
def padded (width : Nat) (text : Str) : Str :=
  text ++ List.replicate (setw width - text.length) 32

def headerLine (cols : List Str) (rows : List ResultRow) : Str :=
  (str " | ").intercalate (cols.map fun col => padded (columnWidth rows col) col)

def ruleLine (cols : List Str) (rows : List ResultRow) : Str :=
  (str "-+-").intercalate (cols.map fun col => List.replicate (columnWidth rows col) 45)

def rowLine (cols : List Str) (rows : List ResultRow) (row : ResultRow) : Str :=
  (str " | ").intercalate (cols.map fun col => padded (columnWidth rows col) (cellText row col))

def footer (rows : List ResultRow) : Str :=
  str "(" ++ decimal rows.length ++ str " row" ++ (if rows.length = 1 then [] else str "s") ++
    str ")"

def printResult (cols : List Str) (rows : List ResultRow) : Str :=
  if rows = [] then str "(0 rows)\n"
  else
    headerLine cols rows ++ str "\n" ++ ruleLine cols rows ++ str "\n" ++
      rows.flatMap (fun row => rowLine cols rows row ++ str "\n") ++ footer rows ++ str "\n"

example : printResult [str "id"] [{ values := (∅ : StringMap Int).insert (str "id") 7 }] =
    str "id\n--\n7 \n(1 row)\n" := by
  decide

/-- A row without a value of a column. -/
def Missing (row : ResultRow) (col : Str) : Prop :=
  row.values.lookup col = none ∧ row.stringValues.lookup col = none

theorem le_widen (col : Str) (width : Nat) (row : ResultRow) : width ≤ widen col width row := by
  unfold widen
  cases row.values.lookup col <;> cases row.stringValues.lookup col <;> simp only [] <;> omega

theorem cellText_le_widen {row : ResultRow} {col : Str} (here : ¬ Missing row col) (width : Nat) :
    (cellText row col).length ≤ widen col width row := by
  unfold cellText widen
  cases value : row.values.lookup col with
  | some n => cases row.stringValues.lookup col <;> simp only [] <;> omega
  | none =>
    cases text : row.stringValues.lookup col with
    | some s =>
      simp only [Option.getD_some]
      omega
    | none => exact (here ⟨value, text⟩).elim

theorem le_foldl_widen (col : Str) (rows : List ResultRow) (width : Nat) :
    width ≤ rows.foldl (widen col) width := by
  induction rows generalizing width with
  | nil => exact Nat.le_refl width
  | cons row rows ih => exact (le_widen col width row).trans (ih _)

/-- A column is wide enough for its name. -/
theorem name_le_width (rows : List ResultRow) (col : Str) : col.length ≤ columnWidth rows col :=
  le_foldl_widen col rows _

/-- And for the values of its rows. -/
theorem cell_le_width {rows : List ResultRow} {row : ResultRow} {col : Str} (mem : row ∈ rows)
    (here : ¬ Missing row col) : (cellText row col).length ≤ columnWidth rows col := by
  unfold columnWidth
  generalize col.length = width
  induction rows generalizing width with
  | nil => cases mem
  | cons first rows ih =>
    rcases List.mem_cons.mp mem with rfl | mem
    · exact (cellText_le_widen here width).trans (le_foldl_widen col rows _)
    · exact ih mem _

theorem cellText_missing {row : ResultRow} {col : Str} (missing : Missing row col) :
    cellText row col = str "NULL" := by
  rw [cellText, missing.1, missing.2]
  rfl

theorem setw_small {width : Nat} (small : width < 2 ^ 31) : setw width = width := by
  unfold setw
  rw [Nat.mod_eq_of_lt (by omega), if_pos small]

theorem length_padded {width : Nat} (small : width < 2 ^ 31) (text : Str) :
    (padded width text).length = max width text.length := by
  simp only [padded, setw_small small, List.length_append, List.length_replicate]
  omega

theorem length_intercalate (separator : Str) (cells : List Str) :
    (separator.intercalate cells).length =
      (cells.map List.length).sum + separator.length * (cells.length - 1) := by
  induction cells with
  | nil => rfl
  | cons cell cells ih =>
    cases cells with
    | nil => simp [List.intercalate_singleton]
    | cons next cells =>
      rw [List.intercalate_cons_cons, List.length_append, List.length_append, ih]
      simp only [List.map_cons, List.sum_cons, List.length_cons, Nat.add_sub_cancel, Nat.mul_add]
      omega

theorem sum_eq_iff {f g : Str → Nat} {l : List Str} (below : ∀ x ∈ l, f x ≤ g x) :
    (l.map g).sum = (l.map f).sum ↔ ∀ x ∈ l, g x = f x := by
  induction l with
  | nil => simp
  | cons x l ih =>
    have tail := ih fun y mem => below y (List.mem_cons_of_mem x mem)
    have rest : (l.map f).sum ≤ (l.map g).sum :=
      List.sum_le_sum fun y mem => below y (List.mem_cons_of_mem x mem)
    have head := below x List.mem_cons_self
    rw [List.map_cons, List.map_cons, List.sum_cons, List.sum_cons, List.forall_mem_cons, ← tail]
    omega

section Lines

variable {cols : List Str} {rows : List ResultRow}
  (small : ∀ col ∈ cols, columnWidth rows col < 2 ^ 31)

include small in
theorem length_rowLine (row : ResultRow) : (rowLine cols rows row).length =
    (cols.map fun col => max (columnWidth rows col) (cellText row col).length).sum +
      3 * (cols.length - 1) := by
  have lengths :
      cols.map (List.length ∘ fun col => padded (columnWidth rows col) (cellText row col)) =
        cols.map fun col => max (columnWidth rows col) (cellText row col).length :=
    List.map_congr_left fun col mem => length_padded (small col mem) _
  rw [rowLine, length_intercalate, List.map_map, List.length_map, lengths]
  rfl

theorem length_ruleLine : (ruleLine cols rows).length =
    (cols.map (columnWidth rows)).sum + 3 * (cols.length - 1) := by
  have lengths :
      cols.map (List.length ∘ fun col => List.replicate (columnWidth rows col) (45 : UInt8)) =
        cols.map (columnWidth rows) :=
    List.map_congr_left fun col _ => List.length_replicate
  rw [ruleLine, length_intercalate, List.map_map, List.length_map, lengths]
  rfl

include small in
theorem length_headerLine : (headerLine cols rows).length = (ruleLine cols rows).length := by
  have lengths : cols.map (List.length ∘ fun col => padded (columnWidth rows col) col) =
      cols.map (columnWidth rows) :=
    List.map_congr_left fun col mem =>
      (length_padded (small col mem) col).trans (max_eq_left (name_le_width rows col))
  rw [headerLine, length_intercalate, List.map_map, List.length_map, lengths, length_ruleLine]
  rfl

include small in
theorem rowLines_match_iff : (∀ row ∈ rows, (rowLine cols rows row).length =
      (ruleLine cols rows).length) ↔
    ∀ row ∈ rows, ∀ col ∈ cols, Missing row col → 4 ≤ columnWidth rows col := by
  refine forall₂_congr fun row mem => ?_
  rw [length_rowLine small, length_ruleLine, Nat.add_right_cancel_iff,
    sum_eq_iff fun col _ => le_max_left _ _]
  refine forall₂_congr fun col _ => ?_
  rw [max_eq_left_iff]
  constructor
  · intro fits missing
    rw [cellText_missing missing] at fits
    exact fits
  · intro room
    by_cases missing : Missing row col
    · rw [cellText_missing missing]
      exact room missing
    · exact cell_le_width mem missing

include small in
/-- The lines of a table are all as long as its rule exactly when every `NULL` has room:
the widths do not count it. -/
theorem printed_aligned_iff :
    (∀ line ∈ headerLine cols rows :: rows.map (rowLine cols rows),
      line.length = (ruleLine cols rows).length) ↔
    ∀ row ∈ rows, ∀ col ∈ cols, Missing row col → 4 ≤ columnWidth rows col := by
  rw [List.forall_mem_cons, List.forall_mem_map, ← rowLines_match_iff small]
  exact and_iff_right (length_headerLine small)

end Lines

/-- A row without a value, under a name that leaves room for `NULL` and under one that does
not. -/
theorem short_null_not_aligned :
    (∀ line ∈ headerLine [str "name"] [{}] :: [{}].map (rowLine [str "name"] [{}]),
      line.length = (ruleLine [str "name"] [{}]).length) ∧
    ¬ ∀ line ∈ headerLine [str "id"] [{}] :: [{}].map (rowLine [str "id"] [{}]),
      line.length = (ruleLine [str "id"] [{}]).length := by
  have wide : columnWidth [{}] (str "name") = 4 := by decide +kernel
  have narrow : columnWidth [{}] (str "id") = 2 := by decide +kernel
  have small : ∀ col ∈ [str "name"], columnWidth [{}] col < 2 ^ 31 := by decide +kernel
  have small' : ∀ col ∈ [str "id"], columnWidth [{}] col < 2 ^ 31 := by decide +kernel
  constructor
  · refine (printed_aligned_iff small).mpr fun row _ col named _ => ?_
    rw [List.mem_singleton.mp named, wide]
  · intro aligned
    have room := (printed_aligned_iff small').mp aligned {} List.mem_cons_self (str "id")
      List.mem_cons_self ⟨rfl, rfl⟩
    omega

/-- The widths of the columns: with a dash more at either end, the rule is cut at its
crosses into pieces that are all two dashes too long. -/
def ruleWidths (rule : Str) : List Nat :=
  ((45 :: rule ++ [45]).splitOn 43).map fun piece : Str => piece.length - 2

/-- The cells of a line, without the blanks behind them. -/
def cutCells : List Nat → Str → List Str
  | [], _ => []
  | width :: widths, line =>
    (line.take width).rdropWhile (· == 32) :: cutCells widths (line.drop (width + 3))

/-- The names and the cells of a printed table. -/
def readTable (text : Str) : Option (List Str × List (List Str)) :=
  match text.splitOn 10 with
  | header :: rule :: rest =>
    let widths := ruleWidths rule
    some (cutCells widths header, rest.dropLast.dropLast.map (cutCells widths))
  | _ => none

/-- A text on one line that does not end in a blank. -/
def Plain (text : Str) : Prop := 10 ∉ text ∧ text.getLast? ≠ some 32

theorem digit_apart {n : Nat} {c : UInt8} (mem : c ∈ decimal n) : c ≠ 10 ∧ c ≠ 32 := by
  have range := (digit_of_mem_decimal mem).1
  constructor
  · rintro rfl
    exact absurd range (by decide)
  · rintro rfl
    exact absurd range (by decide)

theorem plain_decimalInt (n : Int) : Plain (decimalInt n) := by
  have digits : ∀ c ∈ decimal n.natAbs, c ≠ 10 ∧ c ≠ 32 := fun c => digit_apart
  have nonempty : decimal n.natAbs ≠ [] := by
    rw [decimal, ne_eq, List.map_eq_nil_iff]
    exact Nat.toDigits_ne_nil
  have plain : Plain (decimal n.natAbs) := by
    refine ⟨fun mem => (digits 10 mem).1 rfl, fun last => ?_⟩
    exact (digits 32 (List.mem_of_getLast? last)).2 rfl
  unfold decimalInt
  by_cases negative : n < 0
  · rw [if_pos negative]
    refine ⟨fun mem => ?_, ?_⟩
    · rcases List.mem_append.mp mem with sign | mem
      · cases List.mem_singleton.mp sign
      · exact plain.1 mem
    · rw [List.getLast?_append_of_ne_nil _ nonempty]
      exact plain.2
  · rw [if_neg negative]
    exact plain

/-- Names and strings that a reader can tell from the layout. -/
structure Readable (cols : List Str) (rows : List ResultRow) : Prop where
  names : ∀ col ∈ cols, Plain col
  strings : ∀ row ∈ rows, ∀ col ∈ cols, ∀ s, row.stringValues.lookup col = some s → Plain s

theorem plain_cell {cols : List Str} {rows : List ResultRow} (readable : Readable cols rows)
    {row : ResultRow} (mem : row ∈ rows) {col : Str} (listed : col ∈ cols) :
    Plain (cellText row col) := by
  unfold cellText
  cases row.values.lookup col with
  | some n => exact plain_decimalInt n
  | none =>
    cases text : row.stringValues.lookup col with
    | some s => exact readable.strings row mem col listed s text
    | none =>
      unfold Plain
      decide

theorem mem_padded {width : Nat} {text : Str} {c : UInt8} (mem : c ∈ padded width text) :
    c ∈ text ∨ c = 32 := by
  rcases List.mem_append.mp mem with mem | mem
  · exact Or.inl mem
  · exact Or.inr (List.eq_of_mem_replicate mem)

theorem mem_intercalate {separator : Str} {cells : List Str} {c : UInt8}
    (mem : c ∈ separator.intercalate cells) : c ∈ separator ∨ ∃ cell ∈ cells, c ∈ cell := by
  induction cells with
  | nil => cases mem
  | cons cell cells ih =>
    cases cells with
    | nil =>
      rw [List.intercalate_singleton] at mem
      exact Or.inr ⟨cell, List.mem_cons_self, mem⟩
    | cons next cells =>
      rw [List.intercalate_cons_cons, List.mem_append, List.mem_append] at mem
      rcases mem with (mem | mem) | mem
      · exact Or.inr ⟨cell, List.mem_cons_self, mem⟩
      · exact Or.inl mem
      · refine (ih mem).imp_right fun ⟨other, listed, mem⟩ => ?_
        exact ⟨other, List.mem_cons_of_mem cell listed, mem⟩

/-- Padding is all that is cut off a padded text. -/
theorem trim_padded {width : Nat} (small : width < 2 ^ 31) {text : Str} (plain : Plain text)
    (fits : text.length ≤ width) (rest : Str) :
    ((padded width text ++ rest).take width).rdropWhile (· == 32) = text ∧
      (padded width text ++ rest).drop (width + 3) = rest.drop 3 := by
  have length : (padded width text).length = width := by
    rw [length_padded small, max_eq_left fits]
  constructor
  · rw [List.take_append_of_le_length length.ge, List.take_of_length_le length.le, padded]
    generalize setw width - text.length = count
    induction count with
    | zero =>
      rw [List.replicate_zero, List.append_nil, List.rdropWhile_eq_self_iff]
      intro nonempty blank
      refine plain.2 ?_
      rw [List.getLast?_eq_some_getLast nonempty, eq_of_beq blank]
    | succ count ih =>
      rw [List.replicate_succ', ← List.append_assoc, List.rdropWhile_concat_pos _ _ _ (by rfl)]
      exact ih
  · rw [List.drop_append, length, List.drop_of_length_le (by omega), List.nil_append]
    exact congrArg rest.drop (by omega)

theorem cutCells_line {width : Str → Nat} {text : Str → Str} {cols : List Str}
    (small : ∀ col ∈ cols, width col < 2 ^ 31) (plain : ∀ col ∈ cols, Plain (text col))
    (fits : ∀ col ∈ cols, (text col).length ≤ width col) :
    cutCells (cols.map width)
      ((str " | ").intercalate (cols.map fun col => padded (width col) (text col))) =
        cols.map text := by
  induction cols with
  | nil => rfl
  | cons col cols ih =>
    have tail := ih (fun c mem => small c (.tail _ mem)) (fun c mem => plain c (.tail _ mem))
      fun c mem => fits c (.tail _ mem)
    have head := fun rest => trim_padded (small col List.mem_cons_self)
      (plain col List.mem_cons_self) (fits col List.mem_cons_self) rest
    cases cols with
    | nil =>
      have alone := (head []).1
      rw [List.append_nil] at alone
      simp only [List.map_cons, List.map_nil, List.intercalate_singleton, cutCells, alone]
    | cons next cols =>
      rw [List.map_cons, List.map_cons, List.map_cons, List.map_cons, List.intercalate_cons_cons,
        List.append_assoc, cutCells, (head _).1, (head _).2]
      exact congrArg (text col :: ·) tail

theorem ruleWidths_rule {cols : List Str} (some : cols ≠ []) (width : Str → Nat) :
    ruleWidths ((str "-+-").intercalate (cols.map fun col => List.replicate (width col) 45)) =
      cols.map width := by
  have pieces :
      45 :: (str "-+-").intercalate (cols.map fun col => List.replicate (width col) 45) ++ [45] =
        [43].intercalate (cols.map fun col => 45 :: List.replicate (width col) 45 ++ [45]) := by
    induction cols with
    | nil => exact (some rfl).elim
    | cons col cols ih =>
      cases cols with
      | nil => simp only [List.map_cons, List.map_nil, List.intercalate_singleton]
      | cons next cols =>
        have tail := ih (List.cons_ne_nil next cols)
        simp only [List.map_cons, List.intercalate_cons_cons] at tail ⊢
        have cross : str "-+-" = [45, 43, 45] := by decide
        rw [← tail, cross]
        simp
  have uncrossed :
      ∀ piece ∈ cols.map fun col => 45 :: List.replicate (width col) (45 : UInt8) ++ [45],
        (43 : UInt8) ∉ piece := by
    intro piece mem
    obtain ⟨col, _, rfl⟩ := List.mem_map.mp mem
    simp
  have lengths : ∀ col ∈ cols, (45 :: List.replicate (width col) (45 : UInt8) ++ [45]).length - 2 =
      width col := by
    intro col _
    simp
  rw [ruleWidths, pieces, List.splitOn_intercalate 43 uncrossed (by simpa using some), List.map_map]
  exact List.map_congr_left lengths

theorem lines_text (ls : List Str) : ls.flatMap (· ++ [10]) = [10].intercalate (ls ++ [[]]) := by
  induction ls with
  | nil => rfl
  | cons l ls ih =>
    cases ls with
    | nil => simp [List.intercalate_cons_cons, List.intercalate_singleton]
    | cons next ls =>
      rw [List.flatMap_cons, ih]
      exact List.intercalate_cons_cons.symm

/-- The lines of a table that has rows. -/
def tableLines (cols : List Str) (rows : List ResultRow) : List Str :=
  headerLine cols rows :: ruleLine cols rows :: (rows.map (rowLine cols rows) ++ [footer rows])

theorem printResult_lines {rows : List ResultRow} (nonempty : rows ≠ []) (cols : List Str) :
    printResult cols rows = (tableLines cols rows).flatMap (· ++ [10]) := by
  have newline : str "\n" = [10] := by decide
  rw [printResult, if_neg nonempty, newline]
  simp only [tableLines, List.flatMap_cons, List.flatMap_append, List.flatMap_map, List.flatMap_nil,
    List.append_nil, List.append_assoc]

theorem newline_lines {cols : List Str} {rows : List ResultRow} (readable : Readable cols rows) :
    ∀ l ∈ tableLines cols rows, (10 : UInt8) ∉ l := by
  have separators : (10 : UInt8) ∉ str " | " ∧ (10 : UInt8) ∉ str "-+-" := by decide
  have padding : ∀ {width : Nat} {text : Str}, Plain text → (10 : UInt8) ∉ padded width text := by
    intro width text plain mem
    rcases mem_padded mem with mem | blank
    · exact plain.1 mem
    · cases blank
  intro l mem newline
  simp only [tableLines, List.mem_cons, List.mem_append, List.mem_map, List.not_mem_nil,
    or_false] at mem
  rcases mem with rfl | rfl | ⟨row, listed, rfl⟩ | rfl
  · rcases mem_intercalate newline with mem | ⟨cell, mem, newline⟩
    · exact separators.1 mem
    · obtain ⟨col, known, rfl⟩ := List.mem_map.mp mem
      exact padding (readable.names col known) newline
  · rcases mem_intercalate newline with mem | ⟨cell, mem, newline⟩
    · exact separators.2 mem
    · obtain ⟨col, _, rfl⟩ := List.mem_map.mp mem
      cases List.eq_of_mem_replicate newline
  · rcases mem_intercalate newline with mem | ⟨cell, mem, newline⟩
    · exact separators.1 mem
    · obtain ⟨col, known, rfl⟩ := List.mem_map.mp mem
      exact padding (plain_cell readable listed known) newline
  · have digits : (10 : UInt8) ∉ decimal rows.length := fun mem => (digit_apart mem).1 rfl
    have words : (10 : UInt8) ∉ str "(" ∧ (10 : UInt8) ∉ str " row" ∧ (10 : UInt8) ∉ str "s" ∧
        (10 : UInt8) ∉ str ")" := by decide
    unfold footer at newline
    simp only [List.mem_append] at newline
    rcases newline with (((mem | mem) | mem) | mem) | mem
    · exact words.1 mem
    · exact digits mem
    · exact words.2.1 mem
    · by_cases one : rows.length = 1
      · rw [if_pos one] at mem
        cases mem
      · rw [if_neg one] at mem
        exact words.2.2.1 mem
    · exact words.2.2.2 mem

/-- Where every `NULL` has room, a printed table shows the names of its columns and the
texts of all its cells: they can be read back from the bytes alone. -/
theorem printed_reads_back {cols : List Str} {rows : List ResultRow} (some : cols ≠ [])
    (nonempty : rows ≠ []) (small : ∀ col ∈ cols, columnWidth rows col < 2 ^ 31)
    (readable : Readable cols rows)
    (room : ∀ row ∈ rows, ∀ col ∈ cols, Missing row col → 4 ≤ columnWidth rows col) :
    readTable (printResult cols rows) =
      Option.some (cols, rows.map fun row => cols.map (cellText row)) := by
  have fits : ∀ row ∈ rows, ∀ col ∈ cols, (cellText row col).length ≤ columnWidth rows col := by
    intro row mem col listed
    by_cases missing : Missing row col
    · rw [cellText_missing missing]
      exact room row mem col listed missing
    · exact cell_le_width mem missing
  have pieces : (printResult cols rows).splitOn 10 = tableLines cols rows ++ [[]] := by
    rw [printResult_lines nonempty, lines_text]
    refine List.splitOn_intercalate 10 (fun l mem => ?_) (by simp)
    rcases List.mem_append.mp mem with mem | mem
    · exact newline_lines readable l mem
    · rw [List.mem_singleton.mp mem]
      exact List.not_mem_nil
  have header := @cutCells_line (columnWidth rows) id cols small readable.names
    fun col _ => name_le_width rows col
  have body : ∀ row ∈ rows, cutCells (cols.map (columnWidth rows)) (rowLine cols rows row) =
      cols.map (cellText row) := fun row mem =>
    cutCells_line small (fun col => plain_cell readable mem) (fits row mem)
  have rest : (rows.map (rowLine cols rows) ++ [footer rows] ++ [[]]).dropLast.dropLast =
      rows.map (rowLine cols rows) := by
    rw [List.dropLast_concat, List.dropLast_concat]
  rw [readTable, pieces]
  simp only [tableLines, List.cons_append, rest, ruleLine, ruleWidths_rule some, headerLine]
  rw [List.map_map]
  refine congrArg Option.some (Prod.ext ?_ (List.map_congr_left body))
  rw [List.map_id] at header
  exact header

/-- A row with both values and one with none. -/
def twoRows : List ResultRow :=
  [{ values := (∅ : StringMap Int).insert (str "years") (-7)
     stringValues := (∅ : StringMap Str).insert (str "name") (str "al") }, {}]

theorem two_rows_read_back : readTable (printResult [str "name", str "years"] twoRows) =
    some ([str "name", str "years"], [[str "al", str "-7"], [str "NULL", str "NULL"]]) := by
  have widths : ∀ col ∈ [str "name", str "years"], 4 ≤ columnWidth twoRows col ∧
      columnWidth twoRows col < 2 ^ 31 := by decide +kernel
  have strings : ∀ row ∈ twoRows, ∀ col ∈ [str "name", str "years"],
      row.stringValues.lookup col = none ∨ row.stringValues.lookup col = some (str "al") := by
    decide +kernel
  have cells : twoRows.map (fun row => [str "name", str "years"].map (cellText row)) =
      [[str "al", str "-7"], [str "NULL", str "NULL"]] := by decide +kernel
  rw [← cells]
  refine printed_reads_back (List.cons_ne_nil _ _) (List.cons_ne_nil _ _)
    (fun col mem => (widths col mem).2) ⟨?_, fun row mem col listed s found => ?_⟩
    fun row _ col mem _ => (widths col mem).1
  · unfold Plain
    decide
  · rcases strings row mem col listed with none | known
    · rw [none] at found
      cases found
    · rw [known] at found
      cases found
      unfold Plain
      decide

end FheSql.ResultPrinter
