import FheSql.Ast

/-!
# What a query means

The plaintext semantics of the supported SQL, with no encryption in sight: a
row is a value for each column reference, WHERE is a predicate on rows, and a
query filters, sorts stably and limits the rows of its table.
-/

namespace FheSql.SqlSemantics

open ByteText

inductive Value where
  | int (n : Int)
  | string (s : Str)
  deriving DecidableEq, Repr

/-- The value of every column reference. -/
abbrev Row := Str → Value

/-- The order of the integers; strings are not ordered. -/
def Value.lt : Value → Value → Bool
  | .int x, .int y => decide (x < y)
  | _, _ => false

def compares (kind : CompareKind) (a b : Value) : Bool :=
  match kind with
  | .Equal => a == b
  | .NotEqual => a != b
  | .GreaterThan => b.lt a
  | .LessThan => a.lt b
  | .GreaterEqual => b.lt a || a == b
  | .LessEqual => a.lt b || a == b

/-- The value of an operand of a comparison; nothing else is one. -/
def operand (row : Row) : ASTExpr → Value
  | .columnRef name => row name
  | .intLiteral v => .int v
  | .stringLiteral s => .string s
  | _ => .int 0

/-- A row satisfies a condition. -/
def holds (row : Row) : ASTExpr → Bool
  | .comparison kind l r => compares kind (operand row l) (operand row r)
  | .boolean .And l r => holds row l && holds row r
  | .boolean .Or l r => holds row l || holds row r
  | .notExpr e => !holds row e
  | _ => false

/-- No WHERE clause accepts every row. -/
def satisfies (whereClause : Option ASTExpr) (row : Row) : Bool :=
  match whereClause with
  | none => true
  | some e => holds row e

/-- A row stands before another by the first ORDER BY column they differ in. -/
def before (a b : Row) : List OrderByColumn → Bool
  | [] => false
  | orderCol :: rest =>
    if a orderCol.columnName = b orderCol.columnName then before a b rest
    else
      match orderCol.direction with
      | .Ascending => (a orderCol.columnName).lt (b orderCol.columnName)
      | .Descending => (b orderCol.columnName).lt (a orderCol.columnName)

/-- Sorted stably: rows that no column tells apart keep their order. -/
def sorted (orderBy : List OrderByColumn) (rows : List Row) : List Row :=
  rows.mergeSort fun a b => !before b a orderBy

def limited {α : Type} (limit : Int) (rows : List α) : List α :=
  if 0 ≤ limit then rows.take limit.toNat else rows

/-- The answer of a query over one table, from the table's rows in storage order. -/
def select (stmt : SelectStatement) (rows : List Row) : List Row :=
  limited stmt.limitCount (sorted stmt.orderByColumns (rows.filter (satisfies stmt.whereClause)))

/-- The row of a pair: references under the left alias are read from the left
row, all others from the right one. -/
def pairRow (leftAlias : Str) (left right : Row) : Row := fun reference =>
  if qualifierOr leftAlias reference = leftAlias then left (bareName reference)
  else right (bareName reference)

/-- The inner join on an equality of two columns, left row by left row. -/
def innerJoin (leftAlias leftColumn rightColumn : Str) (left right : List Row) : List Row :=
  left.flatMap fun l =>
    (right.filter fun r => l leftColumn = r rightColumn).map (pairRow leftAlias l)

end FheSql.SqlSemantics
