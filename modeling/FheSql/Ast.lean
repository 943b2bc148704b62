import FheSql.Catalog

/-!
# The SQL syntax tree

`include/proto2/ast.h` and `ast/ast.cpp`. The source keeps one record with a
kind and two child pointers; here each kind is a constructor, so that a node
has exactly the children its kind needs.
-/

namespace FheSql

open ByteText

/-- The comparison kinds of `ASTExprKind`. -/
inductive CompareKind where
  | Equal
  | NotEqual
  | GreaterThan
  | LessThan
  | GreaterEqual
  | LessEqual
  deriving DecidableEq, Repr

/-- `ASTExprKind::And` and `ASTExprKind::Or`. -/
inductive BooleanKind where
  | And
  | Or
  deriving DecidableEq, Repr

inductive ASTExpr where
  | columnRef (columnName : Str)
  | intLiteral (intValue : Int)
  | stringLiteral (stringValue : Str)
  | comparison (kind : CompareKind) (left right : ASTExpr)
  | boolean (kind : BooleanKind) (left right : ASTExpr)
  | notExpr (child : ASTExpr)
  deriving DecidableEq, Repr

def CompareKind.opStr : CompareKind → Str
  | .Equal => str " = "
  | .NotEqual => str " != "
  | .GreaterThan => str " > "
  | .LessThan => str " < "
  | .GreaterEqual => str " >= "
  | .LessEqual => str " <= "

def BooleanKind.opStr : BooleanKind → Str
  | .And => str " AND "
  | .Or => str " OR "

namespace ASTExpr

/-- The member `columnName`, empty for a node that is no column reference. -/
def columnName : ASTExpr → Str
  | columnRef name => name
  | _ => []

def toSQL : ASTExpr → Str
  | columnRef name => name
  | intLiteral v => decimalInt v
  | stringLiteral v => str "'" ++ v ++ str "'"
  | notExpr child => str "NOT(" ++ child.toSQL ++ str ")"
  | comparison kind left right => left.toSQL ++ kind.opStr ++ right.toSQL
  | boolean kind left right => str "(" ++ left.toSQL ++ kind.opStr ++ right.toSQL ++ str ")"

def isColumnRef : ASTExpr → Bool
  | columnRef _ => true
  | _ => false

def isIntLiteral : ASTExpr → Bool
  | intLiteral _ => true
  | _ => false

def isStringLiteral : ASTExpr → Bool
  | stringLiteral _ => true
  | _ => false

end ASTExpr

inductive SortDirection where
  | Ascending
  | Descending
  deriving DecidableEq, Repr

structure OrderByColumn where
  columnName : Str
  direction : SortDirection := .Ascending
  deriving DecidableEq, Repr

structure TableRef where
  tableName : Str
  aliasName : Str
  deriving DecidableEq, Repr

/-- The condition is a pointer; `none` is the null pointer. -/
structure JoinClause where
  rightTable : TableRef
  condition : Option ASTExpr
  deriving DecidableEq, Repr

/-- An empty projection list is `*`, a negative `limitCount` is no LIMIT. -/
structure SelectStatement where
  projections : List Str := []
  tableName : Str
  tableAlias : Str := []
  joins : List JoinClause := []
  whereClause : Option ASTExpr := none
  orderByColumns : List OrderByColumn := []
  limitCount : Int := -1
  deriving DecidableEq, Repr

/-- Texts with `", "` in front of every one but the first. -/
def commaSeparated : List Str → Str
  | [] => []
  | [item] => item
  | item :: items => item ++ str ", " ++ commaSeparated items

def OrderByColumn.toSQL (col : OrderByColumn) : Str :=
  col.columnName ++ if col.direction = .Descending then str " DESC" else []

/-- `none` when the condition is the null pointer, through which the source reads. -/
def JoinClause.toSQL (join : JoinClause) : Option Str := do
  let condition ← join.condition
  pure (str " JOIN " ++ join.rightTable.tableName ++
    (if join.rightTable.aliasName ≠ join.rightTable.tableName then
      str " AS " ++ join.rightTable.aliasName else []) ++
    str " ON " ++ condition.toSQL)

def SelectStatement.toSQL (stmt : SelectStatement) : Option Str := do
  let joins ← stmt.joins.mapM JoinClause.toSQL
  pure (str "SELECT " ++
    (if stmt.projections = [] then str "*" else commaSeparated stmt.projections) ++
    str " FROM " ++ stmt.tableName ++
    (if stmt.tableAlias ≠ [] ∧ stmt.tableAlias ≠ stmt.tableName then
      str " AS " ++ stmt.tableAlias else []) ++
    joins.flatten ++
    (match stmt.whereClause with
      | none => []
      | some e => str " WHERE " ++ e.toSQL) ++
    (if stmt.orderByColumns = [] then []
      else str " ORDER BY " ++ commaSeparated (stmt.orderByColumns.map OrderByColumn.toSQL)) ++
    (if 0 ≤ stmt.limitCount then str " LIMIT " ++ decimalInt stmt.limitCount else []))

end FheSql
