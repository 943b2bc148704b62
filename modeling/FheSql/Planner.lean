import FheSql.Ast

/-!
# Logical and physical planners

`include/proto2/planner.h` and `planner/planner.cpp`. A plan keeps the first
JOIN clause only; scan columns are bare names, projected columns keep the form
they have in the statement.
-/

namespace FheSql

open ByteText Throwing

/-- The Scan fields of `LogicalNode`. -/
structure ScanNode where
  tableName : Str
  tableAlias : Str
  joinedTableName : Str := []
  joinedTableAlias : Str := []
  joinLeftColumn : Str := []
  joinRightColumn : Str := []
  hasJoin : Bool := false
  deriving DecidableEq, Repr

inductive LogicalNode where
  | scan (node : ScanNode)
  | filter (predicate : ASTExpr) (child : LogicalNode)
  | project (columns : List Str) (child : LogicalNode)
  deriving DecidableEq, Repr

structure PhysicalPlan where
  tableName : Str
  tableAlias : Str
  joinedTableName : Str
  joinedTableAlias : Str
  joinLeftColumn : Str
  joinRightColumn : Str
  hasJoin : Bool
  scanColumns : List Str
  projectColumns : List Str
  hasFilter : Bool
  deriving DecidableEq, Repr

/-- `if (std::find(...) == end) push_back`. -/
def pushUnique (cols : List Str) (c : Str) : List Str :=
  if c ∈ cols then cols else cols ++ [c]

namespace LogicalPlanner

def scanOf (stmt : SelectStatement) : Except Exn ScanNode :=
  match stmt.joins.head? with
  | none => pure { tableName := stmt.tableName, tableAlias := stmt.tableAlias }
  | some join =>
    match join.condition with
    | some (.comparison .Equal left right) =>
      pure
        { tableName := stmt.tableName
          tableAlias := stmt.tableAlias
          hasJoin := true
          joinedTableName := join.rightTable.tableName
          joinedTableAlias := join.rightTable.aliasName
          joinLeftColumn := left.columnName
          joinRightColumn := right.columnName }
    | _ => throw (.runtimeError (str "Only equality JOINs are supported"))

/-- The projection, star expanded and with the ORDER BY columns appended. -/
def projectColumns (stmt : SelectStatement) (schema : TableSchema) : List Str :=
  let columns := if stmt.projections = [] then schema.columns.map (·.name) else stmt.projections
  (stmt.orderByColumns.map (·.columnName)).foldl pushUnique columns

def plan (stmt : SelectStatement) (schema : TableSchema) : Except Exn LogicalNode := do
  let scan ← scanOf stmt
  let filterOrScan := match stmt.whereClause with
    | some e => LogicalNode.filter e (.scan scan)
    | none => .scan scan
  pure (.project (projectColumns stmt schema) filterOrScan)

end LogicalPlanner

/-- Collect the bare names of all column references, without repetition. -/
def collectColumns : ASTExpr → List Str → List Str
  | .columnRef name, cols => pushUnique cols (bareName name)
  | .intLiteral _, cols => cols
  | .stringLiteral _, cols => cols
  | .comparison _ left right, cols => collectColumns right (collectColumns left cols)
  | .boolean _ left right, cols => collectColumns right (collectColumns left cols)
  | .notExpr child, cols => collectColumns child cols

namespace PhysicalPlanner

/-- `hasJoin`, a dot in the name, and the joined table's alias before it. -/
def namesJoinedTable (hasJoin : Bool) (joinedTableAlias c : Str) : Bool :=
  match findDot c with
  | some d => hasJoin && c.take d == joinedTableAlias
  | none => false

/-- One step of the loop that adds the projected columns to the scan. -/
def addProjected (node : ScanNode) (scanColumns : List Str) (c : Str) : List Str :=
  if namesJoinedTable node.hasJoin node.joinedTableAlias c then scanColumns
  else pushUnique scanColumns (bareName c)

def planScan (columns : List Str) (tableAlias : Str) (hasFilter : Bool)
    (predicateColumns : List Str) (node : ScanNode) : PhysicalPlan where
  tableName := node.tableName
  tableAlias := tableAlias
  joinedTableName := node.joinedTableName
  joinedTableAlias := node.joinedTableAlias
  joinLeftColumn := node.joinLeftColumn
  joinRightColumn := node.joinRightColumn
  hasJoin := node.hasJoin
  scanColumns := columns.foldl (addProjected node) predicateColumns
  projectColumns := columns
  hasFilter := hasFilter

def plan (logical : LogicalNode) : Except Exn PhysicalPlan :=
  match logical with
  | .project columns child =>
    match child with
    | .scan node => pure (planScan columns node.tableAlias false [] node)
    | .filter predicate (.scan node) =>
      pure (planScan columns node.tableAlias true (collectColumns predicate []) node)
    | _ => throw (.runtimeError (str "PhysicalPlanner: expected Scan"))
  | _ => throw (.runtimeError (str "PhysicalPlanner: expected Project at root"))

end PhysicalPlanner

end FheSql
