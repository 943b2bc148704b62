import FheSql.Ast

/-!
# The semantic analyzer

`semantic/semantic.cpp`. The statement-level resolver works on a map from
aliases to tables; the WHERE clause is checked by `validateExpr` and
`validateComparison`, which look names up again by rules of their own.
-/

namespace FheSql

open ByteText Throwing

namespace SemanticAnalyzer

/-- The `scopes` map: the FROM table under its alias, then each join's table
under its own alias, a repeated alias replacing the earlier entry. -/
def addJoinScope (cat : Catalog) (scopes : StringMap TableSchema) (join : JoinClause) :
    Except Exn (StringMap TableSchema) := do
  if !cat.hasTable join.rightTable.tableName then
    throw (.semanticError (str "Unknown table '" ++ join.rightTable.tableName ++ str "'"))
  let t ← cat.getTable join.rightTable.tableName
  pure (scopes.insert join.rightTable.aliasName t)

def scopesOf (cat : Catalog) (stmt : SelectStatement) (schema : TableSchema) :
    Except Exn (StringMap TableSchema) :=
  let fromName := if stmt.tableAlias = [] then stmt.tableName else stmt.tableAlias
  stmt.joins.foldlM (addJoinScope cat) ((∅ : StringMap TableSchema).insert fromName schema)

/-- One step of the search for an unqualified name through the scopes. -/
def resolveStep (ref : Str) (found : Option ColumnSchema) (candidate : TableSchema) :
    Except Exn (Option ColumnSchema) :=
  if candidate.hasColumn ref then do
    if found.isSome then
      throw (.semanticError (str "Ambiguous column '" ++ ref ++ str "'"))
    let c ← candidate.column ref
    pure (some c)
  else
    pure found

/-- The lambda `resolve` of `analyze`. -/
def resolve (scopes : StringMap TableSchema) (ref : Str) : Except Exn ColumnSchema :=
  match findDot ref with
  | some d =>
    match scopes.lookup (ref.take d) with
    | none =>
      throw (.semanticError (str "Unknown qualified column '" ++ ref ++ str "'"))
    | some t =>
      if !t.hasColumn (ref.drop (d + 1)) then
        throw (.semanticError (str "Unknown qualified column '" ++ ref ++ str "'"))
      else
        t.column (ref.drop (d + 1))
  | none => do
    let found ← (scopes.entries.map (·.2)).foldlM (resolveStep ref) none
    match found with
    | none => throw (.semanticError (str "Unknown column '" ++ ref ++ str "'"))
    | some c => pure c

/-- The lambda `resolve` of `validateComparison`. -/
def resolveInComparison (cat : Catalog) (stmt : SelectStatement) (ref : Str) :
    Except Exn ColumnSchema :=
  match findDot ref with
  | some d =>
    if ref.take d = stmt.tableAlias ∨ (stmt.tableAlias = [] ∧ ref.take d = stmt.tableName) then do
      let t ← cat.getTable stmt.tableName
      t.column (ref.drop (d + 1))
    else
      match stmt.joins.find? fun join => ref.take d == join.rightTable.aliasName with
      | some join => do
        let t ← cat.getTable join.rightTable.tableName
        t.column (ref.drop (d + 1))
      | none =>
        throw (.semanticError (str "Unknown qualified column '" ++ ref ++ str "'"))
  | none => do
    let t ← cat.getTable stmt.tableName
    if !t.hasColumn ref then
      throw (.semanticError (str "Unknown column '" ++ ref ++ str "'"))
    t.column ref

/-- The lambda `checkNumeric`. -/
def checkNumeric (cat : Catalog) (stmt : SelectStatement) (colName : Str) : Except Exn Unit := do
  let cs ← resolveInComparison cat stmt colName
  if cs.type ≠ .INT64 then
    throw (.semanticError (str "Column '" ++ colName ++
      str "' is not numeric; cannot use comparison operator"))

/-- The check of a literal against the column on the other side. -/
def checkLiteralType (cat : Catalog) (stmt : SelectStatement) (colName : Str)
    (literal : ASTExpr) : Except Exn Unit := do
  let column ← resolveInComparison cat stmt colName
  if (literal.isIntLiteral ∧ column.type ≠ .INT64) ∨
      (literal.isStringLiteral ∧ column.type ≠ .STRING) then
    throw (.semanticError (str "Literal type does not match column '" ++ colName ++ str "'"))

def CompareKind.isOrdering : CompareKind → Bool
  | .GreaterThan | .LessThan | .GreaterEqual | .LessEqual => true
  | .Equal | .NotEqual => false

/-- The member `stringValue`, empty for a node that is no string literal. -/
def stringValue : ASTExpr → Str
  | .stringLiteral v => v
  | _ => []

def validateComparison (cat : Catalog) (stmt : SelectStatement) (kind : CompareKind)
    (l r : ASTExpr) : Except Exn Unit := do
  let lCol := l.isColumnRef
  let rCol := r.isColumnRef
  let lLit := l.isIntLiteral
  let rLit := r.isIntLiteral
  let lString := l.isStringLiteral
  let rString := r.isStringLiteral
  if !((lCol && (rLit || rString)) || ((lLit || lString) && rCol) || (lCol && rCol)) then
    throw (.semanticError (str "Comparison must be between a column and a literal " ++
      str "or two columns: " ++ (ASTExpr.comparison kind l r).toSQL))
  if lCol then discard (resolveInComparison cat stmt l.columnName)
  if rCol then discard (resolveInComparison cat stmt r.columnName)
  if lCol && (rLit || rString) then checkLiteralType cat stmt l.columnName r
  if rCol && (lLit || lString) then checkLiteralType cat stmt r.columnName l
  if CompareKind.isOrdering kind then
    if lCol then checkNumeric cat stmt l.columnName
    if rCol then checkNumeric cat stmt r.columnName
    if lString || rString then
      throw (.semanticError (str "Ordering comparisons are only supported for INT64 columns"))
  if lString || rString then
    if kind ≠ .Equal ∧ kind ≠ .NotEqual then
      throw (.semanticError (str "STRING columns support only = and !="))
    let colName := if lCol then l.columnName else r.columnName
    let column ← resolveInComparison cat stmt colName
    if column.type ≠ .STRING then
      throw (.semanticError (str "String literal compared with non-STRING column '" ++
        colName ++ str "'"))
    let literal := if lString then stringValue l else stringValue r
    if column.maxLength = 0 ∨ literal.length > column.maxLength then
      throw (.semanticError (str "String literal for column '" ++ colName ++
        str "' exceeds maxLength"))

/-- The `ColumnRef` case of `validateExpr`: some table of the statement has the
name; a qualified name is not looked at. -/
def validateColumnRef (cat : Catalog) (stmt : SelectStatement) (name : Str) :
    Except Exn Unit := do
  if findDot name = none then
    let t ← cat.getTable stmt.tableName
    let found ← stmt.joins.foldlM (fun found join => do
      let t ← cat.getTable join.rightTable.tableName
      pure (found || t.hasColumn name)) (t.hasColumn name)
    if !found then
      throw (.semanticError (str "Unknown column '" ++ name ++ str "'"))

def validateExpr (cat : Catalog) (stmt : SelectStatement) : ASTExpr → Except Exn Unit
  | .columnRef name => validateColumnRef cat stmt name
  | .intLiteral _ => pure ()
  | .stringLiteral _ => pure ()
  | .comparison kind left right => validateComparison cat stmt kind left right
  | .boolean _ left right => do
    validateExpr cat stmt left
    validateExpr cat stmt right
  | .notExpr child => validateExpr cat stmt child

/-- `if (stmt.whereClause) validateExpr(...)`. -/
def validateWhere (cat : Catalog) (stmt : SelectStatement) : Except Exn Unit :=
  match stmt.whereClause with
  | some e => validateExpr cat stmt e
  | none => pure ()

/-- The loop body of `analyze` over the JOIN clauses. -/
def validateJoin (scopes : StringMap TableSchema) (join : JoinClause) : Except Exn Unit :=
  match join.condition with
  | some (.comparison .Equal (.columnRef left) (.columnRef right)) => do
    let lcs ← resolve scopes left
    let rcs ← resolve scopes right
    if lcs.type ≠ rcs.type then
      throw (.semanticError (str "JOIN columns must have compatible types"))
    if findDot left = none ∨ findDot right = none then
      throw (.semanticError (str "JOIN columns must be qualified"))
  | _ => throw (.semanticError (str "JOIN currently requires column equality in ON"))

def analyze (cat : Catalog) (stmt : SelectStatement) : Except Exn TableSchema := do
  if stmt.tableName = [] then
    throw (.semanticError (str "No table specified"))
  if !cat.hasTable stmt.tableName then
    throw (.semanticError (str "Unknown table '" ++ stmt.tableName ++ str "'"))
  let schema ← cat.getTable stmt.tableName
  let scopes ← scopesOf cat stmt schema
  stmt.projections.forM fun col => discard (resolve scopes col)
  validateWhere cat stmt
  stmt.joins.forM (validateJoin scopes)
  stmt.orderByColumns.forM fun orderCol => discard (resolve scopes orderCol.columnName)
  if stmt.limitCount < -1 then
    throw (.semanticError (str "LIMIT value must be non-negative"))
  pure schema

end SemanticAnalyzer

end FheSql
