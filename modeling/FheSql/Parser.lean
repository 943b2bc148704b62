import FheSql.Ast
import Mathlib.Algebra.Group.Int.Defs
import Mathlib.Algebra.Group.Nat.Defs

/-!
# The SQL parser

`include/proto2/parser.h` and `parser/parser.cpp`, a recursive descent over the
text. A parsing function takes the text from `pos_` on and gives back what it
leaves; `size` is `src_.size()`, from which the positions in messages are
counted. Loops and the recursion through parentheses and NOT are bounded by
`fuel`, of which `parse` hands out more than a text can use up.
-/

namespace FheSql

open ByteText Throwing

namespace SQLParser

/-- `std::isspace` of the C locale. -/
def isSpace (c : UInt8) : Bool := c == 32 || (9 ≤ c && c ≤ 13)

def isAlpha (c : UInt8) : Bool := (65 ≤ c && c ≤ 90) || (97 ≤ c && c ≤ 122)

def isDigit (c : UInt8) : Bool := 48 ≤ c && c ≤ 57

/-- `std::isalnum(c) || c == '_'`. -/
def isIdentChar (c : UInt8) : Bool := isAlpha c || isDigit c || c == 95

def toUpperChar (c : UInt8) : UInt8 := if 97 ≤ c ∧ c ≤ 122 then c - 32 else c

def toUpper (s : Str) : Str := s.map toUpperChar

def skipWS (rest : Str) : Str := rest.dropWhile isSpace

/-- A keyword in any letter case; on failure only white space is gone. -/
def tryKeyword (kw : Str) (rest : Str) : Bool × Str :=
  let rest := skipWS rest
  if toUpper (rest.takeWhile isIdentChar) = kw then (true, rest.dropWhile isIdentChar)
  else (false, rest)

section Lexer

variable (size : Nat)

/-- `std::to_string(pos_)`. -/
def position (rest : Str) : Str := decimal (size - rest.length)

def consumeIdent (rest : Str) : Except Exn (Str × Str) :=
  match skipWS rest with
  | [] => throw (.parseError (str "Expected identifier at position " ++ position size []))
  | c :: tail =>
    if isAlpha c || c == 95 then
      pure ((c :: tail).takeWhile isIdentChar, (c :: tail).dropWhile isIdentChar)
    else
      throw (.parseError (str "Expected identifier at position " ++ position size (c :: tail)))

def consumeQualifiedIdent (rest : Str) : Except Exn (Str × Str) := do
  let (name, rest) ← consumeIdent size rest
  match skipWS rest with
  | 46 :: rest => do
    let (column, rest) ← consumeIdent size rest
    pure (name ++ str "." ++ column, rest)
  | rest => pure (name, rest)

/-- A value of type `int64_t`, in two's complement. -/
def toInt64 (v : Int) : Int := v.bmod (2 ^ 64)

/-- `v = v * 10 + digit` over a run of digits. -/
def digitsValue (digits : Str) : Int :=
  digits.foldl (fun v c => toInt64 (toInt64 (v * 10) + ((c.toNat : Int) - 48))) 0

def consumeDigits (neg : Bool) (rest : Str) : Except Exn (Int × Str) :=
  if rest.takeWhile isDigit = [] then
    throw (.parseError (str "Expected integer at position " ++ position size rest))
  else
    let v := digitsValue (rest.takeWhile isDigit)
    pure (if neg then toInt64 (-v) else v, rest.dropWhile isDigit)

def consumeInt (rest : Str) : Except Exn (Int × Str) :=
  match skipWS rest with
  | 45 :: rest => consumeDigits size true rest
  | rest => consumeDigits size false rest

/-- The characters behind the opening quote, a doubled quote standing for one. -/
def stringChars : Str → Str → Except Exn (Str × Str)
  | [], _ => throw (.parseError (str "Unterminated string literal"))
  | [c], value =>
    if c = 39 then pure (value, [])
    else if 127 < c then throw (.parseError (str "Only ASCII string literals are supported"))
    else throw (.parseError (str "Unterminated string literal"))
  | c :: d :: rest, value =>
    if c = 39 then
      if d = 39 then stringChars rest (value ++ [39]) else pure (value, d :: rest)
    else if 127 < c then throw (.parseError (str "Only ASCII string literals are supported"))
    else stringChars (d :: rest) (value ++ [c])

def consumeString (rest : Str) : Except Exn (Str × Str) :=
  match skipWS rest with
  | [] => throw (.parseError (str "Expected string literal at position " ++ position size []))
  | c :: rest =>
    if c = 39 then stringChars rest []
    else throw (.parseError (str "Expected string literal at position " ++ position size rest))

def expectKeyword (kw : Str) (rest : Str) : Except Exn (Unit × Str) :=
  match tryKeyword kw rest with
  | (true, rest) => pure ((), rest)
  | (false, rest) =>
    throw (.parseError (str "Expected keyword '" ++ kw ++ str "' at position " ++
      position size rest))

def expectChar (c : UInt8) (rest : Str) : Except Exn (Unit × Str) :=
  match skipWS rest with
  | [] => throw (.parseError (str "Expected '" ++ [c] ++ str "' at position " ++ position size []))
  | d :: tail =>
    if d = c then pure ((), tail)
    else
      throw (.parseError (str "Expected '" ++ [c] ++ str "' at position " ++
        position size (d :: tail)))

end Lexer

section Expressions

variable (size : Nat)

/-- The comparison operator in front of a text, the two-character ones first. -/
def comparisonOperator : Str → Option (CompareKind × Str)
  | 33 :: 61 :: rest => some (.NotEqual, rest)
  | 62 :: 61 :: rest => some (.GreaterEqual, rest)
  | 60 :: 61 :: rest => some (.LessEqual, rest)
  | 61 :: rest => some (.Equal, rest)
  | 62 :: rest => some (.GreaterThan, rest)
  | 60 :: rest => some (.LessThan, rest)
  | _ => none

mutual

def parseOr : Nat → Str → Except Exn (ASTExpr × Str)
  | 0, _ => .error .outOfFuel
  | fuel + 1, rest => do
    let (left, rest) ← parseAnd fuel rest
    orLoop fuel left rest

/-- `while (tryKeyword("OR"))`. -/
def orLoop : Nat → ASTExpr → Str → Except Exn (ASTExpr × Str)
  | 0, _, _ => .error .outOfFuel
  | fuel + 1, left, rest =>
    match tryKeyword (str "OR") rest with
    | (false, rest) => pure (left, rest)
    | (true, rest) => do
      let (right, rest) ← parseAnd fuel rest
      orLoop fuel (.boolean .Or left right) rest

def parseAnd : Nat → Str → Except Exn (ASTExpr × Str)
  | 0, _ => .error .outOfFuel
  | fuel + 1, rest => do
    let (left, rest) ← parseNot fuel rest
    andLoop fuel left rest

/-- `while (tryKeyword("AND"))`. -/
def andLoop : Nat → ASTExpr → Str → Except Exn (ASTExpr × Str)
  | 0, _, _ => .error .outOfFuel
  | fuel + 1, left, rest =>
    match tryKeyword (str "AND") rest with
    | (false, rest) => pure (left, rest)
    | (true, rest) => do
      let (right, rest) ← parseNot fuel rest
      andLoop fuel (.boolean .And left right) rest

def parseNot : Nat → Str → Except Exn (ASTExpr × Str)
  | 0, _ => .error .outOfFuel
  | fuel + 1, rest =>
    match tryKeyword (str "NOT") rest with
    | (true, rest) => do
      let (child, rest) ← parseNot fuel rest
      pure (.notExpr child, rest)
    | (false, rest) => parseComparison fuel rest

def parseComparison : Nat → Str → Except Exn (ASTExpr × Str)
  | 0, _ => .error .outOfFuel
  | fuel + 1, rest => do
    let (left, rest) ← parsePrimary fuel rest
    match comparisonOperator (skipWS rest) with
    | none => pure (left, skipWS rest)
    | some (op, rest) => do
      let (right, rest) ← parsePrimary fuel rest
      pure (.comparison op left right, rest)

def parsePrimary : Nat → Str → Except Exn (ASTExpr × Str)
  | 0, _ => .error .outOfFuel
  | fuel + 1, rest =>
    match skipWS rest with
    | [] => throw (.parseError (str "Expected expression"))
    | c :: tail =>
      if c = 40 then do
        let (e, rest) ← parseOr fuel tail
        let (_, rest) ← expectChar size 41 rest
        pure (e, rest)
      else if isDigit c || c == 45 then do
        let (v, rest) ← consumeInt size (c :: tail)
        pure (.intLiteral v, rest)
      else if c = 39 then do
        let (v, rest) ← consumeString size (c :: tail)
        pure (.stringLiteral v, rest)
      else do
        let (name, rest) ← consumeQualifiedIdent size (c :: tail)
        pure (.columnRef name, rest)

end

def parseExpr (fuel : Nat) (rest : Str) : Except Exn (ASTExpr × Str) := parseOr size fuel rest

end Expressions

section Statements

variable (size : Nat)

/-- The words that are no alias, as written in upper case only. -/
def clauseWords : List Str :=
  [str "WHERE", str "ORDER", str "LIMIT", str "JOIN", str "INNER", str "ON"]

def parseTableRef (rest : Str) : Except Exn (TableRef × Str) := do
  let (tableName, rest) ← consumeIdent size rest
  match tryKeyword (str "AS") rest with
  | (true, rest) => do
    let (aliasName, rest) ← consumeIdent size rest
    pure ({ tableName := tableName, aliasName := aliasName }, rest)
  | (false, rest) =>
    match consumeIdent size rest with
    | .ok (candidate, after) =>
      if candidate ∈ clauseWords then
        pure ({ tableName := tableName, aliasName := tableName }, rest)
      else
        pure ({ tableName := tableName, aliasName := candidate }, after)
    | .error _ => pure ({ tableName := tableName, aliasName := tableName }, rest)

/-- `while (!atEnd() && peek() == ',')` of a list of items. -/
def commaLoop {α : Type} (item : Str → Except Exn (α × Str)) :
    Nat → List α → Str → Except Exn (List α × Str)
  | 0, _, _ => .error .outOfFuel
  | fuel + 1, items, rest =>
    match skipWS rest with
    | 44 :: rest => do
      let (next, rest) ← item rest
      commaLoop item fuel (items ++ [next]) rest
    | rest => pure (items, rest)

def parseProjectionList (fuel : Nat) (rest : Str) : Except Exn (List Str × Str) :=
  match skipWS rest with
  | 42 :: rest => pure ([], rest)
  | rest => do
    let (first, rest) ← consumeQualifiedIdent size rest
    commaLoop (consumeQualifiedIdent size) fuel [first] rest

/-- One item of ORDER BY, with its direction if there is one. -/
def parseOrderByColumn (rest : Str) : Except Exn (OrderByColumn × Str) := do
  let (columnName, rest) ← consumeQualifiedIdent size rest
  match tryKeyword (str "DESC") rest with
  | (true, rest) => pure ({ columnName := columnName, direction := .Descending }, rest)
  | (false, rest) =>
    pure ({ columnName := columnName, direction := .Ascending }, (tryKeyword (str "ASC") rest).2)

def parseOrderByList (fuel : Nat) (rest : Str) : Except Exn (List OrderByColumn × Str) := do
  let (first, rest) ← parseOrderByColumn size rest
  commaLoop (parseOrderByColumn size) fuel [first] rest

/-- The loop over `[INNER] JOIN`; an INNER without JOIN is dropped. -/
def joinLoop : Nat → List JoinClause → Str → Except Exn (List JoinClause × Str)
  | 0, _, _ => .error .outOfFuel
  | fuel + 1, joins, rest =>
    match tryKeyword (str "JOIN") (tryKeyword (str "INNER") rest).2 with
    | (false, rest) => pure (joins, rest)
    | (true, rest) => do
      let (rightTable, rest) ← parseTableRef size rest
      let (_, rest) ← expectKeyword size (str "ON") rest
      let (condition, rest) ← parseExpr size fuel rest
      joinLoop fuel (joins ++ [{ rightTable := rightTable, condition := some condition }]) rest

def parseWhere (fuel : Nat) (rest : Str) : Except Exn (Option ASTExpr × Str) :=
  match tryKeyword (str "WHERE") rest with
  | (true, rest) => do
    let (e, rest) ← parseExpr size fuel rest
    pure (some e, rest)
  | (false, rest) => pure (none, rest)

def parseOrderBy (fuel : Nat) (rest : Str) : Except Exn (List OrderByColumn × Str) :=
  match tryKeyword (str "ORDER") rest with
  | (true, rest) => do
    let (_, rest) ← expectKeyword size (str "BY") rest
    parseOrderByList size fuel rest
  | (false, rest) => pure ([], rest)

def parseLimit (rest : Str) : Except Exn (Int × Str) :=
  match tryKeyword (str "LIMIT") rest with
  | (true, rest) => do
    let (limitCount, rest) ← consumeInt size rest
    if limitCount < 0 then throw (.parseError (str "LIMIT value must be non-negative"))
    pure (limitCount, rest)
  | (false, rest) => pure (-1, rest)

def parseSelect (fuel : Nat) (rest : Str) : Except Exn (SelectStatement × Str) := do
  let (_, rest) ← expectKeyword size (str "SELECT") rest
  let (projections, rest) ← parseProjectionList size fuel rest
  let (_, rest) ← expectKeyword size (str "FROM") rest
  let (source, rest) ← parseTableRef size rest
  let (joins, rest) ← joinLoop size fuel [] rest
  let (whereClause, rest) ← parseWhere size fuel rest
  let (orderByColumns, rest) ← parseOrderBy size fuel rest
  let (limitCount, rest) ← parseLimit size rest
  pure
    ({ projections := projections
       tableName := source.tableName
       tableAlias := source.aliasName
       joins := joins
       whereClause := whereClause
       orderByColumns := orderByColumns
       limitCount := limitCount }, rest)

end Statements

/-- The statement, one semicolon if there is one, and nothing else. -/
def parse (sql : Str) : Except Exn SelectStatement := do
  let size := sql.length
  let (stmt, rest) ← parseSelect size (6 * size + 6) sql
  let rest := match skipWS rest with
    | 59 :: rest => skipWS rest
    | rest => rest
  match rest with
  | [] => pure stmt
  | c :: _ =>
    throw (.parseError (str "Unexpected token at position " ++ position size rest ++ str ": '" ++
      [c] ++ str "'"))

end SQLParser

end FheSql
