import FheSql.SqlGrammar

/-!
# The literals of a statement

A statement holds the literals of its ON and WHERE conditions and its limit. They are
what is stored for the number and string tokens of the text, one for one and in their
order, whatever a number stands for.
-/

namespace FheSql.StatementLiterals

open ByteText SQLParser SqlTokens SqlGrammar

inductive Literal where
  | int (v : Int)
  | string (value : Str)
  deriving DecidableEq, Repr

/-- What is stored for a token, if `number` is stored for the digits of a number. -/
def storedFor (number : Bool → Str → Int) : Token → Option Literal
  | .int neg digits => some (.int (number neg digits))
  | .string value => some (.string value)
  | _ => none

def tokenLiterals (number : Bool → Str → Int) (ts : List Token) : List Literal :=
  ts.filterMap (storedFor number)

def exprLiterals : ASTExpr → List Literal
  | .columnRef _ => []
  | .intLiteral v => [.int v]
  | .stringLiteral value => [.string value]
  | .comparison _ l r => exprLiterals l ++ exprLiterals r
  | .boolean _ l r => exprLiterals l ++ exprLiterals r
  | .notExpr child => exprLiterals child

def conditionLiterals (e : Option ASTExpr) : List Literal := (e.map exprLiterals).getD []

/-- The literals of ON and WHERE, and the limit if there is one. -/
def statementLiterals (stmt : SelectStatement) : List Literal :=
  stmt.joins.flatMap (fun join => conditionLiterals join.condition) ++
    (conditionLiterals stmt.whereClause ++
      if 0 ≤ stmt.limitCount then [.int stmt.limitCount] else [])

/-- A lexicon where digits stand for one number only. -/
def Stores (L : Lexicon) (number : Bool → Str → Int) : Prop :=
  ∀ neg digits v, L.number neg digits v → v = number neg digits

theorem stores_accepted : Stores accepted readInt := fun _ _ _ value => value

variable {L : Lexicon} {number : Bool → Str → Int} {ts : List Token}

/-- Every token of a layout is written in the text. -/
theorem spans_writes {spell : Spelling} {rest stop : Str} (h : Spans spell ts rest stop) :
    ∀ t ∈ ts, ∃ w, t.Writes spell w := by
  induction h with
  | nil => nofun
  | @cons _ _ w _ _ _ _ writes _ _ ih =>
    intro t mem
    rcases List.mem_cons.mp mem with rfl | mem
    · exact ⟨w, writes⟩
    · exact ih t mem

theorem tokenLiterals_append (ts us : List Token) :
    tokenLiterals number (ts ++ us) = tokenLiterals number ts ++ tokenLiterals number us :=
  List.filterMap_append

theorem tokenLiterals_keyword (kw : Str) (ts : List Token) :
    tokenLiterals number (.keyword kw :: ts) = tokenLiterals number ts := rfl

theorem tokenLiterals_symbol (s : Str) (ts : List Token) :
    tokenLiterals number (.symbol s :: ts) = tokenLiterals number ts := rfl

theorem column_literals {name : Str} (h : Column L name ts) : tokenLiterals number ts = [] := by
  cases h with
  | bare => rfl
  | qualified => rfl

theorem items_literals {α : Type} {item : α → List Token → Prop}
    (none : ∀ {a ts}, item a ts → tokenLiterals number ts = []) {l : List α} (h : Items item l ts) :
    tokenLiterals number ts = [] := by
  induction h with
  | one shape => exact none shape
  | more shape _ ih =>
    rw [tokenLiterals_append, none shape, tokenLiterals_symbol]
    exact ih

theorem expr_literals (stores : Stores L number) {level : Level} {e : ASTExpr}
    (h : Expr L level e ts) : exprLiterals e = tokenLiterals number ts := by
  induction h with
  | conjunction _ ih => exact ih
  | negation _ ih => exact ih
  | comparison _ _ ih => exact ih
  | operand _ ih => exact ih
  | not _ ih => exact ih
  | column shape => exact (column_literals shape).symm
  | int value => exact congrArg (fun v => [Literal.int v]) (stores _ _ _ value)
  | string => rfl
  | or _ _ ih ih' | and _ _ ih ih' =>
    rw [tokenLiterals_append, tokenLiterals_keyword, exprLiterals, ih, ih']
  | compare _ _ ih ih' =>
    rw [tokenLiterals_append, tokenLiterals_symbol, exprLiterals, ih, ih']
  | parentheses _ ih =>
    rw [tokenLiterals_symbol, tokenLiterals_append, ih]
    exact (List.append_nil _).symm

theorem projections_literals {names : List Str} (h : Projections L names ts) :
    tokenLiterals number ts = [] := by
  cases h with
  | star => rfl
  | columns items => exact items_literals column_literals items

theorem table_literals {table : TableRef} (h : Table L table ts) :
    tokenLiterals number ts = [] := by
  cases h with
  | bare => rfl
  | implicit => rfl
  | explicit => rfl

theorem inner_literals {inner : List Token}
    (h : inner = [] ∨ inner = [.keyword (str "INNER")]) : tokenLiterals number inner = [] := by
  rcases h with rfl | rfl <;> rfl

theorem orderItem_literals {item : OrderByColumn} (h : OrderItem L item ts) :
    tokenLiterals number ts = [] := by
  cases h with
  | mk column direction =>
    rw [tokenLiterals_append, column_literals column]
    cases direction <;> rfl

theorem orderBy_literals {order : List OrderByColumn} (h : OrderBy L order ts) :
    tokenLiterals number ts = [] := by
  cases h with
  | absent => rfl
  | present items =>
    rw [tokenLiterals_keyword, tokenLiterals_keyword]
    exact items_literals orderItem_literals items

theorem joins_literals (stores : Stores L number) {joins : List JoinClause} (h : Joins L joins ts) :
    joins.flatMap (fun join => conditionLiterals join.condition) = tokenLiterals number ts := by
  induction h with
  | nil => rfl
  | cons join _ ih =>
    rw [List.flatMap_cons, tokenLiterals_append, ih]
    refine congrArg (· ++ _) ?_
    cases join with
    | @mk inner _ _ _ _ optional table condition =>
      have front : tokenLiterals number inner = [] := by
        apply inner_literals
        cases optional with
        | absent => exact Or.inl rfl
        | present => exact Or.inr rfl
      rw [tokenLiterals_append, front, tokenLiterals_keyword, tokenLiterals_append,
        table_literals table, tokenLiterals_keyword]
      exact expr_literals stores condition

theorem where_literals (stores : Stores L number) {whereClause : Option ASTExpr}
    (h : Where L whereClause ts) : conditionLiterals whereClause = tokenLiterals number ts := by
  cases h with
  | absent => rfl
  | present condition =>
    rw [tokenLiterals_keyword]
    exact expr_literals stores condition

theorem limit_literals (stores : Stores L number) {limit : Int} (h : Limit L limit ts) :
    (if 0 ≤ limit then [Literal.int limit] else []) = tokenLiterals number ts := by
  cases h with
  | absent => rfl
  | present value positive =>
    rw [if_pos positive]
    exact congrArg (fun v => [Literal.int v]) (stores _ _ _ value)

theorem select_literals (stores : Stores L number) {stmt : SelectStatement} (h : Select L stmt ts) :
    statementLiterals stmt = tokenLiterals number ts := by
  cases h with
  | mk projections table joins stray whereClause order limit =>
    simp only [tokenLiterals_keyword, tokenLiterals_append, projections_literals projections,
      table_literals table, inner_literals (stray.imp_right And.right), orderBy_literals order,
      List.nil_append, ← joins_literals stores joins, ← where_literals stores whereClause,
      ← limit_literals stores limit]
    rfl

/-- A statement holds what is stored for the literals among its tokens, one for one. -/
theorem renders_literals (stores : Stores L number) {stmt : SelectStatement}
    (h : Renders L stmt ts) : statementLiterals stmt = tokenLiterals number ts := by
  cases h with
  | plain shape => exact select_literals stores shape
  | terminated shape =>
    rw [select_literals stores shape, tokenLiterals_append]
    exact (List.append_nil _).symm

end FheSql.StatementLiterals
