import FheSql.IntegerLiterals
import FheSql.SqlWords
import FheSql.StatementCompleteness
import Mathlib.Algebra.GroupWithZero.Nat

/-!
# A statement in print

`SelectStatement::toSQL` puts parentheses around AND and OR and behind NOT, none
around a comparison, and prints a string as it is. Its tokens are a rendering of
the statement if no comparison has a comparison or a NOT for an operand, and its text
lays them out if no string holds a quote.
-/

namespace FheSql.PrintedStatement

open ByteText SQLParser SqlTokens SqlGrammar SqlWords ParserCompleteness
open StatementCompleteness StatementLiterals DocumentedGrammar IntegerLiterals

def exprTokens : ASTExpr → List Token
  | .columnRef name => nameTokens name
  | .intLiteral v => [.int (decide (v < 0)) (decimal v.natAbs)]
  | .stringLiteral v => [.string v]
  | .comparison kind l r => exprTokens l ++ .symbol (operatorSymbol kind) :: exprTokens r
  | .boolean kind l r =>
    .symbol (str "(") :: (exprTokens l ++ .keyword (booleanWord kind) :: exprTokens r ++
      [.symbol (str ")")])
  | .notExpr child =>
    .keyword (str "NOT") :: .symbol (str "(") :: (exprTokens child ++ [.symbol (str ")")])

/-- Tokens of items with commas between them. -/
def listTokens {α : Type} (f : α → List Token) : List α → List Token
  | [] => []
  | [a] => f a
  | a :: l => f a ++ .symbol (str ",") :: listTokens f l

def projectionTokens (names : List Str) : List Token :=
  if names = [] then [.symbol (str "*")] else listTokens nameTokens names

def tableTokens (table : TableRef) : List Token :=
  if table.aliasName = table.tableName then [.table table.tableName]
  else [.ident table.tableName, .keyword (str "AS"), .ident table.aliasName]

def conditionTokens (kw : Str) : Option ASTExpr → List Token
  | none => []
  | some e => .keyword kw :: exprTokens e

def joinTokens (join : JoinClause) : List Token :=
  .keyword (str "JOIN") :: (tableTokens join.rightTable ++
    conditionTokens (str "ON") join.condition)

def orderItemTokens (item : OrderByColumn) : List Token :=
  nameTokens item.columnName ++
    if item.direction = .Descending then [.keyword (str "DESC")] else []

def orderTokens (order : List OrderByColumn) : List Token :=
  if order = [] then []
  else .keyword (str "ORDER") :: .keyword (str "BY") :: listTokens orderItemTokens order

def limitTokens (limit : Int) : List Token :=
  if 0 ≤ limit then [.keyword (str "LIMIT"), .int (decide (limit < 0)) (decimal limit.natAbs)]
  else []

def statementTokens (stmt : SelectStatement) : List Token :=
  .keyword (str "SELECT") :: (projectionTokens stmt.projections ++ .keyword (str "FROM") ::
    (tableTokens ⟨stmt.tableName, stmt.tableAlias⟩ ++ (stmt.joins.flatMap joinTokens ++
      (conditionTokens (str "WHERE") stmt.whereClause ++
        (orderTokens stmt.orderByColumns ++ limitTokens stmt.limitCount)))))

/-- A comparison and a NOT are printed without parentheses around them. -/
def Closed : ASTExpr → Prop
  | .comparison _ _ _ => False
  | .notExpr _ => False
  | _ => True

/-- No operand of a comparison is printed open. -/
def OperandsClosed : ASTExpr → Prop
  | .comparison _ l r => (Closed l ∧ OperandsClosed l) ∧ Closed r ∧ OperandsClosed r
  | .boolean _ l r => OperandsClosed l ∧ OperandsClosed r
  | .notExpr child => OperandsClosed child
  | _ => True

theorem decimal_digits (n : Nat) :
    decimal n ≠ [] ∧ (∀ c ∈ decimal n, isDigit c = true) ∧ decimalValue (decimal n) = n := by
  induction n using Nat.strongRecOn with
  | ind n ih =>
    by_cases small : n < 10
    · exact (by decide +kernel : ∀ n < 10, decimal n ≠ [] ∧
        (∀ c ∈ decimal n, isDigit c = true) ∧ decimalValue (decimal n) = n) n small
    · have split : decimal n = decimal (n / 10) ++ decimal (n % 10) := by
        rw [decimal, decimal, decimal, Nat.toDigits_of_base_le (by decide) (Nat.not_lt.mp small),
          Nat.toDigits_of_lt_base (Nat.mod_lt n (by decide)), List.map_append]
      obtain ⟨front, all, value⟩ := ih (n / 10) (by omega)
      have digits : ∀ n < 10, decimal n = [UInt8.ofNat (48 + n)] ∧
          isDigit (UInt8.ofNat (48 + n)) = true ∧ (UInt8.ofNat (48 + n)).toNat - 48 = n := by
        decide +kernel
      obtain ⟨last, digit, rest⟩ := digits (n % 10) (Nat.mod_lt n (by decide))
      rw [split, last, decimalValue_append, value, rest]
      refine ⟨by simp, List.forall_mem_append.mpr ⟨all, ?_⟩, by omega⟩
      exact List.forall_mem_singleton.mpr digit

theorem denoted_decimal (v : Int) : denoted (decide (v < 0)) (decimal v.natAbs) = v := by
  rw [denoted, (decimal_digits _).2.2]
  by_cases negative : v < 0
  · rw [decide_eq_true negative, if_pos rfl]
    omega
  · rw [decide_eq_false negative, if_neg Bool.false_ne_true]
    omega

/-- A number in print is read back. -/
theorem readInt_decimal {v : Int} (inside : InInt64 v) :
    readInt (decide (v < 0)) (decimal v.natAbs) = v := by
  have all := (decimal_digits v.natAbs).2.1
  rw [(readInt_eq_denoted_iff all).mpr ((denoted_decimal v).symm ▸ inside), denoted_decimal]

theorem readInt_range {neg : Bool} {digits : Str} (all : ∀ c ∈ digits, isDigit c = true) :
    InInt64 (readInt neg digits) := by
  rw [readInt_wraps all]
  exact toInt64_range _

variable {spell : Spelling} {ts us : List Token} {ws : List Str}

def printedLevel : ASTExpr → Level
  | .comparison _ _ _ => .comparison
  | .notExpr _ => .not
  | _ => .primary

def Printed (e : ASTExpr) : Prop := Expr accepted (printedLevel e) e (exprTokens e)

theorem printed_primary {e : ASTExpr} (closed : Closed e) (h : Printed e) :
    Expr accepted .primary e (exprTokens e) := by
  cases e with
  | comparison => exact closed.elim
  | notExpr => exact closed.elim
  | columnRef => exact h
  | intLiteral => exact h
  | stringLiteral => exact h
  | boolean => exact h

theorem printed_not {e : ASTExpr} (h : Printed e)
    (begins : ∀ name, (exprTokens e).head? = some (.ident name) → accepted.operand name) :
    Expr accepted .not e (exprTokens e) := by
  cases e with
  | comparison => exact .comparison begins h
  | notExpr => exact h
  | columnRef => exact .comparison begins (.operand h)
  | intLiteral => exact .comparison begins (.operand h)
  | stringLiteral => exact .comparison begins (.operand h)
  | boolean => exact .comparison begins (.operand h)

theorem boolean_printed (kind : BooleanKind) {l r : ASTExpr}
    (left : Expr accepted .not l (exprTokens l)) (right : Expr accepted .not r (exprTokens r)) :
    Printed (.boolean kind l r) := by
  apply Expr.parentheses
  cases kind with
  | Or => exact .or (.conjunction (.negation left)) (.negation right)
  | And => exact .conjunction (.and (.negation left) right)

/-- A production looser than a comparison has been checked not to begin with a NOT. -/
theorem operand_loose {level : Level} {e : ASTExpr}
    (begins : ∀ name, (exprTokens e).head? = some (.ident name) → accepted.operand name ∨
      (level = .primary ∨ level = .comparison) ∧ ts.head? = some (.ident name))
    (primary : level ≠ .primary) (comparison : level ≠ .comparison) :
    ∀ name, (exprTokens e).head? = some (.ident name) → accepted.operand name := by
  intro name head
  rcases begins name head with operand | ⟨here | here, _⟩
  · exact operand
  · exact (primary here).elim
  · exact (comparison here).elim

/-- An expression in print has the level that its production needs. A name that begins it
begins the rendering it was read from as well, or is known to begin a comparison. -/
theorem expr_printed {level : Level} {e : ASTExpr} (h : Expr accepted level e ts)
    (wrote : Wrote spell ts ws) (closed : OperandsClosed e) :
    Printed e ∧ ∀ name, (exprTokens e).head? = some (.ident name) → accepted.operand name ∨
      (level = .primary ∨ level = .comparison) ∧ ts.head? = some (.ident name) := by
  induction h generalizing ws with
  | conjunction _ ih =>
    obtain ⟨printed, begins⟩ := ih wrote closed
    exact ⟨printed, fun name head => Or.inl (operand_loose begins nofun nofun name head)⟩
  | negation _ ih =>
    obtain ⟨printed, begins⟩ := ih wrote closed
    exact ⟨printed, fun name head => Or.inl (operand_loose begins nofun nofun name head)⟩
  | comparison starts _ ih =>
    obtain ⟨printed, begins⟩ := ih wrote closed
    refine ⟨printed, fun name head => Or.inl ?_⟩
    exact (begins name head).elim id fun here => starts name here.2
  | operand _ ih =>
    obtain ⟨printed, begins⟩ := ih wrote closed
    refine ⟨printed, fun name head => (begins name head).imp_right fun here => ?_⟩
    exact ⟨Or.inr rfl, here.2⟩
  | or _ _ ih ih' =>
    obtain ⟨_, _, rfl, front, wrote⟩ := wrote_append wrote
    obtain ⟨_, _, rfl, _, back⟩ := wrote_cons wrote
    obtain ⟨left, begins⟩ := ih front closed.1
    obtain ⟨right, begins'⟩ := ih' back closed.2
    have left := printed_not left (operand_loose begins nofun nofun)
    have right := printed_not right (operand_loose begins' nofun nofun)
    exact ⟨boolean_printed .Or left right, nofun⟩
  | and _ _ ih ih' =>
    obtain ⟨_, _, rfl, front, wrote⟩ := wrote_append wrote
    obtain ⟨_, _, rfl, _, back⟩ := wrote_cons wrote
    obtain ⟨left, begins⟩ := ih front closed.1
    obtain ⟨right, begins'⟩ := ih' back closed.2
    have left := printed_not left (operand_loose begins nofun nofun)
    have right := printed_not right (operand_loose begins' nofun nofun)
    exact ⟨boolean_printed .And left right, nofun⟩
  | not _ ih =>
    obtain ⟨_, _, rfl, _, wrote⟩ := wrote_cons wrote
    obtain ⟨child, begins⟩ := ih wrote closed
    have child := printed_not child (operand_loose begins nofun nofun)
    refine ⟨.not (.comparison ?_ (.operand ?_)), nofun⟩
    · exact nofun
    · exact .parentheses (.conjunction (.negation child))
  | compare _ _ ih ih' =>
    obtain ⟨_, _, rfl, front, wrote⟩ := wrote_append wrote
    obtain ⟨_, _, rfl, _, back⟩ := wrote_cons wrote
    obtain ⟨left, begins⟩ := ih front closed.1.2
    obtain ⟨right, _⟩ := ih' back closed.2.2
    have left := printed_primary closed.1.1 left
    refine ⟨.compare left (printed_primary closed.2.1 right), fun name head => ?_⟩
    obtain ⟨t, tail, first⟩ := expr_nonempty left
    rw [exprTokens, first] at head
    rw [first] at begins
    refine (begins name head).imp_right fun here => ⟨Or.inr rfl, ?_⟩
    rw [List.head?_append, here.2]
    rfl
  | column column =>
    have same := column_tokens column wrote
    subst same
    exact ⟨.column column, fun name head => Or.inr ⟨Or.inl rfl, head⟩⟩
  | int value =>
    obtain ⟨_, _, rfl, writes, _⟩ := wrote_cons wrote
    cases writes with
    | int _ all =>
      refine ⟨.int ?_, nofun⟩
      rw [show _ = readInt _ _ from value]
      exact (readInt_decimal (readInt_range all)).symm
  | string => exact ⟨.string, nofun⟩
  | parentheses _ ih =>
    obtain ⟨_, _, rfl, _, wrote⟩ := wrote_cons wrote
    obtain ⟨_, _, rfl, inside, _⟩ := wrote_append wrote
    obtain ⟨printed, begins⟩ := ih inside closed
    exact ⟨printed, fun name head => Or.inl (operand_loose begins nofun nofun name head)⟩

theorem column_printed {name : Str} (h : Column accepted name ts) (wrote : Wrote spell ts ws) :
    Column accepted name (nameTokens name) := column_tokens h wrote ▸ h

theorem items_printed {α : Type} {item : α → List Token → Prop} {f : α → List Token}
    (each : ∀ {a ts ws}, item a ts → Wrote spell ts ws → item a (f a)) {l : List α}
    (h : Items item l ts) (wrote : Wrote spell ts ws) : Items item l (listTokens f l) := by
  induction h generalizing ws with
  | one shape => exact .one (each shape wrote)
  | more shape behind ih =>
    obtain ⟨_, _, rfl, front, wrote⟩ := wrote_append wrote
    obtain ⟨_, _, rfl, _, back⟩ := wrote_cons wrote
    obtain ⟨a, l, rfl⟩ := List.exists_cons_of_ne_nil (items_nonempty behind)
    exact .more (each shape front) (ih back)

theorem projections_printed {names : List Str} (h : Projections accepted names ts)
    (wrote : Wrote spell ts ws) : Projections accepted names (projectionTokens names) := by
  cases h with
  | star => exact .star
  | columns items =>
    rw [projectionTokens, if_neg (items_nonempty items)]
    refine .columns (items_printed ?_ items wrote)
    exact column_printed

theorem table_printed (table : TableRef) : Table accepted table (tableTokens table) := by
  obtain ⟨name, aliasName⟩ := table
  by_cases own : aliasName = name
  · subst own
    rw [tableTokens, if_pos rfl]
    exact .bare trivial
  · rw [tableTokens, if_neg own]
    exact .explicit trivial trivial

theorem condition_printed {e : ASTExpr} (h : Expr accepted .or e ts) (wrote : Wrote spell ts ws)
    (closed : OperandsClosed e) : Expr accepted .or e (exprTokens e) := by
  obtain ⟨printed, begins⟩ := expr_printed h wrote closed
  exact .conjunction (.negation (printed_not printed (operand_loose begins nofun nofun)))

theorem joins_printed {joins : List JoinClause} (h : Joins accepted joins ts)
    (wrote : Wrote spell ts ws)
    (closed : ∀ join ∈ joins, ∀ e ∈ join.condition, OperandsClosed e) :
    Joins accepted joins (joins.flatMap joinTokens) := by
  induction h generalizing ws with
  | nil => exact .nil
  | cons join _ ih =>
    obtain ⟨_, _, rfl, front, back⟩ := wrote_append wrote
    obtain ⟨here, behind⟩ := List.forall_mem_cons.mp closed
    refine .cons ?_ (ih back behind)
    cases join with
    | mk _ _ expr =>
      obtain ⟨_, _, rfl, _, front⟩ := wrote_append front
      obtain ⟨_, _, rfl, _, front⟩ := wrote_cons front
      obtain ⟨_, _, rfl, _, front⟩ := wrote_append front
      obtain ⟨_, _, rfl, _, front⟩ := wrote_cons front
      exact .mk .absent (table_printed _) (condition_printed expr front (here _ rfl))

theorem where_printed {whereClause : Option ASTExpr} (h : Where accepted whereClause ts)
    (wrote : Wrote spell ts ws) (closed : ∀ e ∈ whereClause, OperandsClosed e) :
    Where accepted whereClause (conditionTokens (str "WHERE") whereClause) := by
  cases h with
  | absent => exact .absent
  | present expr =>
    obtain ⟨_, _, rfl, _, wrote⟩ := wrote_cons wrote
    exact .present (condition_printed expr wrote (closed _ rfl))

theorem orderItem_printed {item : OrderByColumn} (h : OrderItem accepted item ts)
    (wrote : Wrote spell ts ws) : OrderItem accepted item (orderItemTokens item) := by
  cases h with
  | mk column direction =>
    obtain ⟨_, _, rfl, front, _⟩ := wrote_append wrote
    refine .mk (column_printed column front) ?_
    cases direction with
    | absent => exact .absent
    | ascending => exact .absent
    | descending => exact .descending

theorem orderBy_printed {order : List OrderByColumn} (h : OrderBy accepted order ts)
    (wrote : Wrote spell ts ws) : OrderBy accepted order (orderTokens order) := by
  cases h with
  | absent => exact .absent
  | present items =>
    obtain ⟨_, _, rfl, _, wrote⟩ := wrote_cons wrote
    obtain ⟨_, _, rfl, _, wrote⟩ := wrote_cons wrote
    rw [orderTokens, if_neg (items_nonempty items)]
    refine .present (items_printed ?_ items wrote)
    exact orderItem_printed

theorem limit_printed {limit : Int} (h : Limit accepted limit ts) (wrote : Wrote spell ts ws) :
    Limit accepted limit (limitTokens limit) := by
  cases h with
  | absent => exact .absent
  | present value positive =>
    obtain ⟨_, _, rfl, _, wrote⟩ := wrote_cons wrote
    obtain ⟨_, _, rfl, writes, _⟩ := wrote_cons wrote
    cases writes with
    | int _ all =>
      rw [limitTokens, if_pos positive]
      refine .present ?_ positive
      rw [show _ = readInt _ _ from value]
      exact (readInt_decimal (readInt_range all)).symm

/-- The conditions of ON and WHERE. -/
structure ConditionsClosed (stmt : SelectStatement) : Prop where
  joins : ∀ join ∈ stmt.joins, ∀ e ∈ join.condition, OperandsClosed e
  filter : ∀ e ∈ stmt.whereClause, OperandsClosed e

theorem select_printed {stmt : SelectStatement} (h : Select accepted stmt ts)
    (wrote : Wrote spell ts ws) (closed : ConditionsClosed stmt) :
    Select accepted stmt (statementTokens stmt) := by
  obtain ⟨ps, tb, js, inner, fs, os, ls, rfl, hp, ht, hj, _, hw, ho, hl⟩ := select_parts h
  obtain ⟨_, _, _, _, _, _, rfl, wroteP, _, wroteJ, wrote⟩ := select_words wrote
  obtain ⟨_, _, rfl, _, wrote⟩ := wrote_append wrote
  obtain ⟨_, _, rfl, wroteW, wrote⟩ := wrote_append wrote
  obtain ⟨_, _, rfl, wroteO, wroteL⟩ := wrote_append wrote
  exact .mk (projections_printed hp wroteP) (table_printed ⟨stmt.tableName, stmt.tableAlias⟩)
    (joins_printed hj wroteJ closed.joins) (Or.inl rfl) (where_printed hw wroteW closed.filter)
    (orderBy_printed ho wroteO) (limit_printed hl wroteL)

theorem renders_printed {stmt : SelectStatement} (h : Renders accepted stmt ts)
    (wrote : Wrote spell ts ws) (closed : ConditionsClosed stmt) :
    Renders accepted stmt (statementTokens stmt) := by
  cases h with
  | plain select => exact .plain (select_printed select wrote closed)
  | terminated select =>
    obtain ⟨_, _, rfl, wrote, _⟩ := wrote_append wrote
    exact .plain (select_printed select wrote closed)

/-- The quotes in the text of some literals, if `each` of them stand for one in a string. -/
def quotes (each : Nat) (literals : List Literal) : Nat :=
  (literals.map fun literal => match literal with
    | .int _ => 0
    | .string value => 2 + each * value.count 39).sum

def Quoteless (literals : List Literal) : Prop :=
  ∀ value, Literal.string value ∈ literals → 39 ∉ value

theorem quotes_append (each : Nat) (l l' : List Literal) :
    quotes each (l ++ l') = quotes each l + quotes each l' := by
  rw [quotes, List.map_append, List.sum_append]
  rfl

theorem quoteless_append {l l' : List Literal} (h : Quoteless (l ++ l')) :
    Quoteless l ∧ Quoteless l' :=
  ⟨fun value mem => h value (List.mem_append_left _ mem),
    fun value mem => h value (List.mem_append_right _ mem)⟩

theorem count_doubled (value : Str) : (doubled value).count 39 = 2 * value.count 39 := by
  induction value with
  | nil => rfl
  | cons c value ih =>
    have split : doubled (c :: value) = (if c = 39 then [39, 39] else [c]) ++ doubled value := rfl
    rw [split, List.count_append, ih]
    by_cases quote : c = 39
    · subst quote
      rw [if_pos rfl, List.count_cons_self, List.count_cons_self, List.count_cons_self]
      change 0 + 1 + 1 + 2 * value.count 39 = 2 * (value.count 39 + 1)
      omega
    · rw [if_neg quote, List.count_singleton, List.count_cons, if_neg (by simpa using quote)]
      omega

theorem doubled_plain {value : Str} (plain : 39 ∉ value) : doubled value = value := by
  induction value with
  | nil => rfl
  | cons c value ih =>
    obtain ⟨other, plain⟩ := not_or.mp fun here => plain (List.mem_cons.mpr here)
    have split : doubled (c :: value) = (if c = 39 then [39, 39] else [c]) ++ doubled value := rfl
    rw [split, if_neg (Ne.symm other), ih plain]
    rfl

theorem identifier_noQuote {name : Str} (h : Identifier name) : name.count 39 = 0 := by
  rw [List.count_eq_zero]
  intro mem
  exact absurd (h.all 39 mem) (by decide)

theorem writes_quotes (spells : Spells spell) (number : Bool → Str → Int) {t : Token} {w : Str}
    (h : t.Writes spell w) : w.count 39 = quotes 2 (tokenLiterals number [t]) := by
  cases h with
  | keyword known spelled =>
    exact identifier_noQuote (keyword_identifier known (spells _ known _ spelled))
  | ident identifier => exact identifier_noQuote identifier
  | table identifier => exact identifier_noQuote identifier
  | @int neg digits _ all =>
    have none : digits.count 39 = 0 := by
      rw [List.count_eq_zero]
      intro mem
      exact absurd (all 39 mem) (by decide)
    rw [List.count_append, none]
    cases neg <;> rfl
  | @string value =>
    rw [List.count_cons_self, List.count_append, count_doubled]
    change 2 * value.count 39 + 1 + 1 = 2 + 2 * value.count 39 + 0
    omega
  | symbol listed =>
    exact (by decide : ∀ s ∈ symbols, s.count 39 = 0) _ listed

/-- A text has the quotes of its literals, where a quote in a string is doubled. -/
theorem spans_quotes (spells : Spells spell) (number : Bool → Str → Int) {rest stop : Str}
    (h : Spans spell ts rest stop) :
    rest.count 39 = quotes 2 (tokenLiterals number ts) + stop.count 39 := by
  have blank : ∀ {ws : Str}, (∀ c ∈ ws, isSpace c = true) → ws.count 39 = 0 := by
    intro ws space
    rw [List.count_eq_zero]
    intro mem
    exact absurd (space 39 mem) (by decide)
  induction h with
  | nil space =>
    rw [List.count_append, blank space]
    rfl
  | @cons ws t w ts _ _ space writes _ _ ih =>
    rw [List.count_append, List.count_append, blank space, writes_quotes spells number writes, ih,
      show t :: ts = [t] ++ ts from rfl, tokenLiterals_append, quotes_append]
    omega

theorem quoteless_of_quotes {l : List Literal} (same : quotes 1 l = quotes 2 l) : Quoteless l := by
  have le : ∀ l : List Literal, quotes 1 l ≤ quotes 2 l := by
    intro l
    induction l with
    | nil => exact le_refl _
    | cons literal l ih =>
      refine Nat.add_le_add ?_ ih
      cases literal with
      | int => exact le_refl _
      | string value => exact Nat.add_le_add_left (Nat.mul_le_mul_right _ (by decide)) _
  intro value mem
  obtain ⟨front, back, rfl⟩ := List.append_of_mem mem
  rw [← List.singleton_append, quotes_append, quotes_append, quotes_append, quotes_append] at same
  have one : quotes 1 [.string value] = 2 + 1 * value.count 39 := rfl
  have two : quotes 2 [.string value] = 2 + 2 * value.count 39 := rfl
  have before := le front
  have behind := le back
  rw [← List.count_eq_zero]
  omega

/-- No token can take in what begins the text. -/
def Breaks (rest : Str) : Prop := ∀ t : Token, t.EndsBefore rest

/-- A text that nothing runs into, also if it is empty. -/
def Begins (s : Str) : Prop := ∀ rest, Breaks rest → Breaks (s ++ rest)

/-- A piece of text prints some tokens: its quotes are not doubled, and if its strings
have none it lays out the tokens. -/
structure Prints (ts : List Token) (s : Str) : Prop where
  quotes : s.count 39 = quotes 1 (tokenLiterals denoted ts)
  spans : Quoteless (tokenLiterals denoted ts) → ∀ {more rest stop}, Breaks rest →
    Spans exactly more rest stop → Spans exactly (ts ++ more) (s ++ rest) stop

/-- The characters that no token can take in from behind. -/
def breaker (c : UInt8) : Bool := !isIdentChar c && c != 39 && c != 61

variable {s s' w : Str}

theorem breaks_cons {c : UInt8} (h : breaker c = true) (rest : Str) : Breaks (c :: rest) := by
  simp only [breaker, Bool.and_eq_true, Bool.not_eq_true', bne_iff_ne] at h
  obtain ⟨⟨word, quote⟩, equal⟩ := h
  have digit : isDigit c = false := by
    cases found : isDigit c with
    | false => rfl
    | true =>
      rw [isIdentChar_of_isDigit found] at word
      cases word
  intro t d head
  obtain rfl := Option.some.inj head
  cases t with
  | keyword => exact word
  | ident => exact word
  | table => exact word
  | int => exact digit
  | string => exact beq_eq_false_iff_ne.mpr quote
  | symbol s =>
    have other : (c == 61) = false := beq_eq_false_iff_ne.mpr equal
    rw [Token.glues, other]
    exact Bool.and_false _

theorem begins_nil : Begins [] := fun _ breaks => breaks

theorem begins_cons {c : UInt8} (h : breaker c = true) (s : Str) : Begins (c :: s) :=
  fun rest _ => breaks_cons h (s ++ rest)

theorem begins_blank (s : Str) : Begins (32 :: s) := begins_cons (by decide) s

theorem begins_append (h : Begins s) (h' : Begins s') : Begins (s ++ s') := by
  intro rest breaks
  rw [List.append_assoc]
  exact h _ (h' _ breaks)

theorem prints_nil : Prints [] [] := ⟨rfl, fun _ _ _ _ _ spans => spans⟩

theorem prints_token {t : Token} (plain : ∀ value, t ≠ .string value)
    (writes : t.Writes exactly w) : Prints [t] w where
  quotes := by
    rw [writes_quotes spells_exactly denoted writes]
    cases t with
    | string value => exact (plain value rfl).elim
    | _ => rfl
  spans _ {more rest stop} breaks spans :=
    @Spans.cons exactly [] t w more rest stop nofun writes (breaks t) spans

theorem prints_string {value : Str} (ascii : ∀ c ∈ value, ¬ 127 < c) :
    Prints [.string value] (str "'" ++ value ++ str "'") where
  quotes := by
    rw [List.count_append, List.count_append]
    change 1 + value.count 39 + 1 = 2 + 1 * value.count 39 + 0
    omega
  spans quoteless {more rest stop} breaks spans := by
    have writes : Token.Writes exactly (.string value) (39 :: (doubled value ++ [39])) :=
      .string ascii
    rw [doubled_plain (quoteless value List.mem_cons_self)] at writes
    have text : str "'" ++ value ++ str "'" = 39 :: (value ++ [39]) := rfl
    rw [text]
    exact @Spans.cons exactly [] _ _ more rest stop nofun writes (breaks _) spans

theorem prints_append (front : Prints ts s) (back : Prints us s') (begins : Begins s') :
    Prints (ts ++ us) (s ++ s') where
  quotes := by
    rw [List.count_append, front.quotes, back.quotes, tokenLiterals_append, quotes_append]
  spans quoteless {more rest stop} breaks spans := by
    rw [tokenLiterals_append] at quoteless
    obtain ⟨plain, plain'⟩ := quoteless_append quoteless
    rw [List.append_assoc, List.append_assoc]
    exact front.spans plain (begins rest breaks) (back.spans plain' breaks spans)

theorem prints_blank (h : Prints ts s) : Prints ts (32 :: s) where
  quotes := h.quotes
  spans quoteless {more rest stop} breaks spans := by
    have blank : ∀ c ∈ ([32] : Str), isSpace c = true := by decide +kernel
    have spaced := spans_spaced blank (h.spans quoteless breaks spans)
    exact spaced

/-- A symbol that nothing runs into needs no break behind it. -/
theorem prints_symbol {c : UInt8} (listed : [c] ∈ symbols) (plain : c ≠ 60 ∧ c ≠ 62)
    (h : Prints us s) : Prints (.symbol [c] :: us) (c :: s) where
  quotes := by
    have none : [c].count 39 = 0 := writes_quotes spells_exactly denoted (.symbol listed)
    rw [← List.singleton_append, List.count_append, h.quotes, none, Nat.zero_add]
    rfl
  spans quoteless {more rest stop} breaks spans :=
    @Spans.cons exactly [] _ [c] _ _ _ nofun (.symbol listed) (symbol_endsBefore plain _)
      (h.spans quoteless breaks spans)

/-- A word with blanks around it. -/
theorem prints_spaced {t : Token} (plain : ∀ value, t ≠ .string value)
    (writes : t.Writes exactly w) (h : Prints us s) :
    Prints (t :: us) (32 :: (w ++ 32 :: s)) := by
  have back := prints_append (prints_token plain writes) (prints_blank h) (begins_blank s)
  exact prints_blank back

theorem prints_keyword (kw : Str) (known : kw ∈ keywords) (h : Prints us s) :
    Prints (.keyword kw :: us) (32 :: (kw ++ 32 :: s)) :=
  prints_spaced nofun (.keyword known rfl) h

theorem prints_word (kw : Str) (known : kw ∈ keywords) : Prints [.keyword kw] kw :=
  prints_token nofun (.keyword known rfl)

theorem prints_parentheses (h : Prints ts s) :
    Prints (.symbol (str "(") :: (ts ++ [.symbol (str ")")])) (str "(" ++ s ++ str ")") := by
  have close := prints_symbol (c := 41) (by decide) (by decide) prints_nil
  have inside := prints_append h close (begins_cons (by decide) [])
  exact prints_symbol (c := 40) (by decide) (by decide) inside

theorem prints_identifier {name : Str} (h : Identifier name) : Prints [.ident name] name :=
  prints_token nofun (.ident h)

variable {L : Lexicon}

theorem writes_ident {name w : Str} (h : Token.Writes spell (.ident name) w) :
    Identifier name := by
  cases h with
  | ident identifier => exact identifier

theorem column_prints {name : Str} (h : Column L name ts) (wrote : Wrote spell ts ws) :
    Prints (nameTokens name) name := by
  rw [← column_tokens h wrote]
  cases h with
  | bare =>
    obtain ⟨_, _, rfl, writes, _⟩ := wrote_cons wrote
    exact prints_identifier (writes_ident writes)
  | qualified =>
    obtain ⟨_, _, rfl, writes, wrote⟩ := wrote_cons wrote
    obtain ⟨_, _, rfl, _, wrote⟩ := wrote_cons wrote
    obtain ⟨_, _, rfl, writes', _⟩ := wrote_cons wrote
    have identifier := writes_ident writes
    have identifier' := writes_ident writes'
    have back := prints_symbol (c := 46) (by decide) (by decide) (prints_identifier identifier')
    rw [List.append_assoc]
    exact prints_append (prints_identifier identifier) back (begins_cons (by decide) _)

theorem opStr_compare (kind : CompareKind) : kind.opStr = 32 :: (operatorSymbol kind ++ [32]) := by
  cases kind <;> rfl

theorem opStr_boolean (kind : BooleanKind) : kind.opStr = 32 :: (booleanWord kind ++ [32]) := by
  cases kind <;> rfl

theorem int_prints (v : Int) :
    Prints [.int (decide (v < 0)) (decimal v.natAbs)] (decimalInt v) := by
  have text : decimalInt v = (if decide (v < 0) then [45] else []) ++ decimal v.natAbs := by
    rw [decimalInt]
    by_cases negative : v < 0
    · rw [if_pos negative, decide_eq_true negative, if_pos rfl]
      rfl
    · rw [if_neg negative, decide_eq_false negative]
      rfl
  obtain ⟨nonempty, all, _⟩ := decimal_digits v.natAbs
  rw [text]
  exact prints_token nofun (.int nonempty all)

theorem boolean_prints {kind : BooleanKind} {l r : ASTExpr} (left : Prints (exprTokens l) l.toSQL)
    (right : Prints (exprTokens r) r.toSQL) :
    Prints (exprTokens (.boolean kind l r)) (ASTExpr.boolean kind l r).toSQL := by
  have known : booleanWord kind ∈ keywords := by cases kind <;> decide
  have inside := prints_append left (prints_keyword _ known right) (begins_blank _)
  have text : (ASTExpr.boolean kind l r).toSQL =
      str "(" ++ (l.toSQL ++ 32 :: (booleanWord kind ++ 32 :: r.toSQL)) ++ str ")" := by
    simp [ASTExpr.toSQL, opStr_boolean]
  rw [text]
  exact prints_parentheses inside

theorem expr_prints {level : Level} {e : ASTExpr} (h : Expr L level e ts)
    (wrote : Wrote spell ts ws) : Prints (exprTokens e) e.toSQL := by
  induction h generalizing ws with
  | conjunction _ ih => exact ih wrote
  | negation _ ih => exact ih wrote
  | comparison _ _ ih => exact ih wrote
  | operand _ ih => exact ih wrote
  | or _ _ ih ih' =>
    obtain ⟨_, _, rfl, front, wrote⟩ := wrote_append wrote
    obtain ⟨_, _, rfl, _, back⟩ := wrote_cons wrote
    exact boolean_prints (ih front) (ih' back)
  | and _ _ ih ih' =>
    obtain ⟨_, _, rfl, front, wrote⟩ := wrote_append wrote
    obtain ⟨_, _, rfl, _, back⟩ := wrote_cons wrote
    exact boolean_prints (ih front) (ih' back)
  | not _ ih =>
    obtain ⟨_, _, rfl, _, wrote⟩ := wrote_cons wrote
    have front := prints_word (str "NOT") (by decide)
    exact prints_append front (prints_parentheses (ih wrote)) (begins_cons (by decide) _)
  | @compare kind l r _ _ _ _ ih ih' =>
    obtain ⟨_, _, rfl, front, wrote⟩ := wrote_append wrote
    obtain ⟨_, _, rfl, _, back⟩ := wrote_cons wrote
    have listed : operatorSymbol kind ∈ symbols := by cases kind <;> decide
    have text : (ASTExpr.comparison kind l r).toSQL =
        l.toSQL ++ 32 :: (operatorSymbol kind ++ 32 :: r.toSQL) := by
      simp [ASTExpr.toSQL, opStr_compare]
    rw [text]
    exact prints_append (ih front) (prints_spaced nofun (.symbol listed) (ih' back))
      (begins_blank _)
  | column column => exact column_prints column wrote
  | @int _ _ v _ => exact int_prints v
  | string =>
    obtain ⟨_, _, rfl, writes, _⟩ := wrote_cons wrote
    cases writes with
    | string ascii => exact prints_string ascii
  | parentheses _ ih =>
    obtain ⟨_, _, rfl, _, wrote⟩ := wrote_cons wrote
    obtain ⟨_, _, rfl, inside, _⟩ := wrote_append wrote
    exact ih inside

/-- A piece of text that nothing in front of it runs into. -/
structure PrintsClause (ts : List Token) (s : Str) : Prop extends Prints ts s where
  begins : Begins s

theorem clause_nil : PrintsClause [] [] := ⟨prints_nil, begins_nil⟩

theorem clause_append (front : PrintsClause ts s) (back : PrintsClause us s') :
    PrintsClause (ts ++ us) (s ++ s') :=
  ⟨prints_append front.toPrints back.toPrints back.begins, begins_append front.begins back.begins⟩

theorem clause_keyword (kw : Str) (known : kw ∈ keywords) (h : Prints us s) :
    PrintsClause (.keyword kw :: us) (32 :: (kw ++ 32 :: s)) :=
  ⟨prints_keyword kw known h, begins_blank _⟩

theorem items_print {α : Type} {item : α → List Token → Prop} {f : α → List Token} {g : α → Str}
    (each : ∀ {a ts ws}, item a ts → Wrote spell ts ws → Prints (f a) (g a)) {l : List α}
    (h : Items item l ts) (wrote : Wrote spell ts ws) :
    Prints (listTokens f l) (commaSeparated (l.map g)) := by
  induction h generalizing ws with
  | one shape => exact each shape wrote
  | @more a _ _ _ shape behind ih =>
    obtain ⟨_, _, rfl, front, wrote⟩ := wrote_append wrote
    obtain ⟨_, _, rfl, _, back⟩ := wrote_cons wrote
    obtain ⟨b, l, rfl⟩ := List.exists_cons_of_ne_nil (items_nonempty behind)
    have rest := prints_symbol (c := 44) (by decide) (by decide) (prints_blank (ih back))
    have text : commaSeparated ((a :: b :: l).map g) =
        g a ++ 44 :: 32 :: commaSeparated ((b :: l).map g) := by
      simp only [List.map_cons, commaSeparated, List.append_assoc]
      rfl
    rw [text]
    exact prints_append (each shape front) rest (begins_cons (by decide) _)

theorem projections_print {names : List Str} (h : Projections L names ts)
    (wrote : Wrote spell ts ws) : Prints (projectionTokens names)
      (if names = [] then str "*" else commaSeparated names) := by
  cases h with
  | star => exact prints_symbol (c := 42) (by decide) (by decide) prints_nil
  | columns items =>
    rw [projectionTokens, if_neg (items_nonempty items), if_neg (items_nonempty items)]
    have names := items_print (g := id) column_prints items wrote
    rwa [List.map_id] at names

theorem table_identifiers {table : TableRef} (h : Table L table ts) (wrote : Wrote spell ts ws) :
    Identifier table.tableName ∧ Identifier table.aliasName := by
  cases h with
  | bare =>
    obtain ⟨_, _, rfl, writes, _⟩ := wrote_cons wrote
    cases writes with
    | table identifier => exact ⟨identifier, identifier⟩
  | implicit =>
    obtain ⟨_, _, rfl, writes, wrote⟩ := wrote_cons wrote
    obtain ⟨_, _, rfl, writes', _⟩ := wrote_cons wrote
    exact ⟨writes_ident writes, writes_ident writes'⟩
  | explicit =>
    obtain ⟨_, _, rfl, writes, wrote⟩ := wrote_cons wrote
    obtain ⟨_, _, rfl, _, wrote⟩ := wrote_cons wrote
    obtain ⟨_, _, rfl, writes', _⟩ := wrote_cons wrote
    exact ⟨writes_ident writes, writes_ident writes'⟩

theorem table_prints {table : TableRef} (h : Table L table ts) (wrote : Wrote spell ts ws) :
    Prints (tableTokens table) (table.tableName ++
      if table.aliasName ≠ table.tableName then str " AS " ++ table.aliasName else []) := by
  obtain ⟨name, other⟩ := table_identifiers h wrote
  by_cases own : table.aliasName = table.tableName
  · rw [tableTokens, if_pos own, if_neg (not_not.mpr own), List.append_nil]
    exact prints_token nofun (.table name)
  · have renamed := prints_keyword (str "AS") (by decide) (prints_identifier other)
    rw [tableTokens, if_neg own, if_pos own]
    exact prints_append (prints_identifier name) renamed (begins_blank _)

theorem join_prints {join : JoinClause} (h : Join L join ts) (wrote : Wrote spell ts ws) :
    ∃ s, join.toSQL = some s ∧ PrintsClause (joinTokens join) s := by
  cases h with
  | @mk inner table _ e _ _ shape expr =>
    obtain ⟨_, _, rfl, _, wrote⟩ := wrote_append wrote
    obtain ⟨_, _, rfl, _, wrote⟩ := wrote_cons wrote
    obtain ⟨_, _, rfl, front, wrote⟩ := wrote_append wrote
    obtain ⟨_, _, rfl, _, back⟩ := wrote_cons wrote
    have on := clause_keyword (str "ON") (by decide) (expr_prints expr back)
    have named := prints_append (table_prints shape front) on.toPrints on.begins
    refine ⟨_, rfl, ?_⟩
    have whole := clause_keyword (str "JOIN") (by decide) named
    simp only [List.append_assoc]
    simp only [List.append_assoc] at whole
    exact whole

theorem joins_print {joins : List JoinClause} (h : Joins L joins ts) (wrote : Wrote spell ts ws) :
    ∃ texts, joins.mapM JoinClause.toSQL = some texts ∧
      PrintsClause (joins.flatMap joinTokens) texts.flatten := by
  induction h generalizing ws with
  | nil => exact ⟨[], rfl, clause_nil⟩
  | cons join _ ih =>
    obtain ⟨_, _, rfl, front, back⟩ := wrote_append wrote
    obtain ⟨s, text, prints⟩ := join_prints join front
    obtain ⟨texts, rest, prints'⟩ := ih back
    refine ⟨s :: texts, ?_, clause_append prints prints'⟩
    rw [List.mapM_cons, text, rest]
    rfl

def conditionText (kw : Str) : Option ASTExpr → Str
  | none => []
  | some e => 32 :: (kw ++ 32 :: e.toSQL)

theorem where_prints {whereClause : Option ASTExpr} (h : Where L whereClause ts)
    (wrote : Wrote spell ts ws) : PrintsClause (conditionTokens (str "WHERE") whereClause)
      (conditionText (str "WHERE") whereClause) := by
  cases h with
  | absent => exact clause_nil
  | present expr =>
    obtain ⟨_, _, rfl, _, wrote⟩ := wrote_cons wrote
    exact clause_keyword (str "WHERE") (by decide) (expr_prints expr wrote)

theorem orderItem_prints {item : OrderByColumn} (h : OrderItem L item ts)
    (wrote : Wrote spell ts ws) : Prints (orderItemTokens item) item.toSQL := by
  cases h with
  | @mk name direction _ _ column _ =>
    obtain ⟨_, _, rfl, front, _⟩ := wrote_append wrote
    have name := column_prints column front
    cases direction with
    | Ascending => exact prints_append name prints_nil begins_nil
    | Descending =>
      have down := prints_blank (prints_word (str "DESC") (by decide))
      exact prints_append name down (begins_blank _)

theorem orderBy_prints {order : List OrderByColumn} (h : OrderBy L order ts)
    (wrote : Wrote spell ts ws) : PrintsClause (orderTokens order)
      (if order = [] then [] else
        str " ORDER BY " ++ commaSeparated (order.map OrderByColumn.toSQL)) := by
  cases h with
  | absent => exact clause_nil
  | present items =>
    obtain ⟨_, _, rfl, _, wrote⟩ := wrote_cons wrote
    obtain ⟨_, _, rfl, _, wrote⟩ := wrote_cons wrote
    have items' := items_print (g := OrderByColumn.toSQL) orderItem_prints items wrote
    have by_ := prints_append (prints_word (str "BY") (by decide)) (prints_blank items')
      (begins_blank _)
    rw [orderTokens, if_neg (items_nonempty items), if_neg (items_nonempty items)]
    exact clause_keyword (str "ORDER") (by decide) by_

theorem limit_prints (limit : Int) : PrintsClause (limitTokens limit)
    (if 0 ≤ limit then str " LIMIT " ++ decimalInt limit else []) := by
  by_cases positive : 0 ≤ limit
  · rw [limitTokens, if_pos positive, if_pos positive]
    exact clause_keyword (str "LIMIT") (by decide) (int_prints limit)
  · rw [limitTokens, if_neg positive, if_neg positive]
    exact clause_nil

/-- The text in print, with its parts in the order of the source. -/
theorem toSQL_parts {stmt : SelectStatement} {texts : List Str}
    (printed : stmt.joins.mapM JoinClause.toSQL = some texts) (named : stmt.tableAlias ≠ []) :
    stmt.toSQL = some (str "SELECT" ++ 32 :: (
      (if stmt.projections = [] then str "*" else commaSeparated stmt.projections) ++
      32 :: (str "FROM" ++ 32 :: ((stmt.tableName ++
        if stmt.tableAlias ≠ stmt.tableName then str " AS " ++ stmt.tableAlias else []) ++
      (texts.flatten ++ (conditionText (str "WHERE") stmt.whereClause ++
        ((if stmt.orderByColumns = [] then []
          else str " ORDER BY " ++ commaSeparated (stmt.orderByColumns.map OrderByColumn.toSQL)) ++
        if 0 ≤ stmt.limitCount then str " LIMIT " ++ decimalInt stmt.limitCount else []))))))) := by
  rw [SelectStatement.toSQL, printed]
  simp only [Option.pure_def, Option.bind_eq_bind, Option.bind_some, ne_eq, named,
    not_false_eq_true, true_and, List.append_assoc]
  cases stmt.whereClause <;> rfl

/-- A statement that was parsed can be printed, and its text prints its tokens. -/
theorem select_prints {stmt : SelectStatement} (h : Select L stmt ts) (wrote : Wrote spell ts ws) :
    ∃ sql, stmt.toSQL = some sql ∧ Prints (statementTokens stmt) sql := by
  obtain ⟨ps, tb, js, inner, fs, os, ls, rfl, hp, ht, hj, _, hw, ho, hl⟩ := select_parts h
  obtain ⟨_, _, _, _, _, _, rfl, wroteP, wroteT, wroteJ, wrote⟩ := select_words wrote
  obtain ⟨_, _, rfl, _, wrote⟩ := wrote_append wrote
  obtain ⟨_, _, rfl, wroteW, wrote⟩ := wrote_append wrote
  obtain ⟨_, _, rfl, wroteO, _⟩ := wrote_append wrote
  obtain ⟨texts, printed, joins⟩ := joins_print hj wroteJ
  have tail := clause_append joins (clause_append (where_prints hw wroteW)
    (clause_append (orderBy_prints ho wroteO) (limit_prints stmt.limitCount)))
  have from_ := clause_keyword (str "FROM") (by decide)
    (prints_append (table_prints ht wroteT) tail.toPrints tail.begins)
  have select := prints_append (prints_word (str "SELECT") (by decide))
    (prints_blank (prints_append (projections_print hp wroteP) from_.toPrints from_.begins))
    (begins_blank _)
  have named : stmt.tableAlias ≠ [] := by
    obtain ⟨_, c, tail, same, _⟩ := table_identifiers ht wroteT
    rw [show stmt.tableAlias = c :: tail from same]
    exact List.cons_ne_nil c tail
  exact ⟨_, toSQL_parts printed named, select⟩

theorem renders_prints {stmt : SelectStatement} (h : Renders L stmt ts)
    (wrote : Wrote spell ts ws) :
    ∃ sql, stmt.toSQL = some sql ∧ Prints (statementTokens stmt) sql := by
  cases h with
  | plain select => exact select_prints select wrote
  | terminated select =>
    obtain ⟨_, _, rfl, wrote, _⟩ := wrote_append wrote
    exact select_prints select wrote

end FheSql.PrintedStatement
