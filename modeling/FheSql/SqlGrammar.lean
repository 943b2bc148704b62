import FheSql.SqlTokens

/-!
# The grammar of statements

The grammar at the top of `parser/parser.cpp`, with the clauses that
`include/proto2/parser.h` and the README add to it. A lexicon says which
words and numbers may stand where: the documented one has identifiers that are
no keywords and numbers that are what their digits say, the accepted one all
that the parser lets pass.
-/

namespace FheSql.SqlGrammar

open ByteText SQLParser SqlTokens

/-- `operand` is an identifier that may begin a comparison, `implicitAlias` one that
may follow a table name without AS, and `strayInner` lets an INNER stand alone. -/
structure Lexicon where
  ident : Str → Prop
  operand : Str → Prop
  implicitAlias : Str → Prop
  number : Bool → Str → Int → Prop
  strayInner : Prop

/-- The number written by decimal digits. -/
def decimalValue (digits : Str) : Nat := digits.foldl (fun v c => 10 * v + (c.toNat - 48)) 0

def NoKeyword (name : Str) : Prop := toUpper name ∉ keywords

/-- The documented words and numbers. -/
def documented : Lexicon where
  ident := NoKeyword
  operand := NoKeyword
  implicitAlias := NoKeyword
  number neg digits v := (∀ c ∈ digits, isDigit c = true) ∧ decimalValue digits ≤ 2 ^ 63 - 1 ∧
    v = if neg then -(decimalValue digits : Int) else decimalValue digits
  strayInner := False

/-- What the parser accepts: NOT begins no comparison, AS and the clause words in upper
case are no implicit aliases, and digits are read in two's complement. -/
def accepted : Lexicon where
  ident _ := True
  operand name := toUpper name ≠ str "NOT"
  implicitAlias name := toUpper name ≠ str "AS" ∧ name ∉ clauseWords
  number neg digits v := v = readInt neg digits
  strayInner := True

variable (L : Lexicon)

/-- `ident` or `ident . ident`. -/
inductive Column : Str → List Token → Prop where
  | bare {name} : L.ident name → Column name [.ident name]
  | qualified {table name} : L.ident table → L.ident name →
      Column (table ++ str "." ++ name) [.ident table, .symbol (str "."), .ident name]

/-- Items with commas between them. -/
inductive Items {α : Type} (item : α → List Token → Prop) : List α → List Token → Prop where
  | one {a ts} : item a ts → Items item [a] ts
  | more {a l ts us} : item a ts → Items item l us →
      Items item (a :: l) (ts ++ .symbol (str ",") :: us)

/-- The productions of an expression, from the loosest to the tightest. -/
inductive Level where
  | or
  | and
  | not
  | comparison
  | primary

def operatorSymbol : CompareKind → Str
  | .Equal => str "="
  | .NotEqual => str "!="
  | .GreaterThan => str ">"
  | .LessThan => str "<"
  | .GreaterEqual => str ">="
  | .LessEqual => str "<="

inductive Expr : Level → ASTExpr → List Token → Prop where
  | conjunction {e ts} : Expr .and e ts → Expr .or e ts
  | or {left right ts us} : Expr .or left ts → Expr .and right us →
      Expr .or (.boolean .Or left right) (ts ++ .keyword (str "OR") :: us)
  | negation {e ts} : Expr .not e ts → Expr .and e ts
  | and {left right ts us} : Expr .and left ts → Expr .not right us →
      Expr .and (.boolean .And left right) (ts ++ .keyword (str "AND") :: us)
  | comparison {e ts} : (∀ name, ts.head? = some (.ident name) → L.operand name) →
      Expr .comparison e ts → Expr .not e ts
  | not {e ts} : Expr .not e ts → Expr .not (.notExpr e) (.keyword (str "NOT") :: ts)
  | operand {e ts} : Expr .primary e ts → Expr .comparison e ts
  | compare {kind left right ts us} : Expr .primary left ts → Expr .primary right us →
      Expr .comparison (.comparison kind left right) (ts ++ .symbol (operatorSymbol kind) :: us)
  | column {name ts} : Column L name ts → Expr .primary (.columnRef name) ts
  | int {neg digits v} : L.number neg digits v → Expr .primary (.intLiteral v) [.int neg digits]
  | string {value} : Expr .primary (.stringLiteral value) [.string value]
  | parentheses {e ts} : Expr .or e ts →
      Expr .primary e (.symbol (str "(") :: (ts ++ [.symbol (str ")")]))

inductive Projections : List Str → List Token → Prop where
  | star : Projections [] [.symbol (str "*")]
  | columns {names ts} : Items (Column L) names ts → Projections names ts

/-- A table name, with its alias behind AS or without AS, or as its own alias. -/
inductive Table : TableRef → List Token → Prop where
  | bare {t} : L.ident t → Table ⟨t, t⟩ [.table t]
  | implicit {t a} : L.ident t → L.ident a → L.implicitAlias a → Table ⟨t, a⟩ [.ident t, .ident a]
  | explicit {t a} : L.ident t → L.ident a →
      Table ⟨t, a⟩ [.ident t, .keyword (str "AS"), .ident a]

/-- The optional INNER. -/
inductive Inner : List Token → Prop where
  | absent : Inner []
  | present : Inner [.keyword (str "INNER")]

inductive Join : JoinClause → List Token → Prop where
  | mk {inner table ts e us} : Inner inner → Table L table ts → Expr L .or e us →
      Join ⟨table, some e⟩
        (inner ++ .keyword (str "JOIN") :: (ts ++ .keyword (str "ON") :: us))

inductive Joins : List JoinClause → List Token → Prop where
  | nil : Joins [] []
  | cons {join joins ts us} : Join L join ts → Joins joins us → Joins (join :: joins) (ts ++ us)

inductive Where : Option ASTExpr → List Token → Prop where
  | absent : Where none []
  | present {e ts} : Expr L .or e ts → Where (some e) (.keyword (str "WHERE") :: ts)

inductive Direction : SortDirection → List Token → Prop where
  | absent : Direction .Ascending []
  | ascending : Direction .Ascending [.keyword (str "ASC")]
  | descending : Direction .Descending [.keyword (str "DESC")]

inductive OrderItem : OrderByColumn → List Token → Prop where
  | mk {name direction ts us} : Column L name ts → Direction direction us →
      OrderItem ⟨name, direction⟩ (ts ++ us)

inductive OrderBy : List OrderByColumn → List Token → Prop where
  | absent : OrderBy [] []
  | present {items ts} : Items (OrderItem L) items ts →
      OrderBy items (.keyword (str "ORDER") :: .keyword (str "BY") :: ts)

inductive Limit : Int → List Token → Prop where
  | absent : Limit (-1) []
  | present {neg digits v} : L.number neg digits v → 0 ≤ v →
      Limit v [.keyword (str "LIMIT"), .int neg digits]

inductive Select : SelectStatement → List Token → Prop where
  | mk {projections ps table ts joins js inner whereClause ws order os limit ls} :
      Projections L projections ps → Table L table ts → Joins L joins js →
      (inner = [] ∨ L.strayInner ∧ inner = [.keyword (str "INNER")]) →
      Where L whereClause ws → OrderBy L order os → Limit L limit ls →
      Select
        { projections := projections
          tableName := table.tableName
          tableAlias := table.aliasName
          joins := joins
          whereClause := whereClause
          orderByColumns := order
          limitCount := limit }
        (.keyword (str "SELECT") :: (ps ++ .keyword (str "FROM") ::
          (ts ++ (js ++ (inner ++ (ws ++ (os ++ ls)))))))

/-- A statement with or without a semicolon behind it. -/
inductive Renders : SelectStatement → List Token → Prop where
  | plain {stmt ts} : Select L stmt ts → Renders stmt ts
  | terminated {stmt ts} : Select L stmt ts → Renders stmt (ts ++ [.symbol (str ";")])

structure Lexicon.Within (L M : Lexicon) : Prop where
  ident : ∀ name, L.ident name → M.ident name
  operand : ∀ name, L.operand name → M.operand name
  implicitAlias : ∀ name, L.implicitAlias name → M.implicitAlias name
  number : ∀ neg digits v, L.number neg digits v → M.number neg digits v
  strayInner : L.strayInner → M.strayInner

/-- The words of one lexicon, and its numbers among some tokens, belong to another. -/
structure Lexicon.CoveredBy (S : Token → Prop) (L M : Lexicon) : Prop where
  ident : ∀ name, L.ident name → M.ident name
  operand : ∀ name, L.operand name → M.operand name
  implicitAlias : ∀ name, L.implicitAlias name → M.implicitAlias name
  number : ∀ neg digits v, S (.int neg digits) → L.number neg digits v → M.number neg digits v

variable {L} {M : Lexicon} {S : Token → Prop} {ts : List Token}

theorem Lexicon.Within.covered (w : L.Within M) : L.CoveredBy (fun _ => True) M where
  ident := w.ident
  operand := w.operand
  implicitAlias := w.implicitAlias
  number neg digits v _ := w.number neg digits v

theorem column_covered (w : L.CoveredBy S M) {name : Str} (h : Column L name ts) :
    Column M name ts := by
  cases h with
  | bare known => exact .bare (w.ident _ known)
  | qualified known known' => exact .qualified (w.ident _ known) (w.ident _ known')

theorem items_covered {α : Type} {item item' : α → List Token → Prop}
    (covered : ∀ {a ts}, item a ts → item' a ts) {l : List α} (h : Items item l ts) :
    Items item' l ts := by
  induction h with
  | one shape => exact .one (covered shape)
  | more shape _ ih => exact .more (covered shape) ih

theorem projections_covered (w : L.CoveredBy S M) {names : List Str} (h : Projections L names ts) :
    Projections M names ts := by
  cases h with
  | star => exact .star
  | columns items => exact .columns (items_covered (column_covered w) items)

theorem expr_covered (w : L.CoveredBy S M) {level : Level} {e : ASTExpr} (h : Expr L level e ts)
    (all : ∀ t ∈ ts, S t) : Expr M level e ts := by
  induction h with
  | conjunction _ ih => exact .conjunction (ih all)
  | or _ _ ih ih' =>
    obtain ⟨front, back⟩ := List.forall_mem_append.mp all
    exact .or (ih front) (ih' (List.forall_mem_cons.mp back).2)
  | negation _ ih => exact .negation (ih all)
  | and _ _ ih ih' =>
    obtain ⟨front, back⟩ := List.forall_mem_append.mp all
    exact .and (ih front) (ih' (List.forall_mem_cons.mp back).2)
  | comparison starts _ ih =>
    exact .comparison (fun name head => w.operand name (starts name head)) (ih all)
  | not _ ih => exact .not (ih (List.forall_mem_cons.mp all).2)
  | operand _ ih => exact .operand (ih all)
  | compare _ _ ih ih' =>
    obtain ⟨front, back⟩ := List.forall_mem_append.mp all
    exact .compare (ih front) (ih' (List.forall_mem_cons.mp back).2)
  | column column => exact .column (column_covered w column)
  | int value => exact .int (w.number _ _ _ (all _ List.mem_cons_self) value)
  | string => exact .string
  | parentheses _ ih =>
    obtain ⟨_, inside⟩ := List.forall_mem_cons.mp all
    exact .parentheses (ih (List.forall_mem_append.mp inside).1)

theorem table_covered (w : L.CoveredBy S M) {table : TableRef} (h : Table L table ts) :
    Table M table ts := by
  cases h with
  | bare known => exact .bare (w.ident _ known)
  | implicit known known' other =>
    exact .implicit (w.ident _ known) (w.ident _ known') (w.implicitAlias _ other)
  | explicit known known' => exact .explicit (w.ident _ known) (w.ident _ known')

theorem joins_covered (w : L.CoveredBy S M) {joins : List JoinClause} (h : Joins L joins ts)
    (all : ∀ t ∈ ts, S t) : Joins M joins ts := by
  induction h with
  | nil => exact .nil
  | cons join _ ih =>
    obtain ⟨front, back⟩ := List.forall_mem_append.mp all
    cases join with
    | mk inner table expr =>
      simp only [List.forall_mem_append, List.forall_mem_cons] at front
      exact .cons (.mk inner (table_covered w table) (expr_covered w expr front.2.2.2.2)) (ih back)

theorem where_covered (w : L.CoveredBy S M) {whereClause : Option ASTExpr}
    (h : Where L whereClause ts) (all : ∀ t ∈ ts, S t) : Where M whereClause ts := by
  cases h with
  | absent => exact .absent
  | present expr => exact .present (expr_covered w expr (List.forall_mem_cons.mp all).2)

theorem orderBy_covered (w : L.CoveredBy S M) {order : List OrderByColumn}
    (h : OrderBy L order ts) : OrderBy M order ts := by
  cases h with
  | absent => exact .absent
  | present items =>
    refine .present (items_covered (fun item => ?_) items)
    cases item with
    | mk column direction => exact .mk (column_covered w column) direction

theorem limit_covered (w : L.CoveredBy S M) {limit : Int} (h : Limit L limit ts)
    (all : ∀ t ∈ ts, S t) : Limit M limit ts := by
  cases h with
  | absent => exact .absent
  | present value positive =>
    have number := all _ (List.mem_cons_of_mem _ List.mem_cons_self)
    exact .present (w.number _ _ _ number value) positive

theorem renders_within (w : L.Within M) {stmt : SelectStatement} (h : Renders L stmt ts) :
    Renders M stmt ts := by
  have select : ∀ {stmt ts}, Select L stmt ts → Select M stmt ts := by
    rintro stmt ts ⟨projections, table, joins, stray, whereClause, order, limit⟩
    have c := w.covered
    exact .mk (projections_covered c projections) (table_covered c table)
      (joins_covered c joins fun _ _ => trivial) (stray.imp_right fun h => ⟨w.strayInner h.1, h.2⟩)
      (where_covered c whereClause fun _ _ => trivial) (orderBy_covered c order)
      (limit_covered c limit fun _ _ => trivial)
  cases h with
  | plain h => exact .plain (select h)
  | terminated h => exact .terminated (select h)

/-- All tokens but INNER, the semicolon and a table name without alias. -/
def ClauseToken : Token → Prop
  | .keyword kw => kw ≠ str "INNER"
  | .table _ => False
  | .symbol s => s ≠ str ";"
  | _ => True

theorem keyword_clausal {kw : Str} (other : kw ≠ str "INNER") {ts : List Token}
    (h : ∀ t ∈ ts, ClauseToken t) : ∀ t ∈ .keyword kw :: ts, ClauseToken t :=
  List.forall_mem_cons.mpr ⟨other, h⟩

theorem column_clausal {name : Str} (h : Column L name ts) : ∀ t ∈ ts, ClauseToken t := by
  have point : str "." ≠ str ";" := by decide
  cases h <;> simp [ClauseToken, point]

theorem items_clausal {α : Type} {item : α → List Token → Prop}
    (clausal : ∀ {a ts}, item a ts → ∀ t ∈ ts, ClauseToken t) {l : List α} (h : Items item l ts) :
    ∀ t ∈ ts, ClauseToken t := by
  induction h with
  | one shape => exact clausal shape
  | more shape _ ih =>
    have comma : str "," ≠ str ";" := by decide
    exact List.forall_mem_append.mpr ⟨clausal shape, List.forall_mem_cons.mpr ⟨comma, ih⟩⟩

theorem operatorSymbol_clausal (kind : CompareKind) :
    ClauseToken (.symbol (operatorSymbol kind)) := by
  change operatorSymbol kind ≠ str ";"
  cases kind <;> decide

theorem expr_clausal {level : Level} {e : ASTExpr} (h : Expr L level e ts) :
    ∀ t ∈ ts, ClauseToken t := by
  induction h with
  | conjunction _ ih => exact ih
  | or _ _ ih ih' => exact List.forall_mem_append.mpr ⟨ih, keyword_clausal (by decide) ih'⟩
  | negation _ ih => exact ih
  | and _ _ ih ih' => exact List.forall_mem_append.mpr ⟨ih, keyword_clausal (by decide) ih'⟩
  | comparison _ _ ih => exact ih
  | not _ ih => exact keyword_clausal (by decide) ih
  | operand _ ih => exact ih
  | @compare kind _ _ _ _ _ _ ih ih' =>
    exact List.forall_mem_append.mpr
      ⟨ih, List.forall_mem_cons.mpr ⟨operatorSymbol_clausal kind, ih'⟩⟩
  | column column => exact column_clausal column
  | int => exact List.forall_mem_singleton.mpr trivial
  | string => exact List.forall_mem_singleton.mpr trivial
  | parentheses _ ih =>
    have left : str "(" ≠ str ";" := by decide
    have right : str ")" ≠ str ";" := by decide
    exact List.forall_mem_cons.mpr
      ⟨left, List.forall_mem_append.mpr ⟨ih, List.forall_mem_singleton.mpr right⟩⟩

theorem projections_clausal {names : List Str} (h : Projections L names ts) :
    ∀ t ∈ ts, ClauseToken t := by
  cases h with
  | star =>
    have star : str "*" ≠ str ";" := by decide
    exact List.forall_mem_singleton.mpr star
  | columns items => exact items_clausal column_clausal items

theorem where_clausal {whereClause : Option ASTExpr} (h : Where L whereClause ts) :
    ∀ t ∈ ts, ClauseToken t := by
  cases h with
  | absent => exact nofun
  | present expr => exact keyword_clausal (by decide) (expr_clausal expr)

theorem orderItem_clausal {item : OrderByColumn} (h : OrderItem L item ts) :
    ∀ t ∈ ts, ClauseToken t := by
  cases h with
  | mk column direction =>
    refine List.forall_mem_append.mpr ⟨column_clausal column, ?_⟩
    cases direction with
    | absent => exact nofun
    | ascending => exact keyword_clausal (by decide) nofun
    | descending => exact keyword_clausal (by decide) nofun

theorem orderBy_clausal {order : List OrderByColumn} (h : OrderBy L order ts) :
    ∀ t ∈ ts, ClauseToken t := by
  cases h with
  | absent => exact nofun
  | present items =>
    have items := items_clausal orderItem_clausal items
    exact keyword_clausal (by decide) (keyword_clausal (by decide) items)

theorem limit_clausal {limit : Int} (h : Limit L limit ts) : ∀ t ∈ ts, ClauseToken t := by
  cases h with
  | absent => exact nofun
  | present => exact keyword_clausal (by decide) (List.forall_mem_singleton.mpr trivial)

/-- A table has an alias, or it is one name. -/
theorem table_clausal {table : TableRef} (h : Table L table ts) :
    (∀ t ∈ ts, ClauseToken t) ∨
      ts = [.table table.tableName] ∧ table.aliasName = table.tableName := by
  cases h with
  | bare => exact Or.inr ⟨rfl, rfl⟩
  | implicit => exact Or.inl (by simp [ClauseToken])
  | explicit =>
    refine Or.inl (List.forall_mem_cons.mpr ⟨trivial, keyword_clausal (by decide) ?_⟩)
    exact List.forall_mem_singleton.mpr trivial

/-- The parts of a statement. -/
theorem select_parts {stmt : SelectStatement} (h : Select L stmt ts) :
    ∃ ps tb js inner ws os ls,
      ts = .keyword (str "SELECT") :: (ps ++ .keyword (str "FROM") ::
        (tb ++ (js ++ (inner ++ (ws ++ (os ++ ls)))))) ∧
      Projections L stmt.projections ps ∧ Table L ⟨stmt.tableName, stmt.tableAlias⟩ tb ∧
      Joins L stmt.joins js ∧ (inner = [] ∨ L.strayInner ∧ inner = [.keyword (str "INNER")]) ∧
      Where L stmt.whereClause ws ∧ OrderBy L stmt.orderByColumns os ∧
      Limit L stmt.limitCount ls := by
  cases h with
  | mk hp ht hj stray hw ho hl =>
    exact ⟨_, _, _, _, _, _, _, rfl, hp, ht, hj, stray, hw, ho, hl⟩

end FheSql.SqlGrammar
