import FheSql.LiteralRange
import FheSql.ParserSoundness
import FheSql.PrintedStatement

/-!
# Texts with other integers

The integers of a WHERE can be replaced by any others of `int64_t`: there is a text
that is parsed to the new statement, and the analyzer and the layout of the predicate say
of it what they say of the first. Only the encryption of proto1 sees the values.
-/

namespace FheSql.AlteredIntegers

open ByteText Throwing SQLParser SqlTokens SqlGrammar SqlWords StatementCompleteness
open IntegerLiterals PrintedStatement ParserSoundness SemanticAnalyzer AnalyzedStatement
open StatementLiterals QueryEncryptor LiteralRange

/-- Two expressions that differ in their integers only. -/
inductive Alters : ASTExpr → ASTExpr → Prop where
  | columnRef {name} : Alters (.columnRef name) (.columnRef name)
  | intLiteral {v v'} : Alters (.intLiteral v) (.intLiteral v')
  | stringLiteral {v} : Alters (.stringLiteral v) (.stringLiteral v)
  | comparison {kind l l' r r'} : Alters l l' → Alters r r' →
      Alters (.comparison kind l r) (.comparison kind l' r')
  | boolean {kind l l' r r'} : Alters l l' → Alters r r' →
      Alters (.boolean kind l r) (.boolean kind l' r')
  | notExpr {e e'} : Alters e e' → Alters (.notExpr e) (.notExpr e')

/-- The expression with one integer in the place of all. -/
def setIntegers (v : Int) : ASTExpr → ASTExpr
  | .columnRef name => .columnRef name
  | .intLiteral _ => .intLiteral v
  | .stringLiteral text => .stringLiteral text
  | .comparison kind l r => .comparison kind (setIntegers v l) (setIntegers v r)
  | .boolean kind l r => .boolean kind (setIntegers v l) (setIntegers v r)
  | .notExpr e => .notExpr (setIntegers v e)

/-- The text `sql'` is parsed as `sql` is, but for the integers of the WHERE. -/
def AlteredText (sql sql' : Str) : Prop :=
  ∃ stmt e e', parse sql = .ok stmt ∧ stmt.whereClause = some e ∧ Alters e e' ∧
    parse sql' = .ok { stmt with whereClause := some e' }

/-- The character codes that are encrypted for the strings of a condition. -/
def codes (schema : TableSchema) : ASTExpr → List Int
  | .columnRef _ | .intLiteral _ | .stringLiteral _ => []
  | .comparison _ l r =>
    match stringComparison? l r with
    | some (column, literal) =>
      match schema.column (bareName column) with
      | .ok c => (List.range c.maxLength).map (characterCode literal)
      | .error _ => []
    | none => codes schema l ++ codes schema r
  | .boolean _ l r => codes schema l ++ codes schema r
  | .notExpr e => codes schema e

/-- What the stages behind the parser ask of a statement apart from its integers. -/
def LetsThrough (accepts : Int → Prop) (cat : Catalog) (stmt : SelectStatement) (e : ASTExpr) :
    Prop :=
  ∃ schema, analyze cat stmt = .ok schema ∧ LaysOut schema e ∧ ∀ c ∈ codes schema e, accepts c

section Alterations

variable {e e' : ASTExpr} {schema : TableSchema}

theorem alters_setIntegers (v : Int) (e : ASTExpr) : Alters e (setIntegers v e) := by
  induction e with
  | columnRef => exact .columnRef
  | intLiteral => exact .intLiteral
  | stringLiteral => exact .stringLiteral
  | comparison _ _ _ ihl ihr => exact .comparison ihl ihr
  | boolean _ _ _ ihl ihr => exact .boolean ihl ihr
  | notExpr _ ih => exact .notExpr ih

theorem alters_refl (e : ASTExpr) : Alters e e := by
  induction e with
  | columnRef => exact .columnRef
  | intLiteral => exact .intLiteral
  | stringLiteral => exact .stringLiteral
  | comparison _ _ _ ihl ihr => exact .comparison ihl ihr
  | boolean _ _ _ ihl ihr => exact .boolean ihl ihr
  | notExpr _ ih => exact .notExpr ih

theorem exprNumbers_setIntegers (v : Int) (e : ASTExpr) :
    ∀ u ∈ exprNumbers (setIntegers v e), u = v := by
  induction e with
  | columnRef | stringLiteral => exact fun u mem => (List.not_mem_nil mem).elim
  | intLiteral => exact fun u mem => List.mem_singleton.mp mem
  | comparison _ _ _ ihl ihr | boolean _ _ _ ihl ihr =>
    intro u mem
    rcases List.mem_append.mp mem with mem | mem
    · exact ihl u mem
    · exact ihr u mem
  | notExpr _ ih => exact ih

theorem stringComparison?_alters {l l' r r' : ASTExpr} (hl : Alters l l') (hr : Alters r r') :
    stringComparison? l' r' = stringComparison? l r := by
  cases hl <;> cases hr <;> rfl

theorem codes_alters (h : Alters e e') : codes schema e' = codes schema e := by
  induction h with
  | columnRef | intLiteral | stringLiteral => rfl
  | comparison hl hr ihl ihr =>
    simp only [codes, stringComparison?_alters hl hr, ihl, ihr]
  | boolean _ _ ihl ihr => simp only [codes, ihl, ihr]
  | notExpr _ ih => simp only [codes, ih]

theorem laysOut_alters (h : Alters e e') : LaysOut schema e' ↔ LaysOut schema e := by
  induction h with
  | columnRef | intLiteral | stringLiteral => exact Iff.rfl
  | comparison hl hr ihl ihr =>
    simp only [LaysOut, stringComparison?_alters hl hr]
    cases stringComparison? _ _ with
    | none => simp only [ihl, ihr]
    | some => exact Iff.rfl
  | boolean _ _ ihl ihr => simp only [LaysOut, ihl, ihr]
  | notExpr _ ih => simp only [LaysOut, ih]

/-- The compared integers stand in the same places. -/
theorem comparedIntegers_alters (h : Alters e e') :
    (comparedIntegers e').length = (comparedIntegers e).length := by
  induction h with
  | columnRef | intLiteral | stringLiteral => rfl
  | comparison hl hr _ _ => cases hl <;> cases hr <;> rfl
  | boolean _ _ ihl ihr => simp only [comparedIntegers, List.length_append, ihl, ihr]
  | notExpr _ ih => simp only [comparedIntegers, ih]

theorem comparedIntegers_subset (e : ASTExpr) : comparedIntegers e ⊆ exprNumbers e := by
  induction e with
  | columnRef | intLiteral | stringLiteral => exact List.nil_subset _
  | comparison kind l r =>
    intro v mem
    cases l <;> cases r <;> first
      | exact (List.not_mem_nil mem).elim
      | exact mem
  | boolean _ _ _ ihl ihr =>
    exact List.append_subset.mpr ⟨List.subset_append_of_subset_left _ ihl,
      List.subset_append_of_subset_right _ ihr⟩
  | notExpr _ ih => exact ih

/-- The encrypted scalars are the characters and the integers. -/
theorem mem_scalars {v : Int} :
    v ∈ scalars schema e ↔ v ∈ codes schema e ∨ v ∈ exprNumbers e := by
  induction e with
  | columnRef | intLiteral | stringLiteral => simp [scalars, codes, exprNumbers]
  | comparison kind l r ihl ihr =>
    cases hs : stringComparison? l r with
    | none =>
      simp only [scalars, codes, exprNumbers, hs, List.mem_append, ihl, ihr]
      tauto
    | some pair =>
      have none : exprNumbers l ++ exprNumbers r = [] := by
        cases l <;> cases r <;> first
          | rfl
          | cases hs
      cases column : schema.column (bareName pair.1) with
      | ok | error => simp [scalars, codes, exprNumbers, hs, none, column]
  | boolean _ _ _ ihl ihr =>
    simp only [scalars, codes, exprNumbers, List.mem_append, ihl, ihr]
    tauto
  | notExpr _ ih => exact ih

end Alterations

section Analysis

variable {cat : Catalog} {stmt : SelectStatement} {schema : TableSchema} {e e' : ASTExpr}

theorem validateExpr_altered (h : Alters e e') (whereClause : Option ASTExpr) :
    validateExpr cat { stmt with whereClause := whereClause } e' = .ok () ↔
      validateExpr cat stmt e = .ok () := by
  induction h with
  | columnRef | intLiteral | stringLiteral => exact Iff.rfl
  | comparison hl hr _ _ =>
    simp only [validateExpr, validateComparison_ok_iff]
    cases hl <;> cases hr <;> exact Iff.rfl
  | boolean _ _ ihl ihr =>
    simp only [validateExpr, bind_ok_iff]
    exact exists_congr fun _ => and_congr ihl ihr
  | notExpr _ ih => exact ih

/-- The analyzer does not look at the value of an integer. -/
theorem analyze_altered (clause : stmt.whereClause = some e) (h : Alters e e') :
    analyze cat { stmt with whereClause := some e' } = .ok schema ↔
      analyze cat stmt = .ok schema := by
  rw [analyze_ok_iff, analyze_ok_iff]
  refine exists_congr fun scopes => ⟨fun analyzed => ?_, fun analyzed => ?_⟩
  · obtain ⟨named, table, scopesOk, projections, whereOk, joins, orderBy, limit⟩ := analyzed
    refine ⟨named, table, scopesOk, projections, fun own same => ?_, joins, orderBy, limit⟩
    cases same.symm.trans clause
    exact (validateExpr_altered h _).mp (whereOk e' rfl)
  · obtain ⟨named, table, scopesOk, projections, whereOk, joins, orderBy, limit⟩ := analyzed
    refine ⟨named, table, scopesOk, projections, fun own same => ?_, joins, orderBy, limit⟩
    cases same
    exact (validateExpr_altered h _).mpr (whereOk e clause)

end Analysis

section Texts

variable {ts us ts' us' : List Token} {e e' : ASTExpr} {stmt : SelectStatement} {sql : Str}

/-- Tokens that have a text, with their keywords in upper case. -/
def Writable (ts : List Token) : Prop := ∀ t ∈ ts, ∃ w, t.Writes exactly w

/-- Tokens that have a text, and begin with a name only where others do. -/
structure Replaces (ts ts' : List Token) : Prop where
  writable : Writable ts'
  begins : ∀ name, ts'.head? = some (.ident name) → ts.head? = some (.ident name)

theorem writes_exactly {t : Token} {w : Str} (h : t.Writes anyCase w) :
    ∃ w, t.Writes exactly w := by
  cases h with
  | keyword known _ => exact ⟨_, .keyword known rfl⟩
  | ident identifier => exact ⟨_, .ident identifier⟩
  | table identifier => exact ⟨_, .table identifier⟩
  | int nonempty all => exact ⟨_, .int nonempty all⟩
  | string ascii => exact ⟨_, .string ascii⟩
  | symbol listed => exact ⟨_, .symbol listed⟩

/-- With a space in front of each, tokens can be laid out. -/
theorem exists_lays (writable : Writable ts) : ∃ text, Lays exactly ts text := by
  induction ts with
  | nil => exact ⟨[] ++ [], .nil (List.forall_mem_nil _)⟩
  | cons t ts ih =>
    obtain ⟨w, writes⟩ := writable t List.mem_cons_self
    obtain ⟨text, lays⟩ := ih fun t mem => writable t (List.mem_cons_of_mem _ mem)
    have blank : ∀ c ∈ [(32 : UInt8)], isSpace c = true := by
      intro c mem
      rw [List.mem_singleton.mp mem]
      rfl
    have apart : t.EndsBefore ([32] ++ text) := by
      intro c head
      cases head
      cases t with
      | symbol s => simp [Token.glues]
      | keyword | ident | table | int | string => rfl
    exact ⟨[] ++ (w ++ ([32] ++ text)),
      .cons (List.forall_mem_nil _) writes apart (spans_spaced blank lays)⟩

theorem replaces_refl (writable : Writable ts) : Replaces ts ts := ⟨writable, fun _ head => head⟩

theorem replaces_cons {t : Token} (writes : ∃ w, t.Writes exactly w) (behind : Replaces us us') :
    Replaces (t :: us) (t :: us') :=
  ⟨List.forall_mem_cons.mpr ⟨writes, behind.writable⟩, fun _ head => head⟩

/-- Behind a keyword or a symbol it does not matter what begins. -/
theorem replaces_join {t : Token} (front : Replaces ts ts') (writes : ∃ w, t.Writes exactly w)
    (plain : ∀ name, t ≠ .ident name) (behind : Writable us') :
    Replaces (ts ++ t :: us) (ts' ++ t :: us') where
  writable := List.forall_mem_append.mpr
    ⟨front.writable, List.forall_mem_cons.mpr ⟨writes, behind⟩⟩
  begins name head := by
    cases ts' with
    | nil => exact (plain name (Option.some.inj head)).elim
    | cons t' rest =>
      have first := front.begins name head
      cases ts with
      | nil => cases first
      | cons _ _ => exact first

theorem writable_join {t : Token} (h : Writable (ts ++ t :: us)) :
    Writable ts ∧ (∃ w, t.Writes exactly w) ∧ Writable us := by
  obtain ⟨front, back⟩ := List.forall_mem_append.mp h
  obtain ⟨writes, behind⟩ := List.forall_mem_cons.mp back
  exact ⟨front, writes, behind⟩

/-- Two operands and the token between them. -/
theorem operands_altered {t : Token} {l r : ASTExpr} {left right : List Token → Prop}
    (writable : Writable (ts ++ t :: us)) (plain : ∀ name, t ≠ .ident name)
    (inside : ∀ v ∈ exprNumbers l ++ exprNumbers r, InInt64 v)
    (ihl : Writable ts → (∀ v ∈ exprNumbers l, InInt64 v) → ∃ ts', left ts' ∧ Replaces ts ts')
    (ihr : Writable us → (∀ v ∈ exprNumbers r, InInt64 v) → ∃ us', right us' ∧ Replaces us us') :
    ∃ ts' us', left ts' ∧ right us' ∧ Replaces (ts ++ t :: us) (ts' ++ t :: us') := by
  obtain ⟨front, writes, behind⟩ := writable_join writable
  obtain ⟨insideLeft, insideRight⟩ := List.forall_mem_append.mp inside
  obtain ⟨ts', hl, replaces⟩ := ihl front insideLeft
  obtain ⟨us', hr, replaces'⟩ := ihr behind insideRight
  exact ⟨ts', us', hl, hr, replaces_join replaces writes plain replaces'.writable⟩

/-- An expression with other integers is rendered with other digits. -/
theorem expr_altered {level : Level} (h : Expr accepted level e ts) (writable : Writable ts)
    (alters : Alters e e') (inside : ∀ v ∈ exprNumbers e', InInt64 v) :
    ∃ ts', Expr accepted level e' ts' ∧ Replaces ts ts' := by
  induction h generalizing e' with
  | conjunction _ ih =>
    obtain ⟨ts', shape, replaces⟩ := ih writable alters inside
    exact ⟨ts', .conjunction shape, replaces⟩
  | negation _ ih =>
    obtain ⟨ts', shape, replaces⟩ := ih writable alters inside
    exact ⟨ts', .negation shape, replaces⟩
  | operand _ ih =>
    obtain ⟨ts', shape, replaces⟩ := ih writable alters inside
    exact ⟨ts', .operand shape, replaces⟩
  | comparison begins _ ih =>
    obtain ⟨ts', shape, replaces⟩ := ih writable alters inside
    exact ⟨ts', .comparison (fun name head => begins name (replaces.begins name head)) shape,
      replaces⟩
  | or _ _ ihl ihr =>
    cases alters with
    | boolean left right =>
      obtain ⟨_, _, hl, hr, replaces⟩ := operands_altered writable (by simp) inside
        (fun front => ihl front left) fun behind => ihr behind right
      exact ⟨_, .or hl hr, replaces⟩
  | and _ _ ihl ihr =>
    cases alters with
    | boolean left right =>
      obtain ⟨_, _, hl, hr, replaces⟩ := operands_altered writable (by simp) inside
        (fun front => ihl front left) fun behind => ihr behind right
      exact ⟨_, .and hl hr, replaces⟩
  | compare _ _ ihl ihr =>
    cases alters with
    | comparison left right =>
      obtain ⟨_, _, hl, hr, replaces⟩ := operands_altered writable (by simp) inside
        (fun front => ihl front left) fun behind => ihr behind right
      exact ⟨_, .compare hl hr, replaces⟩
  | not _ ih =>
    cases alters with
    | notExpr child =>
      obtain ⟨writes, behind⟩ := List.forall_mem_cons.mp writable
      obtain ⟨ts', shape, replaces⟩ := ih behind child inside
      exact ⟨_, .not shape, replaces_cons writes replaces⟩
  | column column =>
    cases alters
    exact ⟨_, .column column, replaces_refl writable⟩
  | string =>
    cases alters
    exact ⟨_, .string, replaces_refl writable⟩
  | int =>
    cases alters with
    | @intLiteral _ v =>
      obtain ⟨nonempty, all, _⟩ := decimal_digits v.natAbs
      have value : accepted.number (decide (v < 0)) (decimal v.natAbs) v :=
        (readInt_decimal (inside v List.mem_cons_self)).symm
      exact ⟨_, .int value, List.forall_mem_singleton.mpr ⟨_, .int nonempty all⟩, by simp⟩
  | parentheses _ ih =>
    obtain ⟨writes, behind⟩ := List.forall_mem_cons.mp writable
    obtain ⟨inner, close⟩ := List.forall_mem_append.mp behind
    obtain ⟨ts', shape, replaces⟩ := ih inner alters inside
    refine ⟨_, .parentheses shape, replaces_cons writes ?_⟩
    exact replaces_join replaces (close _ List.mem_cons_self) (by simp) (List.forall_mem_nil _)

theorem select_altered (h : Select accepted stmt ts) (writable : Writable ts)
    (clause : stmt.whereClause = some e) (alters : Alters e e')
    (inside : ∀ v ∈ exprNumbers e', InInt64 v) :
    ∃ ts', Select accepted { stmt with whereClause := some e' } ts' ∧ Writable ts' := by
  obtain ⟨ps, tb, js, inner, ws, os, ls, rfl, hp, ht, hj, stray, hw, ho, hl⟩ := select_parts h
  rw [clause] at hw
  cases hw with
  | @present _ us shape =>
    obtain ⟨select, rest⟩ := List.forall_mem_cons.mp writable
    obtain ⟨projections, source, rest⟩ := writable_join rest
    obtain ⟨table, rest⟩ := List.forall_mem_append.mp rest
    obtain ⟨joins, rest⟩ := List.forall_mem_append.mp rest
    obtain ⟨strays, rest⟩ := List.forall_mem_append.mp rest
    obtain ⟨condition, rear⟩ := List.forall_mem_append.mp rest
    obtain ⟨keyword, body⟩ := List.forall_mem_cons.mp condition
    obtain ⟨us', shape', replaces⟩ := expr_altered shape body alters inside
    have other := Select.mk hp ht hj stray (.present shape') ho hl
    refine ⟨_, other, List.forall_mem_cons.mpr ⟨select, ?_⟩⟩
    simp only [List.forall_mem_append, List.forall_mem_cons] at rear ⊢
    exact ⟨projections, source, table, joins, strays, ⟨keyword, replaces.writable⟩, rear⟩

theorem renders_altered (h : Renders accepted stmt ts) (writable : Writable ts)
    (clause : stmt.whereClause = some e) (alters : Alters e e')
    (inside : ∀ v ∈ exprNumbers e', InInt64 v) :
    ∃ ts', Renders accepted { stmt with whereClause := some e' } ts' ∧ Writable ts' := by
  cases h with
  | plain select =>
    obtain ⟨ts', shape, writable'⟩ := select_altered select writable clause alters inside
    exact ⟨ts', .plain shape, writable'⟩
  | terminated select =>
    obtain ⟨front, last⟩ := List.forall_mem_append.mp writable
    obtain ⟨ts', shape, writable'⟩ := select_altered select front clause alters inside
    exact ⟨_, .terminated shape, List.forall_mem_append.mpr ⟨writable', last⟩⟩

/-- Whatever integers are put into the WHERE of a text, there is a text with them. -/
theorem exists_altered (parsed : parse sql = .ok stmt) (clause : stmt.whereClause = some e)
    (alters : Alters e e') (inside : ∀ v ∈ exprNumbers e', InInt64 v) :
    ∃ sql', parse sql' = .ok { stmt with whereClause := some e' } := by
  obtain ⟨ts, renders, lays⟩ := renders_of_parse parsed
  have writable : Writable ts := by
    intro t mem
    obtain ⟨w, writes⟩ := spans_writes lays t mem
    exact writes_exactly writes
  obtain ⟨ts', renders', writable'⟩ := renders_altered renders writable clause alters inside
  obtain ⟨sql', lays'⟩ := exists_lays writable'
  exact ⟨sql', parse_renders spells_exactly renders' lays' (Or.inl keeps_exactly)⟩

/-- The integers of a parsed WHERE are values of `int64_t`. -/
theorem parsed_inInt64 (parsed : parse sql = .ok stmt) (clause : stmt.whereClause = some e) :
    ∀ v ∈ exprNumbers e, InInt64 v := by
  intro v mem
  obtain ⟨ts, renders, lays⟩ := renders_of_parse parsed
  have stored : v ∈ storedNumbers stmt := by
    refine List.mem_append_right _ (List.mem_append_left _ ?_)
    rw [clause]
    exact mem
  rw [renders_numbers stores_accepted renders] at stored
  obtain ⟨number, here, rfl⟩ := List.mem_map.mp stored
  exact readInt_range (spans_digits lays number here)

end Texts

section Stages

variable {P : Proto1} {accepts : Int → Prop} {cat : Catalog} {stmt : SelectStatement}
  {e e' : ASTExpr} {sql : Str}

/-- Analyzer and packaging take a statement with other integers as far as they take the
first one, and as far as proto1 takes the integers. -/
theorem sent_altered_iff (encrypts : EncryptsJust P accepts) (rng : P.Rng)
    (clause : stmt.whereClause = some e) (h : Alters e e') :
    (∃ schema root s, analyze cat { stmt with whereClause := some e' } = .ok schema ∧
      buildPredNode schema e' (initialState rng) = .ok (root, s)) ↔
    LetsThrough accepts cat stmt e ∧ ∀ v ∈ exprNumbers e', accepts v := by
  have scalarsSplit : ∀ schema, (∀ v ∈ scalars schema e', accepts v) ↔
      (∀ c ∈ codes schema e, accepts c) ∧ ∀ v ∈ exprNumbers e', accepts v := by
    intro schema
    simp only [mem_scalars, codes_alters h, or_imp, forall_and]
  constructor
  · rintro ⟨schema, root, s, analyzed, built⟩
    obtain ⟨laysOut, encrypted⟩ := (buildPredNode_ok_iff encrypts rng).mp ⟨root, s, built⟩
    obtain ⟨characters, integers⟩ := (scalarsSplit schema).mp encrypted
    exact ⟨⟨schema, (analyze_altered clause h).mp analyzed, (laysOut_alters h).mp laysOut,
      characters⟩, integers⟩
  · rintro ⟨⟨schema, analyzed, laysOut, characters⟩, integers⟩
    obtain ⟨root, s, built⟩ := (buildPredNode_ok_iff encrypts rng).mpr
      ⟨(laysOut_alters h).mpr laysOut, (scalarsSplit schema).mpr ⟨characters, integers⟩⟩
    exact ⟨schema, root, s, (analyze_altered clause h).mpr analyzed, built⟩

/-- One text keeps to the range unless it is let through with an integer outside. -/
theorem own_inRange_iff (encrypts : EncryptsJust P accepts) (rng : P.Rng) :
    LiteralsInRange P cat rng sql ↔
      ∀ stmt e, parse sql = .ok stmt → stmt.whereClause = some e →
        LetsThrough accepts cat stmt e → (∀ v ∈ exprNumbers e, accepts v) →
        ∀ v ∈ comparedIntegers e, 0 ≤ v ∧ v ≤ 128 := by
  have own : ∀ stmt e, stmt.whereClause = some e →
      { stmt with whereClause := some e } = (stmt : SelectStatement) := by
    intro stmt e clause
    rw [← clause]
  constructor
  · intro ranged stmt e parsed clause through encrypted
    obtain ⟨schema, root, s, analyzed, built⟩ :=
      (sent_altered_iff encrypts rng clause (alters_refl e)).mpr ⟨through, encrypted⟩
    rw [own stmt e clause] at analyzed
    exact ranged stmt schema e root s parsed analyzed clause built
  · intro small stmt schema e root s parsed analyzed clause built
    have same : analyze cat { stmt with whereClause := some e } = .ok schema := by
      rwa [own stmt e clause]
    obtain ⟨through, encrypted⟩ := (sent_altered_iff encrypts rng clause (alters_refl e)).mp
      ⟨schema, root, s, same, built⟩
    exact small stmt e parsed clause through encrypted

/-- All texts that differ from one in their integers keep to the range just when no
integer is compared with a column, or proto1 takes none outside. -/
theorem altered_inRange_iff (encrypts : EncryptsJust P accepts) (rng : P.Rng) :
    (∀ sql', AlteredText sql sql' → LiteralsInRange P cat rng sql') ↔
      ∀ stmt e, parse sql = .ok stmt → stmt.whereClause = some e →
        LetsThrough accepts cat stmt e →
        comparedIntegers e = [] ∨ ∀ v, InInt64 v → accepts v → 0 ≤ v ∧ v ≤ 128 := by
  constructor
  · intro ranged stmt e parsed clause through
    refine or_iff_not_imp_left.mpr fun compares v inside encrypted => ?_
    have alters := alters_setIntegers v e
    have all : ∀ u ∈ exprNumbers (setIntegers v e), u = v := exprNumbers_setIntegers v e
    obtain ⟨sql', parsed'⟩ := exists_altered parsed clause alters fun u mem => all u mem ▸ inside
    obtain ⟨schema, root, s, analyzed, built⟩ :=
      (sent_altered_iff encrypts rng clause alters).mpr
        ⟨through, fun u mem => all u mem ▸ encrypted⟩
    have some : comparedIntegers (setIntegers v e) ≠ [] := by
      rw [← List.length_pos_iff, comparedIntegers_alters alters]
      exact List.length_pos_iff.mpr compares
    obtain ⟨u, mem⟩ := List.exists_mem_of_ne_nil _ some
    have range := ranged sql' ⟨stmt, e, _, parsed, clause, alters, parsed'⟩ _ schema _ root s
      parsed' analyzed rfl built u mem
    rwa [all u (comparedIntegers_subset _ mem)] at range
  · rintro few sql' ⟨stmt, e, e', parsed, clause, alters, parsed'⟩
    refine (own_inRange_iff encrypts rng).mpr fun stmt' own parsed'' clause' through encrypted => ?_
    cases parsed'.symm.trans parsed''
    cases clause'
    intro v mem
    have number := comparedIntegers_subset e' mem
    obtain ⟨schema, analyzed, laysOut, characters⟩ := through
    have through : LetsThrough accepts cat stmt e :=
      ⟨schema, (analyze_altered clause alters).mp analyzed, (laysOut_alters alters).mp laysOut,
        codes_alters alters ▸ characters⟩
    rcases few stmt e parsed clause through with none | small
    · have empty : comparedIntegers e' = [] := by
        rw [← List.length_eq_zero_iff, comparedIntegers_alters alters, none]
        rfl
      rw [empty] at mem
      exact (List.not_mem_nil mem).elim
    · exact small v (parsed_inInt64 parsed' rfl v number) (encrypted v number)

end Stages

/-- Any integers of `int64_t` can stand in the WHERE of a text, and no stage but the
encryption of proto1 asks for their values. So the texts of one shape keep to the range
just when the shape is refused, compares no integer with a column, or proto1 refuses all
integers outside, and one of them when its own integers happen to be inside. The range is
the one in which the server's comparisons are those of the integers. -/
theorem literals_in_range_iff {P : Proto1} {accepts : Int → Prop}
    (encrypts : EncryptsJust P accepts) (cat : Catalog) (rng : P.Rng) (sql : Str) :
    (∀ stmt e e', parse sql = .ok stmt → stmt.whereClause = some e → Alters e e' →
      (∀ v ∈ exprNumbers e', InInt64 v) →
      (∃ sql', parse sql' = .ok { stmt with whereClause := some e' }) ∧
      ((∃ schema root s, analyze cat { stmt with whereClause := some e' } = .ok schema ∧
          buildPredNode schema e' (initialState rng) = .ok (root, s)) ↔
        LetsThrough accepts cat stmt e ∧ ∀ v ∈ exprNumbers e', accepts v)) ∧
    ((∀ sql', AlteredText sql sql' → LiteralsInRange P cat rng sql') ↔
      ∀ stmt e, parse sql = .ok stmt → stmt.whereClause = some e →
        LetsThrough accepts cat stmt e →
        comparedIntegers e = [] ∨ ∀ v, InInt64 v → accepts v → 0 ≤ v ∧ v ≤ 128) ∧
    (LiteralsInRange P cat rng sql ↔
      ∀ stmt e, parse sql = .ok stmt → stmt.whereClause = some e →
        LetsThrough accepts cat stmt e → (∀ v ∈ exprNumbers e, accepts v) →
        ∀ v ∈ comparedIntegers e, 0 ≤ v ∧ v ≤ 128) ∧
    ∀ v, OrdersLikeIntegers v ↔ 0 ≤ v ∧ v ≤ 128 :=
  ⟨fun _ _ _ parsed clause alters inside =>
      ⟨exists_altered parsed clause alters inside, sent_altered_iff encrypts rng clause alters⟩,
    altered_inRange_iff encrypts rng, own_inRange_iff encrypts rng, ordersLikeIntegers_iff⟩

/-- `age > :bound`, as parsed. -/
def agesAbove (bound : Int) : SelectStatement where
  projections := [str "id"]
  tableName := str "employees"
  tableAlias := str "employees"
  whereClause := some (.comparison .GreaterThan (.columnRef (str "age")) (.intLiteral bound))

theorem parse_agesAbove100 :
    parse (str "SELECT id FROM employees WHERE age > 100") = .ok (agesAbove 100) := by
  decide +kernel

theorem parse_agesAbove200 :
    parse (str "SELECT id FROM employees WHERE age > 200") = .ok (agesAbove 200) := by
  decide +kernel

theorem agesAbove100_in_range :
    LiteralsInRange (plainProto1 1) makeEmployeesCatalog ()
        (str "SELECT id FROM employees WHERE age > 100") ∧
      ¬ ∀ sql', AlteredText (str "SELECT id FROM employees WHERE age > 100") sql' →
        LiteralsInRange (plainProto1 1) makeEmployeesCatalog () sql' := by
  have settled := literals_in_range_iff (plain_encryptsJust 1) makeEmployeesCatalog ()
    (str "SELECT id FROM employees WHERE age > 100")
  constructor
  · refine settled.2.2.1.mpr fun stmt e parsed clause _ _ v mem => ?_
    cases parse_agesAbove100.symm.trans parsed
    cases clause
    rw [List.mem_singleton.mp mem]
    decide
  · intro ranged
    have through : LetsThrough (fun _ => True) makeEmployeesCatalog (agesAbove 100)
        (.comparison .GreaterThan (.columnRef (str "age")) (.intLiteral 100)) :=
      ⟨_, rfl, ⟨trivial, trivial⟩, fun _ _ => trivial⟩
    rcases settled.2.1.mp ranged _ _ parse_agesAbove100 rfl through with none | small
    · cases none
    · have range := small 200 ⟨by decide, by decide⟩ trivial
      revert range
      decide

theorem accepted_literal_can_leave_the_range :
    ¬ ∀ (P : Proto1) (cat : Catalog) (rng : P.Rng) (sql : Str), LiteralsInRange P cat rng sql := by
  intro all
  have ranged := all (plainProto1 1) makeEmployeesCatalog () _ (agesAbove 200) _ _
    _ _ parse_agesAbove200 rfl rfl rfl 200 (List.mem_singleton.mpr rfl)
  exact absurd ranged.2 (by decide)

end FheSql.AlteredIntegers
