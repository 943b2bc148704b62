import FheSql.SqlGrammar

/-!
# The parser reads what the grammar writes

Each parsing function, put in front of the layout of a production, gives back its
value and stops in front of the tokens behind it. Those tokens must not go on the
production; which ones may follow is written down for each level of an expression.
A text of `n` characters needs `6 * n` calls and one for each level above.
-/

namespace FheSql.ParserCompleteness

open ByteText SQLParser SqlTokens SqlGrammar

variable {spell : Spelling} {size : Nat} {ts more : List Token} {n : Nat} {rest : Str}

/-- The tokens in front of which a production may end. -/
def Ends (syms kws : List Str) (ts : List Token) : Prop :=
  ∀ t ∈ ts.head?, (∃ s ∈ syms, t = .symbol s) ∨ ∃ kw ∈ kws, t = .keyword kw

def clauseKeywords : List Str :=
  [str "INNER", str "JOIN", str "WHERE", str "ORDER", str "LIMIT"]

def closing : List Str := [str ")", str ";"]

def operators : List Str :=
  [str "=", str "!=", str ">", str "<", str ">=", str "<="]

/-- What may follow a production of each level. -/
def Follows : Level → List Token → Prop
  | .or => Ends closing clauseKeywords
  | .and => Ends closing (str "OR" :: clauseKeywords)
  | .not => Ends closing (str "AND" :: str "OR" :: clauseKeywords)
  | .comparison => Ends closing (str "AND" :: str "OR" :: clauseKeywords)
  | .primary => Ends (operators ++ closing) (str "AND" :: str "OR" :: clauseKeywords)

theorem Ends.mono {syms kws syms' kws' : List Str} (h : Ends syms kws ts) (hs : syms ⊆ syms')
    (hk : kws ⊆ kws') : Ends syms' kws' ts := by
  intro t head
  rcases h t head with ⟨s, mem, rfl⟩ | ⟨kw, mem, rfl⟩
  · exact Or.inl ⟨s, hs mem, rfl⟩
  · exact Or.inr ⟨kw, hk mem, rfl⟩

theorem ends_symbol {syms kws : List Str} {s : Str} (h : s ∈ syms) (ts : List Token) :
    Ends syms kws (.symbol s :: ts) := by
  intro t head
  cases head
  exact Or.inl ⟨s, h, rfl⟩

theorem ends_keyword {syms kws : List Str} {kw : Str} (h : kw ∈ kws) (ts : List Token) :
    Ends syms kws (.keyword kw :: ts) := by
  intro t head
  cases head
  exact Or.inr ⟨kw, h, rfl⟩

theorem Ends.misses {syms kws : List Str} (h : Ends syms kws ts) {kw : Str} (other : kw ∉ kws) :
    ∀ t ∈ ts.head?, Misses kw t := by
  intro t head
  rcases h t head with ⟨s, _, rfl⟩ | ⟨kw', mem, rfl⟩
  · trivial
  · rintro rfl
    exact other mem

theorem Ends.beginsNot {syms kws : List Str} (h : Ends syms kws ts) {c : UInt8}
    (other : (isAlpha c || c == 95) = false) (none : ∀ s ∈ syms, s.head? ≠ some c) :
    ∀ t ∈ ts.head?, BeginsNot c t := by
  intro t head
  rcases h t head with ⟨s, mem, rfl⟩ | ⟨kw', _, rfl⟩
  · exact none s mem
  · exact other

theorem column_ok (size : Nat) {L : Lexicon} {name : Str} (spells : Spells spell)
    (h : Column L name ts) (here : At spell (ts ++ more) (n + 1) rest)
    (ends : ∀ t ∈ more.head?, BeginsNot 46 t) :
    ∃ next, consumeQualifiedIdent size rest = .ok (name, next) ∧ At spell more n next := by
  cases h with
  | bare =>
    obtain ⟨next, word, there⟩ := consumeIdent_ident size spells here
    refine ⟨skipWS next, ?_, at_skipWS spells there⟩
    have other := head_ne spells there.lays ends
    rw [consumeQualifiedIdent, word, Throwing.ok_bind]
    dsimp only
    split
    · next text =>
      rw [text] at other
      exact (other rfl).elim
    · rfl
  | @qualified table name =>
    obtain ⟨m, rfl⟩ : ∃ m, n = m + 2 := by
      obtain ⟨next, _, there⟩ := consumeIdent_ident size spells here
      obtain ⟨m, rfl⟩ := at_pos spells there
      obtain ⟨next', _, there'⟩ := skipWS_symbol (c := 46) spells there
      obtain ⟨k, rfl⟩ := at_pos spells there'
      exact ⟨k, rfl⟩
    obtain ⟨next, word, there⟩ := consumeIdent_ident size spells here
    obtain ⟨next', dot, there'⟩ := skipWS_symbol (c := 46) spells there
    obtain ⟨next'', word', there''⟩ := consumeIdent_ident size spells there'
    refine ⟨next'', ?_, there''.mono (by omega)⟩
    simp only [consumeQualifiedIdent, word, Throwing.ok_bind, dot, word']
    rfl

theorem operator_some {kind : CompareKind} (spells : Spells spell)
    (here : At spell (.symbol (operatorSymbol kind) :: ts) (n + 1) rest) :
    ∃ next, comparisonOperator (skipWS rest) = some (kind, next) ∧ At spell ts n next := by
  obtain ⟨next, text, ends, there⟩ := at_symbol spells here
  refine ⟨next, ?_, there⟩
  rw [text]
  cases kind with
  | Equal => rfl
  | NotEqual => rfl
  | GreaterEqual => rfl
  | LessEqual => rfl
  | GreaterThan =>
    cases next with
    | nil => rfl
    | cons c next =>
      have other : c ≠ 61 := by
        rintro rfl
        exact absurd (ends 61 rfl) (by decide)
      change comparisonOperator (62 :: c :: next) = _
      unfold comparisonOperator
      split <;> simp_all
  | LessThan =>
    cases next with
    | nil => rfl
    | cons c next =>
      have other : c ≠ 61 := by
        rintro rfl
        exact absurd (ends 61 rfl) (by decide)
      change comparisonOperator (60 :: c :: next) = _
      unfold comparisonOperator
      split <;> simp_all

theorem operator_none (other : ∀ c ∈ rest.head?, c ≠ 33 ∧ c ≠ 60 ∧ c ≠ 61 ∧ c ≠ 62) :
    comparisonOperator rest = none := by
  cases rest with
  | nil => rfl
  | cons c rest =>
    obtain ⟨h33, h60, h61, h62⟩ := other c rfl
    unfold comparisonOperator
    split <;> simp_all

/-- A function behind which a value and a layout of the other tokens are left. -/
def Reads {α : Type} (spell : Spelling) (x : Except Exn (α × Str)) (a : α) (more : List Token)
    (n : Nat) : Prop := ∃ next, x = .ok (a, next) ∧ At spell more n next

/-- What the parser does on a production of each level; at the two levels with a loop
the loop goes on from there. -/
def Parses (spell : Spelling) (size : Nat) : Level → ASTExpr → List Token → Prop
  | .or, e, ts => ∀ {more n rest} fuel, At spell (ts ++ more) (n + 1) rest →
      6 * n + 11 ≤ fuel → Follows .and more →
      ∃ fuel' m next, parseOr size fuel rest = orLoop size fuel' e next ∧
        At spell more m next ∧ m ≤ n ∧ 6 * m + 5 ≤ fuel'
  | .and, e, ts => ∀ {more n rest} fuel, At spell (ts ++ more) (n + 1) rest →
      6 * n + 10 ≤ fuel → Follows .not more →
      ∃ fuel' m next, parseAnd size fuel rest = andLoop size fuel' e next ∧
        At spell more m next ∧ m ≤ n ∧ 6 * m + 5 ≤ fuel'
  | .not, e, ts => ∀ {more n rest} fuel, At spell (ts ++ more) (n + 1) rest →
      6 * n + 9 ≤ fuel → Follows .not more → Reads spell (parseNot size fuel rest) e more n
  | .comparison, e, ts => ∀ {more n rest} fuel, At spell (ts ++ more) (n + 1) rest →
      6 * n + 8 ≤ fuel → Follows .comparison more →
      Reads spell (parseComparison size fuel rest) e more n
  | .primary, e, ts => ∀ {more n rest} fuel, At spell (ts ++ more) (n + 1) rest →
      6 * n + 7 ≤ fuel → Follows .primary more →
      Reads spell (parsePrimary size fuel rest) e more n

variable {e : ASTExpr} (fuel : Nat)

theorem Follows.weaken (h : Follows .or ts) : Follows .and ts :=
  Ends.mono h (List.Subset.refl _) (List.subset_cons_self _ _)

theorem Follows.weaken' (h : Follows .and ts) : Follows .not ts :=
  Ends.mono h (List.Subset.refl _) (List.subset_cons_self _ _)

theorem Follows.weaken'' (h : Follows .comparison ts) : Follows .primary ts :=
  Ends.mono h (List.subset_append_right _ _) (List.Subset.refl _)

/-- A disjunction in front of tokens that end it. -/
theorem parseOr_reads (spells : Spells spell) (parses : Parses spell size .or e ts)
    (here : At spell (ts ++ more) (n + 1) rest) (enough : 6 * n + 11 ≤ fuel)
    (follows : Follows .or more) : Reads spell (parseOr size fuel rest) e more n := by
  obtain ⟨fuel', m, next, run, there, less, enough'⟩ := parses _ here enough follows.weaken
  obtain ⟨k, rfl⟩ : ∃ k, fuel' = k + 1 := ⟨fuel' - 1, by omega⟩
  have none := tryKeyword_other (str "OR") spells (by decide) there
    (Ends.misses follows (by decide))
  refine ⟨skipWS next, ?_, (at_skipWS spells there).mono (by omega)⟩
  rw [run, orLoop, none]
  rfl

theorem parseAnd_reads (spells : Spells spell) (parses : Parses spell size .and e ts)
    (here : At spell (ts ++ more) (n + 1) rest) (enough : 6 * n + 10 ≤ fuel)
    (follows : Follows .and more) : Reads spell (parseAnd size fuel rest) e more n := by
  obtain ⟨fuel', m, next, run, there, less, enough'⟩ := parses _ here enough follows.weaken'
  obtain ⟨k, rfl⟩ : ∃ k, fuel' = k + 1 := ⟨fuel' - 1, by omega⟩
  have none := tryKeyword_other (str "AND") spells (by decide) there
    (Ends.misses follows (by decide))
  refine ⟨skipWS next, ?_, (at_skipWS spells there).mono (by omega)⟩
  rw [run, andLoop, none]
  rfl

theorem parses_conjunction (spells : Spells spell) (parses : Parses spell size .and e ts) :
    Parses spell size .or e ts := by
  intro more n rest fuel here enough follows
  obtain ⟨k, rfl⟩ : ∃ k, fuel = k + 1 := ⟨fuel - 1, by omega⟩
  obtain ⟨next, run, there⟩ := parseAnd_reads k spells parses here (by omega) follows
  refine ⟨k, n, next, ?_, there, le_refl n, by omega⟩
  rw [parseOr, run]
  rfl

theorem parses_negation (parses : Parses spell size .not e ts) : Parses spell size .and e ts := by
  intro more n rest fuel here enough follows
  obtain ⟨k, rfl⟩ : ∃ k, fuel = k + 1 := ⟨fuel - 1, by omega⟩
  obtain ⟨next, run, there⟩ := parses k here (by omega) follows
  refine ⟨k, n, next, ?_, there, le_refl n, by omega⟩
  rw [parseAnd, run]
  rfl

theorem parses_or {left right : ASTExpr} {us : List Token} (spells : Spells spell)
    (front : Parses spell size .or left ts) (back : Parses spell size .and right us) :
    Parses spell size .or (.boolean .Or left right) (ts ++ .keyword (str "OR") :: us) := by
  intro more n rest fuel here enough follows
  rw [List.append_assoc] at here
  obtain ⟨fuel', m, next, run, there, less, enough'⟩ :=
    front _ here enough (ends_keyword (by decide) _)
  obtain ⟨m, rfl⟩ := at_pos spells there
  obtain ⟨k, rfl⟩ : ∃ k, fuel' = k + 1 := ⟨fuel' - 1, by omega⟩
  obtain ⟨next', found, there'⟩ := tryKeyword_keyword spells there
  obtain ⟨next'', run', there''⟩ := parseAnd_reads k spells back
    (there'.mono (Nat.le_succ m)) (by omega) follows
  refine ⟨k, m, next'', ?_, there'', by omega, by omega⟩
  rw [run, orLoop, found]
  dsimp only
  rw [run']
  rfl

theorem parses_and {left right : ASTExpr} {us : List Token} (spells : Spells spell)
    (front : Parses spell size .and left ts) (back : Parses spell size .not right us) :
    Parses spell size .and (.boolean .And left right) (ts ++ .keyword (str "AND") :: us) := by
  intro more n rest fuel here enough follows
  rw [List.append_assoc] at here
  obtain ⟨fuel', m, next, run, there, less, enough'⟩ :=
    front _ here enough (ends_keyword (by decide) _)
  obtain ⟨m, rfl⟩ := at_pos spells there
  obtain ⟨k, rfl⟩ : ∃ k, fuel' = k + 1 := ⟨fuel' - 1, by omega⟩
  obtain ⟨next', found, there'⟩ := tryKeyword_keyword spells there
  obtain ⟨next'', run', there''⟩ := back k (there'.mono (Nat.le_succ m)) (by omega)
    follows
  refine ⟨k, m, next'', ?_, there'', by omega, by omega⟩
  rw [run, andLoop, found]
  dsimp only
  rw [run']
  rfl

theorem expr_nonempty {L : Lexicon} {level : Level} (h : Expr L level e ts) :
    ∃ t tail, ts = t :: tail := by
  induction h with
  | conjunction _ ih => exact ih
  | or _ _ ih _ =>
    obtain ⟨t, tail, rfl⟩ := ih
    exact ⟨t, _, rfl⟩
  | negation _ ih => exact ih
  | and _ _ ih _ =>
    obtain ⟨t, tail, rfl⟩ := ih
    exact ⟨t, _, rfl⟩
  | comparison _ _ ih => exact ih
  | not => exact ⟨_, _, rfl⟩
  | operand _ ih => exact ih
  | compare _ _ ih _ =>
    obtain ⟨t, tail, rfl⟩ := ih
    exact ⟨t, _, rfl⟩
  | column column => cases column <;> exact ⟨_, _, rfl⟩
  | int => exact ⟨_, _, rfl⟩
  | string => exact ⟨_, _, rfl⟩
  | parentheses => exact ⟨_, _, rfl⟩

/-- No operand begins with a keyword. -/
theorem primary_head {L : Lexicon} (h : Expr L .primary e ts) :
    ∃ t tail, ts = t :: tail ∧ ∀ kw, t ≠ .keyword kw ∧ t ≠ .table kw := by
  cases h with
  | column column => cases column <;> exact ⟨_, _, rfl, fun _ => ⟨nofun, nofun⟩⟩
  | int => exact ⟨_, _, rfl, fun _ => ⟨nofun, nofun⟩⟩
  | string => exact ⟨_, _, rfl, fun _ => ⟨nofun, nofun⟩⟩
  | parentheses => exact ⟨_, _, rfl, fun _ => ⟨nofun, nofun⟩⟩

theorem comparison_head {L : Lexicon} (h : Expr L .comparison e ts) :
    ∃ t tail, ts = t :: tail ∧ ∀ kw, t ≠ .keyword kw ∧ t ≠ .table kw := by
  cases h with
  | operand h => exact primary_head h
  | compare h _ =>
    obtain ⟨t, tail, rfl, other⟩ := primary_head h
    exact ⟨t, _, rfl, other⟩

theorem parses_not (spells : Spells spell) (nonempty : ∃ t tail, ts = t :: tail)
    (parses : Parses spell size .not e ts) :
    Parses spell size .not (.notExpr e) (.keyword (str "NOT") :: ts) := by
  intro more n rest fuel here enough follows
  obtain ⟨k, rfl⟩ : ∃ k, fuel = k + 1 := ⟨fuel - 1, by omega⟩
  obtain ⟨next, found, there⟩ := tryKeyword_keyword spells here
  obtain ⟨t, tail, rfl⟩ := nonempty
  obtain ⟨m, rfl⟩ := at_pos spells there
  obtain ⟨next', run, there'⟩ := parses k there (by omega) follows
  refine ⟨next', ?_, there'.mono (Nat.le_succ m)⟩
  rw [parseNot, found]
  dsimp only
  rw [run]
  rfl

theorem parses_comparison (spells : Spells spell) (shape : Expr accepted .comparison e ts)
    (starts : ∀ name, ts.head? = some (.ident name) → accepted.operand name)
    (parses : Parses spell size .comparison e ts) : Parses spell size .not e ts := by
  intro more n rest fuel here enough follows
  obtain ⟨k, rfl⟩ : ∃ k, fuel = k + 1 := ⟨fuel - 1, by omega⟩
  obtain ⟨t, tail, rfl, other⟩ := comparison_head shape
  have misses : ∀ t' ∈ (t :: tail ++ more).head?, Misses (str "NOT") t' := by
    intro t' head
    cases head
    cases t with
    | keyword kw => exact ((other kw).1 rfl).elim
    | table name => exact ((other name).2 rfl).elim
    | ident name => exact starts name rfl
    | int neg digits => trivial
    | string value => trivial
    | symbol s => trivial
  have none := tryKeyword_other (str "NOT") spells (by decide) here misses
  obtain ⟨next, run, there⟩ := parses k (at_skipWS spells here) (by omega) follows
  refine ⟨next, ?_, there⟩
  rw [parseNot, none]
  exact run

theorem parses_operand (spells : Spells spell) (parses : Parses spell size .primary e ts) :
    Parses spell size .comparison e ts := by
  intro more n rest fuel here enough follows
  obtain ⟨k, rfl⟩ : ∃ k, fuel = k + 1 := ⟨fuel - 1, by omega⟩
  obtain ⟨next, run, there⟩ := parses k here (by omega) (Follows.weaken'' follows)
  have other : ∀ c : UInt8, (isAlpha c || c == 95) = false →
      (∀ s ∈ closing, s.head? ≠ some c) → (skipWS next).head? ≠ some c := fun c start none =>
    head_ne spells there.lays (Ends.beginsNot follows start none)
  have absent : comparisonOperator (skipWS next) = none := by
    refine operator_none fun c head => ⟨?_, ?_, ?_, ?_⟩
    all_goals
      rintro rfl
      exact other _ (by decide) (by decide) head
  refine ⟨skipWS next, ?_, at_skipWS spells there⟩
  rw [parseComparison, run, Throwing.ok_bind]
  dsimp only
  rw [absent]
  rfl

theorem parses_compare {kind : CompareKind} {left right : ASTExpr} {us : List Token}
    (spells : Spells spell) (nonempty : ∃ t tail, us = t :: tail)
    (front : Parses spell size .primary left ts) (back : Parses spell size .primary right us) :
    Parses spell size .comparison (.comparison kind left right)
      (ts ++ .symbol (operatorSymbol kind) :: us) := by
  intro more n rest fuel here enough follows
  obtain ⟨k, rfl⟩ : ∃ k, fuel = k + 1 := ⟨fuel - 1, by omega⟩
  rw [List.append_assoc] at here
  have operator : operatorSymbol kind ∈ operators ++ closing := by
    cases kind <;> decide
  obtain ⟨next, run, there⟩ := front k here (by omega) (ends_symbol operator _)
  obtain ⟨m, rfl⟩ := at_pos spells there
  obtain ⟨next', found, there'⟩ := operator_some spells there
  obtain ⟨t, tail, rfl⟩ := nonempty
  obtain ⟨l, rfl⟩ := at_pos spells there'
  obtain ⟨next'', run', there''⟩ := back k there' (by omega) (Follows.weaken'' follows)
  refine ⟨next'', ?_, there''.mono (by omega)⟩
  rw [parseComparison, run, Throwing.ok_bind]
  dsimp only
  rw [found]
  dsimp only
  rw [run']
  rfl

theorem start_other {c : UInt8} : (isAlpha c || c == 95) = true →
    c ≠ 40 ∧ (isDigit c || c == 45) = false ∧ c ≠ 39 :=
  forall_byte (p := fun c => (isAlpha c || c == 95) = true →
    c ≠ 40 ∧ (isDigit c || c == 45) = false ∧ c ≠ 39) (by decide +kernel) c

theorem digit_other {c : UInt8} : (isDigit c || c == 45) = true → c ≠ 40 :=
  forall_byte (p := fun c => (isDigit c || c == 45) = true → c ≠ 40) (by decide +kernel) c

theorem parses_column {name : Str} (spells : Spells spell) (column : Column accepted name ts) :
    Parses spell size .primary (.columnRef name) ts := by
  intro more n rest fuel here enough follows
  obtain ⟨k, rfl⟩ : ∃ k, fuel = k + 1 := ⟨fuel - 1, by omega⟩
  obtain ⟨next, run, there⟩ := column_ok size spells column (at_skipWS spells here)
    (Ends.beginsNot follows (by decide) (by decide))
  refine ⟨next, ?_, there⟩
  obtain ⟨c, tail, text, start⟩ : ∃ c tail, skipWS rest = c :: tail ∧
      (isAlpha c || c == 95) = true := by
    have word : ∀ {name : Str} {us : List Token}, At spell (.ident name :: us) (n + 1) rest →
        ∃ c tail, skipWS rest = c :: tail ∧ (isAlpha c || c == 95) = true := by
      intro name us here
      obtain ⟨w, next, text, writes, _, _⟩ := at_cons spells here
      cases writes with
      | ident identifier =>
        obtain ⟨c, tail, rfl, start, _⟩ := identifier
        exact ⟨c, tail ++ next, text, start⟩
    cases column with
    | bare => exact word here
    | qualified => exact word here
  obtain ⟨paren, digit, quote⟩ := start_other start
  rw [text] at run
  rw [parsePrimary, text]
  simp only [paren, if_false, digit, Bool.false_eq_true, quote, run]
  rfl

theorem parses_int {neg : Bool} {digits : Str} (spells : Spells spell) :
    Parses spell size .primary (.intLiteral (readInt neg digits)) [.int neg digits] := by
  intro more n rest fuel here enough follows
  obtain ⟨k, rfl⟩ : ∃ k, fuel = k + 1 := ⟨fuel - 1, by omega⟩
  obtain ⟨next, run, there⟩ := consumeInt_int size spells (at_skipWS spells here)
  refine ⟨next, ?_, there⟩
  obtain ⟨c, tail, text, start⟩ : ∃ c tail, skipWS rest = c :: tail ∧
      (isDigit c || c == 45) = true := by
    obtain ⟨w, next, text, writes, _, _⟩ := at_cons spells here
    cases writes with
    | int nonempty all =>
      cases neg with
      | true => exact ⟨45, digits ++ next, text, rfl⟩
      | false =>
        obtain ⟨d, tail, rfl⟩ := List.exists_cons_of_ne_nil nonempty
        exact ⟨d, tail ++ next, text, by rw [all d List.mem_cons_self]; rfl⟩
  rw [text] at run
  rw [parsePrimary, text]
  simp only [digit_other start, if_false, start, if_true, run]
  rfl

theorem parses_string {value : Str} (spells : Spells spell) :
    Parses spell size .primary (.stringLiteral value) [.string value] := by
  intro more n rest fuel here enough follows
  obtain ⟨k, rfl⟩ : ∃ k, fuel = k + 1 := ⟨fuel - 1, by omega⟩
  obtain ⟨next, run, there⟩ := consumeString_string size spells (at_skipWS spells here)
  refine ⟨next, ?_, there⟩
  obtain ⟨tail, text⟩ : ∃ tail, skipWS rest = 39 :: tail := by
    obtain ⟨w, next, text, writes, _, _⟩ := at_cons spells here
    cases writes with
    | string => exact ⟨_, text⟩
  rw [text] at run
  rw [parsePrimary, text]
  dsimp only
  rw [if_neg (by decide), if_neg (by decide), if_pos rfl, run]
  rfl

theorem parses_parentheses (spells : Spells spell) (nonempty : ∃ t tail, ts = t :: tail)
    (parses : Parses spell size .or e ts) :
    Parses spell size .primary e (.symbol (str "(") :: (ts ++ [.symbol (str ")")])) := by
  intro more n rest fuel here enough follows
  obtain ⟨k, rfl⟩ : ∃ k, fuel = k + 1 := ⟨fuel - 1, by omega⟩
  rw [List.cons_append, List.append_assoc] at here
  obtain ⟨next, text, there⟩ := skipWS_symbol (c := 40) spells here
  obtain ⟨t, tail, rfl⟩ := nonempty
  obtain ⟨m, rfl⟩ := at_pos spells there
  obtain ⟨next', run, there'⟩ := parseOr_reads k spells parses there (by omega)
    (ends_symbol (by decide) _)
  obtain ⟨l, rfl⟩ := at_pos spells there'
  obtain ⟨next'', closed, there''⟩ := expectChar_symbol (c := 41) size spells there'
  refine ⟨next'', ?_, there''.mono (by omega)⟩
  rw [parsePrimary, text]
  dsimp only
  rw [if_pos rfl, run, Throwing.ok_bind]
  dsimp only
  rw [closed]
  rfl

/-- The parser reads every expression of the grammar. -/
theorem expr_parses (spells : Spells spell) {level : Level} (h : Expr accepted level e ts) :
    Parses spell size level e ts := by
  induction h with
  | conjunction _ ih => exact parses_conjunction spells ih
  | or _ _ ih ih' => exact parses_or spells ih ih'
  | negation _ ih => exact parses_negation ih
  | and _ _ ih ih' => exact parses_and spells ih ih'
  | comparison starts shape ih => exact parses_comparison spells shape starts ih
  | not shape ih => exact parses_not spells (expr_nonempty shape) ih
  | operand _ ih => exact parses_operand spells ih
  | compare _ shape ih ih' => exact parses_compare spells (expr_nonempty shape) ih ih'
  | column column => exact parses_column spells column
  | int value =>
    cases value
    exact parses_int spells
  | string => exact parses_string spells
  | parentheses shape ih => exact parses_parentheses spells (expr_nonempty shape) ih

theorem parseExpr_reads (size fuel : Nat) (spells : Spells spell) (h : Expr accepted .or e ts)
    (here : At spell (ts ++ more) (n + 1) rest) (enough : 6 * n + 11 ≤ fuel)
    (follows : Follows .or more) : Reads spell (parseExpr size fuel rest) e more n :=
  parseOr_reads fuel spells (expr_parses spells h) here enough follows

end FheSql.ParserCompleteness
