import FheSql.StatementCompleteness
import FheSql.Readings

/-!
# What the parser accepts is a statement of the grammar

The other direction: from a function that has returned, the tokens of the text it
has consumed and a derivation of its value. The recursion is followed by its fuel,
one statement for each of the seven functions of an expression.
-/

namespace FheSql.ParserSoundness

open ByteText SQLParser SqlTokens SqlGrammar SqlWords Readings Throwing

variable {size fuel : Nat} {rest next : Str}

/-- The text between two places is laid out as a production. -/
def Consumed {α : Type} (shape : α → List Token → Prop) (a : α) (rest next : Str) : Prop :=
  ∃ ts, shape a ts ∧ Spans anyCase ts rest next

theorem spans_space (rest : Str) : Spans anyCase [] rest (skipWS rest) :=
  spans_skipWS (@Spans.nil anyCase [] _ nofun)

theorem spans_token {t : Token} {w : Str} (text : skipWS rest = w ++ next)
    (writes : t.Writes anyCase w) (ends : t.EndsBefore next) : Spans anyCase [t] rest next := by
  refine spans_skipWS ?_
  rw [text]
  exact @Spans.cons anyCase [] _ _ _ _ _ nofun writes ends (@Spans.nil anyCase [] _ nofun)

theorem head_dropWhile {p : UInt8 → Bool} {l : Str} : ∀ c ∈ (l.dropWhile p).head?, p c = false := by
  intro c head
  have h := List.head?_dropWhile_not p l
  rw [Option.mem_def.mp head] at h
  exact h

theorem spans_keyword {kw : Str} (known : kw ∈ keywords)
    (h : tryKeyword kw rest = (true, next)) : Spans anyCase [.keyword kw] rest next := by
  rw [tryKeyword] at h
  by_cases same : toUpper ((skipWS rest).takeWhile isIdentChar) = kw
  · rw [if_pos same] at h
    cases h
    exact spans_token (List.takeWhile_append_dropWhile ..).symm (.keyword known same)
      head_dropWhile
  · rw [if_neg same] at h
    cases h

theorem tryKeyword_false {kw : Str} (h : tryKeyword kw rest = (false, next)) :
    next = skipWS rest := by
  rw [tryKeyword] at h
  by_cases same : toUpper ((skipWS rest).takeWhile isIdentChar) = kw
  · rw [if_pos same] at h
    cases h
  · rw [if_neg same] at h
    cases h
    rfl

theorem spans_expectKeyword {kw : Str} {u : Unit} (known : kw ∈ keywords)
    (h : expectKeyword size kw rest = .ok (u, next)) : Spans anyCase [.keyword kw] rest next := by
  rw [expectKeyword] at h
  cases found : tryKeyword kw rest with
  | mk hit after =>
    rw [found] at h
    cases hit with
    | true =>
      cases h
      exact spans_keyword known found
    | false => cases h

/-- A word that has been read, and what cannot follow it. -/
theorem consumeIdent_word {name : Str} (h : consumeIdent size rest = .ok (name, next)) :
    Identifier name ∧ skipWS rest = name ++ next ∧
      ∀ c ∈ next.head?, isIdentChar c = false := by
  rw [consumeIdent] at h
  cases text : skipWS rest with
  | nil =>
    rw [text] at h
    cases h
  | cons c tail =>
    rw [text] at h
    by_cases start : (isAlpha c || c == 95) = true
    · simp only [start, if_true] at h
      cases h
      have ident := isIdentChar_of_start start
      refine ⟨⟨c, tail.takeWhile isIdentChar, ?_, start, fun d mem =>
        List.mem_takeWhile_imp mem⟩, ?_, head_dropWhile⟩
      · rw [List.takeWhile_cons, if_pos ident]
      · exact (List.takeWhile_append_dropWhile ..).symm
    · simp only [start] at h
      cases h

theorem spans_ident {name : Str} (h : consumeIdent size rest = .ok (name, next)) :
    Spans anyCase [.ident name] rest next := by
  obtain ⟨identifier, text, ends⟩ := consumeIdent_word h
  exact spans_token text (.ident identifier) ends

theorem spans_symbol {c : UInt8} (listed : [c] ∈ symbols) (plain : c ≠ 60 ∧ c ≠ 62)
    (text : skipWS rest = c :: next) : Spans anyCase [.symbol [c]] rest next :=
  spans_token (w := [c]) text (.symbol listed) (symbol_endsBefore plain next)

theorem spans_expectChar {c : UInt8} {u : Unit} (listed : [c] ∈ symbols) (plain : c ≠ 60 ∧ c ≠ 62)
    (h : expectChar size c rest = .ok (u, next)) : Spans anyCase [.symbol [c]] rest next := by
  rw [expectChar] at h
  cases text : skipWS rest with
  | nil =>
    rw [text] at h
    cases h
  | cons d tail =>
    rw [text] at h
    by_cases same : d = c
    · simp only [if_pos same] at h
      cases h
      exact spans_symbol listed plain (same ▸ text)
    · simp only [if_neg same] at h
      cases h

theorem column_consumed {name : Str} (h : consumeQualifiedIdent size rest = .ok (name, next)) :
    Consumed (Column accepted) name rest next := by
  obtain ⟨⟨first, after⟩, word, h⟩ := bind_ok_iff.mp h
  dsimp only at h
  have front := spans_ident word
  split at h
  · next after' dot =>
    obtain ⟨⟨second, last⟩, word', h⟩ := bind_ok_iff.mp h
    cases h
    refine ⟨_, .qualified trivial trivial, ?_⟩
    exact spans_append front (spans_append (spans_symbol (c := 46) (by decide) (by decide) dot)
      (spans_ident word'))
  · cases h
    exact ⟨_, .bare trivial, spans_append front (spans_space after)⟩

theorem int_consumed {v : Int} (h : consumeInt size rest = .ok (v, next)) :
    ∃ neg digits, v = readInt neg digits ∧ Spans anyCase [.int neg digits] rest next := by
  have digits : ∀ {neg : Bool} {text : Str}, consumeDigits size neg text = .ok (v, next) →
      ∃ digits, v = readInt neg digits ∧ text = digits ++ next ∧ digits ≠ [] ∧
        (∀ c ∈ digits, isDigit c = true) ∧ ∀ c ∈ next.head?, isDigit c = false := by
    intro neg text h
    rw [consumeDigits] at h
    by_cases none : text.takeWhile isDigit = []
    · rw [if_pos none] at h
      cases h
    · rw [if_neg none] at h
      cases h
      exact ⟨_, rfl, (List.takeWhile_append_dropWhile ..).symm, none,
        fun c mem => List.mem_takeWhile_imp mem, head_dropWhile⟩
  rw [consumeInt] at h
  split at h
  · next tail minus =>
    obtain ⟨ds, value, text, nonempty, all, ends⟩ := digits h
    refine ⟨true, ds, value, spans_token (w := 45 :: ds) ?_ (.int nonempty all) ends⟩
    rw [minus, text]
    rfl
  · obtain ⟨ds, value, text, nonempty, all, ends⟩ := digits h
    exact ⟨false, ds, value, spans_token (w := ds) text (.int nonempty all) ends⟩

theorem stringChars_consumed {text front value : Str}
    (h : stringChars text front = .ok (value, next)) :
    ∃ tail, value = front ++ tail ∧ text = doubled tail ++ 39 :: next ∧
      (∀ c ∈ tail, ¬ 127 < c) ∧ ∀ c ∈ next.head?, (c == 39) = false := by
  induction text, front using stringChars.induct with
  | case1 front => cases h
  | case2 front =>
    cases h
    exact ⟨[], (List.append_nil _).symm, rfl, nofun, nofun⟩
  | case3 front c quote high =>
    rw [stringChars, if_neg quote, if_pos high] at h
    cases h
  | case4 front c quote low =>
    rw [stringChars, if_neg quote, if_neg low] at h
    cases h
  | case5 front rest ih =>
    rw [stringChars, if_pos rfl, if_pos rfl] at h
    obtain ⟨tail, rfl, rfl, ascii, ends⟩ := ih h
    refine ⟨39 :: tail, by rw [List.append_assoc]; rfl, rfl, fun c mem => ?_, ends⟩
    rcases List.mem_cons.mp mem with rfl | mem
    · decide
    · exact ascii c mem
  | case6 front d rest quote =>
    rw [stringChars, if_pos rfl, if_neg quote] at h
    cases h
    refine ⟨[], (List.append_nil _).symm, rfl, nofun, fun c head => ?_⟩
    cases head
    exact beq_eq_false_iff_ne.mpr quote
  | case7 c d rest front quote high =>
    rw [stringChars, if_neg quote, if_pos high] at h
    cases h
  | case8 c d rest front quote low ih =>
    rw [stringChars, if_neg quote, if_neg low] at h
    obtain ⟨tail, rfl, text, ascii, ends⟩ := ih h
    refine ⟨c :: tail, by rw [List.append_assoc]; rfl, ?_, fun e mem => ?_, ends⟩
    · rw [text]
      simp [doubled, quote]
    · rcases List.mem_cons.mp mem with rfl | mem
      · exact low
      · exact ascii e mem

theorem string_consumed {value : Str} (h : consumeString size rest = .ok (value, next)) :
    Spans anyCase [.string value] rest next := by
  rw [consumeString] at h
  cases text : skipWS rest with
  | nil =>
    rw [text] at h
    cases h
  | cons c tail =>
    rw [text] at h
    by_cases quote : c = 39
    · simp only [if_pos quote] at h
      obtain ⟨_, rfl, written, ascii, ends⟩ := stringChars_consumed h
      refine spans_token (w := 39 :: (doubled value ++ [39])) ?_ (.string ascii) ends
      rw [text, written, quote, List.cons_append, List.append_assoc]
      rfl
    · simp only [if_neg quote] at h
      cases h

theorem operator_consumed {kind : CompareKind}
    (h : comparisonOperator (skipWS rest) = some (kind, next)) :
    Spans anyCase [.symbol (operatorSymbol kind)] rest next := by
  have plain : ∀ {s : Str}, s ≠ str "<" → s ≠ str ">" → (Token.symbol s).EndsBefore next := by
    intro s less greater c _
    rw [Token.glues, beq_eq_false_iff_ne.mpr less, beq_eq_false_iff_ne.mpr greater]
    rfl
  unfold comparisonOperator at h
  split at h
  · next text =>
    cases h
    exact spans_token (w := str "!=") text (.symbol (by decide)) (plain (by decide) (by decide))
  · next text =>
    cases h
    exact spans_token (w := str ">=") text (.symbol (by decide)) (plain (by decide) (by decide))
  · next text =>
    cases h
    exact spans_token (w := str "<=") text (.symbol (by decide)) (plain (by decide) (by decide))
  · next text =>
    cases h
    exact spans_token (w := str "=") text (.symbol (by decide)) (plain (by decide) (by decide))
  · next _ other text =>
    cases h
    refine spans_token (w := str ">") text (.symbol (by decide)) fun c head => ?_
    rw [Token.glues, Bool.and_eq_false_iff, beq_eq_false_iff_ne]
    refine Or.inr fun same => ?_
    obtain ⟨tail, rfl⟩ := List.head?_eq_some_iff.mp head
    exact other tail (same ▸ rfl)
  · next _ other text =>
    cases h
    refine spans_token (w := str "<") text (.symbol (by decide)) fun c head => ?_
    rw [Token.glues, Bool.and_eq_false_iff, beq_eq_false_iff_ne]
    refine Or.inr fun same => ?_
    obtain ⟨tail, rfl⟩ := List.head?_eq_some_iff.mp head
    exact other tail (same ▸ rfl)
  · cases h

/-- The tokens a loop adds behind its left operand. -/
def Extends (level : Level) (left e : ASTExpr) (rest next : Str) : Prop :=
  ∃ us, (∀ ts, Expr accepted level left ts → Expr accepted level e (ts ++ us)) ∧
    Spans anyCase us rest next

/-- What the functions of an expression consume with some fuel. -/
structure Sound (size fuel : Nat) : Prop where
  or : ∀ {rest e next}, parseOr size fuel rest = .ok (e, next) →
    Consumed (Expr accepted .or) e rest next
  orLoop : ∀ {left rest e next}, orLoop size fuel left rest = .ok (e, next) →
    Extends .or left e rest next
  and : ∀ {rest e next}, parseAnd size fuel rest = .ok (e, next) →
    Consumed (Expr accepted .and) e rest next
  andLoop : ∀ {left rest e next}, andLoop size fuel left rest = .ok (e, next) →
    Extends .and left e rest next
  not : ∀ {rest e next}, parseNot size fuel rest = .ok (e, next) →
    Consumed (Expr accepted .not) e rest next
  comparison : ∀ {rest e next}, parseComparison size fuel rest = .ok (e, next) →
    Consumed (Expr accepted .comparison) e rest next
  primary : ∀ {rest e next}, parsePrimary size fuel rest = .ok (e, next) →
    Consumed (Expr accepted .primary) e rest next

theorem extends_none (level : Level) (e : ASTExpr) (rest : Str) :
    Extends level e e rest (skipWS rest) :=
  ⟨[], fun ts shape => by rwa [List.append_nil], spans_space rest⟩

theorem extended {level level' : Level} {left e : ASTExpr} {middle : Str}
    (within : ∀ {ts}, Expr accepted level left ts → Expr accepted level' left ts)
    (front : Consumed (Expr accepted level) left rest middle)
    (back : Extends level' left e middle next) : Consumed (Expr accepted level') e rest next := by
  obtain ⟨ts, shape, spans⟩ := front
  obtain ⟨us, more, spans'⟩ := back
  exact ⟨ts ++ us, more ts (within shape), spans_append spans spans'⟩

/-- One round of a loop in front of the others. -/
theorem extends_round {level level' : Level} {kind : BooleanKind} {kw : Str}
    {left right e : ASTExpr} {after middle : Str} (known : kw ∈ keywords)
    (join : ∀ {ts us}, Expr accepted level left ts → Expr accepted level' right us →
      Expr accepted level (.boolean kind left right) (ts ++ .keyword kw :: us))
    (word : tryKeyword kw rest = (true, after))
    (operand : Consumed (Expr accepted level') right after middle)
    (others : Extends level (.boolean kind left right) e middle next) :
    Extends level left e rest next := by
  obtain ⟨us, shape, spans⟩ := operand
  obtain ⟨vs, more, spans'⟩ := others
  refine ⟨.keyword kw :: us ++ vs, fun ts front => ?_,
    spans_append (spans_append (spans_keyword known word) spans) spans'⟩
  have joined := more _ (join front shape)
  rwa [List.append_assoc] at joined

theorem sound_succ (below : Sound size fuel) : Sound size (fuel + 1) where
  or h := by
    rw [parseOr] at h
    obtain ⟨⟨left, middle⟩, first, h⟩ := bind_ok_iff.mp h
    exact extended .conjunction (below.and first) (below.orLoop h)
  orLoop {left rest e next} h := by
    rw [SQLParser.orLoop] at h
    cases word : tryKeyword (str "OR") rest with
    | mk hit after =>
      rw [word] at h
      cases hit with
      | false =>
        cases h
        rw [tryKeyword_false word]
        exact extends_none .or left rest
      | true =>
        obtain ⟨⟨right, middle⟩, first, h⟩ := bind_ok_iff.mp h
        exact extends_round (by decide) .or word (below.and first) (below.orLoop h)
  and h := by
    rw [parseAnd] at h
    obtain ⟨⟨left, middle⟩, first, h⟩ := bind_ok_iff.mp h
    exact extended .negation (below.not first) (below.andLoop h)
  andLoop {left rest e next} h := by
    rw [SQLParser.andLoop] at h
    cases word : tryKeyword (str "AND") rest with
    | mk hit after =>
      rw [word] at h
      cases hit with
      | false =>
        cases h
        rw [tryKeyword_false word]
        exact extends_none .and left rest
      | true =>
        obtain ⟨⟨right, middle⟩, first, h⟩ := bind_ok_iff.mp h
        exact extends_round (by decide) .and word (below.not first) (below.andLoop h)
  not {rest e next} h := by
    rw [parseNot] at h
    cases word : tryKeyword (str "NOT") rest with
    | mk hit after =>
      rw [word] at h
      cases hit with
      | true =>
        obtain ⟨⟨child, last⟩, first, h⟩ := bind_ok_iff.mp h
        cases h
        obtain ⟨ts, shape, spans⟩ := below.not first
        exact ⟨_, .not shape, spans_append (spans_keyword (by decide) word) spans⟩
      | false =>
        obtain rfl := tryKeyword_false word
        obtain ⟨ts, shape, spans⟩ := below.comparison h
        refine ⟨ts, .comparison (fun name head same => ?_) shape, spans_skipWS spans⟩
        -- an identifier NOT would have been taken for the keyword
        obtain ⟨tail, rfl⟩ := List.head?_eq_some_iff.mp head
        obtain ⟨w, after, text, writes, ends, _, _⟩ :=
          spans_cons spells_anyCase (spans_skipWS spans)
        cases writes with
        | ident identifier =>
          rw [tryKeyword_word identifier text ends, if_pos same] at word
          cases word
  comparison {rest e next} h := by
    rw [parseComparison] at h
    obtain ⟨⟨left, middle⟩, first, h⟩ := bind_ok_iff.mp h
    obtain ⟨ts, shape, spans⟩ := below.primary first
    dsimp only at h
    cases operator : comparisonOperator (skipWS middle) with
    | none =>
      rw [operator] at h
      cases h
      have spans := spans_append spans (spans_space middle)
      rw [List.append_nil] at spans
      exact ⟨ts, .operand shape, spans⟩
    | some found =>
      obtain ⟨kind, after⟩ := found
      rw [operator] at h
      obtain ⟨⟨right, last⟩, second, h⟩ := bind_ok_iff.mp h
      cases h
      obtain ⟨us, shape', spans'⟩ := below.primary second
      exact ⟨_, .compare shape shape',
        spans_append spans (spans_append (operator_consumed operator) spans')⟩
  primary {rest e next} h := by
    rw [parsePrimary] at h
    cases text : skipWS rest with
    | nil =>
      rw [text] at h
      cases h
    | cons c tail =>
      rw [text] at h
      have skipped : ∀ {ts}, Spans anyCase ts (c :: tail) next → Spans anyCase ts rest next :=
        fun spans => spans_skipWS (text ▸ spans)
      by_cases paren : c = 40
      · subst paren
        simp only [if_true] at h
        obtain ⟨⟨inside, middle⟩, first, h⟩ := bind_ok_iff.mp h
        obtain ⟨⟨u, last⟩, second, h⟩ := bind_ok_iff.mp h
        cases h
        obtain ⟨ts, shape, spans⟩ := below.or first
        refine ⟨_, .parentheses shape, ?_⟩
        exact spans_append (spans_symbol (c := 40) (by decide) (by decide) text)
          (spans_append spans (spans_expectChar (c := 41) (by decide) (by decide) second))
      simp only [if_neg paren] at h
      by_cases digit : (isDigit c || c == 45) = true
      · simp only [digit, if_true] at h
        obtain ⟨⟨v, last⟩, first, h⟩ := bind_ok_iff.mp h
        cases h
        obtain ⟨neg, digits, value, spans⟩ := int_consumed first
        exact ⟨_, .int value, skipped spans⟩
      simp only [if_neg digit] at h
      by_cases quote : c = 39
      · simp only [if_pos quote] at h
        obtain ⟨⟨v, last⟩, first, h⟩ := bind_ok_iff.mp h
        cases h
        exact ⟨_, .string, skipped (string_consumed first)⟩
      simp only [if_neg quote] at h
      obtain ⟨⟨name, last⟩, first, h⟩ := bind_ok_iff.mp h
      cases h
      obtain ⟨ts, shape, spans⟩ := column_consumed first
      exact ⟨ts, .column shape, skipped spans⟩

theorem sound (size fuel : Nat) : Sound size fuel := by
  induction fuel with
  | zero =>
    constructor <;> intros <;> contradiction
  | succ fuel ih => exact sound_succ ih

theorem expr_consumed {e : ASTExpr} (h : parseExpr size fuel rest = .ok (e, next)) :
    Consumed (Expr accepted .or) e rest next := (sound size fuel).or h

theorem items_consumed {α : Type} {item : Str → Except Exn (α × Str)}
    {shape : α → List Token → Prop}
    (consumed : ∀ {rest a next}, item rest = .ok (a, next) → Consumed shape a rest next)
    {front l : List α} (h : commaLoop item fuel front rest = .ok (l, next)) :
    ∃ more us, l = front ++ more ∧ Spans anyCase us rest next ∧
      ∀ {a ts}, shape a ts → Items shape (a :: more) (ts ++ us) := by
  induction fuel generalizing front rest with
  | zero => cases h
  | succ fuel ih =>
    rw [commaLoop] at h
    split at h
    · next after comma =>
      obtain ⟨⟨b, middle⟩, first, h⟩ := bind_ok_iff.mp h
      obtain ⟨ts, shaped, spans⟩ := consumed first
      obtain ⟨more, us, rfl, spans', others⟩ := ih h
      refine ⟨b :: more, .symbol [44] :: (ts ++ us), by rw [List.append_assoc]; rfl, ?_,
        fun front => .more front (others shaped)⟩
      exact spans_append (spans_symbol (c := 44) (by decide) (by decide) comma)
        (spans_append spans spans')
    · cases h
      refine ⟨[], [], (List.append_nil _).symm, spans_space rest, fun front => ?_⟩
      rw [List.append_nil]
      exact .one front

theorem projections_consumed {names : List Str}
    (h : parseProjectionList size fuel rest = .ok (names, next)) :
    Consumed (Projections accepted) names rest next := by
  rw [parseProjectionList] at h
  split at h
  · next after star =>
    cases h
    exact ⟨_, .star, spans_symbol (c := 42) (by decide) (by decide) star⟩
  · obtain ⟨⟨name, middle⟩, first, h⟩ := bind_ok_iff.mp h
    obtain ⟨ts, shape, spans⟩ := column_consumed first
    obtain ⟨more, us, rfl, spans', items⟩ := items_consumed column_consumed h
    exact ⟨ts ++ us, .columns (items shape), spans_skipWS (spans_append spans spans')⟩

theorem orderItem_consumed {item : OrderByColumn}
    (h : parseOrderByColumn size rest = .ok (item, next)) :
    Consumed (OrderItem accepted) item rest next := by
  obtain ⟨⟨name, middle⟩, first, h⟩ := bind_ok_iff.mp h
  obtain ⟨ts, column, spans⟩ := column_consumed first
  dsimp only at h
  cases word : tryKeyword (str "DESC") middle with
  | mk hit after =>
    rw [word] at h
    cases hit with
    | true =>
      cases h
      exact ⟨_, .mk column .descending, spans_append spans (spans_keyword (by decide) word)⟩
    | false =>
      cases h
      obtain rfl := tryKeyword_false word
      cases word' : tryKeyword (str "ASC") (skipWS middle) with
      | mk hit after =>
        cases hit with
        | true =>
          exact ⟨_, .mk column .ascending,
            spans_append spans (spans_skipWS (spans_keyword (by decide) word'))⟩
        | false =>
          obtain rfl := tryKeyword_false word'
          exact ⟨_, .mk column .absent,
            spans_append spans (spans_skipWS (spans_space (skipWS middle)))⟩

/-- The text between two places is read as a production. -/
def ReadAs {α : Type} (shape : α → List Token → Prop) (a : α) (rest next : Str) : Prop :=
  ∃ ts, shape a ts ∧ Reading ts rest next

theorem ReadAs.consumed {α : Type} {shape : α → List Token → Prop} {a : α}
    (h : ReadAs shape a rest next) : Consumed shape a rest next := by
  obtain ⟨ts, shaped, reading⟩ := h
  exact ⟨ts, shaped, reading.spans⟩

theorem skipWS_skipWS (rest : Str) : skipWS (skipWS rest) = skipWS rest := by
  cases solid : skipWS rest with
  | nil => rfl
  | cons c tail =>
    refine skipWS_solid ?_ tail
    have head : c ∈ (List.dropWhile isSpace rest).head? := by
      rw [← skipWS, solid]
      rfl
    exact head_dropWhile c head

/-- A word in front of a text is read as an identifier. -/
theorem consumeIdent_firstWord (identifier : Identifier (firstWord (skipWS rest))) :
    ∃ next, consumeIdent size rest = .ok (firstWord (skipWS rest), next) := by
  cases text : skipWS rest with
  | nil =>
    rw [text] at identifier
    obtain ⟨_, _, none, _⟩ := identifier
    cases none
  | cons c tail =>
    rw [text] at identifier
    by_cases start : (isAlpha c || c == 95) = true
    · refine ⟨(c :: tail).dropWhile isIdentChar, ?_⟩
      simp only [consumeIdent, text, firstWord, start, if_true]
      rfl
    · obtain ⟨d, tail', word, start', _⟩ := identifier
      have first : d = c ∨ d = 45 ∨ d = 39 := by
        rw [firstWord, if_neg start] at word
        split at word
        · next digit =>
          rw [List.takeWhile_cons, if_pos digit] at word
          exact Or.inl (List.cons.inj word).1.symm
        · split at word
          · exact Or.inr (Or.inl (List.cons.inj word).1.symm)
          · split at word
            · split at word
              · exact Or.inr (Or.inr (List.cons.inj word).1.symm)
              · cases word
            · split at word
              · exact Or.inl (List.cons.inj word).1.symm
              · exact Or.inl (List.cons.inj word).1.symm
      rcases first with rfl | rfl | rfl
      · exact (start start').elim
      · cases start'
      · cases start'

theorem table_read {table : TableRef} (h : parseTableRef size rest = .ok (table, next)) :
    ReadAs (Table accepted) table rest next := by
  obtain ⟨⟨name, middle⟩, first, h⟩ := bind_ok_iff.mp h
  dsimp only at h
  obtain ⟨identifier, text, ends⟩ := consumeIdent_word first
  have bare : ClauseNext middle → Reading ([.table name] ++ []) rest (skipWS middle) := fun looks =>
    reading_append (reading_table text identifier ends looks)
      (reading_of_clausal (spans_space middle) nofun)
  cases as : tryKeyword (str "AS") middle with
  | mk hit after =>
    rw [as] at h
    cases hit with
    | true =>
      obtain ⟨⟨aliasName, last⟩, second, h⟩ := bind_ok_iff.mp h
      cases h
      have spans := spans_append (spans_ident first)
        (spans_append (spans_keyword (by decide) as) (spans_ident second))
      exact ⟨_, .explicit trivial trivial, reading_of_spans spans (by simp)⟩
    | false =>
      obtain rfl := tryKeyword_false as
      dsimp only at h
      cases second : consumeIdent size (skipWS middle) with
      | error e =>
        rw [second] at h
        cases h
        refine ⟨_, .bare trivial, bare fun word => ?_⟩
        rw [← skipWS_skipWS] at word
        obtain ⟨last, found⟩ := @consumeIdent_firstWord size _ word
        cases second.symm.trans found
      | ok found =>
        obtain ⟨candidate, last⟩ := found
        obtain ⟨identifier', text', ends'⟩ := consumeIdent_word second
        rw [skipWS_skipWS] at text'
        rw [second] at h
        by_cases clause : candidate ∈ clauseWords
        · simp only [if_pos clause] at h
          cases h
          refine ⟨_, .bare trivial, bare fun _ => ?_⟩
          rw [text', firstWord_identifier identifier' ends']
          exact clause
        · simp only [if_neg clause] at h
          cases h
          have spans := spans_append (spans_ident first) (spans_skipWS (spans_ident second))
          refine ⟨_, .implicit trivial trivial ⟨fun same => ?_, clause⟩,
            reading_of_spans spans (by simp)⟩
          -- an AS would have been taken for the keyword
          rw [tryKeyword_word identifier' text' ends', if_pos same] at as
          cases as

/-- Whether INNER stands there or not. -/
theorem inner_consumed (rest : Str) : ∃ inner : List Token,
    (inner = [] ∨ inner = [.keyword (str "INNER")]) ∧
      Spans anyCase inner rest (tryKeyword (str "INNER") rest).2 := by
  cases word : tryKeyword (str "INNER") rest with
  | mk hit after =>
    cases hit with
    | true => exact ⟨_, Or.inr rfl, spans_keyword (by decide) word⟩
    | false =>
      obtain rfl := tryKeyword_false word
      exact ⟨[], Or.inl rfl, spans_space rest⟩

theorem inner_plain {inner : List Token} (h : inner = [] ∨ inner = [.keyword (str "INNER")]) :
    ∀ name, .table name ∉ inner := by
  rcases h with rfl | rfl <;> simp

theorem joins_read {front joins : List JoinClause}
    (h : joinLoop size fuel front rest = .ok (joins, next)) :
    ∃ more ts inner, joins = front ++ more ∧ Joins accepted more ts ∧
      (inner = [] ∨ inner = [.keyword (str "INNER")]) ∧ Reading (ts ++ inner) rest next := by
  induction fuel generalizing front rest with
  | zero => cases h
  | succ fuel ih =>
    rw [joinLoop] at h
    obtain ⟨inner, optional, spans⟩ := inner_consumed rest
    cases word : tryKeyword (str "JOIN") (tryKeyword (str "INNER") rest).2 with
    | mk hit after =>
      rw [word] at h
      cases hit with
      | false =>
        cases h
        obtain rfl := tryKeyword_false word
        refine ⟨[], [], inner, (List.append_nil _).symm, .nil, optional, ?_⟩
        have h := spans_append spans (spans_space (tryKeyword (str "INNER") rest).2)
        rw [List.append_nil] at h
        exact reading_of_spans h (inner_plain optional)
      | true =>
        obtain ⟨⟨table, r₁⟩, first, h⟩ := bind_ok_iff.mp h
        obtain ⟨⟨u, r₂⟩, on, h⟩ := bind_ok_iff.mp h
        obtain ⟨⟨condition, r₃⟩, second, h⟩ := bind_ok_iff.mp h
        obtain ⟨ts, table', reading⟩ := table_read first
        obtain ⟨us, expr, spans₂⟩ := expr_consumed second
        obtain ⟨more, vs, stray, rfl, others, optional', spans₃⟩ := ih h
        have inner' : Inner inner := by
          rcases optional with rfl | rfl
          · exact .absent
          · exact .present
        refine ⟨_ :: more, _, stray, by rw [List.append_assoc]; rfl,
          .cons (.mk inner' table' expr) others, optional', ?_⟩
        have front := spans_append spans (spans_keyword (by decide) word)
        have back := spans_append (spans_expectKeyword (by decide) on) spans₂
        have plain : ∀ name, .table name ∉ inner ++ [.keyword (str "JOIN")] := by
          intro name mem
          rcases List.mem_append.mp mem with mem | mem
          · exact inner_plain optional name mem
          · cases List.mem_singleton.mp mem
        have joined := reading_append (reading_append (reading_of_spans front plain)
          (reading_append reading (reading_of_clausal back ?_))) spans₃
        · simpa only [List.append_assoc, List.cons_append, List.nil_append] using joined
        · exact keyword_clausal (by decide) (expr_clausal expr)

theorem where_consumed {whereClause : Option ASTExpr}
    (h : parseWhere size fuel rest = .ok (whereClause, next)) :
    Consumed (Where accepted) whereClause rest next := by
  rw [parseWhere] at h
  cases word : tryKeyword (str "WHERE") rest with
  | mk hit after =>
    rw [word] at h
    cases hit with
    | true =>
      obtain ⟨⟨e, last⟩, first, h⟩ := bind_ok_iff.mp h
      cases h
      obtain ⟨ts, shape, spans⟩ := expr_consumed first
      exact ⟨_, .present shape, spans_append (spans_keyword (by decide) word) spans⟩
    | false =>
      cases h
      obtain rfl := tryKeyword_false word
      exact ⟨[], .absent, spans_space rest⟩

theorem orderBy_consumed {order : List OrderByColumn}
    (h : parseOrderBy size fuel rest = .ok (order, next)) :
    Consumed (OrderBy accepted) order rest next := by
  rw [parseOrderBy] at h
  cases word : tryKeyword (str "ORDER") rest with
  | mk hit after =>
    rw [word] at h
    cases hit with
    | true =>
      obtain ⟨⟨u, middle⟩, by_, h⟩ := bind_ok_iff.mp h
      obtain ⟨⟨item, last⟩, first, h⟩ := bind_ok_iff.mp h
      obtain ⟨ts, shape, spans⟩ := orderItem_consumed first
      obtain ⟨more, us, rfl, spans', items⟩ := items_consumed orderItem_consumed h
      exact ⟨_, .present (items shape), spans_append (spans_keyword (by decide) word)
        (spans_append (spans_expectKeyword (by decide) by_) (spans_append spans spans'))⟩
    | false =>
      cases h
      obtain rfl := tryKeyword_false word
      exact ⟨[], .absent, spans_space rest⟩

theorem limit_consumed {limit : Int} (h : parseLimit size rest = .ok (limit, next)) :
    Consumed (Limit accepted) limit rest next := by
  rw [parseLimit] at h
  cases word : tryKeyword (str "LIMIT") rest with
  | mk hit after =>
    rw [word] at h
    cases hit with
    | true =>
      obtain ⟨⟨v, last⟩, first, h⟩ := bind_ok_iff.mp h
      obtain ⟨neg, digits, value, spans⟩ := int_consumed first
      dsimp only at h
      by_cases negative : v < 0
      · rw [if_pos negative] at h
        cases h
      · rw [if_neg negative] at h
        cases h
        exact ⟨_, .present value (Int.not_lt.mp negative),
          spans_append (spans_keyword (by decide) word) spans⟩
    | false =>
      cases h
      obtain rfl := tryKeyword_false word
      exact ⟨[], .absent, spans_space rest⟩

theorem select_read {stmt : SelectStatement}
    (h : parseSelect size fuel rest = .ok (stmt, next)) :
    ReadAs (Select accepted) stmt rest next := by
  obtain ⟨⟨u, r₁⟩, select, h⟩ := bind_ok_iff.mp h
  obtain ⟨⟨projections, r₂⟩, projected, h⟩ := bind_ok_iff.mp h
  obtain ⟨⟨u', r₃⟩, from_, h⟩ := bind_ok_iff.mp h
  obtain ⟨⟨source, r₄⟩, table, h⟩ := bind_ok_iff.mp h
  obtain ⟨⟨joins, r₅⟩, joined, h⟩ := bind_ok_iff.mp h
  obtain ⟨⟨whereClause, r₆⟩, filtered, h⟩ := bind_ok_iff.mp h
  obtain ⟨⟨order, r₇⟩, ordered, h⟩ := bind_ok_iff.mp h
  obtain ⟨⟨limit, r₈⟩, limited, h⟩ := bind_ok_iff.mp h
  cases h
  obtain ⟨ps, hp, sp⟩ := projections_consumed projected
  obtain ⟨ts, ht, st⟩ := table_read table
  obtain ⟨_, js, inner, rfl, hj, stray, sj⟩ := joins_read joined
  obtain ⟨ws, hw, sw⟩ := where_consumed filtered
  obtain ⟨os, ho, so⟩ := orderBy_consumed ordered
  obtain ⟨ls, hl, sl⟩ := limit_consumed limited
  refine ⟨_, .mk hp ht hj (stray.imp_right fun h => ⟨trivial, h⟩) hw ho hl, ?_⟩
  have front := spans_append (spans_expectKeyword (by decide) select)
    (spans_append sp (spans_expectKeyword (by decide) from_))
  have back := spans_append sw (spans_append so sl)
  have all := reading_append (reading_of_clausal front ?_)
    (reading_append st (reading_append sj (reading_of_clausal back ?_)))
  · simpa only [List.append_assoc, List.cons_append, List.nil_append] using all
  · rw [List.singleton_append]
    refine keyword_clausal (by decide) (List.forall_mem_append.mpr ⟨projections_clausal hp, ?_⟩)
    exact keyword_clausal (by decide) nofun
  · simp only [List.forall_mem_append]
    exact ⟨where_clausal hw, orderBy_clausal ho, limit_clausal hl⟩

/-- Every accepted text is read as a rendering of the statement it is parsed to. -/
theorem reading_of_parse {stmt : SelectStatement} {text : Str} (h : parse text = .ok stmt) :
    ∃ ts, Renders accepted stmt ts ∧ Reading ts text [] := by
  obtain ⟨⟨stmt', last⟩, first, h⟩ := bind_ok_iff.mp h
  obtain ⟨ts, shape, reading⟩ := select_read first
  have space : ∀ {rest : Str}, skipWS rest = [] → Reading [] rest [] := fun {rest} clear => by
    have all := reading_of_clausal (spans_space rest) nofun
    rwa [clear] at all
  have plain : skipWS last = [] → stmt' = stmt →
      ∃ ts, Renders accepted stmt ts ∧ Reading ts text [] := by
    rintro clear rfl
    have all := reading_append reading (space clear)
    rw [List.append_nil] at all
    exact ⟨_, .plain shape, all⟩
  dsimp only at h
  cases solid : skipWS last with
  | nil =>
    rw [solid] at h
    cases h
    exact plain solid rfl
  | cons c after =>
    rw [solid] at h
    by_cases semicolon : c = 59
    · subst semicolon
      cases clear : skipWS after with
      | nil =>
        simp only [clear] at h
        cases h
        have last := spans_symbol (c := 59) (by decide) (by decide) solid
        exact ⟨_, .terminated shape, reading_append reading
          (reading_append (reading_of_spans last (by simp)) (space clear))⟩
      | cons d tail =>
        simp only [clear] at h
        cases h
    · split at h
      · next clear =>
        split at clear
        · next same =>
          cases same
          exact (semicolon rfl).elim
        · cases clear
      · cases h

/-- Every accepted text is laid out as a rendering of the statement it is parsed to. -/
theorem renders_of_parse {stmt : SelectStatement} {text : Str} (h : parse text = .ok stmt) :
    ∃ ts, Renders accepted stmt ts ∧ Lays anyCase ts text := by
  obtain ⟨ts, renders, reading⟩ := reading_of_parse h
  exact ⟨ts, renders, reading.spans⟩

end FheSql.ParserSoundness
