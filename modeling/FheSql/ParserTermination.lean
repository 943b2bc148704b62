import FheSql.ParserSoundness

/-!
# Every text is parsed or refused

A function that has returned leaves a shorter text, so the recursion ends within the
fuel that `parse` hands out, and nothing but a `ParseError` stops it.
-/

namespace FheSql.ParserTermination

open ByteText SQLParser SqlTokens SqlGrammar ParserSoundness Throwing

def Refusal (e : Exn) : Prop := ∃ what, e = .parseError what

theorem refusal (what : Str) : Refusal (.parseError what) := ⟨what, rfl⟩

variable {size fuel : Nat} {rest next : Str}

theorem spans_length {ts : List Token} (h : Spans anyCase ts rest next) :
    next.length + ts.length ≤ rest.length := by
  induction h with
  | nil space =>
    rw [List.length_append, List.length_nil]
    omega
  | cons space writes _ _ ih =>
    obtain ⟨c, tail, rfl, _⟩ := writes_head spells_anyCase writes
    simp only [List.length_append, List.length_cons]
    omega

theorem skipWS_length (rest : Str) : (skipWS rest).length ≤ rest.length :=
  List.length_dropWhile_le isSpace rest

theorem keyword_shorter {kw : Str} (known : kw ∈ keywords)
    (h : tryKeyword kw rest = (true, next)) : next.length < rest.length := by
  have counted := spans_length (spans_keyword known h)
  simp only [List.length_cons, List.length_nil] at counted
  omega

/-- A keyword that is missing leaves no more than there was. -/
theorem tryKeyword_length (kw : Str) (rest : Str) :
    (tryKeyword kw rest).2.length ≤ rest.length := by
  have space := skipWS_length rest
  rw [tryKeyword]
  split
  · exact (List.length_dropWhile_le isIdentChar _).trans space
  · exact space

theorem column_tokens {name : Str} {ts : List Token} (h : Column accepted name ts) :
    0 < ts.length := by
  cases h with
  | bare => exact Nat.one_pos
  | qualified => exact Nat.succ_pos 2

theorem expr_tokens {level : Level} {e : ASTExpr} {ts : List Token}
    (h : Expr accepted level e ts) : 0 < ts.length := by
  induction h with
  | conjunction _ ih => exact ih
  | negation _ ih => exact ih
  | comparison _ _ ih => exact ih
  | operand _ ih => exact ih
  | column shape => exact column_tokens shape
  | int => exact Nat.one_pos
  | string => exact Nat.one_pos
  | not => exact Nat.succ_pos _
  | parentheses => exact Nat.succ_pos _
  | or _ _ ih _ =>
    rw [List.length_append]
    exact Nat.add_pos_left ih _
  | and _ _ ih _ =>
    rw [List.length_append]
    exact Nat.add_pos_left ih _
  | compare _ _ ih _ =>
    rw [List.length_append]
    exact Nat.add_pos_left ih _

theorem consumed_length {α : Type} {shape : α → List Token → Prop} {a : α}
    (h : Consumed shape a rest next) : next.length ≤ rest.length := by
  obtain ⟨ts, _, spans⟩ := h
  have counted := spans_length spans
  omega

theorem consumed_shorter {α : Type} {shape : α → List Token → Prop} {a : α}
    (tokens : ∀ {ts}, shape a ts → 0 < ts.length) (h : Consumed shape a rest next) :
    next.length < rest.length := by
  obtain ⟨ts, shaped, spans⟩ := h
  have counted := spans_length spans
  have some_token := tokens shaped
  omega

theorem expr_shorter {level : Level} {e : ASTExpr}
    (h : Consumed (Expr accepted level) e rest next) : next.length < rest.length :=
  consumed_shorter expr_tokens h

theorem consumeIdent_refuses (rest : Str) : ThrowsOnly Refusal (consumeIdent size rest) := by
  rw [consumeIdent]
  split
  · exact throwsOnly_error_iff.mpr (refusal _)
  · split
    · exact throwsOnly_ok _
    · exact throwsOnly_error_iff.mpr (refusal _)

theorem consumeQualifiedIdent_refuses (rest : Str) :
    ThrowsOnly Refusal (consumeQualifiedIdent size rest) := by
  refine throwsOnly_bind_iff.mpr ⟨consumeIdent_refuses rest, ?_⟩
  rintro ⟨name, after⟩ _
  dsimp only
  split
  · exact throwsOnly_bind_iff.mpr ⟨consumeIdent_refuses _, fun _ _ => throwsOnly_ok _⟩
  · exact throwsOnly_ok _

theorem consumeInt_refuses (rest : Str) : ThrowsOnly Refusal (consumeInt size rest) := by
  have digits : ∀ (neg : Bool) (text : Str), ThrowsOnly Refusal (consumeDigits size neg text) := by
    intro neg text
    rw [consumeDigits]
    exact (throwsOnly_guard_iff (refusal _)).mpr fun _ => throwsOnly_ok _
  rw [consumeInt]
  split
  · exact digits true _
  · exact digits false _

theorem stringChars_refuses (text value : Str) : ThrowsOnly Refusal (stringChars text value) := by
  induction text, value using stringChars.induct with
  | case1 value => exact throwsOnly_error_iff.mpr (refusal _)
  | case2 value => exact throwsOnly_ok _
  | case3 value c quote high =>
    rw [stringChars, if_neg quote, if_pos high]
    exact throwsOnly_error_iff.mpr (refusal _)
  | case4 value c quote low =>
    rw [stringChars, if_neg quote, if_neg low]
    exact throwsOnly_error_iff.mpr (refusal _)
  | case5 value rest ih =>
    rw [stringChars, if_pos rfl, if_pos rfl]
    exact ih
  | case6 value d rest other =>
    rw [stringChars, if_pos rfl, if_neg other]
    exact throwsOnly_ok _
  | case7 value c d rest quote high =>
    rw [stringChars, if_neg quote, if_pos high]
    exact throwsOnly_error_iff.mpr (refusal _)
  | case8 value c d rest quote low ih =>
    rw [stringChars, if_neg quote, if_neg low]
    exact ih

theorem consumeString_refuses (rest : Str) : ThrowsOnly Refusal (consumeString size rest) := by
  rw [consumeString]
  split
  · exact throwsOnly_error_iff.mpr (refusal _)
  · split
    · exact stringChars_refuses _ _
    · exact throwsOnly_error_iff.mpr (refusal _)

theorem expectKeyword_refuses (kw rest : Str) :
    ThrowsOnly Refusal (expectKeyword size kw rest) := by
  rw [expectKeyword]
  split
  · exact throwsOnly_ok _
  · exact throwsOnly_error_iff.mpr (refusal _)

theorem expectChar_refuses (c : UInt8) (rest : Str) :
    ThrowsOnly Refusal (expectChar size c rest) := by
  rw [expectChar]
  split
  · exact throwsOnly_error_iff.mpr (refusal _)
  · split
    · exact throwsOnly_ok _
    · exact throwsOnly_error_iff.mpr (refusal _)

/-- The fuel that the functions of an expression need: five calls stand between one
parenthesis and the next. -/
structure Returns (size fuel : Nat) : Prop where
  or : ∀ {rest}, 5 * rest.length + 5 ≤ fuel → ThrowsOnly Refusal (parseOr size fuel rest)
  orLoop : ∀ {left rest}, 5 * rest.length + 1 ≤ fuel →
    ThrowsOnly Refusal (orLoop size fuel left rest)
  and : ∀ {rest}, 5 * rest.length + 4 ≤ fuel → ThrowsOnly Refusal (parseAnd size fuel rest)
  andLoop : ∀ {left rest}, 5 * rest.length + 1 ≤ fuel →
    ThrowsOnly Refusal (andLoop size fuel left rest)
  not : ∀ {rest}, 5 * rest.length + 3 ≤ fuel → ThrowsOnly Refusal (parseNot size fuel rest)
  comparison : ∀ {rest}, 5 * rest.length + 2 ≤ fuel →
    ThrowsOnly Refusal (parseComparison size fuel rest)
  primary : ∀ {rest}, 5 * rest.length + 1 ≤ fuel →
    ThrowsOnly Refusal (parsePrimary size fuel rest)

theorem returns_succ (below : Returns size fuel) : Returns size (fuel + 1) where
  or {rest} enough := by
    rw [parseOr]
    refine throwsOnly_bind_iff.mpr ⟨below.and (by omega), ?_⟩
    rintro ⟨left, middle⟩ first
    have shorter := expr_shorter ((sound size fuel).and first)
    exact below.orLoop (by omega)
  orLoop {left rest} enough := by
    rw [SQLParser.orLoop]
    cases word : tryKeyword (str "OR") rest with
    | mk hit after =>
      cases hit with
      | false => exact throwsOnly_ok _
      | true =>
        have shorter := keyword_shorter (by decide) word
        refine throwsOnly_bind_iff.mpr ⟨below.and (by omega), ?_⟩
        rintro ⟨right, middle⟩ first
        have shorter' := expr_shorter ((sound size fuel).and first)
        exact below.orLoop (by omega)
  and {rest} enough := by
    rw [parseAnd]
    refine throwsOnly_bind_iff.mpr ⟨below.not (by omega), ?_⟩
    rintro ⟨left, middle⟩ first
    have shorter := expr_shorter ((sound size fuel).not first)
    exact below.andLoop (by omega)
  andLoop {left rest} enough := by
    rw [SQLParser.andLoop]
    cases word : tryKeyword (str "AND") rest with
    | mk hit after =>
      cases hit with
      | false => exact throwsOnly_ok _
      | true =>
        have shorter := keyword_shorter (by decide) word
        refine throwsOnly_bind_iff.mpr ⟨below.not (by omega), ?_⟩
        rintro ⟨right, middle⟩ first
        have shorter' := expr_shorter ((sound size fuel).not first)
        exact below.andLoop (by omega)
  not {rest} enough := by
    rw [parseNot]
    cases word : tryKeyword (str "NOT") rest with
    | mk hit after =>
      cases hit with
      | false =>
        have space := skipWS_length rest
        rw [← tryKeyword_false word] at space
        exact below.comparison (by omega)
      | true =>
        have shorter := keyword_shorter (by decide) word
        exact throwsOnly_bind_iff.mpr ⟨below.not (by omega), fun _ _ => throwsOnly_ok _⟩
  comparison {rest} enough := by
    rw [parseComparison]
    refine throwsOnly_bind_iff.mpr ⟨below.primary (by omega), ?_⟩
    rintro ⟨left, middle⟩ first
    have shorter := expr_shorter ((sound size fuel).primary first)
    dsimp only
    cases found : comparisonOperator (skipWS middle) with
    | none => exact throwsOnly_ok _
    | some operator =>
      obtain ⟨kind, after⟩ := operator
      have counted := spans_length (operator_consumed found)
      exact throwsOnly_bind_iff.mpr ⟨below.primary (by omega), fun _ _ => throwsOnly_ok _⟩
  primary {rest} enough := by
    rw [parsePrimary]
    have space := skipWS_length rest
    cases text : skipWS rest with
    | nil => exact throwsOnly_error_iff.mpr (refusal _)
    | cons c tail =>
      rw [text, List.length_cons] at space
      dsimp only
      split
      · refine throwsOnly_bind_iff.mpr ⟨below.or (by omega), fun _ _ => ?_⟩
        exact throwsOnly_bind_iff.mpr ⟨expectChar_refuses 41 _, fun _ _ => throwsOnly_ok _⟩
      · split
        · exact throwsOnly_bind_iff.mpr ⟨consumeInt_refuses _, fun _ _ => throwsOnly_ok _⟩
        · split
          · exact throwsOnly_bind_iff.mpr ⟨consumeString_refuses _, fun _ _ => throwsOnly_ok _⟩
          · exact throwsOnly_bind_iff.mpr
              ⟨consumeQualifiedIdent_refuses _, fun _ _ => throwsOnly_ok _⟩

theorem returns (size fuel : Nat) : Returns size fuel := by
  induction fuel with
  | zero => constructor <;> intros <;> omega
  | succ fuel ih => exact returns_succ ih

theorem parseTableRef_refuses (rest : Str) : ThrowsOnly Refusal (parseTableRef size rest) := by
  refine throwsOnly_bind_iff.mpr ⟨consumeIdent_refuses rest, ?_⟩
  rintro ⟨name, after⟩ _
  dsimp only
  cases tryKeyword (str "AS") after with
  | mk hit behind =>
    cases hit with
    | true => exact throwsOnly_bind_iff.mpr ⟨consumeIdent_refuses _, fun _ _ => throwsOnly_ok _⟩
    | false =>
      dsimp only
      cases consumeIdent size behind with
      | error e => exact throwsOnly_ok _
      | ok word =>
        dsimp only
        split
        · exact throwsOnly_ok _
        · exact throwsOnly_ok _

theorem commaLoop_refuses {α : Type} {item : Str → Except Exn (α × Str)}
    (refuses : ∀ rest, ThrowsOnly Refusal (item rest))
    (shorter : ∀ {rest a next}, item rest = .ok (a, next) → next.length < rest.length)
    (items : List α) (enough : rest.length < fuel) :
    ThrowsOnly Refusal (commaLoop item fuel items rest) := by
  induction fuel generalizing items rest with
  | zero => omega
  | succ fuel ih =>
    rw [commaLoop]
    have space := skipWS_length rest
    split
    · next after comma =>
      rw [comma, List.length_cons] at space
      refine throwsOnly_bind_iff.mpr ⟨refuses after, ?_⟩
      rintro ⟨a, middle⟩ first
      have less := shorter first
      exact ih _ (by omega)
    · exact throwsOnly_ok _

theorem column_shorter {name : Str} (h : consumeQualifiedIdent size rest = .ok (name, next)) :
    next.length < rest.length := consumed_shorter column_tokens (column_consumed h)

theorem parseProjectionList_refuses (enough : rest.length < fuel) :
    ThrowsOnly Refusal (parseProjectionList size fuel rest) := by
  rw [parseProjectionList]
  have space := skipWS_length rest
  split
  · exact throwsOnly_ok _
  · refine throwsOnly_bind_iff.mpr ⟨consumeQualifiedIdent_refuses _, ?_⟩
    rintro ⟨_, after⟩ first
    have shorter := column_shorter first
    exact commaLoop_refuses consumeQualifiedIdent_refuses column_shorter _ (by omega)

theorem parseOrderByColumn_refuses (rest : Str) :
    ThrowsOnly Refusal (parseOrderByColumn size rest) := by
  refine throwsOnly_bind_iff.mpr ⟨consumeQualifiedIdent_refuses rest, ?_⟩
  rintro ⟨name, after⟩ _
  dsimp only
  cases tryKeyword (str "DESC") after with
  | mk hit behind => cases hit <;> exact throwsOnly_ok _

theorem orderItem_shorter {item : OrderByColumn}
    (h : parseOrderByColumn size rest = .ok (item, next)) : next.length < rest.length := by
  refine consumed_shorter (fun shape => ?_) (orderItem_consumed h)
  cases shape with
  | mk column _ =>
    rw [List.length_append]
    exact Nat.add_pos_left (column_tokens column) _

theorem parseOrderBy_refuses (enough : rest.length < fuel) :
    ThrowsOnly Refusal (parseOrderBy size fuel rest) := by
  rw [parseOrderBy]
  cases word : tryKeyword (str "ORDER") rest with
  | mk hit after =>
    cases hit with
    | false => exact throwsOnly_ok _
    | true =>
      have shorter := keyword_shorter (by decide) word
      refine throwsOnly_bind_iff.mpr ⟨expectKeyword_refuses _ _, ?_⟩
      rintro ⟨_, middle⟩ by_
      have counted := spans_length (spans_expectKeyword (by decide) by_)
      refine throwsOnly_bind_iff.mpr ⟨parseOrderByColumn_refuses _, ?_⟩
      rintro ⟨_, last⟩ first
      have shorter' := orderItem_shorter first
      exact commaLoop_refuses parseOrderByColumn_refuses orderItem_shorter _ (by omega)

theorem joinLoop_refuses (joins : List JoinClause) (enough : 5 * rest.length + 6 ≤ fuel) :
    ThrowsOnly Refusal (joinLoop size fuel joins rest) := by
  induction fuel generalizing joins rest with
  | zero => omega
  | succ fuel ih =>
    rw [joinLoop]
    have inner := tryKeyword_length (str "INNER") rest
    cases word : tryKeyword (str "JOIN") (tryKeyword (str "INNER") rest).2 with
    | mk hit after =>
      cases hit with
      | false => exact throwsOnly_ok _
      | true =>
        have shorter := keyword_shorter (by decide) word
        refine throwsOnly_bind_iff.mpr ⟨parseTableRef_refuses _, ?_⟩
        rintro ⟨_, r₁⟩ table
        have counted := consumed_length (table_read table).consumed
        refine throwsOnly_bind_iff.mpr ⟨expectKeyword_refuses _ _, ?_⟩
        rintro ⟨_, r₂⟩ on
        have counted' := spans_length (spans_expectKeyword (by decide) on)
        refine throwsOnly_bind_iff.mpr ⟨(returns size fuel).or (by omega), ?_⟩
        rintro ⟨_, r₃⟩ expr
        have shorter' := expr_shorter (expr_consumed expr)
        exact ih _ (by omega)

theorem parseWhere_refuses (enough : 5 * rest.length + 5 ≤ fuel) :
    ThrowsOnly Refusal (parseWhere size fuel rest) := by
  rw [parseWhere]
  cases word : tryKeyword (str "WHERE") rest with
  | mk hit after =>
    cases hit with
    | false => exact throwsOnly_ok _
    | true =>
      have shorter := keyword_shorter (by decide) word
      exact throwsOnly_bind_iff.mpr
        ⟨(returns size fuel).or (by omega), fun _ _ => throwsOnly_ok _⟩

theorem parseLimit_refuses (rest : Str) : ThrowsOnly Refusal (parseLimit size rest) := by
  rw [parseLimit]
  cases tryKeyword (str "LIMIT") rest with
  | mk hit after =>
    cases hit with
    | false => exact throwsOnly_ok _
    | true =>
      refine throwsOnly_bind_iff.mpr ⟨consumeInt_refuses _, fun _ _ => ?_⟩
      exact (throwsOnly_guard_iff (refusal _)).mpr fun _ => throwsOnly_ok _

theorem parseSelect_refuses (enough : 5 * rest.length + 6 ≤ fuel) :
    ThrowsOnly Refusal (parseSelect size fuel rest) := by
  refine throwsOnly_bind_iff.mpr ⟨expectKeyword_refuses _ _, ?_⟩
  rintro ⟨_, r₁⟩ select
  have h₁ := spans_length (spans_expectKeyword (by decide) select)
  refine throwsOnly_bind_iff.mpr ⟨parseProjectionList_refuses (by omega), ?_⟩
  rintro ⟨_, r₂⟩ ps
  have h₂ := consumed_length (projections_consumed ps)
  refine throwsOnly_bind_iff.mpr ⟨expectKeyword_refuses _ _, ?_⟩
  rintro ⟨_, r₃⟩ from_
  have h₃ := spans_length (spans_expectKeyword (by decide) from_)
  refine throwsOnly_bind_iff.mpr ⟨parseTableRef_refuses _, ?_⟩
  rintro ⟨_, r₄⟩ table
  have h₄ := consumed_length (table_read table).consumed
  refine throwsOnly_bind_iff.mpr ⟨joinLoop_refuses [] (by omega), ?_⟩
  rintro ⟨_, r₅⟩ joins
  obtain ⟨_, js, inner, _, _, _, joined⟩ := joins_read joins
  have h₅ := spans_length joined.spans
  refine throwsOnly_bind_iff.mpr ⟨parseWhere_refuses (by omega), ?_⟩
  rintro ⟨_, r₆⟩ filtered
  have h₆ := consumed_length (where_consumed filtered)
  refine throwsOnly_bind_iff.mpr ⟨parseOrderBy_refuses (by omega), ?_⟩
  rintro ⟨_, r₇⟩ _
  exact throwsOnly_bind_iff.mpr ⟨parseLimit_refuses _, fun _ _ => throwsOnly_ok _⟩

/-- Every text is parsed, or refused with a `ParseError`. -/
theorem parse_refuses (text : Str) : ThrowsOnly Refusal (parse text) := by
  refine throwsOnly_bind_iff.mpr ⟨parseSelect_refuses (by omega), ?_⟩
  rintro ⟨stmt, rest⟩ _
  dsimp only
  split
  · exact throwsOnly_ok stmt
  · exact throwsOnly_error_iff.mpr (refusal _)

end FheSql.ParserTermination
