import FheSql.DroppedTokens
import FheSql.PrintedStatement

/-!
# Parsing what was printed

A statement that was parsed comes back from its own text just if none of its strings
holds a quote and no comparison has a comparison or a NOT for an operand. A quote
would have to be doubled to be read back, which counting the quotes of the text shows.
A missing pair of parentheses shows when the words in print are cut as an expression:
each name and sign has its place, and the parentheses must balance in front of it.
-/

namespace FheSql.PrintParse

open ByteText SQLParser SqlTokens SqlGrammar SqlWords ParserCompleteness
open StatementCompleteness StatementLiterals IntegerLiterals ParserSoundness
open DroppedTokens PrintedStatement

/-- Printing the statement and parsing the text gives the statement again. -/
def PrintsBack (stmt : SelectStatement) : Prop :=
  ∃ sql, stmt.toSQL = some sql ∧ parse sql = .ok stmt

/-- No string holds a quote, and no operand of a comparison is printed open. -/
structure Printable (stmt : SelectStatement) : Prop where
  quoteless : Quoteless (statementLiterals stmt)
  closed : ConditionsClosed stmt

variable {spell : Spelling} {L : Lexicon} {ts us : List Token} {vs ws : List Str}

theorem nameTokens_literals (name : Str) : tokenLiterals denoted (nameTokens name) = [] := by
  unfold nameTokens
  split <;> rfl

theorem listTokens_literals {α : Type} {f : α → List Token}
    (none : ∀ a, tokenLiterals denoted (f a) = []) (l : List α) :
    tokenLiterals denoted (listTokens f l) = [] := by
  induction l with
  | nil => rfl
  | cons a l ih =>
    cases l with
    | nil => exact none a
    | cons b l =>
      change tokenLiterals denoted (f a ++ .symbol (str ",") :: listTokens f (b :: l)) = []
      rw [tokenLiterals_append, none, tokenLiterals_symbol, ih]
      rfl

theorem exprTokens_literals (e : ASTExpr) :
    tokenLiterals denoted (exprTokens e) = exprLiterals e := by
  induction e with
  | columnRef name => exact nameTokens_literals name
  | intLiteral v =>
    change [Literal.int (denoted (decide (v < 0)) (decimal v.natAbs))] = _
    rw [denoted_decimal]
    rfl
  | stringLiteral value => rfl
  | comparison kind l r ih ih' =>
    rw [exprTokens, tokenLiterals_append, tokenLiterals_symbol, ih, ih']
    rfl
  | boolean kind l r ih ih' =>
    rw [exprTokens, tokenLiterals_symbol, tokenLiterals_append, tokenLiterals_append,
      tokenLiterals_keyword, ih, ih']
    exact List.append_nil _
  | notExpr child ih =>
    rw [exprTokens, tokenLiterals_keyword, tokenLiterals_symbol, tokenLiterals_append, ih]
    exact List.append_nil _

theorem conditionTokens_literals (kw : Str) (condition : Option ASTExpr) :
    tokenLiterals denoted (conditionTokens kw condition) = conditionLiterals condition := by
  cases condition with
  | none => rfl
  | some e => exact exprTokens_literals e

theorem tableTokens_literals (table : TableRef) :
    tokenLiterals denoted (tableTokens table) = [] := by
  unfold tableTokens
  split <;> rfl

theorem joinTokens_literals (joins : List JoinClause) :
    tokenLiterals denoted (joins.flatMap joinTokens) =
      joins.flatMap fun join => conditionLiterals join.condition := by
  induction joins with
  | nil => rfl
  | cons join joins ih =>
    rw [List.flatMap_cons, List.flatMap_cons, tokenLiterals_append, ih, joinTokens,
      tokenLiterals_keyword, tokenLiterals_append, tableTokens_literals, conditionTokens_literals]
    rfl

theorem statementTokens_literals (stmt : SelectStatement) :
    tokenLiterals denoted (statementTokens stmt) = statementLiterals stmt := by
  have projections : tokenLiterals denoted (projectionTokens stmt.projections) = [] := by
    unfold projectionTokens
    split
    · rfl
    · exact listTokens_literals nameTokens_literals _
  have item : ∀ item, tokenLiterals denoted (orderItemTokens item) = [] := by
    intro item
    rw [orderItemTokens, tokenLiterals_append, nameTokens_literals]
    split <;> rfl
  have order : tokenLiterals denoted (orderTokens stmt.orderByColumns) = [] := by
    unfold orderTokens
    split
    · rfl
    · exact listTokens_literals item _
  have limit : tokenLiterals denoted (limitTokens stmt.limitCount) =
      if 0 ≤ stmt.limitCount then [.int stmt.limitCount] else [] := by
    rw [limitTokens]
    split
    · exact exprTokens_literals (.intLiteral stmt.limitCount)
    · rfl
  rw [statementTokens, tokenLiterals_keyword, tokenLiterals_append, projections,
    tokenLiterals_keyword, tokenLiterals_append, tableTokens_literals, tokenLiterals_append,
    joinTokens_literals, tokenLiterals_append, conditionTokens_literals, tokenLiterals_append,
    order, limit]
  rfl

def enclosed (n : Nat) (ws : List Str) : List Str :=
  List.replicate n (str "(") ++ (ws ++ List.replicate n (str ")"))

def Balanced (ws : List Str) : Prop := ws.count (str "(") = ws.count (str ")")

theorem enclosed_zero (ws : List Str) : enclosed 0 ws = ws := List.append_nil ws

theorem enclosed_one (ws : List Str) : enclosed 1 ws = str "(" :: (ws ++ [str ")"]) := rfl

theorem enclosed_enclosed (n m : Nat) (ws : List Str) :
    enclosed n (enclosed m ws) = enclosed (m + n) ws := by
  have outer : List.replicate (m + n) (str ")") =
      List.replicate m (str ")") ++ List.replicate n (str ")") := List.replicate_add m n _
  have inner : List.replicate (m + n) (str "(") =
      List.replicate n (str "(") ++ List.replicate m (str "(") := by
    rw [Nat.add_comm, List.replicate_add]
  rw [enclosed, enclosed, enclosed, outer, inner]
  simp only [List.append_assoc]

theorem balanced_append (h : Balanced vs) (h' : Balanced ws) : Balanced (vs ++ ws) := by
  rw [Balanced, List.count_append, List.count_append, h, h']

theorem balanced_cons {w : Str} (plain : parenthesis w = false) (h : Balanced ws) :
    Balanced (w :: ws) := by
  rw [parenthesis, Bool.or_eq_false_iff] at plain
  rw [Balanced, List.count_cons, List.count_cons, plain.1, plain.2]
  exact h

theorem balanced_plain (h : ∀ w ∈ ws, parenthesis w = false) : Balanced ws := by
  induction ws with
  | nil => rfl
  | cons w ws ih =>
    obtain ⟨plain, rest⟩ := List.forall_mem_cons.mp h
    exact balanced_cons plain (ih rest)

theorem balanced_enclosed (n : Nat) (h : Balanced ws) : Balanced (enclosed n ws) := by
  have other : (str ")" == str "(") = false := by decide
  have other' : (str "(" == str ")") = false := by decide
  simp only [Balanced, enclosed, List.count_append, List.count_replicate, beq_self_eq_true, other,
    other', if_true]
  rw [h]
  simp
  omega

theorem kept_plain {w : Str} (h : kept w = true) : parenthesis w = false := by
  rw [kept, Bool.and_eq_true, Bool.not_eq_true'] at h
  exact h.1

theorem weight_parentheses {w : Str} (h : parenthesis w = true) (n : Nat) :
    weight (List.replicate n w) = 0 := by
  rw [weight, List.countP_replicate, kept, h]
  simp

/-- Words that weigh something mark their place, and their parentheses can be counted. -/
theorem enclosed_unique {n m : Nat} {a b r r' : List Str} {w w' : Str}
    (same : enclosed n (a ++ w :: r) = enclosed m (b ++ w' :: r')) (weights : weight a = weight b)
    (stays : kept w = true) (stays' : kept w' = true) (balanced : Balanced a)
    (balanced' : Balanced b) : n = m ∧ a = b ∧ w = w' ∧ r = r' := by
  have cut : (List.replicate n (str "(") ++ a) ++ w :: (r ++ List.replicate n (str ")")) =
      (List.replicate m (str "(") ++ b) ++ w' :: (r' ++ List.replicate m (str ")")) := by
    simpa [enclosed] using same
  have heavy := congrArg weight cut
  simp only [weight_append, weight_parentheses (w := str "(") (by decide)] at heavy
  obtain ⟨front, back⟩ := rear_unique cut (by omega)
    (fun _ head => Option.some.inj head ▸ stays) (fun _ head => Option.some.inj head ▸ stays')
  have layers : n = m := by
    have lefts := congrArg (List.count (str "(")) front
    have rights := congrArg (List.count (str ")")) front
    have other : (str "(" == str ")") = false := by decide
    simp only [List.count_append, List.count_replicate, beq_self_eq_true, if_true, other]
      at lefts rights
    rw [Balanced] at balanced balanced'
    simp at rights
    omega
  subst layers
  obtain ⟨rfl, rest⟩ := List.cons.inj back
  exact ⟨rfl, List.append_cancel_left front, rfl, List.append_cancel_right rest⟩

def exprWords : ASTExpr → List Str
  | .columnRef name => nameWords name
  | .intLiteral v => [(if decide (v < 0) then [45] else []) ++ decimal v.natAbs]
  | .stringLiteral value => [39 :: (doubled value ++ [39])]
  | .comparison kind l r => exprWords l ++ operatorSymbol kind :: exprWords r
  | .boolean kind l r => enclosed 1 (exprWords l ++ booleanWord kind :: exprWords r)
  | .notExpr child => str "NOT" :: enclosed 1 (exprWords child)

theorem exprTokens_words {e : ASTExpr} (h : Wrote exactly (exprTokens e) ws) :
    ws = exprWords e := by
  induction e generalizing ws with
  | columnRef name => exact nameTokens_words h
  | intLiteral v =>
    obtain ⟨_, _, rfl, writes, last⟩ := wrote_cons h
    cases last
    cases writes
    rfl
  | stringLiteral value =>
    obtain ⟨_, _, rfl, writes, last⟩ := wrote_cons h
    cases last
    cases writes
    rfl
  | comparison kind l r ih ih' =>
    obtain ⟨_, _, rfl, front, h⟩ := wrote_append h
    obtain ⟨_, _, rfl, writes, back⟩ := wrote_cons h
    cases writes
    rw [ih front, ih' back]
    rfl
  | boolean kind l r ih ih' =>
    obtain ⟨_, _, rfl, left, h⟩ := wrote_cons h
    obtain ⟨_, _, rfl, h, right⟩ := wrote_append h
    obtain ⟨_, _, rfl, front, h⟩ := wrote_append h
    obtain ⟨_, _, rfl, writes, back⟩ := wrote_cons h
    obtain ⟨_, _, rfl, close, last⟩ := wrote_cons right
    cases last
    cases left
    cases close
    cases writes with
    | keyword _ same => rw [ih front, ih' back, show _ = booleanWord kind from same]; rfl
  | notExpr child ih =>
    obtain ⟨_, _, rfl, writes, h⟩ := wrote_cons h
    obtain ⟨_, _, rfl, left, h⟩ := wrote_cons h
    obtain ⟨_, _, rfl, inside, right⟩ := wrote_append h
    obtain ⟨_, _, rfl, close, last⟩ := wrote_cons right
    cases last
    cases left
    cases close
    cases writes with
    | keyword _ same => rw [ih inside, show _ = str "NOT" from same]; rfl

/-- What stands inside all the parentheses around an expression. -/
def Unwrapped : ASTExpr → List Str → Prop
  | .comparison kind l r, core => ∃ ws vs, core = ws ++ operatorSymbol kind :: vs ∧
      Spelled true l ws ∧ Spelled true r vs
  | .boolean kind l r, core => ∃ c c' ws w vs, core = ws ++ w :: vs ∧
      toUpper w = booleanWord kind ∧ Spelled c l ws ∧ Spelled c' r vs
  | .notExpr child, core => ∃ c w vs, core = w :: vs ∧ toUpper w = str "NOT" ∧ Spelled c child vs
  | _, _ => True

theorem spelled_layers {c : Bool} {e : ASTExpr} (h : Spelled c e ws) :
    ∃ n core, ws = enclosed n core ∧ Unwrapped e core ∧ (c = true → n = 0 → Closed e) := by
  have bare : ∀ {c : Bool} {e ws}, Unwrapped e ws → (c = true → Closed e) →
      ∃ n core, ws = enclosed n core ∧ Unwrapped e core ∧ (c = true → n = 0 → Closed e) :=
    fun {_ _ ws} shape closed => ⟨0, ws, (enclosed_zero ws).symm, shape, fun c _ => closed c⟩
  induction h with
  | column => exact bare trivial fun _ => trivial
  | int => exact bare trivial fun _ => trivial
  | string => exact bare trivial fun _ => trivial
  | compare left right => exact bare ⟨_, _, rfl, left, right⟩ nofun
  | boolean left word right => exact bare ⟨_, _, _, _, _, rfl, word, left, right⟩ nofun
  | not word child => exact bare ⟨_, _, _, rfl, word, child⟩ nofun
  | parentheses _ ih =>
    obtain ⟨n, core, rfl, shape, _⟩ := ih
    refine ⟨n + 1, core, ?_, shape, nofun⟩
    rw [← enclosed_enclosed 1 n core, enclosed_one]

theorem kept_booleanWord (kind : BooleanKind) : kept (booleanWord kind) = true := by
  cases kind <;> decide

theorem literal_plain {w : Str} (h : LiteralWord w) : parenthesis w = false :=
  kept_plain (kept_literal h)

theorem spelled_balanced {c : Bool} {e : ASTExpr} (h : Spelled c e ws) : Balanced ws := by
  induction h with
  | column _ plain => exact balanced_plain plain
  | int literal => exact balanced_cons (literal_plain literal) rfl
  | string literal => exact balanced_cons (literal_plain literal) rfl
  | @compare kind _ _ _ _ _ _ ih ih' =>
    exact balanced_append ih (balanced_cons (kept_plain (kept_operator kind)) ih')
  | boolean _ word _ ih ih' =>
    exact balanced_append ih (balanced_cons (kept_plain (kept_boolean word)) ih')
  | not word _ ih =>
    exact balanced_cons (kept_plain (kept_upper word (by decide) (by decide))) ih
  | parentheses _ ih => exact balanced_enclosed 1 ih

theorem string_word (value : Str) : LiteralWord (39 :: (doubled value ++ [39])) :=
  ⟨39, _, rfl, Or.inr (Or.inr rfl)⟩

theorem int_word (v : Int) :
    LiteralWord ((if decide (v < 0) then [45] else []) ++ decimal v.natAbs) := by
  obtain ⟨nonempty, all, _⟩ := decimal_digits v.natAbs
  exact @int_literal exactly _ _ _ (.int nonempty all)

/-- The words in print of an expression that can be spelled. -/
theorem printed_balanced {c : Bool} {e : ASTExpr} (h : Spelled c e ws) :
    Balanced (exprWords e) := by
  induction h with
  | column names plain =>
    rw [names] at plain
    exact balanced_plain plain
  | @int v => exact balanced_cons (literal_plain (int_word v)) rfl
  | string => exact balanced_cons (literal_plain (string_word _)) rfl
  | @compare kind _ _ _ _ _ _ ih ih' =>
    exact balanced_append ih (balanced_cons (kept_plain (kept_operator kind)) ih')
  | @boolean kind _ _ _ _ _ _ _ _ _ _ ih ih' =>
    exact balanced_enclosed 1
      (balanced_append ih (balanced_cons (kept_plain (kept_booleanWord kind)) ih'))
  | not _ _ ih => exact balanced_cons (by decide) (balanced_enclosed 1 ih)
  | parentheses _ ih => exact ih

theorem weight_enclosed (n : Nat) (ws : List Str) : weight (enclosed n ws) = weight ws := by
  rw [enclosed, weight_append, weight_append, weight_parentheses (by decide),
    weight_parentheses (by decide), Nat.zero_add]
  rfl

theorem printed_weight (e : ASTExpr) : weight (exprWords e) = exprWeight e := by
  induction e with
  | columnRef name => rfl
  | intLiteral v =>
    rw [exprWords, weight_kept (kept_literal (int_word v))]
    rfl
  | stringLiteral value =>
    rw [exprWords, weight_kept (kept_literal (string_word value))]
    rfl
  | comparison kind l r ih ih' =>
    rw [exprWords, weight_append, weight_kept (kept_operator kind), ih, ih', exprWeight]
    omega
  | boolean kind l r ih ih' =>
    rw [exprWords, weight_enclosed, weight_append, weight_kept (kept_booleanWord kind), ih, ih',
      exprWeight]
    omega
  | notExpr child ih =>
    rw [exprWords, weight_kept (by decide), weight_enclosed, ih, exprWeight]

theorem spelled_words {c : Bool} {e : ASTExpr} (h : Spelled c e ws) :
    Balanced (exprWords e) ∧ Balanced ws ∧ weight (exprWords e) = weight ws := by
  refine ⟨printed_balanced h, spelled_balanced h, ?_⟩
  rw [printed_weight, spelled_weight h]

theorem spelled_zero {c : Bool} {e : ASTExpr} (h : Spelled c e ws) :
    Spelled c e (enclosed 0 ws) := by
  rwa [enclosed_zero]

/-- An expression that can be read from its own words in print has only closed operands. -/
theorem operands_closed {c : Bool} {e : ASTExpr} {n : Nat}
    (h : Spelled c e (enclosed n (exprWords e))) :
    OperandsClosed e ∧ (c = true → n = 0 → Closed e) := by
  induction e generalizing c n with
  | columnRef name => exact ⟨trivial, fun _ _ => trivial⟩
  | intLiteral v => exact ⟨trivial, fun _ _ => trivial⟩
  | stringLiteral value => exact ⟨trivial, fun _ _ => trivial⟩
  | comparison kind l r ih ih' =>
    obtain ⟨m, _, same, ⟨ws, vs, rfl, left, right⟩, outer⟩ := spelled_layers h
    obtain ⟨printed, balanced, weights⟩ := spelled_words left
    have stays := kept_operator kind
    obtain ⟨rfl, rfl, _, rfl⟩ := enclosed_unique same weights stays stays printed balanced
    obtain ⟨operands, closed⟩ := ih (n := 0) (spelled_zero left)
    obtain ⟨operands', closed'⟩ := ih' (n := 0) (spelled_zero right)
    exact ⟨⟨⟨closed rfl rfl, operands⟩, closed' rfl rfl, operands'⟩, outer⟩
  | boolean kind l r ih ih' =>
    obtain ⟨m, _, same, ⟨_, _, ws, w, vs, rfl, word, left, right⟩, _⟩ := spelled_layers h
    obtain ⟨printed, balanced, weights⟩ := spelled_words left
    have stays := kept_booleanWord kind
    rw [exprWords, enclosed_enclosed] at same
    obtain ⟨rfl, rfl, _, rfl⟩ := enclosed_unique same weights stays (kept_boolean word) printed
      balanced
    have front := ih (n := 0) (spelled_zero left)
    have back := ih' (n := 0) (spelled_zero right)
    exact ⟨⟨front.1, back.1⟩, fun _ _ => trivial⟩
  | notExpr child ih =>
    obtain ⟨m, _, same, ⟨_, w, vs, rfl, word, inside⟩, outer⟩ := spelled_layers h
    have stays := kept_upper word (by decide) (by decide)
    obtain ⟨rfl, _, _, rfl⟩ := @enclosed_unique n m [] [] _ _ _ _ same rfl (by decide) stays rfl rfl
    exact ⟨(ih inside).1, outer⟩

/-- What the first word must be, if there is one. -/
def Leading (p : Str → Prop) (ws : List Str) : Prop := ∀ w ∈ ws.head?, p w

theorem leading_nil {p : Str → Prop} : Leading p [] := nofun

theorem leading_append {p : Str → Prop} (h : Leading p vs) (h' : Leading p ws) :
    Leading p (vs ++ ws) := by
  cases vs with
  | nil => exact h'
  | cons => exact h

theorem leading_cons {p : Str → Prop} {w : Str} (h : p w) (ws : List Str) : Leading p (w :: ws) :=
  fun _ head => Option.some.inj head ▸ h

def Clausal : List Str → Prop := Leading (· ∈ clauseWords)

def Solid : List Str → Prop := Leading (kept · = true)

theorem solid_of_clausal (h : Clausal ws) : Solid ws := fun w head =>
  (by decide : ∀ w ∈ clauseWords, kept w = true) w (h w head)

theorem keyword_exactly {kw : Str} (h : Wrote exactly (.keyword kw :: ts) ws) :
    ∃ us, ws = kw :: us ∧ Wrote exactly ts us := by
  obtain ⟨w, us, rfl, writes, rest⟩ := wrote_cons h
  cases writes with
  | keyword _ same => exact ⟨us, congrArg (· :: us) same, rest⟩

theorem keyword_anyCase {kw : Str} (h : Wrote anyCase (.keyword kw :: ts) ws) :
    ∃ w us, ws = w :: us ∧ toUpper w = kw ∧ Wrote anyCase ts us := by
  obtain ⟨w, us, rfl, writes, rest⟩ := wrote_cons h
  cases writes with
  | keyword _ same => exact ⟨w, us, rfl, same, rest⟩

theorem ident_words {name : Str} (h : Wrote spell (.ident name :: ts) ws) :
    ∃ us, ws = name :: us ∧ Wrote spell ts us := by
  obtain ⟨w, us, rfl, writes, rest⟩ := wrote_cons h
  cases writes with
  | ident => exact ⟨us, rfl, rest⟩

theorem table_words {name : Str} (h : Wrote spell [.table name] ws) : ws = [name] := by
  obtain ⟨w, us, rfl, writes, last⟩ := wrote_cons h
  cases last
  cases writes
  rfl

theorem clausal_exactly {kw : Str} (clause : kw ∈ clauseWords)
    (wrote : Wrote exactly (.keyword kw :: ts) ws) : Clausal ws := by
  obtain ⟨us, rfl, _⟩ := keyword_exactly wrote
  exact leading_cons clause us

theorem expr_cut (spells : Spells spell) {level : Level} {e : ASTExpr} {r r' : List Str}
    (h : Expr L level e ts) (wrote : Wrote spell ts ws) (same : ws ++ r = exprWords e ++ r')
    (solid : Solid r) (solid' : Solid r') : OperandsClosed e ∧ r = r' := by
  obtain ⟨_, spelled, _⟩ := expr_spelled spells h wrote
  have heavy := congrArg weight same
  rw [weight_append, weight_append, spelled_weight spelled, printed_weight] at heavy
  obtain ⟨rfl, rest⟩ := rear_unique same (by omega) solid solid'
  exact ⟨(operands_closed (spelled_zero spelled)).1, rest⟩

/-- A table in print is cut as the table: an alias without AS is no clause word, and AS
is none either. -/
theorem table_cut {table : TableRef} {r r' : List Str} (h : Table accepted table ts)
    (wrote : Wrote anyCase ts vs) (printed : Wrote exactly (tableTokens table) ws)
    (same : vs ++ r = ws ++ r') (clausal : Clausal r') : r = r' := by
  cases h with
  | @bare t =>
    rw [tableTokens, if_pos rfl] at printed
    rw [table_words wrote, table_words printed] at same
    exact List.append_cancel_left same
  | @implicit t a _ _ other =>
    obtain ⟨_, rfl, behind⟩ := ident_words wrote
    obtain ⟨_, rfl, last⟩ := ident_words behind
    cases last
    by_cases own : a = t
    · rw [tableTokens, if_pos own] at printed
      rw [table_words printed] at same
      have rest : a :: r = r' := (List.cons.inj same).2
      exact (other.2 (clausal a (rest ▸ rfl))).elim
    · rw [tableTokens, if_neg own] at printed
      obtain ⟨_, rfl, printed'⟩ := ident_words printed
      obtain ⟨_, rfl, _⟩ := keyword_exactly printed'
      have same : a = str "AS" := (List.cons.inj (List.cons.inj same).2).1
      obtain ⟨word, _⟩ := other
      rw [same] at word
      exact (word rfl).elim
  | @explicit t a =>
    obtain ⟨_, rfl, behind⟩ := ident_words wrote
    obtain ⟨w, _, rfl, upper, renamed⟩ := keyword_anyCase behind
    obtain ⟨_, rfl, last⟩ := ident_words renamed
    cases last
    by_cases own : a = t
    · rw [tableTokens, if_pos own] at printed
      rw [table_words printed] at same
      have rest : w :: a :: r = r' := (List.cons.inj same).2
      have clause := clausal w (rest ▸ rfl)
      exact absurd upper ((by decide : ∀ w ∈ clauseWords, toUpper w ≠ str "AS") w clause)
    · rw [tableTokens, if_neg own] at printed
      obtain ⟨_, rfl, behind'⟩ := ident_words printed
      obtain ⟨_, rfl, renamed'⟩ := keyword_exactly behind'
      obtain ⟨_, rfl, last⟩ := ident_words renamed'
      cases last
      simpa using (List.cons.inj (List.cons.inj same).2).2

theorem joins_solid (spells : Spells spell) {joins : List JoinClause} (h : Joins L joins ts)
    (wrote : Wrote spell ts ws) : Solid ws := by
  cases h with
  | nil =>
    cases wrote
    exact leading_nil
  | cons join _ =>
    obtain ⟨_, _, rfl, front, _⟩ := wrote_append wrote
    cases join with
    | mk inner _ _ =>
      cases inner with
      | absent =>
        obtain ⟨_, _, rfl, stays, _⟩ := keyword_words spells (by decide) front
        exact leading_cons stays _
      | present =>
        obtain ⟨_, _, rfl, stays, _⟩ := keyword_words spells (by decide) front
        exact leading_cons stays _

theorem joins_lead {joins : List JoinClause}
    (wrote : Wrote exactly (joins.flatMap joinTokens) ws) : Clausal ws := by
  cases joins with
  | nil =>
    cases wrote
    exact leading_nil
  | cons join joins =>
    obtain ⟨_, rfl, _⟩ := keyword_exactly wrote
    exact leading_cons (by decide) _

theorem joins_cut {joins : List JoinClause} {r r' : List Str} (h : Joins accepted joins ts)
    (wrote : Wrote anyCase ts vs) (printed : Wrote exactly (joins.flatMap joinTokens) ws)
    (same : vs ++ r = ws ++ r') (solid : Solid r) (clausal : Clausal r') :
    (∀ join ∈ joins, ∀ e ∈ join.condition, OperandsClosed e) ∧ r = r' := by
  induction h generalizing vs ws with
  | nil =>
    cases wrote
    cases printed
    exact ⟨nofun, same⟩
  | cons join joins ih =>
    obtain ⟨_, vs', rfl, front, back⟩ := wrote_append wrote
    obtain ⟨_, ws', rfl, front', back'⟩ := wrote_append printed
    cases join with
    | @mk inner table _ e _ optional shape expr =>
      obtain ⟨_, rfl, printed'⟩ := keyword_exactly front'
      obtain ⟨tw', _, rfl, printedT, on⟩ := wrote_append printed'
      obtain ⟨ew', rfl, printedE⟩ := keyword_exactly on
      cases optional with
      | present =>
        obtain ⟨w, _, rfl, upper, _⟩ := keyword_anyCase front
        have join : w = str "JOIN" := (List.cons.inj same).1
        rw [join] at upper
        exact absurd upper (by decide)
      | absent =>
        obtain ⟨_, _, rfl, _, wrote'⟩ := keyword_anyCase front
        obtain ⟨tw, _, rfl, wroteT, on⟩ := wrote_append wrote'
        obtain ⟨_, ew, rfl, _, wroteE⟩ := keyword_anyCase on
        simp only [List.append_assoc, List.cons_append, List.cons.injEq] at same
        obtain ⟨_, same⟩ := same
        have same := table_cut shape wroteT printedT same (leading_cons (by decide) _)
        obtain ⟨_, same⟩ := List.cons.inj same
        rw [exprTokens_words printedE] at same
        obtain ⟨closed, same⟩ := expr_cut spells_anyCase expr wroteE same
          (leading_append (joins_solid spells_anyCase joins back) solid)
          (solid_of_clausal (leading_append (joins_lead back') clausal))
        obtain ⟨behind, rest⟩ := ih back back' same
        refine ⟨List.forall_mem_cons.mpr ⟨fun _ mem => ?_, behind⟩, rest⟩
        exact Option.some.inj mem ▸ closed

theorem order_leads {order : List OrderByColumn} (wrote : Wrote exactly (orderTokens order) ws) :
    Clausal ws := by
  by_cases none : order = []
  · rw [orderTokens, if_pos none] at wrote
    cases wrote
    exact leading_nil
  · rw [orderTokens, if_neg none] at wrote
    exact clausal_exactly (by decide) wrote

theorem limit_leads {limit : Int} (wrote : Wrote exactly (limitTokens limit) ws) :
    Clausal ws := by
  by_cases positive : 0 ≤ limit
  · rw [limitTokens, if_pos positive] at wrote
    exact clausal_exactly (by decide) wrote
  · rw [limitTokens, if_neg positive] at wrote
    cases wrote
    exact leading_nil

theorem where_leads {condition : Option ASTExpr}
    (wrote : Wrote exactly (conditionTokens (str "WHERE") condition) ws) : Clausal ws := by
  cases condition with
  | none =>
    cases wrote
    exact leading_nil
  | some e => exact clausal_exactly (by decide) wrote

/-- The WHERE clause in print. An INNER cannot stand in front of it. -/
theorem where_cut {condition : Option ASTExpr} {inner : List Token} {iw r r' : List Str}
    (stray : inner = [] ∨ inner = [.keyword (str "INNER")]) (h : Where accepted condition ts)
    (wroteI : Wrote anyCase inner iw) (wrote : Wrote anyCase ts vs)
    (printed : Wrote exactly (conditionTokens (str "WHERE") condition) ws)
    (same : iw ++ (vs ++ r) = ws ++ r') (solid : Solid r) (solid' : Solid r') :
    ∀ e ∈ condition, OperandsClosed e := by
  cases h with
  | absent => exact nofun
  | present expr =>
    obtain ⟨_, rfl, printedE⟩ := keyword_exactly printed
    rw [exprTokens_words printedE] at same
    rcases stray with rfl | rfl
    · cases wroteI
      obtain ⟨_, _, rfl, _, wroteE⟩ := keyword_anyCase wrote
      have closed := expr_cut spells_anyCase expr wroteE (List.cons.inj same).2 solid solid'
      exact fun _ mem => Option.some.inj mem ▸ closed.1
    · obtain ⟨w, _, rfl, upper, _⟩ := keyword_anyCase wroteI
      have filter : w = str "WHERE" := (List.cons.inj same).1
      rw [filter] at upper
      exact absurd upper (by decide)

/-- A text that is laid out as a rendering of a statement and as its tokens in print
closes the operands of its conditions. -/
theorem conditions_closed {stmt : SelectStatement} {semi : List Str} (h : Select accepted stmt ts)
    (wrote : Wrote anyCase ts vs) (printed : Wrote exactly (statementTokens stmt) ws)
    (same : vs ++ semi = ws) (semicolon : semi = [] ∨ semi = [str ";"]) :
    ConditionsClosed stmt := by
  obtain ⟨ps, tb, js, inner, fs, os, ls, rfl, hp, ht, hj, stray, hw, ho, hl⟩ := select_parts h
  obtain ⟨_, pw, _, tw, jw, _, rfl, wroteP, wroteT, wroteJ, behindJoins⟩ := select_words wrote
  obtain ⟨iw, _, rfl, wroteI, rear⟩ := wrote_append behindJoins
  obtain ⟨fw, _, rfl, wroteW, ordered⟩ := wrote_append rear
  obtain ⟨_, pw', _, tw', jw', _, rfl, printedP, printedT, printedJ, rear'⟩ := select_words printed
  obtain ⟨fw', _, rfl, printedW, ordered'⟩ := wrote_append rear'
  obtain ⟨ow', lw', rfl, printedO, printedL⟩ := wrote_append ordered'
  have projected : pw = pw' := (projections_words hp wroteP).trans
    (projections_words (projections_printed hp wroteP) printedP).symm
  have stray := stray.imp_right And.right
  have last : Solid semi := by
    rcases semicolon with rfl | rfl
    · exact leading_nil
    · exact leading_cons (by decide) _
  have tail := leading_append (order_leads printedO) (limit_leads printedL)
  -- the words behind WHERE are those of a statement without it
  have unfiltered : Where accepted { stmt with whereClause := none }.whereClause [] := .absent
  have behind : Solid _ := (rear_weight spells_anyCase unfiltered ho hl ordered).2
  have inside : Solid _ := (rear_weight spells_anyCase hw ho hl rear).2
  have optional : Solid iw := by
    rcases stray with rfl | rfl
    · cases wroteI
      exact leading_nil
    · obtain ⟨_, _, rfl, stays, _⟩ := keyword_words spells_anyCase (by decide) wroteI
      exact leading_cons stays _
  simp only [List.append_assoc, List.cons_append, List.cons.injEq, projected] at same
  obtain ⟨_, same⟩ := same
  obtain ⟨_, same⟩ := List.cons.inj (List.append_cancel_left same)
  have filtered := leading_append (where_leads printedW) tail
  have joins := leading_append (joins_lead printedJ) filtered
  have same := table_cut ht wroteT printedT same joins
  obtain ⟨closed, same⟩ := joins_cut hj wroteJ printedJ same
    (leading_append optional (by simpa using leading_append inside last)) filtered
  exact ⟨closed, where_cut stray hw wroteI wroteW printedW same (leading_append behind last)
    (solid_of_clausal tail)⟩

/-- A parsed statement comes back from its text just if it is printable. -/
theorem prints_back_iff {stmt : SelectStatement} {text : Str} (accepts : parse text = .ok stmt) :
    PrintsBack stmt ↔ Printable stmt := by
  obtain ⟨ts, renders, lays⟩ := renders_of_parse accepts
  obtain ⟨ws, _, wrote⟩ := lays_words spells_anyCase lays
  obtain ⟨sql, printed, prints⟩ := renders_prints renders wrote
  have literals := statementTokens_literals stmt
  have laid : Quoteless (statementLiterals stmt) → Lays exactly (statementTokens stmt) sql := by
    intro quoteless
    have breaks : Breaks [] := nofun
    have done := prints.spans (literals ▸ quoteless) breaks (@Spans.nil exactly [] [] nofun)
    rwa [List.append_nil, List.append_nil] at done
  constructor
  · rintro ⟨sql', same, back⟩
    obtain rfl := Option.some.inj (printed.symm.trans same)
    obtain ⟨us, renders', lays'⟩ := renders_of_parse back
    have count := spans_quotes spells_anyCase readInt lays'
    rw [← renders_literals stores_accepted renders', prints.quotes, literals] at count
    have quoteless := quoteless_of_quotes count
    refine ⟨quoteless, ?_⟩
    obtain ⟨words, cut, written⟩ := lays_words spells_exactly (laid quoteless)
    obtain ⟨words', cut', written'⟩ := lays_words spells_anyCase lays'
    obtain rfl := words_unique cut cut'
    obtain ⟨_, _, _, _, _, select, _, same, front, semicolon, _⟩ :=
      renders_parts spells_anyCase renders' written'
    exact conditions_closed select front written same.symm semicolon
  · rintro ⟨quoteless, closed⟩
    exact ⟨sql, printed, parse_renders spells_exactly (renders_printed renders wrote closed)
      (laid quoteless) (Or.inl keeps_exactly)⟩

/-- The statement of the text in `listedStaff_prints`. -/
def listedStaff : SelectStatement where
  projections := [str "e.name"]
  tableName := str "staff"
  tableAlias := str "e"
  joins := [⟨⟨str "teams", str "teams"⟩,
    some (.comparison .Equal (.columnRef (str "id")) (.columnRef (str "lead")))⟩]
  whereClause := some (.notExpr (.boolean .Or
    (.comparison .LessThan (.columnRef (str "age")) (.intLiteral (-3)))
    (.comparison .Equal (.columnRef (str "name")) (.stringLiteral (str "Bo")))))
  orderByColumns := [⟨str "name", .Descending⟩]

theorem listedStaff_prints : PrintsBack listedStaff ↔ Printable listedStaff :=
  @prints_back_iff listedStaff (str "select e.name from staff e join teams ON id = lead " ++
    str "where not (age < -3 or name = 'Bo') order by name desc") (by decide +kernel)

/-- The statement of `SELECT name FROM employees WHERE name = 'O''Brien'`. -/
def namedOBrien : SelectStatement where
  projections := [str "name"]
  tableName := str "employees"
  tableAlias := str "employees"
  whereClause :=
    some (.comparison .Equal (.columnRef (str "name")) (.stringLiteral (str "O'Brien")))

/-- Its text has the quote in the name once, and is no statement. -/
theorem quote_printed_bare :
    ¬ ∀ text stmt, parse text = .ok stmt →
      ∃ sql, stmt.toSQL = some sql ∧ parse sql = .ok stmt := by
  intro all
  have read : parse (str "SELECT name FROM employees WHERE name = 'O''Brien'") =
      .ok namedOBrien := by
    decide +kernel
  have text : namedOBrien.toSQL =
      some (str "SELECT name FROM employees WHERE name = 'O'Brien'") := by
    decide +kernel
  obtain ⟨sql, printed, back⟩ := all _ namedOBrien read
  obtain rfl := Option.some.inj (text.symm.trans printed)
  exact absurd back (by decide +kernel)

end FheSql.PrintParse
