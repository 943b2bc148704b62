import FheSql.SqlGrammar
import Mathlib.Data.List.Forall2

/-!
# The words of a text

One text may be laid out as tokens in several ways, since a word can be a keyword or
a name. All of them cut it at the same places: the character a word begins with tells
where it ends.
-/

namespace FheSql.SqlWords

open ByteText SQLParser SqlTokens SqlGrammar

/-- The word in front of a text, where no white space stands. -/
def firstWord : Str → Str
  | [] => []
  | c :: tail =>
    if isAlpha c || c == 95 then (c :: tail).takeWhile isIdentChar
    else if isDigit c then (c :: tail).takeWhile isDigit
    else if c = 45 then 45 :: tail.takeWhile isDigit
    else if c = 39 then
      match stringChars tail [] with
      | .ok (value, _) => 39 :: (doubled value ++ [39])
      | .error _ => []
    else if (c == 33 || c == 60 || c == 62) && tail.head? == some 61 then [c, 61]
    else [c]

/-- The words a text is cut into. -/
inductive CutInto : Str → List Str → Prop where
  | nil {text} : skipWS text = [] → CutInto text []
  | cons {text w next ws} : skipWS text = w ++ next → firstWord (w ++ next) = w → w ≠ [] →
      CutInto next ws → CutInto text (w :: ws)

/-- Tokens as words. -/
abbrev Wrote (spell : Spelling) : List Token → List Str → Prop :=
  List.Forall₂ (Token.Writes spell)

variable {spell : Spelling} {ts us : List Token} {ws : List Str} {text next w : Str}

theorem firstWord_identifier (identifier : Identifier w)
    (ends : ∀ c ∈ next.head?, isIdentChar c = false) : firstWord (w ++ next) = w := by
  obtain ⟨taken, _⟩ := span_run identifier.all ends
  obtain ⟨c, tail, rfl, start, _⟩ := identifier
  rw [List.cons_append] at taken ⊢
  rw [firstWord, if_pos start, taken]

theorem firstWord_int {neg : Bool} {digits : Str} (nonempty : digits ≠ [])
    (all : ∀ c ∈ digits, isDigit c = true) (ends : ∀ c ∈ next.head?, isDigit c = false) :
    firstWord ((if neg then [45] else []) ++ digits ++ next) =
      (if neg then [45] else []) ++ digits := by
  obtain ⟨taken, _⟩ := span_run all ends
  cases neg with
  | true =>
    exact congrArg (List.cons 45) taken
  | false =>
    obtain ⟨d, tail, rfl⟩ := List.exists_cons_of_ne_nil nonempty
    have digit := all d List.mem_cons_self
    have other : ¬ (isAlpha d || d == 95) = true := by
      rw [not_start_of_isDigit digit]
      decide
    change firstWord (d :: (tail ++ next)) = d :: tail
    rw [firstWord, if_neg other, if_pos digit]
    exact taken

theorem firstWord_string {value : Str} (ascii : ∀ c ∈ value, ¬ 127 < c)
    (ends : ∀ c ∈ next.head?, (c == 39) = false) :
    firstWord (39 :: (doubled value ++ [39]) ++ next) = 39 :: (doubled value ++ [39]) := by
  have chars := stringChars_doubled ascii ends []
  rw [List.cons_append, List.append_assoc]
  rw [List.singleton_append]
  change (match stringChars (doubled value ++ 39 :: next) [] with
    | .ok (value, _) => 39 :: (doubled value ++ [39])
    | .error _ => []) = _
  rw [chars]
  rfl

theorem firstWord_symbol {s : Str} (listed : s ∈ symbols)
    (ends : (Token.symbol s).EndsBefore next) : firstWord (s ++ next) = s := by
  have alone : s = str "<" ∨ s = str ">" → next.head? ≠ some 61 := by
    rintro which head
    have glued := ends 61 head
    rcases which with rfl | rfl <;> cases glued
  simp only [symbols, List.mem_cons, List.not_mem_nil, or_false] at listed
  rcases listed with rfl | rfl | rfl | rfl | rfl | rfl | rfl | rfl | rfl | rfl | rfl | rfl
  case inr.inr.inr.inr.inr.inr.inr.inr.inl =>
    have other : (next.head? == some 61) = false := beq_eq_false_iff_ne.mpr (alone (Or.inr rfl))
    change (if next.head? == some 61 then [62, 61] else [62]) = [62]
    rw [other]
    rfl
  case inr.inr.inr.inr.inr.inr.inr.inr.inr.inl =>
    have other : (next.head? == some 61) = false := beq_eq_false_iff_ne.mpr (alone (Or.inl rfl))
    change (if next.head? == some 61 then [60, 61] else [60]) = [60]
    rw [other]
    rfl
  all_goals rfl

/-- Every token of a layout is the first word of the text it stands in front of. -/
theorem firstWord_writes {t : Token} (spells : Spells spell) (writes : t.Writes spell w)
    (ends : t.EndsBefore next) : firstWord (w ++ next) = w := by
  cases writes with
  | keyword known spelled =>
    exact firstWord_identifier (keyword_identifier known (spells _ known _ spelled)) ends
  | ident identifier => exact firstWord_identifier identifier ends
  | table identifier => exact firstWord_identifier identifier ends
  | int nonempty all => exact firstWord_int nonempty all ends
  | string ascii => exact firstWord_string ascii ends
  | symbol listed => exact firstWord_symbol listed ends

theorem words_unique {ws' : List Str} (h : CutInto text ws) (h' : CutInto text ws') : ws = ws' := by
  induction h generalizing ws' with
  | nil clear =>
    cases h' with
    | nil => rfl
    | cons text _ nonempty _ =>
      rw [clear] at text
      exact (nonempty (List.append_eq_nil_iff.mp text.symm).1).elim
  | cons text first nonempty _ ih =>
    cases h' with
    | nil clear =>
      rw [clear] at text
      exact (nonempty (List.append_eq_nil_iff.mp text.symm).1).elim
    | cons text' first' _ rest =>
      have same := text.symm.trans text'
      have word : _ = _ := (first.symm.trans (congrArg firstWord same)).trans first'
      rw [word] at same ⊢
      rw [ih (List.append_cancel_left same ▸ rest)]

theorem writes_nonempty {t : Token} (spells : Spells spell) (h : t.Writes spell w) : w ≠ [] := by
  obtain ⟨c, tail, rfl, _⟩ := writes_head spells h
  exact List.cons_ne_nil c tail

theorem lays_words (spells : Spells spell) (h : Lays spell ts text) :
    ∃ ws, CutInto text ws ∧ Wrote spell ts ws := by
  induction ts generalizing text with
  | nil => exact ⟨[], .nil (lays_nil h), .nil⟩
  | cons t ts ih =>
    obtain ⟨w, next, text, writes, ends, spans, _⟩ := spans_cons spells h
    obtain ⟨ws, cut, wrote⟩ := ih spans
    exact ⟨w :: ws, .cons text (firstWord_writes spells writes ends)
      (writes_nonempty spells writes) cut, .cons writes wrote⟩

theorem wrote_append (h : Wrote spell (ts ++ us) ws) :
    ∃ vs vs', ws = vs ++ vs' ∧ Wrote spell ts vs ∧ Wrote spell us vs' := by
  induction ts generalizing ws with
  | nil => exact ⟨[], ws, rfl, .nil, h⟩
  | cons t ts ih =>
    cases h with
    | cons writes h =>
      obtain ⟨vs, vs', rfl, front, back⟩ := ih h
      exact ⟨_ :: vs, vs', rfl, .cons writes front, back⟩

theorem wrote_cons {t : Token} (h : Wrote spell (t :: ts) ws) :
    ∃ w vs, ws = w :: vs ∧ t.Writes spell w ∧ Wrote spell ts vs := by
  cases h with
  | cons writes h => exact ⟨_, _, rfl, writes, h⟩

/-- The tokens of a column name. -/
def nameTokens (name : Str) : List Token :=
  match findDot name with
  | none => [.ident name]
  | some d => [.ident (name.take d), .symbol (str "."), .ident (name.drop (d + 1))]

theorem identifier_noDot {name : Str} (h : Identifier name) : dot ∉ name := by
  intro mem
  exact absurd (h.all dot mem) (by decide)

theorem column_tokens {L : Lexicon} {name : Str} (h : Column L name ts)
    (wrote : Wrote spell ts ws) : ts = nameTokens name := by
  cases h with
  | bare =>
    cases wrote with
    | cons writes _ =>
      cases writes with
      | ident identifier =>
        rw [nameTokens, findDot_eq_none_iff.mpr (identifier_noDot identifier)]
  | @qualified table name =>
    cases wrote with
    | cons writes _ =>
      cases writes with
      | ident identifier =>
        have whole : table ++ str "." ++ name = qualified table name := by
          rw [List.append_assoc]
          rfl
        rw [nameTokens, whole, findDot_qualified (identifier_noDot identifier)]
        simp [qualified]

/-- The words of a column name. -/
def nameWords (name : Str) : List Str :=
  match findDot name with
  | none => [name]
  | some d => [name.take d, str ".", name.drop (d + 1)]

theorem nameTokens_words {name : Str} (h : Wrote spell (nameTokens name) ws) :
    ws = nameWords name := by
  unfold nameTokens at h
  unfold nameWords
  split at h
  · obtain _ | ⟨⟨identifier⟩, _ | _⟩ := h
    rfl
  · obtain _ | ⟨⟨identifier⟩, _ | ⟨⟨listed⟩, _ | ⟨⟨identifier'⟩, _ | _⟩⟩⟩ := h
    rfl

theorem column_words {L : Lexicon} {name : Str} (h : Column L name ts)
    (wrote : Wrote spell ts ws) : ws = nameWords name :=
  nameTokens_words (column_tokens h wrote ▸ wrote)

/-- The words of names with commas between them. -/
def listWords : List Str → List Str
  | [] => []
  | [name] => nameWords name
  | name :: names => nameWords name ++ str "," :: listWords names

theorem items_nonempty {α : Type} {item : α → List Token → Prop} {l : List α}
    (h : Items item l ts) : l ≠ [] := by
  cases h <;> exact List.cons_ne_nil _ _

theorem items_words {L : Lexicon} {names : List Str} (h : Items (Column L) names ts)
    (wrote : Wrote spell ts ws) : ws = listWords names := by
  induction h generalizing ws with
  | one column => exact column_words column wrote
  | more column behind ih =>
    obtain ⟨vs, _, rfl, front, _ | ⟨writes, back⟩⟩ := wrote_append wrote
    cases writes
    obtain ⟨next, names, rfl⟩ := List.exists_cons_of_ne_nil (items_nonempty behind)
    rw [column_words column front, ih back]
    rfl

def projectionWords (names : List Str) : List Str :=
  if names = [] then [str "*"] else listWords names

theorem projections_words {L : Lexicon} {names : List Str} (h : Projections L names ts)
    (wrote : Wrote spell ts ws) : ws = projectionWords names := by
  cases h with
  | star =>
    obtain _ | ⟨writes, last⟩ := wrote
    cases last
    cases writes
    rfl
  | columns items =>
    rw [projectionWords, if_neg (items_nonempty items)]
    exact items_words items wrote

/-- The words of the clauses of a statement up to its joins. -/
theorem select_words {ps tb js : List Token}
    (wrote : Wrote spell (.keyword (str "SELECT") :: (ps ++ .keyword (str "FROM") ::
      (tb ++ (js ++ us)))) ws) :
    ∃ w pw w' tw jw rw, ws = w :: (pw ++ w' :: (tw ++ (jw ++ rw))) ∧ Wrote spell ps pw ∧
      Wrote spell tb tw ∧ Wrote spell js jw ∧ Wrote spell us rw := by
  obtain ⟨w, _, rfl, _, wrote₁⟩ := wrote_cons wrote
  obtain ⟨pw, _, rfl, wroteP, wrote₂⟩ := wrote_append wrote₁
  obtain ⟨w', _, rfl, _, wrote₃⟩ := wrote_cons wrote₂
  obtain ⟨tw, _, rfl, wroteT, wrote₄⟩ := wrote_append wrote₃
  obtain ⟨jw, rw, rfl, wroteJ, wroteR⟩ := wrote_append wrote₄
  exact ⟨w, pw, w', tw, jw, rw, rfl, wroteP, wroteT, wroteJ, wroteR⟩

def booleanWord : BooleanKind → Str
  | .And => str "AND"
  | .Or => str "OR"

/-- A number or a string literal. -/
def LiteralWord (w : Str) : Prop :=
  ∃ c tail, w = c :: tail ∧ (isDigit c = true ∨ c = 45 ∨ c = 39)

def parenthesis (w : Str) : Bool := w == str "(" || w == str ")"

/-- The words of an expression in any parentheses. Only a closed expression can be an
operand of a comparison. -/
inductive Spelled : Bool → ASTExpr → List Str → Prop where
  | column {name ws} : ws = nameWords name → (∀ w ∈ ws, parenthesis w = false) →
      Spelled true (.columnRef name) ws
  | int {v w} : LiteralWord w → Spelled true (.intLiteral v) [w]
  | string {v w} : LiteralWord w → Spelled true (.stringLiteral v) [w]
  | compare {kind l r ws vs} : Spelled true l ws → Spelled true r vs →
      Spelled false (.comparison kind l r) (ws ++ operatorSymbol kind :: vs)
  | boolean {kind l r c c' ws w vs} : Spelled c l ws → toUpper w = booleanWord kind →
      Spelled c' r vs → Spelled false (.boolean kind l r) (ws ++ w :: vs)
  | not {e c w ws} : toUpper w = str "NOT" → Spelled c e ws → Spelled false (.notExpr e) (w :: ws)
  | parentheses {e c ws} : Spelled c e ws → Spelled true e (str "(" :: (ws ++ [str ")"]))

theorem int_literal {neg : Bool} {digits : Str} (h : Token.Writes spell (.int neg digits) w) :
    LiteralWord w := by
  cases h with
  | int nonempty all =>
    cases neg with
    | true => exact ⟨45, digits, rfl, Or.inr (Or.inl rfl)⟩
    | false =>
      obtain ⟨d, tail, rfl⟩ := List.exists_cons_of_ne_nil nonempty
      exact ⟨d, tail, rfl, Or.inl (all d List.mem_cons_self)⟩

theorem identifier_noParenthesis {name : Str} (h : Identifier name) :
    parenthesis name = false := by
  obtain ⟨c, tail, rfl, start, _⟩ := h
  rw [parenthesis, Bool.or_eq_false_iff, beq_eq_false_iff_ne, beq_eq_false_iff_ne]
  constructor <;> (rintro same; cases same; cases start)

theorem column_spelled {L : Lexicon} {name : Str} (h : Column L name ts)
    (wrote : Wrote spell ts ws) : Spelled true (.columnRef name) ws := by
  refine .column (column_words h wrote) ?_
  cases h with
  | bare =>
    obtain _ | ⟨writes, last⟩ := wrote
    cases last
    cases writes with
    | ident identifier =>
      exact List.forall_mem_singleton.mpr (identifier_noParenthesis identifier)
  | qualified =>
    obtain _ | ⟨writes, _ | ⟨point, _ | ⟨writes', last⟩⟩⟩ := wrote
    cases last
    cases point
    cases writes with
    | ident identifier =>
      cases writes' with
      | ident identifier' =>
        refine List.forall_mem_cons.mpr ⟨identifier_noParenthesis identifier, ?_⟩
        refine List.forall_mem_cons.mpr ⟨by decide, ?_⟩
        exact List.forall_mem_singleton.mpr (identifier_noParenthesis identifier')

/-- The words of every rendering of an expression. -/
theorem expr_spelled (spells : Spells spell) {L : Lexicon} {level : Level} {e : ASTExpr}
    (h : Expr L level e ts) (wrote : Wrote spell ts ws) :
    ∃ closed, Spelled closed e ws ∧ (level = .primary → closed = true) := by
  induction h generalizing ws with
  | conjunction _ ih =>
    obtain ⟨closed, spelled, _⟩ := ih wrote
    exact ⟨closed, spelled, nofun⟩
  | negation _ ih =>
    obtain ⟨closed, spelled, _⟩ := ih wrote
    exact ⟨closed, spelled, nofun⟩
  | comparison _ _ ih =>
    obtain ⟨closed, spelled, _⟩ := ih wrote
    exact ⟨closed, spelled, nofun⟩
  | operand _ ih =>
    obtain ⟨closed, spelled, _⟩ := ih wrote
    exact ⟨closed, spelled, nofun⟩
  | or _ _ ih ih' =>
    obtain ⟨vs, _, rfl, front, _ | ⟨⟨known, spelled⟩, back⟩⟩ := wrote_append wrote
    obtain ⟨_, left, _⟩ := ih front
    obtain ⟨_, right, _⟩ := ih' back
    exact ⟨false, .boolean left (spells _ known _ spelled) right, nofun⟩
  | and _ _ ih ih' =>
    obtain ⟨vs, _, rfl, front, _ | ⟨⟨known, spelled⟩, back⟩⟩ := wrote_append wrote
    obtain ⟨_, left, _⟩ := ih front
    obtain ⟨_, right, _⟩ := ih' back
    exact ⟨false, .boolean left (spells _ known _ spelled) right, nofun⟩
  | not _ ih =>
    obtain _ | ⟨⟨known, spelled⟩, inside⟩ := wrote
    obtain ⟨_, child, _⟩ := ih inside
    exact ⟨false, .not (spells _ known _ spelled) child, nofun⟩
  | compare _ _ ih ih' =>
    obtain ⟨vs, _, rfl, front, _ | ⟨⟨known⟩, back⟩⟩ := wrote_append wrote
    obtain ⟨_, left, closed⟩ := ih front
    obtain ⟨_, right, closed'⟩ := ih' back
    rw [closed rfl] at left
    rw [closed' rfl] at right
    exact ⟨false, .compare left right, nofun⟩
  | column column => exact ⟨true, column_spelled column wrote, fun _ => rfl⟩
  | int =>
    obtain _ | ⟨writes, last⟩ := wrote
    cases last
    exact ⟨true, .int (int_literal writes), fun _ => rfl⟩
  | string =>
    obtain _ | ⟨writes, last⟩ := wrote
    cases last
    cases writes
    exact ⟨true, .string ⟨39, _, rfl, Or.inr (Or.inr rfl)⟩, fun _ => rfl⟩
  | parentheses _ ih =>
    obtain _ | ⟨left, wrote⟩ := wrote
    obtain ⟨vs, _, rfl, inside, _ | ⟨right, last⟩⟩ := wrote_append wrote
    cases last
    cases left
    cases right
    obtain ⟨_, spelled, _⟩ := ih inside
    exact ⟨true, .parentheses spelled, fun _ => rfl⟩

/-- The words that no clause can leave out. -/
def kept (w : Str) : Bool := !parenthesis w && toUpper w != str "ASC"

def weight (ws : List Str) : Nat := ws.countP kept

def exprWeight : ASTExpr → Nat
  | .columnRef name => weight (nameWords name)
  | .intLiteral _ => 1
  | .stringLiteral _ => 1
  | .comparison _ l r => exprWeight l + 1 + exprWeight r
  | .boolean _ l r => exprWeight l + 1 + exprWeight r
  | .notExpr child => 1 + exprWeight child

theorem weight_append (vs ws : List Str) : weight (vs ++ ws) = weight vs + weight ws :=
  List.countP_append

theorem weight_kept (h : kept w = true) (ws : List Str) : weight (w :: ws) = 1 + weight ws := by
  rw [weight, List.countP_cons_of_pos h, Nat.add_comm]
  rfl

theorem weight_dropped (h : kept w = false) (ws : List Str) : weight (w :: ws) = weight ws :=
  List.countP_cons_of_neg (by rw [h]; decide)

theorem kept_upper {kw : Str} (same : toUpper w = kw) (other : kw ≠ str "ASC")
    (plain : parenthesis kw = false) : kept w = true := by
  have unchanged : ∀ p : Str, parenthesis p = true → toUpper p = p := by
    intro p
    rw [parenthesis, Bool.or_eq_true, beq_iff_eq, beq_iff_eq]
    rintro (rfl | rfl) <;> rfl
  rw [kept, Bool.and_eq_true, bne_iff_ne, same]
  refine ⟨?_, other⟩
  cases found : parenthesis w with
  | false => rfl
  | true =>
    rw [← same, unchanged w found, found] at plain
    cases plain

theorem kept_literal (h : LiteralWord w) : kept w = true := by
  obtain ⟨c, tail, rfl, first⟩ := h
  have first : c ≠ 40 ∧ c ≠ 41 ∧ toUpperChar c ≠ 65 := by
    revert first
    exact forall_byte (p := fun c => isDigit c = true ∨ c = 45 ∨ c = 39 →
      c ≠ 40 ∧ c ≠ 41 ∧ toUpperChar c ≠ 65) (by decide +kernel) c
  simp only [kept, parenthesis, Bool.and_eq_true, Bool.not_eq_true', Bool.or_eq_false_iff,
    beq_eq_false_iff_ne, bne_iff_ne]
  refine ⟨⟨?_, ?_⟩, ?_⟩
  · rintro same
    exact first.1 (List.cons.inj same).1
  · rintro same
    exact first.2.1 (List.cons.inj same).1
  · rintro same
    exact first.2.2 (List.cons.inj same).1

theorem kept_boolean {kind : BooleanKind} (same : toUpper w = booleanWord kind) :
    kept w = true := by
  apply kept_upper same <;> cases kind <;> decide

theorem kept_operator (kind : CompareKind) : kept (operatorSymbol kind) = true := by
  cases kind <;> decide

theorem spelled_weight {closed : Bool} {e : ASTExpr} (h : Spelled closed e ws) :
    weight ws = exprWeight e := by
  induction h with
  | column names => rw [names, exprWeight]
  | int literal => rw [weight_kept (kept_literal literal)]; rfl
  | string literal => rw [weight_kept (kept_literal literal)]; rfl
  | @compare kind _ _ _ _ _ _ ih ih' =>
    rw [weight_append, weight_kept (kept_operator kind), ih, ih', exprWeight]
    omega
  | boolean _ word _ ih ih' =>
    rw [weight_append, weight_kept (kept_boolean word), ih, ih', exprWeight]
    omega
  | not word _ ih =>
    rw [weight_kept (kept_upper word (by decide) (by decide)), ih, exprWeight]
  | parentheses _ ih =>
    rw [weight_dropped (by decide), weight_append, weight_dropped (by decide), ih]
    rfl

end FheSql.SqlWords
