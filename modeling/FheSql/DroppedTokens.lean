import FheSql.IntegerLiterals
import FheSql.ParserSoundness
import Mathlib.Algebra.GroupWithZero.Nat

/-!
# Tokens without a trace

Every token of an accepted text shows in its statement, apart from those that the
grammar leaves free. There is one exception: `parseSelect` takes an INNER before it has
seen a JOIN, and drops it if there is none. That no other reading of the text
can explain such an INNER follows by counting words from the end.
-/

namespace FheSql.DroppedTokens

open ByteText SQLParser SqlTokens SqlGrammar SqlWords Readings ParserCompleteness
open StatementCompleteness StatementLiterals IntegerLiterals ParserSoundness

/-- The grammar as it is documented, which reserves no words: digits stand for their
number, and an INNER belongs to a JOIN. -/
def traced : Lexicon where
  ident _ := True
  operand := accepted.operand
  implicitAlias := accepted.implicitAlias
  number neg digits v := v = denoted neg digits
  strayInner := False

/-- The tokens of a text, in any letter case of the keywords, render a statement. -/
def DropsNothing (stmt : SelectStatement) (text : Str) : Prop :=
  ∃ ts, Renders traced stmt ts ∧ Lays anyCase ts text

/-- Every INNER stands directly in front of a JOIN. -/
def InnersJoin (ts : List Token) : Prop :=
  ∀ front back, ts = front ++ .keyword (str "INNER") :: back →
    back.head? = some (.keyword (str "JOIN"))

variable {spell : Spelling} {L : Lexicon} {ts us : List Token} {vs ws : List Str}

def conditionWeight : Option ASTExpr → Nat
  | none => 0
  | some e => 1 + exprWeight e

def itemWeight (item : OrderByColumn) : Nat :=
  weight (nameWords item.columnName) + if item.direction = .Descending then 1 else 0

def orderWeight (order : List OrderByColumn) : Nat :=
  if order = [] then 0 else 1 + (order.map fun item => itemWeight item + 1).sum

/-- The number of words behind the joins that no rendering can leave out. -/
def rearWeight (stmt : SelectStatement) : Nat :=
  conditionWeight stmt.whereClause +
    (orderWeight stmt.orderByColumns + if 0 ≤ stmt.limitCount then 2 else 0)

theorem keyword_words (spells : Spells spell) {kw : Str} (other : kw ≠ str "ASC")
    (wrote : Wrote spell (.keyword kw :: ts) ws) :
    ∃ w vs, ws = w :: vs ∧ kept w = true ∧ Wrote spell ts vs := by
  obtain _ | ⟨⟨known, spelled⟩, wrote⟩ := wrote
  have plain : ∀ kw ∈ keywords, parenthesis kw = false := by decide
  exact ⟨_, _, rfl, kept_upper (spells _ known _ spelled) other (plain _ known), wrote⟩

theorem asc_dropped (spells : Spells spell) {w : Str}
    (h : Token.Writes spell (.keyword (str "ASC")) w) : kept w = false := by
  cases h with
  | keyword known spelled =>
    rw [kept, spells _ known _ spelled]
    exact Bool.and_false _

theorem items_weight {α : Type} {item : α → List Token → Prop} {f : α → Nat}
    (each : ∀ a ts ws, item a ts → Wrote spell ts ws → weight ws = f a) {l : List α}
    (h : Items item l ts) (wrote : Wrote spell ts ws) :
    weight ws + 1 = (l.map fun a => f a + 1).sum := by
  induction h generalizing ws with
  | one shape =>
    rw [each _ _ _ shape wrote]
    rfl
  | more shape _ ih =>
    obtain ⟨vs, _, rfl, front, _ | ⟨comma, back⟩⟩ := wrote_append wrote
    cases comma
    have rest := ih back
    rw [weight_append, weight_kept (by decide), each _ _ _ shape front, List.map_cons,
      List.sum_cons, ← rest]
    omega

theorem orderItem_weight (spells : Spells spell) {item : OrderByColumn}
    (h : OrderItem L item ts) (wrote : Wrote spell ts ws) : weight ws = itemWeight item := by
  cases h with
  | @mk name direction ts us column way =>
    obtain ⟨vs, vs', rfl, front, back⟩ := wrote_append wrote
    rw [weight_append, column_words column front, itemWeight]
    cases way with
    | absent =>
      cases back
      rfl
    | ascending =>
      obtain _ | ⟨writes, last⟩ := back
      cases last
      rw [weight_dropped (asc_dropped spells writes)]
      rfl
    | descending =>
      obtain ⟨w, _, rfl, stays, last⟩ := keyword_words spells (by decide) back
      cases last
      rw [weight_kept stays]
      rfl

/-- The words behind the joins, and that the first of them cannot be left out. -/
theorem rear_weight (spells : Spells spell) {stmt : SelectStatement} {os ls : List Token}
    (hw : Where L stmt.whereClause ts) (ho : OrderBy L stmt.orderByColumns os)
    (hl : Limit L stmt.limitCount ls) (wrote : Wrote spell (ts ++ (os ++ ls)) ws) :
    weight ws = rearWeight stmt ∧ ∀ w ∈ ws.head?, kept w = true := by
  obtain ⟨a, _, rfl, wroteW, wrote⟩ := wrote_append wrote
  obtain ⟨b, c, rfl, wroteO, wroteL⟩ := wrote_append wrote
  rw [weight_append, weight_append, rearWeight]
  have filtered : weight a = conditionWeight stmt.whereClause ∧ ∀ w ∈ a.head?, kept w = true := by
    generalize stmt.whereClause = condition at hw
    cases hw with
    | absent =>
      cases wroteW
      exact ⟨rfl, nofun⟩
    | present expr =>
      obtain ⟨w, vs, rfl, stays, wroteW⟩ := keyword_words spells (by decide) wroteW
      obtain ⟨_, spelled, _⟩ := expr_spelled spells expr wroteW
      rw [weight_kept stays, spelled_weight spelled]
      exact ⟨rfl, fun _ head => Option.some.inj head ▸ stays⟩
  have ordered : weight b = orderWeight stmt.orderByColumns ∧ ∀ w ∈ b.head?, kept w = true := by
    generalize stmt.orderByColumns = order at ho
    cases ho with
    | absent =>
      cases wroteO
      exact ⟨rfl, nofun⟩
    | present items =>
      obtain ⟨w, vs, rfl, stays, wroteO⟩ := keyword_words spells (by decide) wroteO
      obtain ⟨w', vs, rfl, stays', wroteO⟩ := keyword_words spells (by decide) wroteO
      have sum := items_weight (fun _ _ _ shape wrote => orderItem_weight spells shape wrote)
        items wroteO
      rw [weight_kept stays, weight_kept stays', orderWeight, if_neg (items_nonempty items), ← sum,
        Nat.add_comm (weight vs)]
      exact ⟨rfl, fun _ head => Option.some.inj head ▸ stays⟩
  have limited : weight c = (if 0 ≤ stmt.limitCount then 2 else 0) ∧
      ∀ w ∈ c.head?, kept w = true := by
    generalize stmt.limitCount = limit at hl
    cases hl with
    | absent =>
      cases wroteL
      exact ⟨rfl, nofun⟩
    | present value positive =>
      obtain ⟨w, vs, rfl, stays, wroteL⟩ := keyword_words spells (by decide) wroteL
      obtain ⟨_, spelled, _⟩ := expr_spelled spells (.int value) wroteL
      rw [weight_kept stays, spelled_weight spelled, if_pos positive]
      exact ⟨rfl, fun _ head => Option.some.inj head ▸ stays⟩
  refine ⟨by rw [filtered.1, ordered.1, limited.1], ?_⟩
  cases a with
  | cons => exact filtered.2
  | nil =>
    cases b with
    | cons => exact ordered.2
    | nil => exact limited.2

/-- Two ends of one text of equal weight are the same if neither begins with a word that
weighs nothing. -/
theorem rear_unique {a a' r r' : List Str} (same : a ++ r = a' ++ r')
    (weights : weight r = weight r') (solid : ∀ w ∈ r.head?, kept w = true)
    (solid' : ∀ w ∈ r'.head?, kept w = true) : a = a' ∧ r = r' := by
  have empty : ∀ {c r : List Str}, weight (c ++ r) = weight r →
      (∀ w ∈ (c ++ r).head?, kept w = true) → c = [] := by
    intro c r weights solid
    cases c with
    | nil => rfl
    | cons w c =>
      have stays := solid w rfl
      rw [List.cons_append, weight_kept stays, weight_append] at weights
      omega
  rcases List.append_eq_append_iff.mp same with ⟨c, rfl, rfl⟩ | ⟨c, rfl, rfl⟩
  · obtain rfl := empty weights solid
    exact ⟨(List.append_nil a).symm, rfl⟩
  · obtain rfl := empty weights.symm solid'
    exact ⟨List.append_nil a', rfl⟩

/-- The name an expression ends with, its parentheses apart. -/
def lastName : ASTExpr → Option Str
  | .columnRef name => some (bareName name)
  | .intLiteral _ => none
  | .stringLiteral _ => none
  | .comparison _ _ r => lastName r
  | .boolean _ _ r => lastName r
  | .notExpr child => lastName child

theorem literal_noIdentifier {w : Str} (h : LiteralWord w) : ¬ Identifier w := by
  rintro ⟨c, tail, rfl, start, _⟩
  obtain ⟨_, _, same, first⟩ := h
  cases same
  exact forall_byte (p := fun c => (isAlpha c || c == 95) = true →
    ¬ (isDigit c = true ∨ c = 45 ∨ c = 39)) (by decide +kernel) c start first

theorem nameWords_last (name : Str) : ∃ front, nameWords name = front ++ [bareName name] := by
  unfold nameWords bareName
  cases findDot name with
  | none => exact ⟨[], rfl⟩
  | some d => exact ⟨[name.take d, str "."], rfl⟩

/-- An expression ends with its last name or with a parenthesis. -/
theorem spelled_last {closed : Bool} {e : ASTExpr} (h : Spelled closed e ws) :
    ∃ front w, ws = front ++ [w] ∧ (w = str ")" ∨ ∀ name, lastName e = some name → w = name) ∧
      (Identifier w → lastName e = some w) := by
  induction h with
  | @column name ws names _ =>
    obtain ⟨front, last⟩ := nameWords_last name
    refine ⟨front, bareName name, names.trans last, Or.inr fun _ same => ?_, fun _ => rfl⟩
    exact Option.some.inj same
  | @int _ w literal =>
    exact ⟨[], w, rfl, Or.inr nofun, fun word => (literal_noIdentifier literal word).elim⟩
  | @string _ w literal =>
    exact ⟨[], w, rfl, Or.inr nofun, fun word => (literal_noIdentifier literal word).elim⟩
  | @compare kind _ _ ws _ _ _ _ ih =>
    obtain ⟨front, w, rfl, last, name⟩ := ih
    exact ⟨ws ++ operatorSymbol kind :: front, w, by simp, last, name⟩
  | @boolean _ _ _ _ _ ws w _ _ _ _ _ ih =>
    obtain ⟨front, w', rfl, last, name⟩ := ih
    exact ⟨ws ++ w :: front, w', by simp, last, name⟩
  | @not _ _ w _ _ _ ih =>
    obtain ⟨front, w', rfl, last, name⟩ := ih
    exact ⟨w :: front, w', rfl, last, name⟩
  | @parentheses _ _ ws _ _ =>
    refine ⟨str "(" :: ws, str ")", rfl, Or.inl rfl, fun word => ?_⟩
    cases identifier_noParenthesis word

/-- The words behind which a name INNER may stand. -/
def Leads (w : Str) : Prop := w ≠ str ")" ∧ toUpper w ≠ str "INNER"

def NextTo (w w' : Str) : Prop := toUpper w' = str "INNER" → Leads w

theorem leads_operator (kind : CompareKind) : Leads (operatorSymbol kind) := by
  cases kind <;> exact ⟨by decide, by decide⟩

theorem leads_word {w kw : Str} (same : toUpper w = kw) (other : kw ≠ str "INNER")
    (solid : kw ≠ str ")") : Leads w := by
  refine ⟨?_, same ▸ other⟩
  rintro rfl
  exact solid same.symm

/-- Behind a word of its own an expression goes on. -/
theorem chain_joined {x : Str} {w : Str} (front : (x :: vs).IsChain NextTo) (leads : Leads w)
    (back : (w :: ws).IsChain NextTo) : (x :: (vs ++ w :: ws)).IsChain NextTo := by
  rw [← List.cons_append]
  refine List.isChain_append.mpr ⟨front, back, fun _ _ y head inner => ?_⟩
  cases head
  exact (leads.2 inner).elim

/-- In an expression a name INNER stands behind no other word that could end one. -/
theorem spelled_chain {closed : Bool} {e : ASTExpr} (h : Spelled closed e ws) :
    ∀ {x}, Leads x → (x :: ws).IsChain NextTo := by
  induction h with
  | @column name ws names _ =>
    intro x leads
    subst names
    have point : Leads (str ".") := ⟨by decide, by decide⟩
    unfold nameWords
    cases findDot name with
    | none => exact .cons_cons (fun _ => leads) (.singleton _)
    | some d =>
      refine .cons_cons (fun _ => leads) (.cons_cons (fun inner => (point.2 inner).elim) ?_)
      exact .cons_cons (fun _ => point) (.singleton _)
  | int => exact fun leads => .cons_cons (fun _ => leads) (.singleton _)
  | string => exact fun leads => .cons_cons (fun _ => leads) (.singleton _)
  | @compare kind _ _ _ _ _ _ ih ih' =>
    exact fun leads => chain_joined (ih leads) (leads_operator kind) (ih' (leads_operator kind))
  | @boolean kind _ _ _ _ _ w _ _ word _ ih ih' =>
    intro x leads
    have middle : Leads w := by
      apply leads_word word <;> cases kind <;> decide
    exact chain_joined (ih leads) middle (ih' middle)
  | not word _ ih =>
    intro x leads
    exact .cons_cons (fun _ => leads) (ih (leads_word word (by decide) (by decide)))
  | @parentheses _ _ ws _ ih =>
    intro x leads
    have left : Leads (str "(") := ⟨by decide, by decide⟩
    have inside := ih left
    refine .cons_cons (fun _ => leads) ?_
    rw [← List.cons_append]
    refine List.isChain_append.mpr ⟨inside, .singleton _, fun _ _ y head inner => ?_⟩
    cases head
    exact absurd inner (by decide)

/-- The last condition of the joins. -/
theorem joins_last (spells : Spells spell) {joins : List JoinClause} (h : Joins L joins ts)
    (some_ : joins ≠ []) (wrote : Wrote spell ts ws) :
    ∃ join e closed front w vs, joins.getLast? = some join ∧ join.condition = some e ∧
      ws = front ++ w :: vs ∧ toUpper w = str "ON" ∧ Spelled closed e vs := by
  induction h generalizing ws with
  | nil => exact (some_ rfl).elim
  | @cons join joins ts us shape behind ih =>
    obtain ⟨a, b, rfl, front, back⟩ := wrote_append wrote
    cases joins with
    | cons next joins =>
      obtain ⟨last, e, closed, c, w, vs, found, condition, rfl, on, spelled⟩ :=
        ih (List.cons_ne_nil _ _) back
      refine ⟨last, e, closed, a ++ c, w, vs, ?_, condition, by simp, on, spelled⟩
      rwa [List.getLast?_cons_cons]
    | nil =>
      cases behind
      cases back
      cases shape with
      | @mk inner table tb e es _ _ expr =>
        obtain ⟨c, _, rfl, _, joined⟩ := wrote_append front
        obtain ⟨w, _, rfl, _, named⟩ := wrote_cons joined
        obtain ⟨c', _, rfl, _, tail⟩ := wrote_append named
        obtain ⟨w', vs, rfl, writes, last⟩ := wrote_cons tail
        obtain ⟨closed, spelled, _⟩ := expr_spelled spells expr last
        cases writes with
        | keyword known on =>
          exact ⟨_, e, closed, c ++ w :: c', w', vs, rfl, rfl, by simp, spells _ known _ on,
            spelled⟩

/-- The last word of the joins is no INNER behind all of their words. -/
theorem joins_not_followed {joins : List JoinClause} {js js' : List Token} {a b a' b' : List Str}
    {w : Str} (hj : Joins accepted joins js) (hj' : Joins L joins js') (some_ : joins ≠ [])
    (wrote : Wrote anyCase js b) (wrote' : Wrote anyCase js' b') (inner : toUpper w = str "INNER")
    (same : a ++ b ++ [w] = a' ++ b') : False := by
  have identifier : Identifier w := keyword_identifier (by decide) inner
  obtain ⟨join, e, _, front, v, vs, last, condition, rfl, on, spelled⟩ :=
    joins_last spells_anyCase hj some_ wrote
  obtain ⟨join', e', _, front', v', vs', last', condition', rfl, on', spelled'⟩ :=
    joins_last spells_anyCase hj' some_ wrote'
  obtain rfl : join = join' := Option.some.inj (last.symm.trans last')
  obtain rfl : e = e' := Option.some.inj (condition.symm.trans condition')
  obtain ⟨c, y, rfl, ends, _⟩ := spelled_last spelled
  obtain ⟨c', z, rfl, _, names⟩ := spelled_last spelled'
  have split : (a ++ front ++ v :: c ++ [y]) ++ [w] = (a' ++ front' ++ v' :: c') ++ [z] := by
    simpa using same
  obtain ⟨before, final⟩ := List.append_inj' split rfl
  obtain rfl : w = z := (List.cons.inj final).1
  have chain := spelled_chain spelled' (leads_word on' (by decide) (by decide))
  rw [← List.cons_append] at chain
  have found : (v' :: c').getLast? = some y := by
    have whole : (a ++ front ++ v :: c ++ [y]).getLast? = some y := List.getLast?_concat
    rwa [before, List.getLast?_append_cons] at whole
  have leads := (List.isChain_append.mp chain).2.2 y found w rfl inner
  rcases ends with rfl | named
  · exact leads.1 rfl
  · rw [named w (names identifier)] at leads
    exact leads.2 inner

/-- Nor does it stand behind the table of FROM. -/
theorem table_not_followed {table : TableRef} {tb tb' : List Token} {b b' : List Str} {w : Str}
    (h : Table accepted table tb) (h' : Table traced table tb') (wrote : Wrote anyCase tb b)
    (wrote' : Wrote anyCase tb' b') (same : b ++ [w] = b')
    (clause : ∀ name, tb = [.table name] → w ∈ clauseWords) : False := by
  have lengths : tb'.length = tb.length + 1 := by
    have long := congrArg List.length same
    rw [List.length_append, ← wrote.length_eq, ← wrote'.length_eq] at long
    exact long.symm
  subst same
  cases h with
  | bare =>
    cases h' with
    | bare => cases lengths
    | explicit => cases lengths
    | implicit _ _ other =>
      obtain ⟨_, _, rfl, _, wrote⟩ := wrote_cons wrote
      cases wrote
      obtain ⟨_, _, split, _, wrote'⟩ := wrote_cons wrote'
      cases split
      obtain ⟨_, _, split, writes, _⟩ := wrote_cons wrote'
      cases split
      cases writes
      exact other.2 (clause _ rfl)
  | implicit _ _ other =>
    cases h' with
    | bare => cases lengths
    | implicit => cases lengths
    | explicit =>
      obtain ⟨_, _, rfl, _, wrote⟩ := wrote_cons wrote
      obtain ⟨_, _, rfl, writes, wrote⟩ := wrote_cons wrote
      cases wrote
      obtain ⟨_, _, split, _, wrote'⟩ := wrote_cons wrote'
      cases split
      obtain ⟨_, _, split, writes', _⟩ := wrote_cons wrote'
      cases split
      cases writes
      cases writes' with
      | keyword _ spelled => exact other.1 spelled
  | explicit => cases h' <;> cases lengths

theorem wrote_mem (h : Wrote spell ts ws) : ∀ w ∈ ws, ∃ t ∈ ts, t.Writes spell w := by
  induction h with
  | nil => nofun
  | @cons t w ts ws writes _ ih =>
    intro v mem
    rcases List.mem_cons.mp mem with rfl | mem
    · exact ⟨t, List.mem_cons_self, writes⟩
    · obtain ⟨u, here, writes⟩ := ih v mem
      exact ⟨u, List.mem_cons_of_mem t here, writes⟩

theorem clause_noSemicolon {t : Token} (h : ClauseToken t) : t ≠ .symbol (str ";") := by
  rintro rfl
  exact h rfl

theorem table_noSemicolon {table : TableRef} (h : Table L table ts) :
    ∀ t ∈ ts, t ≠ .symbol (str ";") := by
  cases h <;> simp

/-- No semicolon stands in a statement. -/
theorem select_noSemicolon {stmt : SelectStatement} (h : Select L stmt ts) :
    ∀ t ∈ ts, t ≠ .symbol (str ";") := by
  obtain ⟨ps, tb, js, inner, fs, os, ls, rfl, hp, ht, hj, stray, hw, ho, hl⟩ := select_parts h
  have joined : ∀ t ∈ js, t ≠ .symbol (str ";") := by
    clear h
    generalize stmt.joins = joins at hj
    induction hj with
    | nil => nofun
    | cons join _ ih =>
      refine List.forall_mem_append.mpr ⟨?_, ih⟩
      cases join with
      | mk inner table expr =>
        simp only [List.forall_mem_append, List.forall_mem_cons]
        refine ⟨?_, nofun, table_noSemicolon table, nofun,
          fun t mem => clause_noSemicolon (expr_clausal expr t mem)⟩
        rcases inner_cases inner with rfl | rfl <;> simp
  have strayed : ∀ t ∈ inner, t ≠ .symbol (str ";") := by
    rcases stray with rfl | ⟨_, rfl⟩ <;> simp
  simp only [List.forall_mem_append, List.forall_mem_cons]
  exact ⟨nofun, fun t mem => clause_noSemicolon (projections_clausal hp t mem), nofun,
    table_noSemicolon ht, joined, strayed, fun t mem => clause_noSemicolon (where_clausal hw t mem),
    fun t mem => clause_noSemicolon (orderBy_clausal ho t mem),
    fun t mem => clause_noSemicolon (limit_clausal hl t mem)⟩

theorem semicolon_writes (spells : Spells spell) {t : Token} {w : Str} (h : t.Writes spell w)
    (same : w = str ";") : t = .symbol (str ";") := by
  have word : ¬ Identifier w := by
    rw [same]
    decide
  cases t with
  | keyword =>
    cases h with
    | keyword known spelled =>
      exact (word (keyword_identifier known (spells _ known _ spelled))).elim
  | ident =>
    cases h with
    | ident identifier => exact (word identifier).elim
  | table =>
    cases h with
    | table identifier => exact (word identifier).elim
  | int =>
    obtain ⟨c, tail, rfl, first⟩ := int_literal h
    cases same
    exact absurd first (by decide)
  | string =>
    cases h
    cases same
  | symbol =>
    cases h
    rw [same]

/-- A rendering is a statement and a semicolon or nothing, also in words. -/
theorem renders_parts (spells : Spells spell) {stmt : SelectStatement} (h : Renders L stmt ts)
    (wrote : Wrote spell ts ws) :
    ∃ sel semi a b, ts = sel ++ semi ∧ Select L stmt sel ∧
      (semi = [] ∨ semi = [.symbol (str ";")]) ∧ ws = a ++ b ∧ Wrote spell sel a ∧
      (b = [] ∨ b = [str ";"]) ∧ str ";" ∉ a := by
  have apart : ∀ {sel a}, Select L stmt sel → Wrote spell sel a → str ";" ∉ a := by
    intro sel a select wrote mem
    obtain ⟨t, here, writes⟩ := wrote_mem wrote _ mem
    exact select_noSemicolon select t here (semicolon_writes spells writes rfl)
  cases h with
  | @plain _ select =>
    exact ⟨ts, [], ws, [], (List.append_nil _).symm, select, Or.inl rfl,
      (List.append_nil _).symm, wrote, Or.inl rfl, apart select wrote⟩
  | @terminated sel select =>
    obtain ⟨a, _, rfl, front, back⟩ := wrote_append wrote
    obtain ⟨_, _, rfl, writes, last⟩ := wrote_cons back
    cases last
    cases writes
    exact ⟨sel, _, a, _, rfl, select, Or.inr rfl, rfl, front, Or.inr rfl, apart select front⟩

theorem terminator_unique {a b a' b' : List Str} (same : a ++ b = a' ++ b')
    (terminator : b = [] ∨ b = [str ";"]) (terminator' : b' = [] ∨ b' = [str ";"])
    (apart : str ";" ∉ a) (apart' : str ";" ∉ a') : a = a' := by
  rcases terminator with rfl | rfl <;> rcases terminator' with rfl | rfl
  · simpa using same
  · rw [List.append_nil] at same
    exact (apart (same ▸ List.mem_append_right a' List.mem_cons_self)).elim
  · rw [List.append_nil] at same
    exact (apart' (same ▸ List.mem_append_right a List.mem_cons_self)).elim
  · exact List.append_cancel_right same

/-- A statement with an INNER that belongs to no JOIN has no rendering without one. -/
theorem stray_not_traced {stmt : SelectStatement} {ps tb js fs os ls semi ts' : List Token}
    (hp : Projections accepted stmt.projections ps)
    (ht : Table accepted ⟨stmt.tableName, stmt.tableAlias⟩ tb)
    (hj : Joins accepted stmt.joins js) (hw : Where accepted stmt.whereClause fs)
    (ho : OrderBy accepted stmt.orderByColumns os) (hl : Limit accepted stmt.limitCount ls)
    {a b : List Str} (h' : Select traced stmt ts') (wrote' : Wrote anyCase ts' a)
    (wrote : Wrote anyCase (.keyword (str "SELECT") :: (ps ++ .keyword (str "FROM") ::
      (tb ++ (js ++ (.keyword (str "INNER") :: (fs ++ (os ++ ls))))))) a)
    (looks : LooksAhead (.keyword (str "SELECT") :: (ps ++ .keyword (str "FROM") ::
      (tb ++ (js ++ (.keyword (str "INNER") :: (fs ++ (os ++ ls)))))) ++ semi) (a ++ b)) :
    False := by
  have spells := spells_anyCase
  obtain ⟨ps', tb', js', inner', fs', os', ls', rfl, hp', ht', hj', stray', hw', ho', hl'⟩ :=
    select_parts h'
  obtain rfl : inner' = [] := stray'.resolve_right fun h => h.1
  obtain ⟨w₁, pw, w₂, tw, jw, rw', rfl, wroteP, wroteT, wroteJ, wroteR⟩ := select_words wrote
  obtain ⟨w, rw, rfl, writes, wroteR⟩ := wrote_cons wroteR
  obtain ⟨w₁', pw', w₂', tw', jw', rw', same, wroteP', wroteT', wroteJ', wroteR'⟩ :=
    select_words wrote'
  obtain ⟨weights, solid⟩ := rear_weight spells hw ho hl wroteR
  obtain ⟨weights', solid'⟩ := rear_weight spells hw' ho' hl' wroteR'
  have ends : (w₁ :: (pw ++ w₂ :: (tw ++ jw)) ++ [w]) ++ rw =
      (w₁' :: (pw' ++ w₂' :: (tw' ++ jw'))) ++ rw' := by simpa using same
  obtain ⟨front, _⟩ := rear_unique ends (weights.trans weights'.symm) solid solid'
  have inner : toUpper w = str "INNER" := by
    cases writes with
    | keyword _ spelled => exact spelled
  by_cases none : stmt.joins = []
  · rw [none] at hj hj'
    cases hj
    cases hj'
    cases wroteJ
    cases wroteJ'
    rw [projections_words hp wroteP, projections_words hp' wroteP'] at front
    have tables : w₁ = w₁' ∧ w₂ = w₂' ∧ tw ++ [w] = tw' := by simpa using front
    refine table_not_followed ht ht' wroteT wroteT' tables.2.2 fun name bare => ?_
    subst bare
    obtain ⟨v, _, rfl, _, last⟩ := wrote_cons wroteT
    cases last
    have identifier : Identifier w := keyword_identifier (by decide) inner
    have ahead : LooksAhead ((.keyword (str "SELECT") :: (ps ++ [.keyword (str "FROM")])) ++
        .table name :: .keyword (str "INNER") :: (fs ++ (os ++ ls) ++ semi))
        ((w₁ :: (pw ++ [w₂])) ++ v :: w :: (rw ++ b)) := by simpa using looks
    exact looksAhead_next ahead (by simp [wroteP.length_eq]) identifier
  · have joined : (w₁ :: (pw ++ w₂ :: tw)) ++ jw ++ [w] = (w₁' :: (pw' ++ w₂' :: tw')) ++ jw' := by
      simpa using front
    exact joins_not_followed hj hj' none wroteJ wroteJ' inner joined

theorem innersJoin_of_none (none : .keyword (str "INNER") ∉ ts) : InnersJoin ts := by
  rintro front back rfl
  exact (none (List.mem_append_right front List.mem_cons_self)).elim

theorem innersJoin_append (none : .keyword (str "INNER") ∉ ts) (h : InnersJoin us) :
    InnersJoin (ts ++ us) := by
  induction ts with
  | nil => exact h
  | cons t ts ih =>
    intro front back same
    cases front with
    | nil => exact (none ((List.cons.inj same).1 ▸ List.mem_cons_self)).elim
    | cons _ front =>
      exact ih (fun mem => none (List.mem_cons_of_mem t mem)) front back (List.cons.inj same).2

theorem innersJoin_present (h : InnersJoin us) :
    InnersJoin (.keyword (str "INNER") :: .keyword (str "JOIN") :: us) := by
  intro front back same
  cases front with
  | nil =>
    cases same
    rfl
  | cons _ front =>
    have join : Token.keyword (str "INNER") ∉ [.keyword (str "JOIN")] := by decide
    exact innersJoin_append join h front back (List.cons.inj same).2

theorem clausal_noInner (h : ∀ t ∈ ts, ClauseToken t) : .keyword (str "INNER") ∉ ts :=
  fun mem => h _ mem rfl

theorem table_noInner {table : TableRef} (h : Table L table ts) :
    .keyword (str "INNER") ∉ ts := by
  have as : str "INNER" ≠ str "AS" := by decide
  cases h <;> simp [as]

theorem joins_innersJoin {joins : List JoinClause} (h : Joins L joins ts) (rest : InnersJoin us) :
    InnersJoin (ts ++ us) := by
  induction h with
  | nil => exact rest
  | cons join _ ih =>
    rw [List.append_assoc]
    cases join with
    | @mk inner table tb e es optional named expr =>
      have on : str "INNER" ≠ str "ON" := by decide
      have lead : Token.keyword (str "INNER") ∉ [.keyword (str "JOIN")] := by decide
      have behind : .keyword (str "INNER") ∉ tb ++ .keyword (str "ON") :: es := by
        simp [on, table_noInner named, clausal_noInner (expr_clausal expr)]
      have whole := innersJoin_append behind ih
      rw [List.append_assoc, List.cons_append]
      cases optional with
      | absent =>
        have started := innersJoin_append lead whole
        exact started
      | present => exact innersJoin_present whole

/-- A statement without a stray INNER. -/
theorem select_innersJoin {stmt : SelectStatement} {ps tb js fs os ls semi : List Token}
    (hp : Projections L stmt.projections ps) (ht : Table L ⟨stmt.tableName, stmt.tableAlias⟩ tb)
    (hj : Joins L stmt.joins js) (hw : Where L stmt.whereClause fs)
    (ho : OrderBy L stmt.orderByColumns os) (hl : Limit L stmt.limitCount ls)
    (terminator : semi = [] ∨ semi = [.symbol (str ";")]) :
    InnersJoin (.keyword (str "SELECT") :: (ps ++ .keyword (str "FROM") ::
      (tb ++ (js ++ (fs ++ (os ++ ls))))) ++ semi) := by
  have select : str "INNER" ≠ str "SELECT" := by decide
  have from_ : str "INNER" ≠ str "FROM" := by decide
  have ended : .keyword (str "INNER") ∉ semi := by
    rcases terminator with rfl | rfl <;> simp
  have rear : .keyword (str "INNER") ∉ fs ++ (os ++ (ls ++ semi)) := by
    simp [clausal_noInner (where_clausal hw), clausal_noInner (orderBy_clausal ho),
      clausal_noInner (limit_clausal hl), ended]
  have front : .keyword (str "INNER") ∉
      .keyword (str "SELECT") :: (ps ++ .keyword (str "FROM") :: tb) := by
    simp [select, from_, clausal_noInner (projections_clausal hp), table_noInner ht]
  have whole := innersJoin_append front (joins_innersJoin hj (innersJoin_of_none rear))
  simpa using whole

/-- The number that a word writes. -/
def wordNumber : Str → Option (Bool × Str)
  | [] => none
  | c :: tail =>
    if c = 45 then some (true, tail) else if isDigit c then some (false, c :: tail) else none

theorem identifier_noNumber {w : Str} (h : Identifier w) : wordNumber w = none := by
  obtain ⟨c, tail, rfl, start, _⟩ := h
  have other : c ≠ 45 ∧ isDigit c = false :=
    forall_byte (p := fun c => (isAlpha c || c == 95) = true → c ≠ 45 ∧ isDigit c = false)
      (by decide +kernel) c start
  rw [wordNumber, if_neg other.1, other.2]
  rfl

/-- The numbers among the tokens of a text are those of its words. -/
theorem tokenNumbers_words (spells : Spells spell) (wrote : Wrote spell ts ws) :
    tokenNumbers ts = ws.filterMap wordNumber := by
  induction wrote with
  | nil => rfl
  | @cons t w ts ws writes _ ih =>
    have skipped : wordNumber w = none →
        (∀ neg digits, t ≠ .int neg digits) → tokenNumbers (t :: ts) = tokenNumbers ts := by
      intro _ other
      cases t with
      | int neg digits => exact (other neg digits rfl).elim
      | keyword | ident | table | string | symbol => rfl
    have word : Identifier w → (∀ neg digits, t ≠ .int neg digits) →
        tokenNumbers (t :: ts) = (w :: ws).filterMap wordNumber := by
      intro identifier other
      rw [List.filterMap_cons_none (identifier_noNumber identifier), ← ih]
      exact skipped (identifier_noNumber identifier) other
    cases writes with
    | keyword known spelled =>
      exact word (keyword_identifier known (spells _ known _ spelled)) nofun
    | ident identifier => exact word identifier nofun
    | table identifier => exact word identifier nofun
    | string =>
      rw [List.filterMap_cons_none rfl, ← ih]
      rfl
    | symbol listed =>
      have none := (by decide : ∀ s ∈ symbols, wordNumber s = none) w listed
      rw [List.filterMap_cons_none none, ← ih]
      rfl
    | @int neg digits nonempty all =>
      have number : wordNumber ((if neg then [45] else []) ++ digits) = some (neg, digits) := by
        cases neg with
        | true => rfl
        | false =>
          obtain ⟨d, tail, rfl⟩ := List.exists_cons_of_ne_nil nonempty
          have digit := all d List.mem_cons_self
          have other : d ≠ 45 := by
            rintro rfl
            cases digit
          change (if d = 45 then _ else if isDigit d then _ else _) = _
          rw [if_neg other, if_pos digit]
      rw [List.filterMap_cons_some number, ← ih]
      rfl

/-- A rendering where every number is stored as what it denotes. -/
theorem numbers_of_traced {stmt : SelectStatement} {ts' : List Token}
    (renders : Renders accepted stmt ts) (traces : Renders traced stmt ts')
    (wrote : Wrote anyCase ts ws) (wrote' : Wrote anyCase ts' ws) :
    ∀ n ∈ tokenNumbers ts, readInt n.1 n.2 = denoted n.1 n.2 := by
  have same : tokenNumbers ts' = tokenNumbers ts := by
    rw [tokenNumbers_words spells_anyCase wrote, tokenNumbers_words spells_anyCase wrote']
  have stores : Stores traced denoted := fun _ _ _ value => value
  have stored := renders_numbers stores_accepted renders
  rw [renders_numbers stores traces, same] at stored
  exact fun n mem => (List.map_inj_left.mp stored n mem).symm

theorem covered (exact_ : ∀ n ∈ tokenNumbers ts, readInt n.1 n.2 = denoted n.1 n.2) :
    accepted.CoveredBy (· ∈ ts) traced where
  ident _ known := known
  operand _ known := known
  implicitAlias _ known := known
  number neg digits v mem value := by
    have number : (neg, digits) ∈ tokenNumbers ts := List.mem_filterMap.mpr ⟨_, mem, rfl⟩
    exact value.trans (exact_ _ number)

/-- No other rendering of a text explains a stray INNER. -/
theorem innersJoin_of_drops {stmt : SelectStatement} {text : Str}
    (renders : Renders accepted stmt ts)
    (reading : Reading ts text []) (drops : DropsNothing stmt text) : InnersJoin ts := by
  obtain ⟨ts', traces, lays⟩ := drops
  obtain ⟨ws, cut, wrote, looks⟩ := reading_words reading
  obtain ⟨ws', cut', wrote'⟩ := lays_words spells_anyCase lays
  obtain rfl := words_unique cut cut'
  obtain ⟨sel, semi, a, b, rfl, select, semicolon, rfl, wroteS, terminator, apart⟩ :=
    renders_parts spells_anyCase renders wrote
  obtain ⟨sel', _, a', b', _, select', _, same, wroteS', terminator', apart'⟩ :=
    renders_parts spells_anyCase traces wrote'
  obtain rfl := terminator_unique same terminator terminator' apart apart'
  obtain ⟨ps, tb, js, inner, fs, os, ls, rfl, hp, ht, hj, stray, hw, ho, hl⟩ := select_parts select
  rcases stray with rfl | ⟨_, rfl⟩
  · rw [List.nil_append]
    exact select_innersJoin hp ht hj hw ho hl semicolon
  · exact (stray_not_traced hp ht hj hw ho hl select' wroteS' wroteS looks).elim

/-- Without a stray INNER a statement is traced. -/
theorem select_traced {stmt : SelectStatement} {semi : List Token} (h : Select accepted stmt ts)
    (ends : Ends [str ";"] [] semi) (inners : InnersJoin (ts ++ semi))
    (exact_ : ∀ n ∈ tokenNumbers ts, readInt n.1 n.2 = denoted n.1 n.2) :
    Select traced stmt ts := by
  obtain ⟨ps, tb, js, inner, fs, os, ls, rfl, hp, ht, hj, stray, hw, ho, hl⟩ := select_parts h
  have absent : inner = [] := by
    refine stray.resolve_right ?_
    rintro ⟨_, rfl⟩
    have behind := where_ends hw (orderBy_ends ho (limit_ends hl ends))
    have join : (fs ++ (os ++ (ls ++ semi))).head? = some (.keyword (str "JOIN")) := by
      refine inners (.keyword (str "SELECT") :: (ps ++ .keyword (str "FROM") :: (tb ++ js))) _ ?_
      simp
    exact Ends.misses behind (by decide) _ join rfl
  subst absent
  have w := covered exact_
  refine .mk (projections_covered w hp) (table_covered w ht) (joins_covered w hj fun t mem => ?_)
    (Or.inl rfl) (where_covered w hw fun t mem => ?_) (orderBy_covered w ho)
    (limit_covered w hl fun t mem => ?_)
  all_goals simp [mem]

/-- Every accepted text is read as a rendering of its statement, in which every token
shows, just if each INNER stands in front of a JOIN and each number is an `int64_t`. -/
theorem drops_nothing_iff {stmt : SelectStatement} {text : Str} (accepts : parse text = .ok stmt) :
    (∃ ts, Renders accepted stmt ts ∧ Reading ts text []) ∧
      ∀ ts, Renders accepted stmt ts → Reading ts text [] →
        (DropsNothing stmt text ↔
          InnersJoin ts ∧ ∀ n ∈ tokenNumbers ts, InInt64 (denoted n.1 n.2)) := by
  refine ⟨reading_of_parse accepts, fun ts renders reading => ?_⟩
  have digits := spans_digits reading.spans
  constructor
  · intro drops
    refine ⟨innersJoin_of_drops renders reading drops, fun n mem => ?_⟩
    obtain ⟨ts', traces, lays⟩ := drops
    obtain ⟨ws, cut, wrote⟩ := lays_words spells_anyCase reading.spans
    obtain ⟨ws', cut', wrote'⟩ := lays_words spells_anyCase lays
    obtain rfl := words_unique cut cut'
    have value := numbers_of_traced renders traces wrote wrote' n mem
    exact (readInt_eq_denoted_iff (digits n mem)).mp value
  · rintro ⟨inners, inside⟩
    have exact_ : ∀ n ∈ tokenNumbers ts, readInt n.1 n.2 = denoted n.1 n.2 := fun n mem =>
      (readInt_eq_denoted_iff (digits n mem)).mpr (inside n mem)
    refine ⟨ts, ?_, reading.spans⟩
    cases renders with
    | plain select =>
      have stop : Ends [str ";"] [] [] := nofun
      rw [← List.append_nil ts] at inners
      exact .plain (select_traced select stop inners exact_)
    | terminated select =>
      refine .terminated (select_traced select (ends_symbol (by decide) _) inners fun n mem => ?_)
      apply exact_
      rw [tokenNumbers, List.filterMap_append]
      exact List.mem_append_left _ mem

/-- The statement of `SELECT * FROM employees INNER JOIN teams ON id = lead`. -/
def joinedTeams : SelectStatement where
  projections := []
  tableName := str "employees"
  tableAlias := str "employees"
  joins := [⟨⟨str "teams", str "teams"⟩,
    some (.comparison .Equal (.columnRef (str "id")) (.columnRef (str "lead")))⟩]

theorem joinedTeams_traced :
    (∃ ts, Renders accepted joinedTeams ts ∧
      Reading ts (str "SELECT * FROM employees INNER JOIN teams ON id = lead") []) ∧
      ∀ ts, Renders accepted joinedTeams ts →
        Reading ts (str "SELECT * FROM employees INNER JOIN teams ON id = lead") [] →
          (DropsNothing joinedTeams (str "SELECT * FROM employees INNER JOIN teams ON id = lead") ↔
            InnersJoin ts ∧ ∀ n ∈ tokenNumbers ts, InInt64 (denoted n.1 n.2)) :=
  drops_nothing_iff (by decide +kernel)

/-- The statement of `SELECT * FROM employees`. -/
def allEmployees : SelectStatement where
  projections := []
  tableName := str "employees"
  tableAlias := str "employees"

/-- An INNER at the end of the text is dropped. -/
theorem stray_inner_dropped :
    ¬ ∀ text stmt, parse text = .ok stmt → DropsNothing stmt text := by
  intro all
  have renders : Renders accepted allEmployees
      [.keyword (str "SELECT"), .symbol (str "*"), .keyword (str "FROM"),
        .table (str "employees"), .keyword (str "INNER")] :=
    .plain (.mk .star (.bare trivial) .nil (Or.inr ⟨trivial, rfl⟩) .absent .absent .absent)
  have reading : Reading
      [.keyword (str "SELECT"), .symbol (str "*"), .keyword (str "FROM"),
        .table (str "employees"), .keyword (str "INNER")]
      ([] ++ (str "SELECT" ++ ([32] ++ (str "*" ++ ([32] ++ (str "FROM" ++ ([32] ++
        (str "employees" ++ ([32] ++ (str "INNER" ++ ([] ++ []))))))))))) [] := by
    refine .cons nofun (.keyword (by decide) rfl) (by rintro c ⟨⟩; rfl) nofun ?_
    refine .cons (by decide +kernel) (.symbol (by decide)) (by rintro c ⟨⟩; rfl) nofun ?_
    refine .cons (by decide +kernel) (.keyword (by decide) rfl) (by rintro c ⟨⟩; rfl) nofun ?_
    refine .cons (by decide +kernel) (.table (by decide +kernel)) (by rintro c ⟨⟩; rfl) ?_ ?_
    · exact fun _ _ _ => by decide +kernel
    · exact .cons (by decide +kernel) (.keyword (by decide) rfl) nofun nofun (.nil nofun)
  have drops := all (str "SELECT * FROM employees INNER") allEmployees (by rfl)
  have inner := innersJoin_of_drops renders reading drops
  cases inner [.keyword (str "SELECT"), .symbol (str "*"), .keyword (str "FROM"),
    .table (str "employees")] [] rfl

end FheSql.DroppedTokens
