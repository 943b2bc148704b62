import FheSql.ParserCompleteness

/-!
# The parser reads every statement of the grammar

The clauses around the expressions. The one place where the parser looks ahead with
a comparison of its own is behind a table name without AS: a keyword there is left
alone only if it is one of the clause words as they are written.
-/

namespace FheSql.StatementCompleteness

open ByteText SQLParser SqlTokens SqlGrammar ParserCompleteness

variable {spell : Spelling} {ts us more : List Token} {n : Nat} {rest : Str} (size fuel : Nat)

/-- No keyword stands directly behind a table name without alias. -/
def Separated : List Token → Prop
  | .table _ :: .keyword _ :: _ => False
  | _ :: ts => Separated ts
  | [] => True

theorem separated_cons {t : Token} : Separated (t :: ts) ↔
    (∀ name, t = .table name → ∀ kw, ts.head? ≠ some (.keyword kw)) ∧ Separated ts := by
  constructor
  · intro h
    unfold Separated at h
    split at h
    · exact h.elim
    · next behind same =>
      cases same
      refine ⟨?_, h⟩
      rintro name rfl kw head
      obtain ⟨tail, rfl⟩ := List.head?_eq_some_iff.mp head
      exact behind name kw tail rfl rfl
    · next same => cases same
  · rintro ⟨apart, h⟩
    unfold Separated
    split
    · next same =>
      cases same
      exact apart _ rfl _ rfl
    · next same =>
      cases same
      exact h
    · trivial

theorem separated_append (h : Separated (ts ++ us)) : Separated ts ∧ Separated us := by
  induction ts with
  | nil => exact ⟨trivial, h⟩
  | cons t ts ih =>
    rw [List.cons_append] at h
    obtain ⟨apart, h⟩ := separated_cons.mp h
    obtain ⟨front, back⟩ := ih h
    refine ⟨separated_cons.mpr ⟨fun name same kw head => apart name same kw ?_, front⟩, back⟩
    rw [List.head?_append, head]
    rfl

theorem separated_table (h : Separated (ts ++ us)) :
    ∀ t, ts = [.table t] → ∀ kw, us.head? ≠ some (.keyword kw) := by
  rintro t rfl
  exact (separated_cons.mp h).1 t rfl

/-- Spellings that the parser's look-ahead knows. -/
def Keeps (spell : Spelling) : Prop := ∀ kw ∈ clauseWords, ∀ w, spell kw w → w ∈ clauseWords

theorem keeps_exactly : Keeps exactly := by
  rintro kw mem w rfl
  exact mem

/-- A list of items that stop in front of a comma, read by the loop over commas. -/
theorem items_read {α : Type} {item : Str → Except Exn (α × Str)}
    {shape : α → List Token → Prop} (stops : List Token → Prop)
    (reads : ∀ {a ts more n rest}, shape a ts → At spell (ts ++ more) (n + 1) rest →
      stops more → Reads spell (item rest) a more n)
    (nonempty : ∀ {a ts}, shape a ts → ∃ t tail, ts = t :: tail)
    (comma : ∀ us, stops (.symbol (str ",") :: us)) (spells : Spells spell)
    {l : List α} (h : Items shape l ts) (front : List α)
    (here : At spell (ts ++ more) (n + 1) rest) (enough : n + 1 ≤ fuel)
    (stop : stops more) (last : ∀ t ∈ more.head?, BeginsNot 44 t) :
    Reads spell (do let (a, rest) ← item rest; commaLoop item fuel (front ++ [a]) rest)
      (front ++ l) more n := by
  induction h generalizing front n rest fuel with
  | @one a ts shape =>
    obtain ⟨next, run, there⟩ := reads shape here stop
    obtain ⟨k, rfl⟩ : ∃ k, fuel = k + 1 := ⟨fuel - 1, by omega⟩
    have other := head_ne spells there.lays last
    refine ⟨skipWS next, ?_, at_skipWS spells there⟩
    rw [run, Throwing.ok_bind]
    dsimp only
    rw [commaLoop]
    split
    · next text =>
      rw [text] at other
      exact (other rfl).elim
    · rfl
  | @more a l ts us shape items ih =>
    rw [List.append_assoc] at here
    obtain ⟨next, run, there⟩ := reads shape here (comma _)
    obtain ⟨k, rfl⟩ : ∃ k, fuel = k + 1 := ⟨fuel - 1, by omega⟩
    obtain ⟨m, rfl⟩ := at_pos spells there
    obtain ⟨next', text, there'⟩ := skipWS_symbol (c := 44) spells there
    have longer : ∃ t tail, us = t :: tail := by
      cases items with
      | one shape => exact nonempty shape
      | more shape _ =>
        obtain ⟨t, tail, rfl⟩ := nonempty shape
        exact ⟨t, _, rfl⟩
    obtain ⟨t, tail, rfl⟩ := longer
    obtain ⟨m, rfl⟩ := at_pos spells there'
    obtain ⟨last', run', there''⟩ := ih k (front ++ [a]) there' (by omega : m + 1 ≤ k)
    refine ⟨last', ?_, there''.mono (by omega)⟩
    rw [run, Throwing.ok_bind]
    dsimp only
    rw [commaLoop, text]
    rw [List.append_assoc] at run'
    exact run'

theorem column_nonempty {L : Lexicon} {name : Str} (h : Column L name ts) :
    ∃ t tail, ts = t :: tail := by
  cases h <;> exact ⟨_, _, rfl⟩

theorem projections_read {names : List Str} (spells : Spells spell)
    (h : Projections accepted names ts) (here : At spell (ts ++ more) (n + 1) rest)
    (enough : n + 1 ≤ fuel) (ends : Ends [] [str "FROM"] more) :
    Reads spell (parseProjectionList size fuel rest) names more n := by
  cases h with
  | star =>
    obtain ⟨next, text, there⟩ := skipWS_symbol (c := 42) spells here
    refine ⟨next, ?_, there⟩
    rw [parseProjectionList, text]
    rfl
  | columns items =>
    have run := items_read fuel (fun more => ∀ t ∈ more.head?, BeginsNot 46 t)
      (fun shape here stop => column_ok size spells shape here stop) column_nonempty
      (fun us t head => by cases head; exact (by decide : (str ",").head? ≠ some 46)) spells items
      [] (at_skipWS spells here) enough
      (ends.beginsNot (by decide) (by decide)) (ends.beginsNot (by decide) (by decide))
    have other : (skipWS rest).head? ≠ some 42 := by
      refine head_ne spells here.lays ?_
      have first : ∃ name tail, ts = .ident name :: tail := by
        have column : ∀ {name us}, Column accepted name us → ∃ a tail, us = .ident a :: tail := by
          intro name us column
          cases column <;> exact ⟨_, _, rfl⟩
        cases items with
        | one item => exact column item
        | more item _ =>
          obtain ⟨a, tail, rfl⟩ := column item
          exact ⟨a, _, rfl⟩
      obtain ⟨name, tail, rfl⟩ := first
      intro t head
      cases head
      exact (by decide : (isAlpha 42 || (42 : UInt8) == 95) = false)
    rw [parseProjectionList]
    split
    · next text =>
      rw [text] at other
      exact (other rfl).elim
    · exact run

theorem orderItem_reads {item : OrderByColumn} (spells : Spells spell)
    (h : OrderItem accepted item ts) (here : At spell (ts ++ more) (n + 1) rest)
    (ends : Ends [str ",", str ";"] [str "LIMIT"] more) :
    Reads spell (parseOrderByColumn size rest) item more n := by
  cases h with
  | @mk name direction ts us column way =>
    rw [List.append_assoc] at here
    have stop : ∀ t ∈ (us ++ more).head?, BeginsNot 46 t := by
      cases way with
      | absent => exact ends.beginsNot (by decide) (by decide)
      | ascending =>
        intro t head
        cases head
        exact (by decide : (isAlpha 46 || (46 : UInt8) == 95) = false)
      | descending =>
        intro t head
        cases head
        exact (by decide : (isAlpha 46 || (46 : UInt8) == 95) = false)
    obtain ⟨next, run, there⟩ := column_ok size spells column here stop
    rw [parseOrderByColumn, run]
    cases way with
    | absent =>
      have desc := tryKeyword_other (str "DESC") spells (by decide) there
        (ends.misses (by decide))
      have there' := at_skipWS spells there
      have asc := tryKeyword_other (str "ASC") spells (by decide) there'
        (ends.misses (by decide))
      refine ⟨skipWS (skipWS next), ?_, at_skipWS spells there'⟩
      rw [Throwing.ok_bind]
      dsimp only
      rw [desc]
      dsimp only
      rw [asc]
      rfl
    | ascending =>
      obtain ⟨m, rfl⟩ := at_pos spells there
      have desc := tryKeyword_other (str "DESC") spells (by decide) there
        (fun t head => by cases head; exact (by decide : str "ASC" ≠ str "DESC"))
      obtain ⟨next', asc, there'⟩ := tryKeyword_keyword spells (at_skipWS spells there)
      refine ⟨next', ?_, there'.mono (Nat.le_succ m)⟩
      rw [Throwing.ok_bind]
      dsimp only
      rw [desc]
      dsimp only
      rw [asc]
      rfl
    | descending =>
      obtain ⟨m, rfl⟩ := at_pos spells there
      obtain ⟨next', desc, there'⟩ := tryKeyword_keyword spells there
      refine ⟨next', ?_, there'.mono (Nat.le_succ m)⟩
      rw [Throwing.ok_bind]
      dsimp only
      rw [desc]
      rfl

theorem orderItem_nonempty {L : Lexicon} {item : OrderByColumn} (h : OrderItem L item ts) :
    ∃ t tail, ts = t :: tail := by
  cases h with
  | mk column _ =>
    obtain ⟨t, tail, rfl⟩ := column_nonempty column
    exact ⟨t, _, rfl⟩

theorem table_nonempty {L : Lexicon} {table : TableRef} (h : Table L table ts) :
    ∃ t tail, ts = t :: tail := by
  cases h <;> exact ⟨_, _, rfl⟩

/-- Behind a table name without alias, the keyword that follows is left alone. -/
theorem table_reads {table : TableRef} (spells : Spells spell) (h : Table accepted table ts)
    (here : At spell (ts ++ more) (n + 1) rest)
    (ends : Ends [str ";"] (str "ON" :: clauseKeywords) more)
    (looks : Keeps spell ∨ ∀ t, ts = [.table t] → ∀ kw, more.head? ≠ some (.keyword kw)) :
    Reads spell (parseTableRef size rest) table more n := by
  cases h with
  | @bare t =>
    obtain ⟨next, word, there⟩ := consumeIdent_table size spells here
    have as := tryKeyword_other (str "AS") spells (by decide) there
      (ends.misses (by decide))
    have there' := at_skipWS spells there
    refine ⟨skipWS next, ?_, there'⟩
    have candidate : (∃ w after, consumeIdent size (skipWS next) = .ok (w, after) ∧
        w ∈ clauseWords) ∨ ∃ e, consumeIdent size (skipWS next) = .error e := by
      cases more with
      | nil =>
        refine Or.inr (consumeIdent_none size ?_)
        rw [lays_nil there'.lays]
        nofun
      | cons t' tail =>
        rcases ends t' rfl with ⟨s, mem, rfl⟩ | ⟨kw, mem, rfl⟩
        · refine Or.inr (consumeIdent_none size ?_)
          obtain ⟨m, rfl⟩ := at_pos spells there'
          obtain rfl := List.mem_singleton.mp mem
          obtain ⟨next', text, _⟩ := skipWS_symbol (c := 59) spells there'
          rw [text]
          exact fun c head => Option.some.inj head ▸ rfl
        · obtain ⟨w, after, found, spelled⟩ := consumeIdent_keyword size spells there'
          have clause := (by decide : ∀ kw ∈ str "ON" :: clauseKeywords, kw ∈ clauseWords) kw mem
          rcases looks with keeps | apart
          · exact Or.inl ⟨w, after, found, keeps kw clause w spelled⟩
          · exact (apart t rfl kw rfl).elim
    rw [parseTableRef, word, Throwing.ok_bind]
    dsimp only
    rw [as]
    dsimp only
    rcases candidate with ⟨w, after, found, clause⟩ | ⟨e, found⟩
    · rw [found]
      dsimp only
      rw [if_pos clause]
      rfl
    · rw [found]
      rfl
  | @implicit t a _ _ other =>
    obtain ⟨next, word, there⟩ := consumeIdent_ident size spells here
    obtain ⟨m, rfl⟩ := at_pos spells there
    have as := tryKeyword_other (str "AS") spells (by decide) there
      (fun t head => by cases head; exact other.1)
    obtain ⟨next', word', there'⟩ :=
      consumeIdent_ident size spells (at_skipWS spells there)
    refine ⟨next', ?_, there'.mono (Nat.le_succ m)⟩
    rw [parseTableRef, word, Throwing.ok_bind]
    dsimp only
    rw [as]
    dsimp only
    rw [word']
    dsimp only
    rw [if_neg other.2]
    rfl
  | @explicit t a =>
    obtain ⟨next, word, there⟩ := consumeIdent_ident size spells here
    obtain ⟨m, rfl⟩ := at_pos spells there
    obtain ⟨next', as, there'⟩ := tryKeyword_keyword spells there
    obtain ⟨m, rfl⟩ := at_pos spells there'
    obtain ⟨next'', word', there''⟩ := consumeIdent_ident size spells there'
    refine ⟨next'', ?_, there''.mono (by omega)⟩
    rw [parseTableRef, word, Throwing.ok_bind]
    dsimp only
    rw [as]
    dsimp only
    rw [word']
    rfl

/-- What may stand behind the joins. -/
def BehindJoins (more : List Token) : Prop :=
  Ends [str ";"] [str "WHERE", str "ORDER", str "LIMIT"] more

/-- The optional INNER in front of a JOIN or of nothing. -/
theorem inner_read {inner : List Token} (spells : Spells spell)
    (h : inner = [] ∨ inner = [.keyword (str "INNER")]) (here : At spell (inner ++ more) n rest)
    (other : ∀ t ∈ more.head?, Misses (str "INNER") t) :
    At spell more n (tryKeyword (str "INNER") rest).2 := by
  rcases h with rfl | rfl
  · rw [tryKeyword_other _ spells (by decide) here other]
    exact at_skipWS spells here
  · obtain ⟨m, rfl⟩ := at_pos spells here
    obtain ⟨next, found, there⟩ := tryKeyword_keyword spells here
    rw [found]
    exact there.mono (Nat.le_succ m)

theorem inner_cases {inner : List Token} (h : Inner inner) :
    inner = [] ∨ inner = [.keyword (str "INNER")] := by
  cases h with
  | absent => exact Or.inl rfl
  | present => exact Or.inr rfl

theorem joins_ends {joins : List JoinClause} {inner : List Token} (h : Joins accepted joins ts)
    (stray : inner = [] ∨ inner = [.keyword (str "INNER")]) (ends : BehindJoins more) :
    Ends [str ";"] clauseKeywords (ts ++ (inner ++ more)) := by
  cases h with
  | nil =>
    rcases stray with rfl | rfl
    · exact Ends.mono ends (List.Subset.refl _) (by decide)
    · exact ends_keyword (by decide) _
  | cons join _ =>
    cases join with
    | mk inner _ _ =>
      cases inner with
      | absent => exact ends_keyword (by decide) _
      | present => exact ends_keyword (by decide) _

/-- One round of the loop over joins, up to the next. -/
theorem join_reads {join : JoinClause} (spells : Spells spell) (h : Join accepted join ts)
    (here : At spell (ts ++ more) n rest) (enough : 6 * n + 6 ≤ fuel)
    (ends : Ends [str ";"] clauseKeywords more) (looks : Keeps spell ∨ Separated ts)
    (front : List JoinClause) :
    ∃ fuel' m next, joinLoop size fuel front rest = joinLoop size fuel' (front ++ [join]) next ∧
      At spell more m next ∧ m ≤ n ∧ 6 * m + 6 ≤ fuel' := by
  cases h with
  | @mk inner table ts e us optional table' expr =>
    simp only [List.append_assoc, List.cons_append] at here
    obtain ⟨k, rfl⟩ : ∃ k, fuel = k + 1 := ⟨fuel - 1, by omega⟩
    have behind := inner_read spells (inner_cases optional) here
      (fun t head => by cases head; exact (by decide : str "JOIN" ≠ str "INNER"))
    obtain ⟨n, rfl⟩ := at_pos spells behind
    obtain ⟨next, join, there⟩ := tryKeyword_keyword spells behind
    obtain ⟨t, tail, rfl⟩ := table_nonempty table'
    obtain ⟨n, rfl⟩ := at_pos spells there
    have apart : Separated (inner ++ .keyword (str "JOIN") :: (t :: tail ++
        .keyword (str "ON") :: us)) →
        ∀ name, t :: tail = [.table name] →
          ∀ kw, some (Token.keyword (str "ON")) ≠ some (.keyword kw) :=
      fun apart => separated_table (separated_cons.mp (separated_append apart).2).2
    obtain ⟨next', tableRead, there'⟩ := table_reads size spells table' there
      (ends_keyword (by decide) _) (looks.imp_right apart)
    obtain ⟨n, rfl⟩ := at_pos spells there'
    obtain ⟨next'', on, there''⟩ := expectKeyword_keyword size spells there'
    obtain ⟨u, tail', rfl⟩ := expr_nonempty expr
    obtain ⟨n, rfl⟩ := at_pos spells there''
    obtain ⟨last, exprRead, there'''⟩ := parseExpr_reads size k spells expr
      there'' (by omega) (Ends.mono ends (by decide) (List.Subset.refl _))
    refine ⟨k, n, last, ?_, there''', by omega, by omega⟩
    rw [joinLoop, join]
    dsimp only
    rw [tableRead, Throwing.ok_bind]
    dsimp only
    rw [on, Throwing.ok_bind]
    dsimp only
    rw [exprRead]
    rfl

theorem joins_read {joins : List JoinClause} {inner : List Token} (spells : Spells spell)
    (h : Joins accepted joins ts) (stray : inner = [] ∨ inner = [.keyword (str "INNER")])
    (here : At spell (ts ++ (inner ++ more)) n rest) (enough : 6 * n + 6 ≤ fuel)
    (ends : BehindJoins more) (looks : Keeps spell ∨ Separated ts)
    (front : List JoinClause) :
    Reads spell (joinLoop size fuel front rest) (front ++ joins) more n := by
  induction h generalizing front n rest fuel with
  | nil =>
    obtain ⟨k, rfl⟩ : ∃ k, fuel = k + 1 := ⟨fuel - 1, by omega⟩
    have behind := inner_read spells stray here (ends.misses (by decide))
    refine ⟨_, ?_, at_skipWS spells behind⟩
    rw [joinLoop, tryKeyword_other _ spells (by decide) behind (ends.misses (by decide)),
      List.append_nil]
    rfl
  | @cons join joins ts us shape rest' ih =>
    rw [List.append_assoc] at here
    obtain ⟨fuel', m, next, run, there, less, enough'⟩ := join_reads size fuel spells shape
      here enough (joins_ends rest' stray ends)
      (looks.imp_right fun apart => (separated_append apart).1) front
    obtain ⟨last, run', there'⟩ := ih fuel' there enough'
      (looks.imp_right fun apart => (separated_append apart).2) (front ++ [join])
    refine ⟨last, ?_, there'.mono less⟩
    rw [run, run', List.append_assoc]
    rfl

theorem where_reads {whereClause : Option ASTExpr} (spells : Spells spell)
    (h : Where accepted whereClause ts) (here : At spell (ts ++ more) n rest)
    (enough : 6 * n + 6 ≤ fuel) (ends : Ends [str ";"] [str "ORDER", str "LIMIT"] more) :
    Reads spell (parseWhere size fuel rest) whereClause more n := by
  cases h with
  | absent =>
    refine ⟨skipWS rest, ?_, at_skipWS spells here⟩
    rw [parseWhere, tryKeyword_other _ spells (by decide) here (ends.misses (by decide))]
    rfl
  | @present e us expr =>
    obtain ⟨n, rfl⟩ := at_pos spells here
    obtain ⟨next, found, there⟩ := tryKeyword_keyword spells here
    obtain ⟨t, tail, rfl⟩ := expr_nonempty expr
    obtain ⟨n, rfl⟩ := at_pos spells there
    obtain ⟨last, run, there'⟩ := parseExpr_reads size fuel spells expr there
      (by omega) (Ends.mono ends (by decide) (by decide))
    refine ⟨last, ?_, there'.mono (by omega)⟩
    rw [parseWhere, found]
    dsimp only
    rw [run]
    rfl

theorem orderBy_reads {order : List OrderByColumn} (spells : Spells spell)
    (h : OrderBy accepted order ts) (here : At spell (ts ++ more) n rest)
    (enough : n + 1 ≤ fuel) (ends : Ends [str ";"] [str "LIMIT"] more) :
    Reads spell (parseOrderBy size fuel rest) order more n := by
  cases h with
  | absent =>
    refine ⟨skipWS rest, ?_, at_skipWS spells here⟩
    rw [parseOrderBy, tryKeyword_other _ spells (by decide) here (ends.misses (by decide))]
    rfl
  | @present items us list =>
    obtain ⟨n, rfl⟩ := at_pos spells here
    obtain ⟨next, found, there⟩ := tryKeyword_keyword spells here
    obtain ⟨n, rfl⟩ := at_pos spells there
    obtain ⟨next', by_, there'⟩ := expectKeyword_keyword size spells there
    have nonempty : ∃ t tail, us = t :: tail := by
      cases list with
      | one item => exact orderItem_nonempty item
      | more item _ =>
        obtain ⟨t, tail, rfl⟩ := orderItem_nonempty item
        exact ⟨t, _, rfl⟩
    obtain ⟨t, tail, rfl⟩ := nonempty
    obtain ⟨n, rfl⟩ := at_pos spells there'
    obtain ⟨last, run, there''⟩ := items_read fuel
      (fun more => Ends [str ",", str ";"] [str "LIMIT"] more)
      (fun shape here stop => orderItem_reads size spells shape here stop)
      orderItem_nonempty (fun us => ends_symbol (by decide) us) spells list [] there' (by omega)
      (Ends.mono ends (by decide) (List.Subset.refl _)) (ends.beginsNot (by decide) (by decide))
    refine ⟨last, ?_, there''.mono (by omega)⟩
    rw [parseOrderBy, found]
    dsimp only
    rw [by_, Throwing.ok_bind]
    exact run

theorem limit_reads {limit : Int} (spells : Spells spell) (h : Limit accepted limit ts)
    (here : At spell (ts ++ more) n rest) (ends : Ends [str ";"] [] more) :
    Reads spell (parseLimit size rest) limit more n := by
  cases h with
  | absent =>
    refine ⟨skipWS rest, ?_, at_skipWS spells here⟩
    rw [parseLimit, tryKeyword_other _ spells (by decide) here (ends.misses (by decide))]
    rfl
  | @present neg digits v value positive =>
    cases value
    obtain ⟨n, rfl⟩ := at_pos spells here
    obtain ⟨next, found, there⟩ := tryKeyword_keyword spells here
    obtain ⟨n, rfl⟩ := at_pos spells there
    obtain ⟨last, run, there'⟩ := consumeInt_int size spells there
    refine ⟨last, ?_, there'.mono (by omega)⟩
    rw [parseLimit, found]
    dsimp only
    rw [run, Throwing.ok_bind]
    dsimp only
    rw [if_neg (Int.not_lt.mpr positive)]
    rfl

theorem limit_ends {limit : Int} (h : Limit accepted limit ts) (ends : Ends [str ";"] [] more) :
    Ends [str ";"] [str "LIMIT"] (ts ++ more) := by
  cases h with
  | absent => exact Ends.mono ends (List.Subset.refl _) (by decide)
  | present => exact ends_keyword (by decide) _

theorem orderBy_ends {order : List OrderByColumn} (h : OrderBy accepted order ts)
    (ends : Ends [str ";"] [str "LIMIT"] more) :
    Ends [str ";"] [str "ORDER", str "LIMIT"] (ts ++ more) := by
  cases h with
  | absent => exact Ends.mono ends (List.Subset.refl _) (by decide)
  | present => exact ends_keyword (by decide) _

theorem where_ends {whereClause : Option ASTExpr} (h : Where accepted whereClause ts)
    (ends : Ends [str ";"] [str "ORDER", str "LIMIT"] more) : BehindJoins (ts ++ more) := by
  cases h with
  | absent => exact Ends.mono ends (List.Subset.refl _) (by decide)
  | present => exact ends_keyword (by decide) _

theorem projections_nonempty {L : Lexicon} {names : List Str} (h : Projections L names ts) :
    ∃ t tail, ts = t :: tail := by
  cases h with
  | star => exact ⟨_, _, rfl⟩
  | columns items =>
    cases items with
    | one item => exact column_nonempty item
    | more item _ =>
      obtain ⟨t, tail, rfl⟩ := column_nonempty item
      exact ⟨t, _, rfl⟩

theorem select_reads {stmt : SelectStatement} (spells : Spells spell)
    (h : Select accepted stmt ts) (here : At spell (ts ++ more) n rest)
    (enough : 6 * n + 6 ≤ fuel) (ends : Ends [str ";"] [] more)
    (looks : Keeps spell ∨ Separated (ts ++ more)) :
    Reads spell (parseSelect size fuel rest) stmt more n := by
  cases h with
  | @mk projections ps table tb joins js inner whereClause ws order os limit ls hp ht hj stray hw
      ho hl =>
    simp only [List.append_assoc, List.cons_append] at here looks
    have stray : inner = [] ∨ inner = [.keyword (str "INNER")] := stray.imp_right And.right
    have behindOrder := limit_ends hl ends
    have behindWhere := orderBy_ends ho behindOrder
    have behindJoins := where_ends hw behindWhere
    have behindTable := joins_ends hj stray behindJoins
    have apart : Keeps spell ∨
        Separated (tb ++ (js ++ (inner ++ (ws ++ (os ++ (ls ++ more)))))) :=
      looks.imp_right fun apart =>
        (separated_cons.mp (separated_append (separated_cons.mp apart).2).2).2
    obtain ⟨n, rfl⟩ := at_pos spells here
    obtain ⟨r₁, select, h₁⟩ := expectKeyword_keyword size spells here
    obtain ⟨t, tail, rfl⟩ := projections_nonempty hp
    obtain ⟨n, rfl⟩ := at_pos spells h₁
    obtain ⟨r₂, projected, h₂⟩ := projections_read size fuel spells hp h₁
      (by omega) (ends_keyword (by decide) _)
    obtain ⟨n, rfl⟩ := at_pos spells h₂
    obtain ⟨r₃, from_, h₃⟩ := expectKeyword_keyword size spells h₂
    obtain ⟨t', tail', rfl⟩ := table_nonempty ht
    obtain ⟨n, rfl⟩ := at_pos spells h₃
    obtain ⟨r₄, tableRead, h₄⟩ := table_reads size spells ht h₃
      (Ends.mono behindTable (List.Subset.refl _) (List.subset_cons_self _ _))
      (apart.imp_right separated_table)
    have joinsApart := apart.imp_right fun apart => (separated_append (separated_append apart).2).1
    obtain ⟨r₅, joined, h₅⟩ := joins_read size fuel spells hj stray h₄
      (by omega) behindJoins joinsApart []
    obtain ⟨r₆, filtered, h₆⟩ := where_reads size fuel spells hw h₅
      (by omega) behindWhere
    obtain ⟨r₇, ordered, h₇⟩ := orderBy_reads size fuel spells ho h₆
      (by omega) behindOrder
    obtain ⟨r₈, limited, h₈⟩ := limit_reads size spells hl h₇ ends
    refine ⟨r₈, ?_, h₈.mono (by omega)⟩
    simp only [parseSelect, select, projected, from_, tableRead, joined, filtered, ordered, limited,
      Throwing.ok_bind, List.nil_append]
    rfl

/-- The parser gives back the statement that a text renders, if its keywords are written
as the look-ahead knows them or stand where it does not look. -/
theorem parse_renders {stmt : SelectStatement} {text : Str} (spells : Spells spell)
    (h : Renders accepted stmt ts) (lays : Lays spell ts text)
    (looks : Keeps spell ∨ Separated ts) : parse text = .ok stmt := by
  have here : ∀ {ts : List Token}, Lays spell ts text → At spell ts text.length text :=
    fun lays => ⟨lays, le_refl _⟩
  cases h with
  | plain select =>
    have here := here lays
    rw [← List.append_nil ts] at here looks
    obtain ⟨next, run, there⟩ := select_reads text.length (6 * text.length + 6) spells select here
      (le_refl _) nofun looks
    rw [parse]
    dsimp only
    rw [run, Throwing.ok_bind]
    dsimp only
    rw [lays_nil there.lays]
    rfl
  | terminated select =>
    obtain ⟨next, run, there⟩ := select_reads text.length (6 * text.length + 6) spells select
      (here lays) (le_refl _) (ends_symbol (by decide) _) looks
    obtain ⟨n, same⟩ := at_pos spells there
    rw [same] at there
    obtain ⟨next', text', there'⟩ := skipWS_symbol (c := 59) spells there
    rw [parse]
    dsimp only
    rw [run, Throwing.ok_bind]
    dsimp only
    simp only [text', lays_nil there'.lays]
    rfl

end FheSql.StatementCompleteness
