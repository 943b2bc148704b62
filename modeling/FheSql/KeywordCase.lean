import FheSql.StatementCompleteness
import FheSql.ParserSoundness

/-!
# The letter case of keywords

A keyword is recognised in every letter case, but behind a table name without alias
the parser first tries to read an alias, and there it knows the clause words in upper
case only. A text keeps its statement under every change of the letter case of its
keywords exactly if no keyword stands in such a place.
-/

namespace FheSql.KeywordCase

open ByteText SQLParser SqlTokens SqlGrammar ParserCompleteness StatementCompleteness
open ParserSoundness Throwing

variable {ts more : List Token} {n size fuel : Nat} {rest stop : Str}

/-- `sql'` differs from `sql` in the letter case of its keywords only. -/
def Recased (ts : List Token) (sql sql' : Str) : Prop :=
  Lays anyCase ts sql' ∧ toUpper sql' = toUpper sql

/-- Every keyword in one spelling of its own. -/
def respelled (f : Str → Str) : Spelling := fun kw w => w = f kw

/-- A change of the letter case that the look-ahead does not know. -/
structure Recasing (f : Str → Str) : Prop where
  same : ∀ kw ∈ keywords, toUpper (f kw) = kw
  escapes : ∀ kw ∈ clauseWords, f kw ∉ clauseWords

def lowered (kw : Str) : Str := kw.map (· + 32)

def firstLowered : Str → Str
  | [] => []
  | c :: kw => (c + 32) :: kw

theorem exists_recasing {kw : Str} (clause : kw ∈ clauseWords) (t : Str) :
    ∃ f, Recasing f ∧ f kw ≠ t := by
  by_cases same : lowered kw = t
  · refine ⟨firstLowered, ⟨by decide, by decide⟩, ?_⟩
    rw [← same]
    exact (by decide : ∀ kw ∈ clauseWords, firstLowered kw ≠ lowered kw) kw clause
  · exact ⟨lowered, ⟨by decide, by decide⟩, same⟩

theorem glues_toUpperChar (t : Token) (c : UInt8) : t.glues (toUpperChar c) = t.glues c := by
  have digit : isDigit (toUpperChar c) = isDigit c :=
    forall_byte (p := fun c => isDigit (toUpperChar c) = isDigit c) (by decide +kernel) c
  have quote : (toUpperChar c == 39) = (c == 39) :=
    forall_byte (p := fun c => (toUpperChar c == 39) = (c == 39)) (by decide +kernel) c
  have equals : (toUpperChar c == 61) = (c == 61) :=
    forall_byte (p := fun c => (toUpperChar c == 61) = (c == 61)) (by decide +kernel) c
  cases t with
  | keyword => exact isIdentChar_toUpperChar c
  | ident => exact isIdentChar_toUpperChar c
  | table => exact isIdentChar_toUpperChar c
  | int => exact digit
  | string => exact quote
  | symbol => rw [Token.glues, Token.glues, equals]

/-- Whether a token ends does not depend on the letter case of the text behind it. -/
theorem endsBefore_of_toUpper {t : Token} {rest' : Str} (h : t.EndsBefore rest)
    (same : toUpper rest' = toUpper rest) : t.EndsBefore rest' := by
  intro c head
  obtain ⟨tail, rfl⟩ := List.head?_eq_some_iff.mp head
  cases rest with
  | nil => cases same
  | cons d rest =>
    have first : toUpperChar c = toUpperChar d := (List.cons.inj same).1
    rw [← glues_toUpperChar, first, glues_toUpperChar]
    exact h d rfl

theorem spans_respelled {f : Str → Str} (recasing : Recasing f)
    (h : Spans exactly ts rest stop) :
    ∃ rest', Spans (respelled f) ts rest' stop ∧ toUpper rest' = toUpper rest := by
  induction h with
  | nil space => exact ⟨_, .nil space, rfl⟩
  | @cons ws t w ts rest stop space writes ends spans ih =>
    obtain ⟨rest', spans', same⟩ := ih
    have anew : ∃ w', t.Writes (respelled f) w' ∧ toUpper w' = toUpper w := by
      cases writes with
      | @keyword kw _ known spelled =>
        refine ⟨f kw, .keyword known rfl, ?_⟩
        rw [recasing.same kw known, show w = kw from spelled]
        exact (spells_exactly kw known kw rfl).symm
      | ident identifier => exact ⟨_, .ident identifier, rfl⟩
      | table identifier => exact ⟨_, .table identifier, rfl⟩
      | int nonempty all => exact ⟨_, .int nonempty all, rfl⟩
      | string ascii => exact ⟨_, .string ascii, rfl⟩
      | symbol listed => exact ⟨_, .symbol listed, rfl⟩
    obtain ⟨w', writes', same'⟩ := anew
    refine ⟨ws ++ (w' ++ rest'), .cons space writes' (endsBefore_of_toUpper ends same) spans', ?_⟩
    simp only [toUpper, List.map_append] at same same' ⊢
    rw [same, same']

theorem spans_anyCase {f : Str → Str} (recasing : Recasing f)
    (h : Spans (respelled f) ts rest stop) : Spans anyCase ts rest stop := by
  induction h with
  | nil space => exact .nil space
  | cons space writes ends _ ih =>
    refine .cons space ?_ ends ih
    cases writes with
    | keyword known spelled => exact .keyword known (spelled ▸ recasing.same _ known)
    | ident identifier => exact .ident identifier
    | table identifier => exact .table identifier
    | int nonempty all => exact .int nonempty all
    | string ascii => exact .string ascii
    | symbol listed => exact .symbol listed

theorem respelled_spells {f : Str → Str} (recasing : Recasing f) : Spells (respelled f) := by
  rintro kw known w rfl
  exact recasing.same kw known

/-- Tokens among which no table name stands without an alias. -/
def Plain (ts : List Token) : Prop := ∀ name, .table name ∉ ts

theorem plain_append {us : List Token} : Plain (ts ++ us) ↔ Plain ts ∧ Plain us := by
  simp only [Plain, List.mem_append, not_or]
  exact forall_and

theorem plain_cons {t : Token} : Plain (t :: ts) ↔ (∀ name, .table name ≠ t) ∧ Plain ts := by
  simp only [Plain, List.mem_cons, not_or]
  exact forall_and

theorem separated_plain (plain : Plain ts) {us : List Token} :
    Separated (ts ++ us) ↔ Separated us := by
  induction ts with
  | nil => exact Iff.rfl
  | cons t ts ih =>
    obtain ⟨other, plain⟩ := plain_cons.mp plain
    rw [List.cons_append, separated_cons, ih plain]
    exact and_iff_right fun name same => (other name same.symm).elim

theorem plain_separated (plain : Plain ts) : Separated ts := by
  rw [← List.append_nil ts]
  exact (separated_plain plain).mpr trivial

variable {L : Lexicon}

theorem plain_of_clausal (h : ∀ t ∈ ts, ClauseToken t) : Plain ts := fun _ mem => h _ mem

/-- A table has an alias, or it is one name. -/
theorem table_plain {table : TableRef} (h : Table L table ts) :
    Plain ts ∨ ts = [.table table.tableName] ∧ table.aliasName = table.tableName :=
  (table_clausal h).imp_left plain_of_clausal

/-- So is a join with a table that has an alias. -/
theorem plain_join {inner us : List Token}
    (optional : inner = [] ∨ inner = [.keyword (str "INNER")])
    (table : Plain ts) (condition : Plain us) :
    Plain (inner ++ .keyword (str "JOIN") :: (ts ++ .keyword (str "ON") :: us)) := by
  have behind : Plain (ts ++ .keyword (str "ON") :: us) :=
    plain_append.mpr ⟨table, plain_cons.mpr ⟨nofun, condition⟩⟩
  exact plain_append.mpr ⟨inner_plain optional, plain_cons.mpr ⟨nofun, behind⟩⟩

theorem join_plain {join : JoinClause} (h : Join L join ts) (apart : Separated ts) : Plain ts := by
  cases h with
  | mk inner table expr =>
    rcases table_plain table with plain | ⟨rfl, _⟩
    · exact plain_join (inner_cases inner) plain (plain_of_clausal (expr_clausal expr))
    · have behind := (separated_cons.mp (separated_append apart).2).2
      exact (separated_table behind _ rfl _ rfl).elim

variable {f : Str → Str}

/-- In another letter case the clause keyword behind a table name becomes its alias. -/
theorem table_aliased (size : Nat) {t kw : Str} (recasing : Recasing f) (clause : kw ∈ clauseWords)
    (here : At (respelled f) (.table t :: .keyword kw :: more) n rest) :
    ∃ next, parseTableRef size rest = .ok (⟨t, f kw⟩, next) := by
  have spells := respelled_spells recasing
  obtain ⟨m, rfl⟩ := at_pos spells here
  obtain ⟨next, word, there⟩ := consumeIdent_table size spells here
  have other : kw ≠ str "AS" :=
    (by decide : ∀ kw ∈ clauseWords, kw ≠ str "AS") kw clause
  have as := tryKeyword_other (str "AS") spells (by decide) there
    (fun t head => by cases head; exact other)
  obtain ⟨w, next', word', spelled⟩ :=
    consumeIdent_keyword size spells (at_skipWS spells there)
  refine ⟨next', ?_⟩
  have escapes : w ∉ clauseWords := spelled ▸ recasing.escapes kw clause
  rw [parseTableRef, word, Throwing.ok_bind]
  dsimp only
  rw [as]
  dsimp only
  rw [word']
  dsimp only
  rw [if_neg escapes, show w = f kw from spelled]
  rfl

/-- One round of the loop over joins whose ON is read as the alias of the joined table. -/
theorem join_aliased {join : JoinClause} {joins : List JoinClause} {next : Str}
    (recasing : Recasing f) (h : Join accepted join ts) (apart : ¬ Separated ts)
    (other : f (str "ON") ≠ join.rightTable.tableName)
    (here : At (respelled f) (ts ++ more) n rest) (front : List JoinClause) :
    joinLoop size fuel front rest ≠ .ok (front ++ join :: joins, next) := by
  have spells := respelled_spells recasing
  cases h with
  | @mk inner table ts e us optional table' expr =>
    have optional := inner_cases optional
    rcases table_plain table' with plain | ⟨rfl, named⟩
    · have joined := plain_join optional plain (plain_of_clausal (expr_clausal expr))
      exact (apart (plain_separated joined)).elim
    simp only [List.append_assoc, List.cons_append, List.nil_append] at here
    have behind := inner_read spells optional here
      (fun t head => by cases head; exact (by decide : str "JOIN" ≠ str "INNER"))
    obtain ⟨n, rfl⟩ := at_pos spells behind
    obtain ⟨r₁, found, there⟩ := tryKeyword_keyword spells behind
    obtain ⟨r₂, aliased⟩ := table_aliased size recasing (by decide) there
    intro run
    cases fuel with
    | zero => cases run
    | succ fuel =>
      rw [joinLoop, found] at run
      dsimp only at run
      rw [aliased, Throwing.ok_bind] at run
      obtain ⟨⟨u, r₃⟩, _, run⟩ := bind_ok_iff.mp run
      obtain ⟨⟨condition, r₄⟩, _, run⟩ := bind_ok_iff.mp run
      obtain ⟨more', _, _, same, _⟩ := joins_read run
      rw [List.append_assoc] at same
      have first := (List.cons.inj (List.append_cancel_left same)).1
      have aliases : table.aliasName = f (str "ON") :=
        congrArg (fun join => join.rightTable.aliasName) first
      exact other (aliases.symm.trans named)

/-- The joins of a statement are separated, or in another letter case the first one that
is not gets another alias. -/
theorem joins_separated {joins : List JoinClause} (h : Joins accepted joins ts) :
    Separated ts ∨ ∃ t, ∀ {f}, Recasing f → f (str "ON") ≠ t →
      ∀ {inner more n rest}, inner = [] ∨ inner = [.keyword (str "INNER")] → BehindJoins more →
      At (respelled f) (ts ++ (inner ++ more)) n rest →
      ∀ size fuel front next, 6 * n + 6 ≤ fuel →
        joinLoop size fuel front rest ≠ .ok (front ++ joins, next) := by
  induction h with
  | nil => exact Or.inl trivial
  | @cons join joins ts us shape behind ih =>
    by_cases apart : Separated ts
    · rcases ih with separated | ⟨t, diverges⟩
      · exact Or.inl ((separated_plain (join_plain shape apart)).mpr separated)
      · refine Or.inr ⟨t, ?_⟩
        intro f recasing other inner more n rest stray ends here size fuel front next enough
        rw [List.append_assoc] at here
        obtain ⟨fuel', m, next', run, there, _, enough'⟩ := join_reads size fuel
          (respelled_spells recasing) shape here enough (joins_ends behind stray ends)
          (Or.inr apart) front
        rw [run]
        have other := diverges recasing other stray ends there size fuel' (front ++ [join]) next
          enough'
        rwa [List.append_assoc] at other
    · refine Or.inr ⟨join.rightTable.tableName, ?_⟩
      intro f recasing other inner more n rest _ _ here size fuel front next _
      rw [List.append_assoc] at here
      exact join_aliased recasing shape apart other here front

theorem joins_plain {joins : List JoinClause} (h : Joins L joins ts) (apart : Separated ts) :
    Plain ts := by
  induction h with
  | nil => exact nofun
  | cons join _ ih =>
    obtain ⟨front, back⟩ := separated_append apart
    exact plain_append.mpr ⟨join_plain join front, ih back⟩

theorem table_separated {table : TableRef} {us : List Token} (h : Table L table ts)
    (apart : ∀ t, ts = [.table t] → ∀ kw, us.head? ≠ some (.keyword kw)) (plain : Plain us) :
    Separated (ts ++ us) := by
  rcases table_plain h with plain' | ⟨rfl, _⟩
  · exact plain_separated (plain_append.mpr ⟨plain', plain⟩)
  · refine separated_cons.mpr ⟨fun name same => ?_, plain_separated plain⟩
    cases same
    exact apart _ rfl

/-- How far a successful run has come behind FROM. -/
theorem select_source {spell : Spelling} {names : List Str} {ps : List Token}
    {stmt : SelectStatement} {next : Str} (spells : Spells spell)
    (hp : Projections accepted names ps) (nonempty : ∃ t tail, more = t :: tail)
    (here : At spell (.keyword (str "SELECT") :: (ps ++ .keyword (str "FROM") :: more)) n rest)
    (enough : n + 1 ≤ fuel) (run : parseSelect size fuel rest = .ok (stmt, next)) :
    ∃ m r source r' r'', At spell more (m + 1) r ∧ m + 1 ≤ n ∧
      parseTableRef size r = .ok (source, r') ∧ joinLoop size fuel [] r' = .ok (stmt.joins, r'') ∧
      stmt.tableAlias = source.aliasName := by
  obtain ⟨n, rfl⟩ := at_pos spells here
  obtain ⟨r₁, select, h₁⟩ := expectKeyword_keyword size spells here
  obtain ⟨t, tail, rfl⟩ := projections_nonempty hp
  obtain ⟨n, rfl⟩ := at_pos spells h₁
  obtain ⟨r₂, projected, h₂⟩ := projections_read size fuel spells hp h₁ (by omega)
    (ends_keyword (by decide) _)
  obtain ⟨n, rfl⟩ := at_pos spells h₂
  obtain ⟨r₃, from_, h₃⟩ := expectKeyword_keyword size spells h₂
  obtain ⟨t', tail', rfl⟩ := nonempty
  obtain ⟨n, rfl⟩ := at_pos spells h₃
  simp only [parseSelect, select, projected, from_, Throwing.ok_bind] at run
  obtain ⟨⟨source, r₄⟩, table, run⟩ := bind_ok_iff.mp run
  obtain ⟨⟨joins, r₅⟩, joined, run⟩ := bind_ok_iff.mp run
  obtain ⟨⟨whereClause, r₆⟩, _, run⟩ := bind_ok_iff.mp run
  obtain ⟨⟨order, r₇⟩, _, run⟩ := bind_ok_iff.mp run
  obtain ⟨⟨limit, r₈⟩, _, run⟩ := bind_ok_iff.mp run
  cases run
  exact ⟨n, r₃, source, r₄, r₅, h₃, by omega, table, joined, rfl⟩

/-- The tokens of a statement are separated, or its keywords can be written so that it is
not read any more. -/
theorem select_separated {stmt : SelectStatement} (h : Select accepted stmt ts)
    (ends : Ends [str ";"] [] more) (plain : Plain more) :
    Separated (ts ++ more) ∨ ∃ f, Recasing f ∧
      ∀ {n rest}, At (respelled f) (ts ++ more) n rest → ∀ size fuel next, 6 * n + 6 ≤ fuel →
        parseSelect size fuel rest ≠ .ok (stmt, next) := by
  cases h with
  | @mk projections ps table tb joins js inner whereClause ws order os limit ls hp ht hj stray hw
      ho hl =>
    simp only [List.append_assoc, List.cons_append]
    have stray : inner = [] ∨ inner = [.keyword (str "INNER")] := stray.imp_right And.right
    have behindJoins := where_ends hw (orderBy_ends ho (limit_ends hl ends))
    have behindTable := joins_ends hj stray behindJoins
    have rear : Plain (inner ++ (ws ++ (os ++ (ls ++ more)))) := by
      simp only [plain_append]
      exact ⟨inner_plain stray, plain_of_clausal (where_clausal hw),
        plain_of_clausal (orderBy_clausal ho), plain_of_clausal (limit_clausal hl), plain⟩
    have nonempty :
        ∃ t tail, tb ++ (js ++ (inner ++ (ws ++ (os ++ (ls ++ more))))) = t :: tail := by
      obtain ⟨t, tail, rfl⟩ := table_nonempty ht
      exact ⟨t, _, rfl⟩
    by_cases apart : ∀ t, tb = [.table t] →
        ∀ kw, (js ++ (inner ++ (ws ++ (os ++ (ls ++ more))))).head? ≠ some (.keyword kw)
    · rcases joins_separated hj with separated | ⟨t, diverges⟩
      · refine Or.inl (separated_cons.mpr ⟨nofun, ?_⟩)
        have projected := plain_of_clausal (projections_clausal hp)
        refine (separated_plain projected).mpr (separated_cons.mpr ⟨nofun, ?_⟩)
        exact table_separated ht apart (plain_append.mpr ⟨joins_plain hj separated, rear⟩)
      · obtain ⟨f, recasing, other⟩ := exists_recasing (by decide : str "ON" ∈ clauseWords) t
        refine Or.inr ⟨f, recasing, fun {n rest} here size fuel next enough run => ?_⟩
        have spells := respelled_spells recasing
        obtain ⟨m, r, source, r', r'', there, less, tableRead, joined, _⟩ :=
          select_source spells hp nonempty here (by omega) run
        obtain ⟨r₄, tableRead', h₄⟩ := table_reads size spells ht there
          (Ends.mono behindTable (List.Subset.refl _) (List.subset_cons_self _ _)) (Or.inr apart)
        cases tableRead.symm.trans tableRead'
        exact diverges recasing other stray behindJoins h₄ size fuel [] r'' (by omega) joined
    · push Not at apart
      obtain ⟨t, rfl, kw, head⟩ := apart
      have clause : kw ∈ clauseWords := by
        rcases behindTable _ head with ⟨_, _, same⟩ | ⟨kw', mem, same⟩
        · cases same
        · cases same
          exact (by decide : ∀ kw ∈ clauseKeywords, kw ∈ clauseWords) kw mem
      obtain ⟨f, recasing, other⟩ := exists_recasing clause t
      refine Or.inr ⟨f, recasing, fun {n rest} here size fuel next enough run => ?_⟩
      obtain ⟨m, r, source, r', _, there, _, tableRead, _, named⟩ :=
        select_source (respelled_spells recasing) hp nonempty here (by omega) run
      obtain ⟨tail, behind⟩ := List.head?_eq_some_iff.mp head
      rw [behind] at there
      obtain ⟨_, aliased⟩ := table_aliased size recasing clause there
      cases tableRead.symm.trans aliased
      cases ht
      exact other named.symm

/-- The tokens of an accepted text are separated, or its keywords can be written so that
it is not read as the same statement. -/
theorem renders_separated {stmt : SelectStatement} (h : Renders accepted stmt ts) :
    Separated ts ∨ ∃ f, Recasing f ∧
      ∀ sql, Lays (respelled f) ts sql → parse sql ≠ .ok stmt := by
  have diverges : ∀ {ts f}, (∀ {n rest}, At (respelled f) ts n rest → ∀ size fuel next,
      6 * n + 6 ≤ fuel → parseSelect size fuel rest ≠ .ok (stmt, next)) →
      ∀ sql, Lays (respelled f) ts sql → parse sql ≠ .ok stmt := by
    intro ts f other sql lays run
    obtain ⟨⟨stmt', last⟩, first, run⟩ := bind_ok_iff.mp run
    have same : stmt' = stmt := by
      dsimp only at run
      split at run
      · exact Except.ok.inj run
      · cases run
    rw [same] at first
    exact other ⟨lays, le_refl _⟩ sql.length _ last (le_refl _) first
  cases h with
  | plain select =>
    have stop : Ends [str ";"] [] [] := nofun
    have all := select_separated select stop nofun
    simp only [List.append_nil] at all
    exact all.imp_right fun ⟨f, recasing, other⟩ => ⟨f, recasing, diverges other⟩
  | terminated select =>
    have stop : Ends [str ";"] [] [.symbol (str ";")] := ends_symbol (by decide) []
    have all := select_separated select stop (by simp [Plain])
    exact all.imp_right fun ⟨f, recasing, other⟩ => ⟨f, recasing, diverges other⟩

/-- Every accepted text is laid out as a rendering of its statement; if its keywords are in
upper case, their letter case does not matter exactly if none of them stands directly
behind a table name without alias. -/
theorem recased_iff_separated {sql : Str} {stmt : SelectStatement}
    (accepts : parse sql = .ok stmt) :
    (∃ ts, Renders accepted stmt ts ∧ Lays anyCase ts sql) ∧
      ∀ ts, Renders accepted stmt ts → Lays exactly ts sql →
        ((∀ sql', Recased ts sql sql' → parse sql' = .ok stmt) ↔ Separated ts) := by
  refine ⟨renders_of_parse accepts, fun ts renders lays => ?_⟩
  constructor
  · intro same
    rcases renders_separated renders with separated | ⟨f, recasing, other⟩
    · exact separated
    · obtain ⟨sql', lays', upper⟩ := spans_respelled recasing lays
      exact (other sql' lays' (same sql' ⟨spans_anyCase recasing lays', upper⟩)).elim
  · rintro separated sql' ⟨lays', _⟩
    exact parse_renders spells_anyCase renders lays' (Or.inr separated)

/-- The statement of `SELECT * FROM emp AS e LIMIT 5`. -/
def firstEmployees : SelectStatement :=
  { projections := [], tableName := str "emp", tableAlias := str "e", limitCount := 5 }

theorem aliased_recased :
    (∃ ts, Renders accepted firstEmployees ts ∧
      Lays anyCase ts (str "SELECT * FROM emp AS e LIMIT 5")) ∧
      ∀ ts, Renders accepted firstEmployees ts →
        Lays exactly ts (str "SELECT * FROM emp AS e LIMIT 5") →
        ((∀ sql', Recased ts (str "SELECT * FROM emp AS e LIMIT 5") sql' →
          parse sql' = .ok firstEmployees) ↔ Separated ts) :=
  recased_iff_separated (by rfl)

/-- With a small `limit` behind the table name, the number is left over. -/
theorem limit_read_as_alias :
    ¬ ∀ sql stmt ts, parse sql = .ok stmt → Renders accepted stmt ts → Lays exactly ts sql →
      ∀ sql', Recased ts sql sql' → parse sql' = .ok stmt := by
  intro same
  have renders : Renders accepted
      { projections := [], tableName := str "emp", tableAlias := str "emp", limitCount := 5 }
      [.keyword (str "SELECT"), .symbol (str "*"), .keyword (str "FROM"), .table (str "emp"),
        .keyword (str "LIMIT"), .int false (str "5")] :=
    .plain (.mk .star (.bare trivial) .nil (Or.inl rfl) .absent .absent
      (.present (rfl : (5 : Int) = readInt false (str "5")) (by decide)))
  have lays : ∀ {spell w}, spell (str "SELECT") (str "SELECT") → spell (str "FROM") (str "FROM") →
      spell (str "LIMIT") w →
      Lays spell
        [.keyword (str "SELECT"), .symbol (str "*"), .keyword (str "FROM"), .table (str "emp"),
          .keyword (str "LIMIT"), .int false (str "5")]
        ([] ++ (str "SELECT" ++ ([32] ++ (str "*" ++ ([32] ++ (str "FROM" ++ ([32] ++
          (str "emp" ++ ([32] ++ (w ++ ([32] ++ (str "5" ++ ([] ++ []))))))))))))) := by
    intro spell w select from_ limit
    refine .cons nofun (.keyword (by decide) select) (by rintro c ⟨⟩; rfl) ?_
    refine .cons (by decide +kernel) (.symbol (by decide)) (by rintro c ⟨⟩; rfl) ?_
    refine .cons (by decide +kernel) (.keyword (by decide) from_) (by rintro c ⟨⟩; rfl) ?_
    refine .cons (by decide +kernel) (.table (by decide +kernel)) (by rintro c ⟨⟩; rfl) ?_
    refine .cons (by decide +kernel) (.keyword (by decide) limit) (by rintro c ⟨⟩; rfl) ?_
    exact .cons (by decide +kernel) (.int (by decide) (by decide +kernel)) nofun (.nil nofun)
  have upper := @lays exactly (str "LIMIT") rfl rfl rfl
  have lower := @lays anyCase (str "limit") rfl rfl rfl
  have small := same _ _ _ (by rfl) renders upper (str "SELECT * FROM emp limit 5") ⟨lower, rfl⟩
  cases small

end FheSql.KeywordCase
