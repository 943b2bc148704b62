import FheSql.PipelineAcceptance

/-!
# Name resolution

The SELECT list, ORDER BY and ON look a name up in a map from aliases to tables, the
comparisons of WHERE run through FROM and the JOIN clauses, and a bare operand of AND,
OR and NOT is only tested for existence. Here is which table each of them finds.
-/

namespace FheSql.NameResolution

open ByteText Throwing SemanticAnalyzer AnalyzedStatement PipelineAcceptance

/-- The alias of the FROM table in the scopes. -/
def fromAlias (stmt : SelectStatement) : Str :=
  if stmt.tableAlias = [] then stmt.tableName else stmt.tableAlias

/-- The scopes with the names of their tables. -/
def scopeNames (stmt : SelectStatement) : StringMap Str :=
  stmt.joins.foldl
    (fun names join => names.insert join.rightTable.aliasName join.rightTable.tableName)
    ((∅ : StringMap Str).insert (fromAlias stmt) stmt.tableName)

section Tables

variable (cat : Catalog) (stmt : SelectStatement)

instance (table name : Str) : Decidable (TableHas cat table name) :=
  match h : cat.getTable table with
  | .ok t => decidable_of_iff (t.hasColumn name = true) (by simp [TableHas, h])
  | .error _ => .isFalse (by simp [TableHas, h])

/-- The table the scopes name under an alias: that of the last item with the alias. -/
def lastTable (aliasName : Str) : Option Str := (scopeNames stmt).lookup aliasName

/-- The table of the first item with an alias, FROM standing before the JOIN clauses. -/
def firstTable (aliasName : Str) : Option Str :=
  if aliasName = stmt.tableAlias ∨ (stmt.tableAlias = [] ∧ aliasName = stmt.tableName) then
    some stmt.tableName
  else
    (stmt.joins.find? fun join => aliasName == join.rightTable.aliasName).map
      fun join => join.rightTable.tableName

/-- The tables in the scopes that have a column. -/
def owners (name : Str) : List Str :=
  ((scopeNames stmt).entries.map (·.2)).filter fun table => decide (TableHas cat table name)

/-- The table in which `analyze` finds a reference. -/
def scopeBinding (ref : Str) : Option Str :=
  match findDot ref with
  | some d => (lastTable stmt (ref.take d)).filter fun table =>
      decide (TableHas cat table (ref.drop (d + 1)))
  | none =>
    match owners cat stmt ref with
    | [table] => some table
    | _ => none

/-- The table in which `validateComparison` finds a reference. -/
def whereBinding (ref : Str) : Option Str :=
  match findDot ref with
  | some d => (firstTable stmt (ref.take d)).filter fun table =>
      decide (TableHas cat table (ref.drop (d + 1)))
  | none => if TableHas cat stmt.tableName ref then some stmt.tableName else none

end Tables

section Scopes

variable {cat : Catalog} {stmt : SelectStatement} {schema : TableSchema}
  {scopes : StringMap TableSchema}

/-- Scopes and names with the same aliases in the same order, and the tables named. -/
def Named (cat : Catalog) (scopes : List (Sigma fun _ : Str => TableSchema))
    (names : List (Sigma fun _ : Str => Str)) : Prop :=
  List.Forall₂ (fun scope name => scope.1 = name.1 ∧ cat.getTable name.2 = .ok scope.2) scopes names

theorem named_kerase {scopes : List (Sigma fun _ : Str => TableSchema)}
    {names : List (Sigma fun _ : Str => Str)} (h : Named cat scopes names) (aliasName : Str) :
    Named cat (scopes.kerase aliasName) (names.kerase aliasName) := by
  induction h with
  | nil => exact .nil
  | @cons scope name scopes names head tail ih =>
    by_cases own : aliasName = scope.1
    · rw [List.kerase_cons_eq own, List.kerase_cons_eq (own.trans head.1)]
      exact tail
    · rw [List.kerase_cons_ne own, List.kerase_cons_ne fun h => own (h.trans head.1.symm)]
      exact .cons head ih

theorem named_insert {scopes : StringMap TableSchema} {names : StringMap Str}
    (h : Named cat scopes.entries names.entries) {aliasName table : Str} {t : TableSchema}
    (ht : cat.getTable table = .ok t) :
    Named cat (scopes.insert aliasName t).entries (names.insert aliasName table).entries := by
  rw [AList.entries_insert, AList.entries_insert]
  exact .cons ⟨rfl, ht⟩ (named_kerase h aliasName)

/-- One turn of the loop that fills the scopes. -/
theorem addJoinScope_ok {start next : StringMap TableSchema} {join : JoinClause}
    (step : addJoinScope cat start join = .ok next) :
    ∃ t, cat.getTable join.rightTable.tableName = .ok t ∧
      next = start.insert join.rightTable.aliasName t := by
  simp only [addJoinScope, throw_eq_error, error_bind, pure_eq_ok, guard_ok_iff, bind_ok_iff,
    Except.ok.injEq] at step
  obtain ⟨_, t, ht, rfl⟩ := step
  exact ⟨t, ht, rfl⟩

theorem named_scopes (table : cat.getTable stmt.tableName = .ok schema)
    (scopesOk : scopesOf cat stmt schema = .ok scopes) :
    Named cat scopes.entries (scopeNames stmt).entries := by
  have loop : ∀ (joins : List JoinClause) (start : StringMap TableSchema) (names : StringMap Str),
      Named cat start.entries names.entries → joins.foldlM (addJoinScope cat) start = .ok scopes →
      Named cat scopes.entries (joins.foldl (fun names join =>
        names.insert join.rightTable.aliasName join.rightTable.tableName) names).entries := by
    intro joins
    induction joins with
    | nil =>
      intro start names h done
      cases done
      exact h
    | cons join joins ih =>
      intro start names h run
      rw [List.foldlM_cons] at run
      obtain ⟨next, step, rest⟩ := bind_ok_iff.mp run
      obtain ⟨t, ht, rfl⟩ := addJoinScope_ok step
      exact ih _ _ (named_insert h ht) rest
  refine loop stmt.joins _ _ (named_insert ?_ table) scopesOk
  exact .nil

theorem lookup_named {scopes : StringMap TableSchema} {names : StringMap Str}
    (h : Named cat scopes.entries names.entries) (aliasName : Str) {t : TableSchema} :
    scopes.lookup aliasName = some t ↔
      ∃ table, names.lookup aliasName = some table ∧ cat.getTable table = .ok t := by
  have step : ∀ {l : List (Sigma fun _ : Str => TableSchema)} {m : List (Sigma fun _ : Str => Str)},
      Named cat l m → (l.dlookup aliasName = some t ↔
        ∃ table, m.dlookup aliasName = some table ∧ cat.getTable table = .ok t) := by
    intro l m h
    induction h with
    | nil => simp
    | @cons scope name l m head tail ih =>
      obtain ⟨a, t'⟩ := scope
      obtain ⟨b, n⟩ := name
      obtain ⟨rfl, ht'⟩ := head
      by_cases own : aliasName = a
      · subst own
        rw [List.dlookup_cons_eq, List.dlookup_cons_eq]
        simp only [Option.some.injEq, exists_eq_left', ht', Except.ok.injEq]
      · rw [List.dlookup_cons_ne _ _ own, List.dlookup_cons_ne _ _ own, ih]
  exact step h

/-- The search for an unqualified name finds the one table that has it. -/
theorem resolveStep_loop {name : Str} {tables : List TableSchema} {found r : Option ColumnSchema} :
    tables.foldlM (resolveStep name) found = .ok r ↔
      (tables.filter (·.hasColumn name) = [] ∧ r = found) ∨
        found = none ∧ ∃ t c, tables.filter (·.hasColumn name) = [t] ∧ t.column name = .ok c ∧
          r = some c := by
  induction tables generalizing found with
  | nil => simp [eq_comm]
  | cons t tables ih =>
    rw [List.foldlM_cons, bind_ok_iff]
    cases has : t.hasColumn name with
    | false =>
      simp only [resolveStep, has, Bool.false_eq_true, if_false, pure_eq_ok, Except.ok.injEq,
        exists_eq_left', ih, List.filter_cons]
    | true =>
      obtain ⟨c, hc⟩ := TableSchema.hasColumn_iff.mp has
      cases found with
      | none =>
        simp only [resolveStep, has, if_true, Option.isSome_none, Bool.false_eq_true, if_false, hc,
          ok_bind, pure_eq_ok, Except.ok.injEq, exists_eq_left', ih, List.filter_cons]
        constructor
        · rintro (⟨none, rfl⟩ | ⟨absurd, _⟩)
          · exact Or.inr ⟨trivial, t, c, by rw [none], hc, rfl⟩
          · cases absurd
        · rintro (⟨absurd, _⟩ | ⟨_, t', c', only, hc', rfl⟩)
          · cases absurd
          · obtain ⟨rfl, none⟩ := List.cons.inj only
            cases hc.symm.trans hc'
            exact Or.inl ⟨none, rfl⟩
      | some d =>
        simp only [resolveStep, has, if_true, Option.isSome_some, throw_eq_error, error_bind,
          List.filter_cons]
        simp

theorem tableHas_iff {table name : Str} {t : TableSchema} (ht : cat.getTable table = .ok t) :
    TableHas cat table name ↔ t.hasColumn name = true := by
  simp [TableHas, ht]

theorem owners_named {l : List (Sigma fun _ : Str => TableSchema)}
    {m : List (Sigma fun _ : Str => Str)} (h : Named cat l m) (name : Str) :
    List.Forall₂ (fun (t : TableSchema) table => cat.getTable table = .ok t)
      ((l.map (·.2)).filter (·.hasColumn name))
      ((m.map (·.2)).filter fun table => decide (TableHas cat table name)) := by
  induction h with
  | nil => exact .nil
  | @cons scope own l m head _ ih =>
    have same : TableHas cat own.2 name ↔ scope.2.hasColumn name = true := tableHas_iff head.2
    by_cases has : scope.2.hasColumn name = true
    · simp only [List.map_cons, List.filter_cons, has, same, if_true, decide_true]
      exact .cons head.2 ih
    · simp only [List.map_cons, List.filter_cons, has, same, decide_false, Bool.false_eq_true,
        if_false]
      exact ih

/-- `analyze` finds a reference in the table of its binding. -/
theorem resolve_ok_iff (table : cat.getTable stmt.tableName = .ok schema)
    (scopesOk : scopesOf cat stmt schema = .ok scopes) {ref : Str} {c : ColumnSchema} :
    resolve scopes ref = .ok c ↔ ∃ name t, scopeBinding cat stmt ref = some name ∧
      cat.getTable name = .ok t ∧ t.column (bareName ref) = .ok c := by
  have named := named_scopes table scopesOk
  unfold resolve scopeBinding bareName
  cases hd : findDot ref with
  | some d =>
    simp only [Option.filter_eq_some_iff, decide_eq_true_eq]
    cases found : scopes.lookup (ref.take d) with
    | none =>
      simp only [throw_eq_error, reduceCtorEq, false_iff]
      rintro ⟨name, t, ⟨last, _⟩, ht, _⟩
      rw [(lookup_named named _).mpr ⟨name, last, ht⟩] at found
      cases found
    | some t =>
      obtain ⟨name, last, ht⟩ := (lookup_named named _).mp found
      simp only [throw_eq_error, guard_ok_iff, Bool.not_eq_true', Bool.not_eq_false]
      constructor
      · rintro ⟨has, hc⟩
        exact ⟨name, t, ⟨last, (tableHas_iff ht).mpr has⟩, ht, hc⟩
      · rintro ⟨name', t', ⟨last', has⟩, ht', hc⟩
        cases last.symm.trans last'
        cases ht.symm.trans ht'
        exact ⟨(tableHas_iff ht).mp has, hc⟩
  | none =>
    have owned := owners_named named ref
    simp only [bind_ok_iff, resolveStep_loop, true_and]
    change _ ↔ ∃ name t, (match owners cat stmt ref with
      | [table] => some table
      | _ => none) = some name ∧ _
    unfold owners
    generalize (scopes.entries.map (·.2)).filter (·.hasColumn ref) = having at owned ⊢
    generalize ((scopeNames stmt).entries.map (·.2)).filter
      (fun table => decide (TableHas cat table ref)) = tables at owned ⊢
    cases owned with
    | nil =>
      refine iff_of_false ?_ nofun
      rintro ⟨r, ⟨_, rfl⟩ | ⟨t, c, absurd, _⟩, h⟩
      · cases h
      · cases absurd
    | @cons t name having tables ht rest =>
      cases rest with
      | nil =>
        constructor
        · rintro ⟨r, ⟨absurd, _⟩ | ⟨t', c', only, hc, rfl⟩, h⟩
          · cases absurd
          · cases only
            cases h
            exact ⟨name, t, rfl, ht, hc⟩
        · rintro ⟨name', t', same, ht', hc⟩
          cases same
          cases ht.symm.trans ht'
          exact ⟨some c, Or.inr ⟨t, c, rfl, hc, rfl⟩, rfl⟩
      | cons =>
        refine iff_of_false ?_ nofun
        rintro ⟨r, ⟨absurd, _⟩ | ⟨t', c', absurd, _⟩, h⟩ <;> cases absurd

/-- `validateComparison` finds a reference in the table of its binding. -/
theorem resolveInComparison_ok_iff {ref : Str} {c : ColumnSchema} :
    resolveInComparison cat stmt ref = .ok c ↔ ∃ name t, whereBinding cat stmt ref = some name ∧
      cat.getTable name = .ok t ∧ t.column (bareName ref) = .ok c := by
  have found : ∀ {name col : Str}, (do
      let t ← cat.getTable name
      t.column col) = .ok c ↔ ∃ name' t, (some name).filter (fun table =>
        decide (TableHas cat table col)) = some name' ∧ cat.getTable name' = .ok t ∧
        t.column col = .ok c := by
    intro name col
    simp only [bind_ok_iff, Option.filter_eq_some_iff, decide_eq_true_eq, Option.some.injEq]
    constructor
    · rintro ⟨t, ht, hc⟩
      exact ⟨name, t, ⟨rfl, (tableHas_iff ht).mpr (TableSchema.hasColumn_iff.mpr ⟨c, hc⟩)⟩, ht, hc⟩
    · rintro ⟨_, t, ⟨rfl, _⟩, ht, hc⟩
      exact ⟨t, ht, hc⟩
  unfold resolveInComparison whereBinding firstTable bareName
  cases hd : findDot ref with
  | some d =>
    simp only
    by_cases own : ref.take d = stmt.tableAlias ∨ stmt.tableAlias = [] ∧ ref.take d = stmt.tableName
    · rw [if_pos own, if_pos own]
      exact found
    · rw [if_neg own, if_neg own]
      cases stmt.joins.find? fun join => ref.take d == join.rightTable.aliasName with
      | none => simp
      | some join => exact found
  | none =>
    simp only [bind_ok_iff, throw_eq_error, error_bind, guard_ok_iff, Bool.not_eq_true',
      Bool.not_eq_false, Option.ite_none_right_eq_some, Option.some.injEq]
    constructor
    · rintro ⟨t, ht, has, hc⟩
      exact ⟨stmt.tableName, t, ⟨(tableHas_iff ht).mpr has, rfl⟩, ht, hc⟩
    · rintro ⟨_, t, ⟨has, rfl⟩, ht, hc⟩
      exact ⟨t, ht, (tableHas_iff ht).mp has, hc⟩

theorem column_of_tableHas {table name : Str} (h : TableHas cat table name) :
    ∃ t c, cat.getTable table = .ok t ∧ t.column name = .ok c := by
  cases ht : cat.getTable table with
  | error e => simp [TableHas, ht] at h
  | ok t =>
    obtain ⟨c, hc⟩ := TableSchema.hasColumn_iff.mp ((tableHas_iff ht).mp h)
    exact ⟨t, c, rfl, hc⟩

theorem scopeBinding_has {ref table : Str} (bound : scopeBinding cat stmt ref = some table) :
    ∃ t c, cat.getTable table = .ok t ∧ t.column (bareName ref) = .ok c := by
  unfold scopeBinding at bound
  unfold bareName
  cases hd : findDot ref with
  | some d =>
    simp only [hd, Option.filter_eq_some_iff, decide_eq_true_eq] at bound
    exact column_of_tableHas bound.2
  | none =>
    simp only [hd] at bound
    cases own : owners cat stmt ref with
    | nil => simp [own] at bound
    | cons only rest =>
      cases rest with
      | cons => simp [own] at bound
      | nil =>
        rw [own] at bound
        cases bound
        have mem : table ∈ owners cat stmt ref := by simp [own]
        exact column_of_tableHas (by simpa using (List.mem_filter.mp mem).2)

theorem whereBinding_has {ref table : Str} (bound : whereBinding cat stmt ref = some table) :
    ∃ t c, cat.getTable table = .ok t ∧ t.column (bareName ref) = .ok c := by
  unfold whereBinding at bound
  unfold bareName
  cases hd : findDot ref with
  | some d =>
    simp only [hd, Option.filter_eq_some_iff, decide_eq_true_eq] at bound
    exact column_of_tableHas bound.2
  | none =>
    simp only [hd, Option.ite_none_right_eq_some, Option.some.injEq] at bound
    obtain ⟨has, rfl⟩ := bound
    exact column_of_tableHas has

/-- The tables of FROM and of the JOIN clauses. -/
def itemTables (stmt : SelectStatement) : List Str :=
  stmt.tableName :: stmt.joins.map fun join => join.rightTable.tableName

theorem joined_known (scopesOk : scopesOf cat stmt schema = .ok scopes) :
    ∀ join ∈ stmt.joins, ∃ t, cat.getTable join.rightTable.tableName = .ok t := by
  have loop : ∀ (joins : List JoinClause) (start : StringMap TableSchema),
      joins.foldlM (addJoinScope cat) start = .ok scopes →
      ∀ join ∈ joins, ∃ t, cat.getTable join.rightTable.tableName = .ok t := by
    intro joins
    induction joins with
    | nil => exact fun _ _ => nofun
    | cons join joins ih =>
      intro start run other mem
      rw [List.foldlM_cons] at run
      obtain ⟨next, step, rest⟩ := bind_ok_iff.mp run
      obtain ⟨t, ht, _⟩ := addJoinScope_ok step
      rcases List.mem_cons.mp mem with rfl | mem
      · exact ⟨t, ht⟩
      · exact ih next rest other mem
  exact loop stmt.joins _ scopesOk

/-- A bare operand of AND, OR and NOT is accepted when it is qualified or some table
has it. -/
theorem validateColumnRef_ok_iff (table : cat.getTable stmt.tableName = .ok schema)
    (scopesOk : scopesOf cat stmt schema = .ok scopes) {ref : Str} :
    validateColumnRef cat stmt ref = .ok () ↔
      findDot ref ≠ none ∨ ∃ name ∈ itemTables stmt, TableHas cat name ref := by
  have known := joined_known scopesOk
  have loop : ∀ (joins : List JoinClause) (start : Bool),
      (∀ join ∈ joins, ∃ t, cat.getTable join.rightTable.tableName = .ok t) →
      ∃ found, joins.foldlM (fun found join => do
        let t ← cat.getTable join.rightTable.tableName
        pure (found || t.hasColumn ref)) start = .ok found ∧
        (found = true ↔ start = true ∨
          ∃ join ∈ joins, TableHas cat join.rightTable.tableName ref) := by
    intro joins
    induction joins with
    | nil => exact fun start _ => ⟨start, rfl, by simp⟩
    | cons join joins ih =>
      intro start known
      obtain ⟨t, ht⟩ := known join List.mem_cons_self
      obtain ⟨found, run, same⟩ := ih (start || t.hasColumn ref)
        fun j mem => known j (List.mem_cons_of_mem join mem)
      refine ⟨found, ?_, ?_⟩
      · rw [List.foldlM_cons, ht, ok_bind, pure_eq_ok, ok_bind]
        exact run
      · rw [same, Bool.or_eq_true, ← tableHas_iff ht, or_assoc, List.exists_mem_cons_iff]
  obtain ⟨found, run, same⟩ := loop stmt.joins (schema.hasColumn ref) known
  rw [← tableHas_iff table] at same
  unfold validateColumnRef
  by_cases bare : findDot ref = none
  · simp only [pure_eq_ok] at run
    simp only [bare, if_true, table, ok_bind, run, throw_eq_error, pure_eq_ok, guard_ok_iff,
      Bool.not_eq_true', Bool.not_eq_false, and_true, same, itemTables, List.exists_mem_cons_iff,
      ne_eq, not_true_eq_false, false_or]
    simp
  · simp [bare]

variable (cat stmt scopes) in
/-- WHERE accepts a reference, as an operand of a comparison and by itself, when SELECT
does, and binds it to the same table and column. -/
structure ResolvedAlike (ref : Str) : Prop where
  single : validateColumnRef cat stmt ref = .ok () ↔ ∃ c, resolve scopes ref = .ok c
  operand : (∃ c, resolveInComparison cat stmt ref = .ok c) ↔ ∃ c, resolve scopes ref = .ok c
  same : ∀ c d, resolve scopes ref = .ok c → resolveInComparison cat stmt ref = .ok d →
    scopeBinding cat stmt ref = whereBinding cat stmt ref ∧ c = d

variable (cat stmt) in
/-- An unqualified name that no table has, or of the tables in the scopes the FROM table
only; a qualified one whose alias stands for one table, which has the column. -/
def OneMeaning (ref : Str) : Prop :=
  match findDot ref with
  | some d => ∃ table, firstTable stmt (ref.take d) = some table ∧
      lastTable stmt (ref.take d) = some table ∧ TableHas cat table (ref.drop (d + 1))
  | none => (∀ table ∈ itemTables stmt, ¬ TableHas cat table ref) ∨
      owners cat stmt ref = [stmt.tableName]

theorem scopeNames_subset {table : Str} (mem : table ∈ (scopeNames stmt).entries.map (·.2)) :
    table ∈ itemTables stmt := by
  have loop : ∀ (joins : List JoinClause) (start : StringMap Str) (table : Str),
      table ∈ (joins.foldl (fun names join =>
        names.insert join.rightTable.aliasName join.rightTable.tableName) start).entries.map (·.2) →
      table ∈ start.entries.map (·.2) ∨
        table ∈ joins.map fun join => join.rightTable.tableName := by
    intro joins
    induction joins with
    | nil => exact fun _ _ mem => Or.inl mem
    | cons join joins ih =>
      intro start table mem
      rw [List.map_cons, List.mem_cons]
      rcases ih _ table mem with mem | mem
      · rw [AList.entries_insert, List.map_cons, List.mem_cons] at mem
        rcases mem with rfl | mem
        · exact Or.inr (Or.inl rfl)
        · exact Or.inl (((List.kerase_sublist _ _).map _).subset mem)
      · exact Or.inr (Or.inr mem)
  rcases loop stmt.joins _ table mem with mem | mem
  · exact List.mem_cons.mpr (Or.inl (by simpa [AList.insert] using mem))
  · exact List.mem_cons_of_mem _ mem

/-- When SELECT accepts a reference its binding is a table that has the column. -/
theorem resolve_exists_iff (table : cat.getTable stmt.tableName = .ok schema)
    (scopesOk : scopesOf cat stmt schema = .ok scopes) {ref : Str} :
    (∃ c, resolve scopes ref = .ok c) ↔ ∃ name, scopeBinding cat stmt ref = some name := by
  simp only [resolve_ok_iff table scopesOk]
  constructor
  · rintro ⟨_, name, _, bound, _⟩
    exact ⟨name, bound⟩
  · rintro ⟨name, bound⟩
    obtain ⟨t, c, ht, hc⟩ := scopeBinding_has bound
    exact ⟨c, name, t, bound, ht, hc⟩

theorem resolveInComparison_exists_iff {ref : Str} :
    (∃ c, resolveInComparison cat stmt ref = .ok c) ↔
      ∃ name, whereBinding cat stmt ref = some name := by
  simp only [resolveInComparison_ok_iff]
  constructor
  · rintro ⟨_, name, _, bound, _⟩
    exact ⟨name, bound⟩
  · rintro ⟨name, bound⟩
    obtain ⟨t, c, ht, hc⟩ := whereBinding_has bound
    exact ⟨c, name, t, bound, ht, hc⟩

/-- The three resolvers in terms of the two bindings. -/
theorem resolvedAlike_iff (table : cat.getTable stmt.tableName = .ok schema)
    (scopesOk : scopesOf cat stmt schema = .ok scopes) {ref : Str} :
    ResolvedAlike cat stmt scopes ref ↔
      ((findDot ref ≠ none ∨ ∃ name ∈ itemTables stmt, TableHas cat name ref) ↔
        ∃ name, scopeBinding cat stmt ref = some name) ∧
      ((∃ name, whereBinding cat stmt ref = some name) ↔
        ∃ name, scopeBinding cat stmt ref = some name) ∧
      ∀ name other, scopeBinding cat stmt ref = some name → whereBinding cat stmt ref = some other →
        name = other := by
  constructor
  · rintro ⟨single, operand, same⟩
    rw [validateColumnRef_ok_iff table scopesOk, resolve_exists_iff table scopesOk] at single
    rw [resolveInComparison_exists_iff, resolve_exists_iff table scopesOk] at operand
    refine ⟨single, operand, fun name other hn ho => ?_⟩
    obtain ⟨c, hc⟩ := (resolve_exists_iff table scopesOk).mpr ⟨name, hn⟩
    obtain ⟨d, hd⟩ := resolveInComparison_exists_iff.mpr ⟨other, ho⟩
    have bound := (same c d hc hd).1
    rw [hn, ho] at bound
    exact Option.some.inj bound
  · rintro ⟨single, operand, same⟩
    constructor
    · rw [validateColumnRef_ok_iff table scopesOk, resolve_exists_iff table scopesOk]
      exact single
    · rw [resolveInComparison_exists_iff, resolve_exists_iff table scopesOk]
      exact operand
    · intro c d hc hd
      obtain ⟨name, t, hn, ht, hc⟩ := (resolve_ok_iff table scopesOk).mp hc
      obtain ⟨other, t', ho, ht', hd⟩ := resolveInComparison_ok_iff.mp hd
      cases same name other hn ho
      cases ht.symm.trans ht'
      cases hc.symm.trans hd
      exact ⟨hn.trans ho.symm, rfl⟩

theorem alike_of_bare {ref : Str} (bare : findDot ref = none) :
    (((∃ name ∈ itemTables stmt, TableHas cat name ref) ↔
        ∃ name, scopeBinding cat stmt ref = some name) ∧
      ((∃ name, whereBinding cat stmt ref = some name) ↔
        ∃ name, scopeBinding cat stmt ref = some name) ∧
      ∀ name other, scopeBinding cat stmt ref = some name → whereBinding cat stmt ref = some other →
        name = other) ↔
      (∀ name ∈ itemTables stmt, ¬ TableHas cat name ref) ∨
        owners cat stmt ref = [stmt.tableName] := by
  have inWhere : ∀ name, whereBinding cat stmt ref = some name ↔
      TableHas cat stmt.tableName ref ∧ stmt.tableName = name := by
    intro name
    simp only [whereBinding, bare, Option.ite_none_right_eq_some, Option.some.injEq]
  have inScope : ∀ name, scopeBinding cat stmt ref = some name ↔ owners cat stmt ref = [name] := by
    intro name
    simp only [scopeBinding, bare]
    cases owners cat stmt ref with
    | nil => simp
    | cons t rest => cases rest <;> simp
  have owned : ∀ name ∈ owners cat stmt ref, name ∈ itemTables stmt ∧ TableHas cat name ref := by
    intro name mem
    obtain ⟨mem, has⟩ := List.mem_filter.mp mem
    exact ⟨scopeNames_subset mem, by simpa using has⟩
  simp only [inWhere, inScope]
  constructor
  · rintro ⟨single, operand, same⟩
    by_cases some : ∃ name ∈ itemTables stmt, TableHas cat name ref
    · obtain ⟨name, only⟩ := single.mp some
      obtain ⟨other, has, rfl⟩ := operand.mpr ⟨name, only⟩
      rw [same name _ only ⟨has, rfl⟩] at only
      exact Or.inr only
    · exact Or.inl fun name mem has => some ⟨name, mem, has⟩
  · rintro (none | only)
    · have unowned : ∀ name, owners cat stmt ref ≠ [name] := by
        intro name only
        obtain ⟨mem, has⟩ := owned name (by simp [only])
        exact none name mem has
      refine ⟨iff_of_false ?_ ?_, iff_of_false ?_ ?_, fun name _ h _ => absurd h (unowned name)⟩
      · exact fun ⟨name, mem, has⟩ => none name mem has
      · exact fun ⟨name, only⟩ => unowned name only
      · exact fun ⟨_, has, _⟩ => none _ List.mem_cons_self has
      · exact fun ⟨name, only⟩ => unowned name only
    · obtain ⟨mem, has⟩ := owned stmt.tableName (by simp [only])
      refine ⟨iff_of_true ⟨_, mem, has⟩ ⟨_, only⟩, iff_of_true ⟨_, has, rfl⟩ ⟨_, only⟩, ?_⟩
      rintro name other single ⟨_, rfl⟩
      cases only.symm.trans single
      rfl

theorem alike_of_qualified {ref : Str} {d : Nat} (qualified : findDot ref = some d) :
    ((∃ name, scopeBinding cat stmt ref = some name) ∧
      ((∃ name, whereBinding cat stmt ref = some name) ↔
        ∃ name, scopeBinding cat stmt ref = some name) ∧
      ∀ name other, scopeBinding cat stmt ref = some name → whereBinding cat stmt ref = some other →
        name = other) ↔
      ∃ table, firstTable stmt (ref.take d) = some table ∧
        lastTable stmt (ref.take d) = some table ∧ TableHas cat table (ref.drop (d + 1)) := by
  simp only [scopeBinding, whereBinding, qualified, Option.filter_eq_some_iff, decide_eq_true_eq]
  constructor
  · rintro ⟨⟨name, last, has⟩, operand, same⟩
    obtain ⟨other, first, has'⟩ := operand.mpr ⟨name, last, has⟩
    cases same name other ⟨last, has⟩ ⟨first, has'⟩
    exact ⟨name, first, last, has⟩
  · rintro ⟨table, first, last, has⟩
    refine ⟨⟨table, last, has⟩, iff_of_true ⟨table, first, has⟩ ⟨table, last, has⟩, ?_⟩
    rintro name other ⟨last', _⟩ ⟨first', _⟩
    cases last.symm.trans last'
    cases first.symm.trans first'
    rfl

variable (cat stmt) in
/-- WHERE resolves a reference as SELECT, ORDER BY and ON do just when it has one
meaning. -/
theorem resolved_alike_iff_oneMeaning (table : cat.getTable stmt.tableName = .ok schema)
    (scopesOk : scopesOf cat stmt schema = .ok scopes) (ref : Str) :
    ResolvedAlike cat stmt scopes ref ↔ OneMeaning cat stmt ref := by
  rw [resolvedAlike_iff table scopesOk]
  unfold OneMeaning
  cases hd : findDot ref with
  | none =>
    rw [← alike_of_bare hd]
    simp only [ne_eq, not_true_eq_false, false_or]
  | some d =>
    simp only [ne_eq, reduceCtorEq, not_false_eq_true, true_or, true_iff]
    exact alike_of_qualified hd

end Scopes

theorem qualified_age_resolved_alike :
    ∃ schema scopes, makeEmployeesCatalog.getTable (str "employees") = .ok schema ∧
      scopesOf makeEmployeesCatalog (employeesJoin [str "e.age"] none) schema = .ok scopes ∧
      ResolvedAlike makeEmployeesCatalog (employeesJoin [str "e.age"] none) scopes
        (str "e.age") := by
  refine ⟨_, _, rfl, rfl, (resolved_alike_iff_oneMeaning makeEmployeesCatalog
    (employeesJoin [str "e.age"] none) rfl rfl (str "e.age")).mpr ?_⟩
  exact ⟨str "employees", rfl, rfl, by decide⟩

/-- Both tables have a column `id`. -/
def ambiguousFilter : Str :=
  str "SELECT e.age FROM employees e JOIN departments d ON e.department_id = d.id WHERE id = 1"

/-- The filter is on the column of `employees`, but the same name is no column of the
SELECT list. -/
theorem ambiguous_name_filters :
    ¬ ∀ (cat : Catalog) (sql : Str) (stmt : SelectStatement) (schema : TableSchema)
      (scopes : StringMap TableSchema), SQLParser.parse sql = .ok stmt →
      analyze cat stmt = .ok schema → scopesOf cat stmt schema = .ok scopes →
      ∀ ref : Str, ResolvedAlike cat stmt scopes ref := by
  intro all
  have alike := all makeEmployeesCatalog ambiguousFilter (employeesJoin [str "e.age"]
    (some (.comparison .Equal (.columnRef (str "id")) (.intLiteral 1)))) _ _ (by decide +kernel) rfl
    rfl (str "id")
  obtain ⟨c, absurd⟩ := alike.operand.mp ⟨_, rfl⟩
  cases absurd

end FheSql.NameResolution
