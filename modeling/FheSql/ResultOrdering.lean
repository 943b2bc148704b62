import FheSql.DecodedRows
import FheSql.Lib.StableSort
import FheSql.PlanCoverage

/-!
# The order of a result

What `applySortAndLimit` makes of the decoded rows. On rows that have every sort
key its comparator is the lexicographic order of the keys; a key that is not among
a row's integers is passed over.
-/

namespace FheSql.ResultOrdering

open ByteText Throwing ResultDecoder StableSort SqlSemantics DecodedRows

/-- The integer a row has for a sort column. -/
def keyOf (o : OrderByColumn) (r : ResultRow) : Int := (r.values.lookup o.columnName).getD 0

/-- A row that has an integer for every sort column. -/
def Keyed (orderBy : List OrderByColumn) (r : ResultRow) : Prop :=
  ∀ o ∈ orderBy, ∃ v, r.values.lookup o.columnName = some v

/-- The order of a column: descending, the larger key stands first. -/
def inDirection (direction : SortDirection) (x y : Int) : Prop :=
  match direction with
  | .Ascending => x < y
  | .Descending => y < x

/-- Two rows differ in a key, and by the first such key `a` stands before `b`. -/
def Precedes (orderBy : List OrderByColumn) (a b : ResultRow) : Prop :=
  ∃ earlier o later, orderBy = earlier ++ o :: later ∧
    (∀ k ∈ earlier, keyOf k a = keyOf k b) ∧ inDirection o.direction (keyOf o a) (keyOf o b)

theorem Keyed.tail {o : OrderByColumn} {rest : List OrderByColumn} {r : ResultRow}
    (h : Keyed (o :: rest) r) : Keyed rest r := fun k mem => h k (List.mem_cons_of_mem o mem)

theorem inDirection_ne {direction : SortDirection} {x y : Int} (h : inDirection direction x y) :
    x ≠ y := by
  cases direction with
  | Ascending => exact Int.ne_of_lt h
  | Descending => exact (Int.ne_of_lt h).symm

theorem inDirection_trans {direction : SortDirection} {x y z : Int}
    (h : inDirection direction x y) (h' : inDirection direction y z) :
    inDirection direction x z := by
  cases direction with
  | Ascending => exact Int.lt_trans h h'
  | Descending => exact Int.lt_trans h' h

/-- One turn of the comparator's loop. -/
theorem comesBefore_cons {o : OrderByColumn} {rest : List OrderByColumn} {a b : ResultRow}
    (ha : Keyed (o :: rest) a) (hb : Keyed (o :: rest) b) :
    comesBefore a b (o :: rest) = true ↔
      inDirection o.direction (keyOf o a) (keyOf o b) ∨
        keyOf o a = keyOf o b ∧ comesBefore a b rest = true := by
  obtain ⟨x, hx⟩ := ha o List.mem_cons_self
  obtain ⟨y, hy⟩ := hb o List.mem_cons_self
  have keyA : keyOf o a = x := by rw [keyOf, hx, Option.getD_some]
  have keyB : keyOf o b = y := by rw [keyOf, hy, Option.getD_some]
  simp only [comesBefore, hx, hy, keyA, keyB]
  by_cases same : x = y
  · simp only [same, ne_eq, not_true_eq_false, if_false, true_and]
    exact (or_iff_right fun h => inDirection_ne h rfl).symm
  · cases hd : o.direction <;> simp [same, inDirection]

theorem comesBefore_iff {orderBy : List OrderByColumn} {a b : ResultRow} (ha : Keyed orderBy a)
    (hb : Keyed orderBy b) : comesBefore a b orderBy = true ↔ Precedes orderBy a b := by
  induction orderBy with
  | nil =>
    refine iff_of_false Bool.false_ne_true ?_
    rintro ⟨earlier, o, later, split, _⟩
    cases earlier <;> cases split
  | cons o rest ih =>
    rw [comesBefore_cons ha hb, ih ha.tail hb.tail]
    constructor
    · rintro (first | ⟨same, earlier, k, later, rfl, equal, differs⟩)
      · exact ⟨[], o, rest, rfl, nofun, first⟩
      · refine ⟨o :: earlier, k, later, rfl, fun c mem => ?_, differs⟩
        rcases List.mem_cons.mp mem with rfl | mem
        · exact same
        · exact equal c mem
    · rintro ⟨earlier, k, later, split, equal, differs⟩
      cases earlier with
      | nil =>
        cases split
        exact Or.inl differs
      | cons c earlier =>
        cases split
        exact Or.inr ⟨equal o List.mem_cons_self, earlier, k, later, rfl,
          fun c mem => equal c (List.mem_cons_of_mem o mem), differs⟩

/-- Rows are tied when they have the same keys. -/
theorem tied_iff_keys {orderBy : List OrderByColumn} {a b : ResultRow} (ha : Keyed orderBy a)
    (hb : Keyed orderBy b) : tied (comesBefore · · orderBy) a b = true ↔
      ∀ o ∈ orderBy, keyOf o a = keyOf o b := by
  induction orderBy with
  | nil => simp [tied, comesBefore]
  | cons o rest ih =>
    have rest := ih ha.tail hb.tail
    simp only [tied_iff, ← Bool.not_eq_true] at rest ⊢
    rw [comesBefore_cons ha hb, comesBefore_cons hb ha, List.forall_mem_cons, ← rest]
    constructor
    · rintro ⟨notBefore, notAfter⟩
      have same : keyOf o a = keyOf o b := by
        by_contra differ
        rcases Int.lt_or_gt_of_ne differ with less | more
        · cases hd : o.direction
          · exact notBefore (Or.inl (by rw [hd]; exact less))
          · exact notAfter (Or.inl (by rw [hd]; exact less))
        · cases hd : o.direction
          · exact notAfter (Or.inl (by rw [hd]; exact more))
          · exact notBefore (Or.inl (by rw [hd]; exact more))
      exact ⟨same, fun h => notBefore (Or.inr ⟨same, h⟩), fun h => notAfter (Or.inr ⟨same.symm, h⟩)⟩
    · rintro ⟨same, notBefore, notAfter⟩
      constructor
      · rintro (h | h)
        · exact inDirection_ne h same
        · exact notBefore h.2
      · rintro (h | h)
        · exact inDirection_ne h same.symm
        · exact notAfter h.2

/-- The comparator is transitive on rows that have every key. -/
theorem comesBefore_trans {orderBy : List OrderByColumn} {a b c : ResultRow}
    (ha : Keyed orderBy a) (hb : Keyed orderBy b) (hc : Keyed orderBy c)
    (hab : comesBefore a b orderBy = true) (hbc : comesBefore b c orderBy = true) :
    comesBefore a c orderBy = true := by
  induction orderBy with
  | nil => exact hab
  | cons o rest ih =>
    rw [comesBefore_cons ha hb] at hab
    rw [comesBefore_cons hb hc] at hbc
    rw [comesBefore_cons ha hc]
    rcases hab with hab | ⟨sameAB, hab⟩
    · rcases hbc with hbc | ⟨sameBC, _⟩
      · exact Or.inl (inDirection_trans hab hbc)
      · exact Or.inl (sameBC ▸ hab)
    · rcases hbc with hbc | ⟨sameBC, hbc⟩
      · exact Or.inl (sameAB ▸ hbc)
      · exact Or.inr ⟨sameAB.trans sameBC, ih ha.tail hb.tail hc.tail hab hbc⟩

theorem strictWeakOrder (orderBy : List OrderByColumn) :
    StrictWeakOrder (Keyed orderBy) (comesBefore · · orderBy) where
  irrefl a ha := by
    have tie := (tied_iff_keys ha ha).mpr fun o _ => rfl
    exact (tied_iff.mp tie).1
  trans a b c ha hb hc := comesBefore_trans ha hb hc
  ties a b c ha hb hc hab hbc := by
    rw [tied_iff_keys ha hb] at hab
    rw [tied_iff_keys hb hc] at hbc
    exact (tied_iff_keys ha hc).mpr fun o mem => (hab o mem).trans (hbc o mem)

/-- A permutation of the rows in which no row precedes an earlier one, rows with equal
keys standing as they did. -/
structure SortedByKeys (orderBy : List OrderByColumn) (rows sorted : List ResultRow) : Prop where
  perm : sorted.Perm rows
  ordered : sorted.Pairwise fun a b => ¬ Precedes orderBy b a
  stable : ∀ a ∈ rows, ∀ same : ResultRow → Bool,
    (∀ b, same b = true ↔ ∀ o ∈ orderBy, keyOf o a = keyOf o b) →
      sorted.filter same = rows.filter same

theorem sortedByKeys_iff {orderBy : List OrderByColumn} {rows sorted : List ResultRow}
    (keyed : ∀ r ∈ rows, Keyed orderBy r) :
    SortedByKeys orderBy rows sorted ↔ IsStableSort (comesBefore · · orderBy) rows sorted := by
  have agree : ∀ {l : List ResultRow}, l.Perm rows → ∀ a ∈ rows, ∀ same : ResultRow → Bool,
      (∀ b, same b = true ↔ ∀ o ∈ orderBy, keyOf o a = keyOf o b) →
        l.filter same = l.filter (tied (comesBefore · · orderBy) a) := by
    intro l perm a ha same h
    refine List.filter_congr fun b hb => ?_
    rw [Bool.eq_iff_iff, h, tied_iff_keys (keyed a ha) (keyed b (perm.mem_iff.mp hb))]
  constructor
  · rintro ⟨perm, ordered, stable⟩
    refine ⟨perm, ordered.imp_of_mem fun {a b} ha hb h => ?_, fun a ha => ?_⟩
    · have keyA := keyed a (perm.mem_iff.mp ha)
      have keyB := keyed b (perm.mem_iff.mp hb)
      rwa [← Bool.not_eq_true, comesBefore_iff keyB keyA]
    · have classes := stable a ha (fun b => decide (∀ o ∈ orderBy, keyOf o a = keyOf o b))
        fun b => decide_eq_true_iff
      rwa [agree perm a ha _ fun b => decide_eq_true_iff,
        agree (.refl rows) a ha _ fun b => decide_eq_true_iff] at classes
  · rintro ⟨perm, ordered, stable⟩
    refine ⟨perm, ordered.imp_of_mem fun {a b} ha hb h => ?_, fun a ha same h => ?_⟩
    · have keyA := keyed a (perm.mem_iff.mp ha)
      have keyB := keyed b (perm.mem_iff.mp hb)
      rwa [← comesBefore_iff keyB keyA, Bool.not_eq_true]
    · rw [agree perm a ha same h, agree (.refl rows) a ha same h]
      exact stable a ha

/-- On rows that have every sort key the comparator is a strict weak order, and the
result is the beginning of the one stable sort of the rows by their keys. -/
theorem applySortAndLimit_correct (rows : List ResultRow) (orderBy : List OrderByColumn)
    (limit : Int) (keyed : ∀ r ∈ rows, Keyed orderBy r) :
    StrictWeakOrder (· ∈ rows) (comesBefore · · orderBy) ∧
    (∃! sorted, SortedByKeys orderBy rows sorted) ∧
    ∀ sorted, SortedByKeys orderBy rows sorted →
      applySortAndLimit rows orderBy limit =
        sorted.take (if limit < 0 then rows.length else min limit.toNat rows.length) ∧
      (orderBy = [] → sorted = rows) := by
  have order := (strictWeakOrder orderBy).mono keyed
  have self : ∀ r ∈ rows, comesBefore r r orderBy = false := order.irrefl
  have merged : SortedByKeys orderBy rows (rows.mergeSort fun a b => !comesBefore b a orderBy) :=
    (sortedByKeys_iff keyed).mpr (isStableSort_mergeSort order fun a mem => mem)
  have unique : ∀ {s t}, SortedByKeys orderBy rows s → SortedByKeys orderBy rows t → s = t :=
    fun hs ht => isStableSort_unique self ((sortedByKeys_iff keyed).mp hs)
      ((sortedByKeys_iff keyed).mp ht)
  have unsorted : orderBy = [] → SortedByKeys orderBy rows rows := by
    rintro rfl
    exact (sortedByKeys_iff keyed).mpr (isStableSort_self fun _ _ => rfl)
  refine ⟨order, ⟨_, merged, fun s hs => unique hs merged⟩, fun s hs => ⟨?_, fun empty =>
    unique hs (unsorted empty)⟩⟩
  have whole : (if orderBy = [] then rows
      else rows.mergeSort fun a b => !comesBefore b a orderBy) = s := by
    by_cases empty : orderBy = []
    · rw [if_pos empty, unique hs (unsorted empty)]
    · rw [if_neg empty, unique hs merged]
  have length : s.length = rows.length := hs.perm.length_eq
  simp only [applySortAndLimit, whole]
  by_cases negative : limit < 0
  · rw [if_neg (by omega), if_pos negative, ← length, List.take_length]
  · rw [if_neg negative, ← length]
    by_cases less : limit.toNat < s.length
    · rw [if_pos ⟨by omega, less⟩, Nat.min_eq_left (by omega)]
    · rw [if_neg fun h => less h.2, Nat.min_eq_right (by omega), List.take_length]

/-- Employees sorted by age, the oldest first, and by id. -/
def byAgeAndId : List OrderByColumn :=
  [{ columnName := str "age", direction := .Descending }, { columnName := str "id" }]

def employee (id age : Int) : ResultRow where
  values := ((∅ : StringMap Int).insert (str "id") id).insert (str "age") age

theorem two_oldest : ∃ sorted,
    SortedByKeys byAgeAndId [employee 3 40, employee 1 50, employee 2 50] sorted ∧
    applySortAndLimit [employee 3 40, employee 1 50, employee 2 50] byAgeAndId 2 =
      sorted.take 2 := by
  obtain ⟨_, ⟨sorted, here, _⟩, all⟩ := applySortAndLimit_correct
    [employee 3 40, employee 1 50, employee 2 50] byAgeAndId 2 (by
      intro r mem o key
      simp only [List.mem_cons, List.not_mem_nil, or_false, byAgeAndId] at mem key
      rcases mem with rfl | rfl | rfl <;> rcases key with rfl | rfl <;> exact ⟨_, rfl⟩)
  exact ⟨sorted, here, (all sorted here).1⟩

section Honoured

open SemanticAnalyzer AnalyzedStatement

variable {cat : Catalog} {stmt : SelectStatement} {schema : TableSchema}

/-- The order in which two values stand: integers by size, strings byte by byte. -/
def valueBefore : Value → Value → Prop
  | .int x, .int y => x < y
  | .string s, .string t => s < t
  | _, _ => False

/-- The order of an ORDER BY clause on what two rows show. -/
def OrderedBefore (orderBy : List OrderByColumn) (a b : ResultRow) : Prop :=
  ∃ earlier o later, orderBy = earlier ++ o :: later ∧
    (∀ k ∈ earlier, a.value? k.columnName = b.value? k.columnName) ∧
    ∃ x y, a.value? o.columnName = some x ∧ b.value? o.columnName = some y ∧
      match o.direction with
      | .Ascending => valueBefore x y
      | .Descending => valueBefore y x

/-- A row in the shape of the decoder's: the strings of the projected columns apart
from the integers. -/
structure Shaped (schema : TableSchema) (names : List Str) (r : ResultRow) : Prop where
  values : ∀ name, (∃ n, r.values.lookup name = some n) ↔
    name ∈ names ∧ ∃ c, schema.column name = .ok c ∧ c.type ≠ .STRING
  stringValues : ∀ name, (∃ s, r.stringValues.lookup name = some s) ↔
    name ∈ names ∧ ∃ c, schema.column name = .ok c ∧ c.type = .STRING

variable (schema stmt) in
/-- Rows of the projected columns come out in the order of the ORDER BY clause, and
the comparator finds each of its columns. -/
def Honours : Prop :=
  ∀ rows, (∀ r ∈ rows, Shaped schema (LogicalPlanner.projectColumns stmt schema) r) →
    (∀ r ∈ rows, Keyed stmt.orderByColumns r) ∧
    (applySortAndLimit rows stmt.orderByColumns stmt.limitCount).Pairwise
      fun a b => ¬ OrderedBefore stmt.orderByColumns b a

theorem orderedBefore_of_keyed {orderBy : List OrderByColumn} {a b : ResultRow}
    (ha : Keyed orderBy a) (hb : Keyed orderBy b) (h : OrderedBefore orderBy a b) :
    Precedes orderBy a b := by
  have shown : ∀ {r : ResultRow} {o}, o ∈ orderBy → Keyed orderBy r →
      r.value? o.columnName = some (.int (keyOf o r)) := by
    intro r o mem keyed
    obtain ⟨v, hv⟩ := keyed o mem
    simp only [ResultRow.value?, keyOf, hv, Option.getD_some]
  obtain ⟨earlier, o, later, rfl, equal, x, y, hx, hy, before⟩ := h
  refine ⟨earlier, o, later, rfl, fun k mem => ?_, ?_⟩
  · have same := equal k mem
    rw [shown (List.mem_append_left _ mem) ha, shown (List.mem_append_left _ mem) hb] at same
    simpa using same
  · have own : o ∈ earlier ++ o :: later := List.mem_append_right _ List.mem_cons_self
    rw [shown own ha] at hx
    rw [shown own hb] at hy
    cases hx
    cases hy
    cases hd : o.direction <;> rw [hd] at before <;> exact before

/-- A map with one value for some names. -/
def constant {V : Type} (v : V) (names : List Str) : StringMap V :=
  names.foldr (fun name m => m.insert name v) ∅

theorem lookup_constant {V : Type} (v : V) (names : List Str) (name : Str) :
    (∃ w, (constant v names).lookup name = some w) ↔ name ∈ names := by
  induction names with
  | nil => simp [constant]
  | cons own rest ih =>
    by_cases same : name = own
    · subst same
      simp [constant]
    · have skip : (constant v (own :: rest)).lookup name = (constant v rest).lookup name :=
        AList.lookup_insert_ne same
      rw [skip, ih, List.mem_cons]
      exact (or_iff_right same).symm

open Classical in
theorem exists_shaped (schema : TableSchema) (names : List Str) : ∃ r, Shaped schema names r := by
  refine ⟨{ values := constant 0 (names.filter fun name =>
        ∃ c, schema.column name = .ok c ∧ c.type ≠ .STRING)
            stringValues := constant [] (names.filter fun name =>
        ∃ c, schema.column name = .ok c ∧ c.type = .STRING) }, ?_, ?_⟩ <;>
  · intro name
    rw [lookup_constant, List.mem_filter]
    simp

/-- The columns of an ORDER BY clause are projected and belong to the table. -/
theorem orderBy_projected {scopes : StringMap TableSchema}
    (analyzed : Analyzed cat stmt schema scopes) (single : stmt.joins = [])
    (plain : ∀ o ∈ stmt.orderByColumns, dot ∉ o.columnName) {o : OrderByColumn}
    (mem : o ∈ stmt.orderByColumns) :
    o.columnName ∈ LogicalPlanner.projectColumns stmt schema ∧
      ∃ c, schema.column o.columnName = .ok c := by
  obtain ⟨c, hc⟩ := analyzed.orderBy o mem
  exact ⟨StatementPlan.mem_foldl_pushUnique.mpr (Or.inr (List.mem_map_of_mem mem)), c,
    resolve_single analyzed single (plain o mem) hc⟩

/-- ORDER BY is honoured exactly when none of its columns is a STRING. -/
theorem honours_iff (accepted : analyze cat stmt = .ok schema) (single : stmt.joins = [])
    (plain : ∀ o ∈ stmt.orderByColumns, dot ∉ o.columnName) :
    Honours stmt schema ↔ ∀ o ∈ stmt.orderByColumns, ∀ c,
      schema.column o.columnName = .ok c → c.type ≠ .STRING := by
  obtain ⟨scopes, analyzed⟩ := analyze_ok_iff.mp accepted
  constructor
  · intro honours o mem c hc string
    obtain ⟨r, shaped⟩ := exists_shaped schema (LogicalPlanner.projectColumns stmt schema)
    obtain ⟨found, _⟩ := honours [r] fun s hs => List.mem_singleton.mp hs ▸ shaped
    obtain ⟨_, d, hd, other⟩ := (shaped.values o.columnName).mp
      (found r List.mem_cons_self o mem)
    cases hc.symm.trans hd
    exact other string
  · intro ints rows shaped
    have keyed : ∀ r ∈ rows, Keyed stmt.orderByColumns r := by
      intro r mem o key
      obtain ⟨projected, c, hc⟩ := orderBy_projected analyzed single plain key
      exact ((shaped r mem).values o.columnName).mpr ⟨projected, c, hc, ints o key c hc⟩
    refine ⟨keyed, ?_⟩
    obtain ⟨_, ⟨sorted, here, _⟩, all⟩ :=
      applySortAndLimit_correct rows stmt.orderByColumns stmt.limitCount keyed
    rw [(all sorted here).1]
    refine List.Pairwise.sublist (List.take_sublist _ _) ?_
    refine here.ordered.imp_of_mem fun {a b} ha hb h before => h ?_
    exact orderedBefore_of_keyed (keyed b (here.perm.mem_iff.mp hb))
      (keyed a (here.perm.mem_iff.mp ha)) before

theorem employees_by_id_honoured : ∃ schema,
    analyze makeEmployeesCatalog { tableName := str "employees", orderByColumns := byAgeAndId } =
      .ok schema ∧
    Honours { tableName := str "employees", orderByColumns := byAgeAndId } schema := by
  obtain ⟨schema, accepted⟩ : ∃ schema, analyze makeEmployeesCatalog
      { tableName := str "employees", orderByColumns := byAgeAndId } = .ok schema := ⟨_, rfl⟩
  refine ⟨schema, accepted, (honours_iff accepted rfl (by decide +kernel)).mpr ?_⟩
  cases accepted
  intro o mem c hc
  simp only [List.mem_cons, List.not_mem_nil, or_false, byAgeAndId] at mem
  rcases mem with rfl | rfl <;> cases hc <;> exact nofun

/-- Two names out of order. -/
def named (s : Str) : ResultRow where
  stringValues := (∅ : StringMap Str).insert (str "name") s

def selectNamesByName : SelectStatement where
  projections := [str "name"]
  tableName := str "employees"
  tableAlias := str "employees"
  orderByColumns := [{ columnName := str "name" }]

theorem projected_names (schema : TableSchema) :
    LogicalPlanner.projectColumns selectNamesByName schema = [str "name"] := rfl

theorem shaped_named (s : Str) {schema : TableSchema}
    (h : analyze makeEmployeesCatalog selectNamesByName = .ok schema) :
    Shaped schema (LogicalPlanner.projectColumns selectNamesByName schema) (named s) := by
  rw [projected_names]
  cases h
  constructor
  · intro name
    constructor
    · rintro ⟨n, found⟩
      cases found
    · rintro ⟨mem, c, hc, other⟩
      obtain rfl := List.mem_singleton.mp mem
      cases hc
      exact (other rfl).elim
  · intro name
    constructor
    · rintro ⟨t, found⟩
      by_cases own : name = str "name"
      · subst own
        exact ⟨List.mem_cons_self, _, rfl, rfl⟩
      · rw [named, AList.lookup_insert_ne own] at found
        cases found
    · rintro ⟨mem, _⟩
      obtain rfl := List.mem_singleton.mp mem
      exact ⟨s, AList.lookup_insert _⟩

/-- A query by name shows its rows as they are stored. -/
theorem string_key_is_skipped :
    ¬ ∀ (cat : Catalog) (sql : Str) (stmt : SelectStatement) (schema : TableSchema),
      SQLParser.parse sql = .ok stmt → analyze cat stmt = .ok schema → stmt.joins = [] →
      (∀ o ∈ stmt.orderByColumns, dot ∉ o.columnName) →
      ∀ rows, (∀ r ∈ rows, Shaped schema (LogicalPlanner.projectColumns stmt schema) r) →
        (applySortAndLimit rows stmt.orderByColumns stmt.limitCount).Pairwise
          fun a b => ¬ OrderedBefore stmt.orderByColumns b a := by
  intro all
  have ordered := all makeEmployeesCatalog (str "SELECT name FROM employees ORDER BY name")
    selectNamesByName _ (by decide +kernel) rfl rfl (by decide +kernel)
    [named (str "b"), named (str "a")] (by
      intro r mem
      simp only [List.mem_cons, List.not_mem_nil, or_false] at mem
      rcases mem with rfl | rfl <;> exact shaped_named _ rfl)
  have kept : applySortAndLimit [named (str "b"), named (str "a")]
      selectNamesByName.orderByColumns selectNamesByName.limitCount =
        [named (str "b"), named (str "a")] := by
    unfold applySortAndLimit
    rw [List.mergeSort_of_pairwise (by decide)]
    rfl
  rw [kept, List.pairwise_pair] at ordered
  refine ordered ⟨[], _, [], rfl, nofun, .string (str "a"), .string (str "b"), rfl, rfl, ?_⟩
  change str "a" < str "b"
  decide

end Honoured

end FheSql.ResultOrdering
