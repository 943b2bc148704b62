import FheSql.JoinLoop
import FheSql.PlainProto1
import FheSql.ValidatedPredicates

/-!
# The hoisted WHERE of a join

When no ColumnRef node names a column under the joined alias, `execute`
evaluates the WHERE once for each left row, on a batch without the joined table.
That is the WHERE of every pair as long as the predicate reads no column of the
joined table. A string node could read one; the validator looks its column up in
the FROM table, which has no name with an alias in front.
-/

namespace FheSql.HoistedWhere

open ByteText Throwing QueryExecutor PredicateExpression ValidatedPackage ValidatedPredicates
open JoinLoop

section Statements

variable (P : Proto1) (cat : Catalog) (pkg : QueryPackage)

/-- The evaluator looks only at the columns an expression names. -/
def LocalEvaluate : Prop :=
  ∀ (e : Expression P.EncryptedVector) (batch batch' : EncryptedBatch P.EncryptedVector),
    batch.logicalRowCount = batch'.logicalRowCount →
    batch.selectionMask = batch'.selectionMask →
    (∀ name ∈ e.columns, batch.columns.lookup name = batch'.columns.lookup name) →
    P.evaluate e batch = P.evaluate e batch'

/-- The columns of a batch that a node reads. -/
def Reads (node : PredNode) (name : Str) : Prop :=
  (node.kind = .ColumnRef ∧ name = node.columnName) ∨
    ((node.kind = .StringEqual ∨ node.kind = .StringNotEqual) ∧
      ∃ position < node.stringWidth.toNat, name = P.stringPhysicalColumn node.columnName position)

/-- The names under which the joined table stands in the batch of a pair. -/
def OfJoinedTable (name : Str) : Prop :=
  ∃ t, cat.getTable pkg.joinedTableName = .ok t ∧ ∃ c ∈ t.columns,
    ∃ physical ∈ physicalColumns P c c.name, name = qualified pkg.joinedTableAlias physical

/-- The WHERE is evaluated on the batch of the left row alone. -/
def Hoisted : Prop := pkg.predicateNodes ≠ [] ∧ whereUsesJoinedTable pkg = false

/-- The batch of a pair is masked by its join equality times the WHERE evaluated
on the whole pair. -/
def MaskedByPair (storage : EncryptedStorage (Except Exn) P.EncryptedVector)
    (e : Expression P.EncryptedVector) (pair : ChunkMeta × ChunkMeta)
    (rb : EncryptedResultBatch) : Prop :=
  ∃ left full joinMask whereMask mask,
    addTableColumns P storage cat pkg.tableName pkg.tableAlias pair.1.chunkId
      { logicalRowCount := 1 } = .ok left ∧
    addTableColumns P storage cat pkg.joinedTableName pkg.joinedTableAlias pair.2.chunkId left =
      .ok full ∧
    P.evaluate (.equal (.columnRef pkg.joinLeftColumn) (.columnRef pkg.joinRightColumn)) full =
      .ok joinMask ∧
    P.evaluate e full = .ok whereMask ∧ P.evalMult joinMask whereMask = .ok mask ∧
    rb.selectionMaskBytes = P.serialize mask

/-- A hoisted WHERE reads no column of the joined table, and every completed join
with a WHERE masks its pairs by the WHERE of the pair. -/
structure HoistsSoundly : Prop where
  reads : Hoisted pkg → ∀ i node, InTree pkg i node → ∀ name, Reads P node name →
    ¬ OfJoinedTable P cat pkg name
  masks : ∀ storage fuel e results, buildWhere P pkg fuel = .ok (some e) →
    execute P storage cat fuel pkg = .ok results →
    ∃ keys leftChunks rightChunks, joinKeys pkg = .ok keys ∧
      storage.listChunks pkg.tableName keys.1 = .ok leftChunks ∧
      storage.listChunks pkg.joinedTableName keys.2 = .ok rightChunks ∧
      List.Forall₂ (MaskedByPair P cat pkg storage e) (leftChunks ×ˢ rightChunks) results

/-- Some ColumnRef node of the package names a column under the joined alias, or
no string node of the tree reads a character column of the joined table. -/
def StringsKeptLeft : Prop :=
  (∃ node ∈ pkg.predicateNodes, node.kind = .ColumnRef ∧
      (pkg.joinedTableAlias ++ [dot]).isPrefixOf node.columnName = true) ∨
    ∀ i node, InTree pkg i node → (node.kind = .StringEqual ∨ node.kind = .StringNotEqual) →
      ∀ position < node.stringWidth.toNat,
        ¬ OfJoinedTable P cat pkg (P.stringPhysicalColumn node.columnName position)

/-- No column name of the catalog has a dot. -/
def UndottedCatalog : Prop :=
  ∀ table schema, cat.getTable table = .ok schema → ∀ c ∈ schema.columns, dot ∉ c.name

/-- The character columns of an undotted name are undotted. -/
def UndottedStrings : Prop :=
  ∀ name position, dot ∉ name → dot ∉ P.stringPhysicalColumn name position

end Statements

variable {P : Proto1} {cat : Catalog} {pkg : QueryPackage}
  {storage : EncryptedStorage (Except Exn) P.EncryptedVector}

theorem usesJoinedTable_iff :
    whereUsesJoinedTable pkg = true ↔ ∃ node ∈ pkg.predicateNodes, node.kind = .ColumnRef ∧
      (pkg.joinedTableAlias ++ [dot]).isPrefixOf node.columnName = true := by
  simp [whereUsesJoinedTable, List.any_eq_true]

/-- A name of the joined table begins with its alias. -/
theorem isPrefixOf_ofJoinedTable {name : Str} (h : OfJoinedTable P cat pkg name) :
    (pkg.joinedTableAlias ++ [dot]).isPrefixOf name = true := by
  obtain ⟨t, _, c, _, physical, _, rfl⟩ := h
  rw [List.isPrefixOf_iff_prefix, qualified]
  exact ⟨physical, by simp⟩

/-- What a string node builds reads its character columns. -/
theorem columns_stringEquality {node : PredNode} {e : Expression P.EncryptedVector}
    (ok : stringEquality P pkg node = .ok e) {name : Str} (mem : name ∈ e.columns) :
    ∃ position < node.stringWidth.toNat,
      name = P.stringPhysicalColumn node.columnName position := by
  obtain ⟨comparisons, rfl, nonempty, _, all⟩ := stringEquality_ok ok
  refine BalancedFold.balanced_forall (p := fun e => ∀ name ∈ Expression.columns e,
    ∃ position < node.stringWidth.toNat, name = P.stringPhysicalColumn node.columnName position)
    (fun a b ha hb name mem => ?_) nonempty (fun comparison mem => ?_) name mem
  · rcases List.mem_append.mp mem with mem | mem
    · exact ha name mem
    · exact hb name mem
  · obtain ⟨position, inside, ct, rfl⟩ := all comparison mem
    intro name mem
    exact ⟨position, inside, List.mem_singleton.mp mem⟩

theorem columns_binaryExpression {CT : Type} (kind : PredNodeKind) {l r : Expression CT}
    {name : Str} (mem : name ∈ (binaryExpression kind l r).columns) :
    name ∈ l.columns ∨ name ∈ r.columns := by
  cases kind <;> simp only [binaryExpression, Expression.columns, List.mem_append] at mem <;> tauto

/-- A built expression reads what the nodes below its root read. -/
theorem columns_built {fuel : Nat} {i : UInt32} {e : Expression P.EncryptedVector}
    (ok : buildExpression P pkg fuel i = .ok e) {name : Str} (mem : name ∈ e.columns) :
    ∃ j node, Relation.ReflTransGen (Link pkg) i j ∧
      pkg.predicateNodes[j.toNat]? = some node ∧ Reads P node name := by
  induction fuel generalizing i e with
  | zero => cases ok
  | succ fuel ih =>
    cases hn : pkg.predicateNodes[i.toNat]? with
    | none =>
      simp only [buildExpression, hn] at ok
      cases ok
    | some node =>
      by_cases hb : node.kind.isBinary = true
      · rw [buildExpression_binary hn hb] at ok
        obtain ⟨l, hl, ok⟩ := bind_ok_iff.mp ok
        obtain ⟨r, hr, ok⟩ := bind_ok_iff.mp ok
        cases ok
        rcases columns_binaryExpression node.kind mem with mem | mem
        · obtain ⟨j, m, path, found⟩ := ih hl mem
          exact ⟨j, m, .head ⟨node, hn, Or.inr ⟨hb, Or.inl rfl⟩⟩ path, found⟩
        · obtain ⟨j, m, path, found⟩ := ih hr mem
          exact ⟨j, m, .head ⟨node, hn, Or.inr ⟨hb, Or.inr rfl⟩⟩ path, found⟩
      · cases hk : node.kind <;> rw [hk] at hb <;> (try exact False.elim (hb rfl)) <;>
          simp only [buildExpression, hn, hk] at ok
        case ColumnRef =>
          cases ok
          exact ⟨i, node, .refl, hn, Or.inl ⟨hk, List.mem_singleton.mp mem⟩⟩
        case LiteralRef =>
          unfold literalExpression at ok
          split at ok
          · cases ok
          · obtain ⟨ct, _, ok⟩ := bind_ok_iff.mp ok
            cases ok
            cases mem
        case Not =>
          obtain ⟨l, hl, ok⟩ := bind_ok_iff.mp ok
          cases ok
          obtain ⟨j, m, path, found⟩ := ih hl mem
          exact ⟨j, m, .head ⟨node, hn, Or.inl ⟨hk, rfl⟩⟩ path, found⟩
        case StringEqual =>
          exact ⟨i, node, .refl, hn, Or.inr ⟨Or.inl hk, columns_stringEquality ok mem⟩⟩
        case StringNotEqual =>
          obtain ⟨l, hl, ok⟩ := bind_ok_iff.mp ok
          cases ok
          exact ⟨i, node, .refl, hn, Or.inr ⟨Or.inr hk, columns_stringEquality hl mem⟩⟩
        case unlisted => cases ok

/-- The columns of the WHERE are read by nodes of the tree. -/
theorem columns_buildWhere {fuel : Nat} {e : Expression P.EncryptedVector}
    (ok : buildWhere P pkg fuel = .ok (some e)) {name : Str} (mem : name ∈ e.columns) :
    ∃ i node, InTree pkg i node ∧ Reads P node name := by
  unfold buildWhere at ok
  split at ok
  · cases ok
  · obtain ⟨built, hbuilt, ok⟩ := bind_ok_iff.mp ok
    cases ok
    obtain ⟨i, node, path, hn, reads⟩ := columns_built hbuilt mem
    exact ⟨i, node, ⟨path, hn⟩, reads⟩

/-- An expression that reads nothing of the joined table has the same mask on the
left row as on the pair. -/
theorem evaluate_pair_eq (reads : LocalEvaluate P) {e : Expression P.EncryptedVector}
    (outside : ∀ name ∈ e.columns, ¬ OfJoinedTable P cat pkg name) {chunkId : Nat}
    {left full : EncryptedBatch P.EncryptedVector}
    (ok : addTableColumns P storage cat pkg.joinedTableName pkg.joinedTableAlias chunkId left =
      .ok full) : P.evaluate e full = P.evaluate e left := by
  obtain ⟨t, ht, added⟩ := addTableColumns_ok ok
  refine reads e full left added.rowCount added.mask fun name mem => added.others name ?_
  intro physical hp same
  obtain ⟨c, hc, hp⟩ := List.mem_flatMap.mp hp
  exact outside name mem ⟨t, ht, c, hc, physical, hp, same⟩

/-- A pair's batch is masked by the pair, evaluated there or hoisted soundly. -/
theorem maskedByPair_of_pairBatch (reads : LocalEvaluate P) {e : Expression P.EncryptedVector}
    (sound : whereUsesJoinedTable pkg = false →
      ∀ name ∈ e.columns, ¬ OfJoinedTable P cat pkg name)
    {leftKey rightKey : Str} {pair : ChunkMeta × ChunkMeta} {rb : EncryptedResultBatch}
    (h : PairBatch storage cat pkg (some e) leftKey rightKey pair rb) :
    MaskedByPair P cat pkg storage e pair rb := by
  obtain ⟨left, full, read⟩ := readsPair_of_pairBatch h
  obtain ⟨mask, ⟨joinMask, hjoin, whereMask, hwhere, hmask⟩, bytes⟩ := read.mask
  refine ⟨left, full, joinMask, whereMask, mask, read.leftColumns, read.rightColumns,
    hjoin, ?_, hmask, bytes⟩
  by_cases uses : whereUsesJoinedTable pkg = true
  · rwa [if_pos uses] at hwhere
  · rw [if_neg uses] at hwhere
    rw [evaluate_pair_eq reads (sound (by simpa using uses)) read.rightColumns]
    exact hwhere

/-- Hoisting is sound exactly when the string nodes keep to the left table, or a
ColumnRef node forbids it anyway. -/
theorem hoistsSoundly_iff (reads : LocalEvaluate P) (joins : pkg.hasJoin = true) :
    HoistsSoundly P cat pkg ↔ StringsKeptLeft P cat pkg := by
  constructor
  · intro sound
    by_cases uses : whereUsesJoinedTable pkg = true
    · exact Or.inl (usesJoinedTable_iff.mp uses)
    · refine Or.inr fun i node inTree hk position inside => ?_
      have nonempty : pkg.predicateNodes ≠ [] := by
        intro empty
        have found := inTree.2
        rw [empty] at found
        cases found
      exact sound.reads ⟨nonempty, by simpa using uses⟩ i node inTree _
        (Or.inr ⟨hk, position, inside, rfl⟩)
  · intro kept
    have outside : whereUsesJoinedTable pkg = false → ∀ i node, InTree pkg i node →
        ∀ name, Reads P node name → ¬ OfJoinedTable P cat pkg name := by
      intro unused i node inTree name hreads joined
      have plain : ¬ ∃ node ∈ pkg.predicateNodes, node.kind = .ColumnRef ∧
          (pkg.joinedTableAlias ++ [dot]).isPrefixOf node.columnName = true := by
        rw [← usesJoinedTable_iff, unused]
        exact Bool.false_ne_true
      rcases hreads with ⟨hk, rfl⟩ | ⟨hk, position, inside, rfl⟩
      · exact plain ⟨node, List.mem_of_getElem? inTree.2, hk, isPrefixOf_ofJoinedTable joined⟩
      · rcases kept with found | kept
        · exact plain found
        · exact kept i node inTree hk position inside joined
    refine ⟨fun hoisted => outside hoisted.2, fun storage fuel e results built h => ?_⟩
    simp only [execute, joins, if_true] at h
    obtain ⟨keys, left, right, where?, hkeys, hleft, hright, hwhere, all⟩ := executeJoin_ok h
    obtain rfl := Except.ok.inj (hwhere.symm.trans built)
    refine ⟨keys, left, right, hkeys, hleft, hright, all.imp fun pair rb batch => ?_⟩
    apply maskedByPair_of_pairBatch reads _ batch
    intro unused name mem
    obtain ⟨i, node, inTree, hreads⟩ := columns_buildWhere built mem
    exact outside unused i node inTree name hreads

/-- The validator looks the column of a string node up in the FROM table. -/
theorem stringsKeptLeft_of_accepts {serverParamSetId : Str}
    (accepted : Accepts cat serverParamSetId pkg) (undotted : UndottedCatalog cat)
    (strings : UndottedStrings P) : StringsKeptLeft P cat pkg := by
  obtain ⟨schema, validated⟩ := accepts_iff.mp accepted
  refine Or.inr fun i node inTree hk position _ joined => ?_
  have nonempty : pkg.predicateNodes ≠ [] := by
    intro empty
    have found := inTree.2
    rw [empty] at found
    cases found
  have wellFormed := wellFormed_inTree (validated.predicate nonempty) inTree
  obtain ⟨c, found, _, _⟩ := (wellFormed_string wellFormed inTree.2 hk).column
  obtain ⟨mem, named⟩ := TableSchema.column_ok found
  have plain : dot ∉ node.columnName := by
    rw [← named]
    exact undotted pkg.tableName schema validated.header.table c mem
  refine strings node.columnName position plain ?_
  obtain ⟨rest, split⟩ := List.isPrefixOf_iff_prefix.mp (isPrefixOf_ofJoinedTable joined)
  rw [← split]
  simp

/-- Hoisting is sound for every join package exactly when its string nodes keep to the
left table, or a ColumnRef node forbids it anyway; those of a validated package do. -/
theorem validated_hoistsSoundly (reads : LocalEvaluate P) (joins : pkg.hasJoin = true) :
    (HoistsSoundly P cat pkg ↔ StringsKeptLeft P cat pkg) ∧
      (UndottedCatalog cat → UndottedStrings P →
        (∃ serverParamSetId, Accepts cat serverParamSetId pkg) → HoistsSoundly P cat pkg) := by
  refine ⟨hoistsSoundly_iff reads joins, fun undotted strings accepted => ?_⟩
  obtain ⟨serverParamSetId, accepted⟩ := accepted
  exact (hoistsSoundly_iff reads joins).mpr (stringsKeptLeft_of_accepts accepted undotted strings)

theorem plain_localEvaluate (slotCount : Nat) : LocalEvaluate (plainProto1 slotCount) :=
  fun e _ _ _ _ same => PlainProto1.evaluate_congr slotCount e same

theorem plain_undottedStrings (slotCount : Nat) : UndottedStrings (plainProto1 slotCount) := by
  intro name position plain mem
  rcases List.mem_append.mp mem with mem | digit
  · rcases List.mem_append.mp mem with mem | hash
    · exact plain mem
    · revert hash
      decide
  · have range := digit_of_mem_decimal digit
    revert range
    decide

theorem employees_undotted : UndottedCatalog makeEmployeesCatalog := by
  intro table schema found
  have either : table = str "departments" ∨ table = str "employees" := by
    by_contra other
    rw [not_or] at other
    have missing : makeEmployeesCatalog.tables.lookup table = none := by
      simp only [makeEmployeesCatalog, Catalog.registerTable]
      rw [AList.lookup_insert_ne other.1, AList.lookup_insert_ne other.2]
      rfl
    simp only [Catalog.getTable, missing] at found
    cases found
  rcases either with rfl | rfl <;> cases found <;> decide

/-- A join of employees `e` and departments `d`, on the department, with a WHERE. -/
def filteredJoin (nodes : List PredNode) : QueryPackage where
  tableName := str "employees"
  tableAlias := str "e"
  joinedTableName := str "departments"
  joinedTableAlias := str "d"
  joinLeftColumn := str "e.department_id"
  joinRightColumn := str "d.id"
  hasJoin := true
  projectColumns := [str "e.id"]
  predicateNodes := nodes
  encryptedLiterals := (List.range 16).map fun i =>
    { id := UInt32.ofNat i, logicalType := str "STRING_CHAR", ciphertextBytes := [1],
      logicalSize := 1 }

/-- `e.age = :0` -/
def agedNodes : List PredNode :=
  [{ kind := .ColumnRef, columnName := str "e.age" }, { kind := .LiteralRef },
    { kind := .Equal, left := 0, right := 1 }]

/-- `d.department_name = :0..:15` -/
def departmentNodes : List PredNode :=
  [{ kind := .StringEqual, columnName := str "d.department_name", stringWidth := 16 }]

/-- `name = :0..:15` -/
def namedNodes : List PredNode :=
  [{ kind := .StringEqual, columnName := str "name", stringWidth := 16 }]

theorem employeeJoins_hoistSoundly :
    HoistsSoundly (plainProto1 1) makeEmployeesCatalog (filteredJoin agedNodes) ∧
      HoistsSoundly (plainProto1 1) makeEmployeesCatalog (filteredJoin namedNodes) :=
  have aged : Accepts makeEmployeesCatalog [] (filteredJoin agedNodes) := ⟨2, rfl⟩
  have named : Accepts makeEmployeesCatalog [] (filteredJoin namedNodes) := ⟨1, rfl⟩
  ⟨(validated_hoistsSoundly (plain_localEvaluate 1) rfl).2 employees_undotted
      (plain_undottedStrings 1) ⟨_, aged⟩,
    (validated_hoistsSoundly (plain_localEvaluate 1) rfl).2 employees_undotted
      (plain_undottedStrings 1) ⟨_, named⟩⟩

/-- A string comparison with a column of the joined table is hoisted to the left
row. -/
theorem string_predicate_is_hoisted :
    ¬ ∀ (P : Proto1) (cat : Catalog) (pkg : QueryPackage), LocalEvaluate P →
      pkg.hasJoin = true → HoistsSoundly P cat pkg := by
  intro all
  have sound := all (plainProto1 1) makeEmployeesCatalog (filteredJoin departmentNodes)
    (plain_localEvaluate 1) rfl
  have inTree : InTree (filteredJoin departmentNodes) 0
      { kind := .StringEqual, columnName := str "d.department_name", stringWidth := 16 } :=
    ⟨.refl, rfl⟩
  refine sound.reads ⟨nofun, rfl⟩ 0 _ inTree (str "d.department_name#0")
    (Or.inr ⟨Or.inl rfl, 0, by decide, by decide⟩) ?_
  refine ⟨_, rfl, { name := str "department_name", type := .STRING, maxLength := 16 }, ?_,
    str "department_name#0", ?_, by decide⟩
  · exact List.mem_cons_of_mem _ List.mem_cons_self
  · exact List.mem_map.mpr ⟨0, by decide, by decide⟩

end FheSql.HoistedWhere
