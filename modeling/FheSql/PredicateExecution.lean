import FheSql.PipelineAcceptance
import FheSql.PredicateMeaning

/-!
# Running a predicate

From a package of a typed condition the server rebuilds a mask. In every slot that
holds the codes of a row it says whether the row satisfies the condition: the
literals arrive as the numbers they were encrypted from.
-/

namespace FheSql.PredicateExecution

open ByteText Throwing IndicatorPoly QueryEncryptor PredicateCode PredicateCompiler
open PredicateFlattening PipelineAcceptance PredicateMeaning SqlSemantics StoredRows

variable {P : Proto1} (sem : SlotSemantics P) {column? : Str → ColumnSchema → Prop}
  {schema : TableSchema} {e : ASTExpr}

include sem in
theorem encrypts_value {v : Int} (value : IsSlotValue v) (rng : P.Rng) :
    ∃ ct rng', encryptScalar P v rng = .ok (ct, rng') := by
  obtain ⟨ct, rng', encrypted, _⟩ := sem.encrypt (List.replicate P.slotCount v) rng
    (by rw [List.length_replicate]) fun u mem => List.eq_of_mem_replicate mem ▸ value
  exact ⟨ct, rng', by rw [encryptScalar, encrypted, fromProto1_ok]⟩

include sem in
/-- A sent scalar has as many values as there are slots. -/
theorem size_of_sent {v : Int} {rng rng' : P.Rng} {sent : P.EncryptedVector}
    (h : encryptScalar P v rng = .ok (sent, rng')) : P.logicalSize sent = P.slotCount := by
  have size := sem.logicalSize _ _ _ _ (fromProto1_ok_iff.mp h)
  rwa [List.length_replicate] at size

include sem in
theorem roundTrips_of_semantics : RoundTrips P := by
  intro v rng sent rng' h
  obtain ⟨ct, received, _⟩ := sem.deserialize sent P.slotCount (le_refl _)
  exact ⟨ct, size_of_sent sem h ▸ received⟩

/-- A received literal has its number in every slot. -/
theorem slot_of_holds {ct : P.EncryptedVector} {v : Int} (holds : Holds P ct v)
    (value : IsSlotValue v) {i : Nat} (inside : i < P.slotCount) :
    sem.slot ct i = (v : Slot) := by
  obtain ⟨rng, sent, rng', encrypted, received⟩ := holds
  obtain ⟨ct', received', same⟩ := sem.deserialize sent P.slotCount (le_refl _)
  rw [size_of_sent sem encrypted, received'] at received
  obtain ⟨sent', rng'', encrypted', slots⟩ := sem.encrypt (List.replicate P.slotCount v) rng
    (by rw [List.length_replicate]) fun u mem => List.eq_of_mem_replicate mem ▸ value
  have once := encrypted'.symm.trans (fromProto1_ok_iff.mp encrypted)
  cases received
  cases once
  rw [same i inside]
  refine slots i v ?_
  rw [List.getElem?_replicate, if_pos inside]

theorem literal_values {literal : Str} {m : Nat} :
    ∀ lit ∈ characters literal m, IsSlotValue lit.2 := by
  intro lit mem
  obtain ⟨position, _, rfl⟩ := List.mem_map.mp mem
  obtain ⟨low, high⟩ := characterCode_bounds literal position
  exact ⟨low, by omega⟩

theorem flatten_of_operand (h : IntOperand column? e) (n l : Nat) :
    ∃ code, flatten schema e n l = .ok code ∧ ∀ lit ∈ code.literals, IsSlotValue lit.2 := by
  cases h with
  | column => exact ⟨_, rfl, nofun⟩
  | @literal v low high =>
    refine ⟨_, rfl, fun lit mem => ?_⟩
    obtain rfl := List.mem_singleton.mp mem
    exact ⟨low, by change v < 257; omega⟩

/-- Two operands, each laid out behind the other. -/
theorem flatten_join {left right : ASTExpr} (kind : PredNodeKind)
    (hl : ∀ n l, ∃ code, flatten schema left n l = .ok code ∧
      ∀ lit ∈ code.literals, IsSlotValue lit.2)
    (hr : ∀ n l, ∃ code, flatten schema right n l = .ok code ∧
      ∀ lit ∈ code.literals, IsSlotValue lit.2) (n l : Nat) :
    ∃ code, (do
        let a ← flatten schema left n l
        let b ← flatten schema right (n + a.nodes.length) (l + a.literals.length)
        .ok (a.join n kind b)) = .ok code ∧ ∀ lit ∈ code.literals, IsSlotValue lit.2 := by
  obtain ⟨a, ha, valuesA⟩ := hl n l
  obtain ⟨b, hb, valuesB⟩ := hr (n + a.nodes.length) (l + a.literals.length)
  refine ⟨a.join n kind b, by simp only [ha, hb, ok_bind], fun lit mem => ?_⟩
  exact (List.mem_append.mp mem).elim (valuesA lit) (valuesB lit)

/-- A typed condition can be laid out, with literals that can be encrypted. -/
theorem flatten_of_typed (typed : Typed column? schema e) (n l : Nat) :
    ∃ code, flatten schema e n l = .ok code ∧ ∀ lit ∈ code.literals, IsSlotValue lit.2 := by
  induction typed generalizing n l with
  | @int kind left right hl hr =>
    simp only [flatten, stringComparison?_of_int hl hr]
    exact flatten_join _ (flatten_of_operand hl) (flatten_of_operand hr) n l
  | @string kind left right name literal c shape _ _ _ column =>
    simp only [flatten, shape, column, ok_bind]
    exact ⟨_, rfl, literal_values⟩
  | boolean _ _ ihl ihr => exact flatten_join _ ihl ihr n l
  | @notExpr e _ ih =>
    obtain ⟨a, ha, values⟩ := ih n l
    exact ⟨a.negate n, by simp only [flatten, ha, ok_bind], values⟩

theorem stringComparisonsOk_of_operand (h : IntOperand column? e) :
    StringComparisonsOk schema e := by
  cases h <;> trivial

theorem stringComparisonsOk_of_typed (typed : Typed column? schema e) :
    StringComparisonsOk schema e := by
  induction typed with
  | int hl hr =>
    simp only [StringComparisonsOk, stringComparison?_of_int hl hr]
    exact ⟨stringComparisonsOk_of_operand hl, stringComparisonsOk_of_operand hr⟩
  | string shape operator _ _ column wide =>
    simp only [StringComparisonsOk, shape]
    exact ⟨operator, _, column, wide⟩
  | boolean _ _ ihl ihr => exact ⟨ihl, ihr⟩
  | notExpr _ ih => exact ih

variable (column?) in
/-- A rebuilt predicate that says of the rows in the slots whether they satisfy a
condition. -/
structure Executes (e : ASTExpr) (built : Expression P.EncryptedVector) : Prop where
  mask : built.isMask = true
  reads : ∀ name ∈ built.columns, IsPhysical P column? name
  value : ∀ i < P.slotCount, ∀ row slotOf, Agrees P column? row slotOf →
    built.value slotOf (sem.slot · i) = bit (holds row e = true)

theorem executes_of_rel {compiled : Expression Int} {built : Expression P.EncryptedVector}
    (means : Means P column? compiled e) (rel : built.Rel (Holds P) compiled) :
    Executes sem column? e built where
  mask := rel.isMask_eq.trans means.mask
  reads name mem := means.reads name (rel.columns_eq ▸ mem)
  value i inside row slotOf agrees := by
    rw [← means.value row slotOf agrees]
    exact rel.value_eq fun ct v holds mem => slot_of_holds sem holds (means.literals v mem) inside

/-- The predicate part of a package. -/
structure CarriesPredicate (pkg : QueryPackage) (s : BuildState P) : Prop where
  nodes : pkg.predicateNodes = s.nodes
  literals : pkg.encryptedLiterals = s.literals

/-- A typed condition is encrypted, and what the server rebuilds from any package with
its nodes and literals executes it. -/
theorem executes_of_typed (typed : Typed column? schema e) (rng : P.Rng) :
    ∃ root s, buildPredNode schema e (initialState rng) = .ok (root, s) ∧ s.nodes ≠ [] ∧
      (s.nodes.length < 2 ^ 32 → s.literals.length < 2 ^ 32 →
        ∀ pkg : QueryPackage, CarriesPredicate pkg s → ∃ built, Executes sem column? e built ∧
          ∀ fuel, pkg.predicateNodes.length ≤ fuel →
            QueryExecutor.buildWhere P pkg fuel = .ok (some built)) := by
  obtain ⟨code, flat, values⟩ := flatten_of_typed typed 0 0
  obtain ⟨root, s, built, nodes, encrypts⟩ := buildPredNode_of_flatten flat
    (fun lit mem rng => encrypts_value sem (values lit mem) rng) rng
  have flattens := flattens_of_ok flat
  have nonempty := nodes_ne_nil flattens
  have size : code.literals.length = s.literals.length := by
    rw [← encrypts.length_eq, List.length_zipIdx]
  refine ⟨root, s, built, nodes ▸ nonempty, fun fewNodes fewLiterals pkg carries => ?_⟩
  rw [nodes] at fewNodes
  obtain ⟨compiled, hc, rebuilds⟩ := rebuilt_of_flattens (roundTrips_of_semantics sem) flattens
    encrypts fewNodes (by omega) (stringComparisonsOk_of_typed typed)
  obtain ⟨compiled', hc', means⟩ := compile_means (P := P) typed
  cases hc.symm.trans hc'
  obtain ⟨built, runs, rel⟩ := rebuilds pkg (carries.nodes.trans nodes) carries.literals
  refine ⟨built, executes_of_rel sem means rel, fun fuel enough => ?_⟩
  have here : pkg.predicateNodes ≠ [] := by
    rw [carries.nodes, nodes]
    exact nonempty
  rw [carries.nodes, nodes] at enough
  rw [QueryExecutor.buildWhere, if_neg here, runs fuel enough]
  rfl

variable (column?) in
/-- What the server makes of the WHERE clause of a package. -/
inductive Filters : Option ASTExpr → Option (Expression P.EncryptedVector) → Prop where
  | absent : Filters none none
  | present {e built} : Executes sem column? e built → Filters (some e) (some built)

/-- With a typed WHERE clause or none, a package is built, and the server makes of it
what the clause says. -/
theorem filters_of_typed {whereClause : Option ASTExpr}
    (typed : ∀ e, whereClause = some e → Typed column? schema e) (rng : P.Rng)
    (base : QueryPackage) (empty : base.predicateNodes = []) :
    ∃ pkg, BuiltFrom P schema rng base whereClause pkg ∧
      (pkg.predicateNodes.length < 2 ^ 32 → pkg.encryptedLiterals.length < 2 ^ 32 →
        ∃ where?, Filters sem column? whereClause where? ∧
          ∀ fuel, pkg.predicateNodes.length ≤ fuel →
            QueryExecutor.buildWhere P pkg fuel = .ok where?) := by
  cases whereClause with
  | none =>
    refine ⟨base, .plain, fun _ _ => ⟨none, .absent, fun fuel _ => ?_⟩⟩
    rw [QueryExecutor.buildWhere, if_pos empty]
    rfl
  | some e =>
    obtain ⟨root, s, built, _, rebuilds⟩ := executes_of_typed sem (typed e rfl) rng
    refine ⟨_, .filtered built, fun fewNodes fewLiterals => ?_⟩
    obtain ⟨built, executes, runs⟩ := rebuilds fewNodes fewLiterals
      { base with predicateNodes := s.nodes, encryptedLiterals := s.literals } ⟨rfl, rfl⟩
    exact ⟨some built, .present executes, runs⟩

/-- The names of a typed condition are columns. -/
theorem references_of_typed (typed : Typed column? schema e) :
    ∀ name ∈ StatementPlan.references e, ∃ c, column? name c := by
  have operand : ∀ {e}, IntOperand column? e → ∀ name ∈ StatementPlan.references e,
      ∃ c, column? name c := by
    intro e h name mem
    cases h with
    | column found _ =>
      obtain rfl := List.mem_singleton.mp mem
      exact ⟨_, found⟩
    | literal => cases mem
  induction typed with
  | int hl hr =>
    exact fun name mem => (List.mem_append.mp mem).elim (operand hl name) (operand hr name)
  | @string kind l r _ _ c shape _ found =>
    intro name mem
    unfold stringComparison? at shape
    split at shape
    · cases shape
      obtain rfl := List.mem_singleton.mp mem
      exact ⟨c, found⟩
    · cases shape
      obtain rfl := List.mem_singleton.mp mem
      exact ⟨c, found⟩
    · cases shape
  | boolean _ _ ihl ihr =>
    exact fun name mem => (List.mem_append.mp mem).elim (ihl name) (ihr name)
  | notExpr _ ih => exact ih

/-- Every column of an integer condition is named by a node of its code. -/
theorem columnRef_of_flatten (typed : Typed column? schema e)
    (integers : ∀ name c, column? name c → c.type = .INT64) {n l : Nat} {code : Code}
    (flat : flatten schema e n l = .ok code) : ∀ name ∈ StatementPlan.references e,
      ∃ node ∈ code.nodes, node.kind = .ColumnRef ∧ node.columnName = name := by
  have operand : ∀ {e n l code}, IntOperand column? e → flatten schema e n l = .ok code →
      ∀ name ∈ StatementPlan.references e,
        ∃ node ∈ code.nodes, node.kind = .ColumnRef ∧ node.columnName = name := by
    intro e n l code h flat name mem
    cases h with
    | column found _ =>
      cases flat
      obtain rfl := List.mem_singleton.mp mem
      exact ⟨_, List.mem_singleton_self _, rfl, rfl⟩
    | literal => cases mem
  have join : ∀ {left right : ASTExpr} {a b : Code} {kind : PredNodeKind} {n : Nat},
      (∀ name ∈ StatementPlan.references left,
        ∃ node ∈ a.nodes, node.kind = .ColumnRef ∧ node.columnName = name) →
      (∀ name ∈ StatementPlan.references right,
        ∃ node ∈ b.nodes, node.kind = .ColumnRef ∧ node.columnName = name) →
      ∀ name ∈ StatementPlan.references left ++ StatementPlan.references right,
        ∃ node ∈ (a.join n kind b).nodes, node.kind = .ColumnRef ∧ node.columnName = name := by
    intro left right a b kind n hl hr name mem
    rcases List.mem_append.mp mem with mem | mem
    · obtain ⟨node, here, found⟩ := hl name mem
      exact ⟨node, List.mem_append_left _ (List.mem_append_left _ here), found⟩
    · obtain ⟨node, here, found⟩ := hr name mem
      exact ⟨node, List.mem_append_left _ (List.mem_append_right _ here), found⟩
  induction typed generalizing n l code with
  | int hl hr =>
    simp only [flatten, stringComparison?_of_int hl hr] at flat
    obtain ⟨a, ha, flat⟩ := bind_ok_iff.mp flat
    obtain ⟨b, hb, flat⟩ := bind_ok_iff.mp flat
    cases flat
    exact join (operand hl ha) (operand hr hb)
  | string _ _ found type =>
    have integer := integers _ _ found
    rw [type] at integer
    cases integer
  | boolean _ _ ihl ihr =>
    obtain ⟨a, ha, flat⟩ := bind_ok_iff.mp flat
    obtain ⟨b, hb, flat⟩ := bind_ok_iff.mp flat
    cases flat
    exact join (ihl ha) (ihr hb)
  | notExpr _ ih =>
    obtain ⟨a, ha, flat⟩ := bind_ok_iff.mp flat
    cases flat
    intro name mem
    obtain ⟨node, here, found⟩ := ih ha name mem
    exact ⟨node, List.mem_append_left _ here, found⟩

include sem in
/-- So it is by a node of the package. -/
theorem columnRef_of_builtFrom (typed : Typed column? schema e)
    (integers : ∀ name c, column? name c → c.type = .INT64) {rng : P.Rng} {base pkg : QueryPackage}
    (h : BuiltFrom P schema rng base (some e) pkg) : ∀ name ∈ StatementPlan.references e,
      ∃ node ∈ pkg.predicateNodes, node.kind = .ColumnRef ∧ node.columnName = name := by
  obtain ⟨code, flat, values⟩ := flatten_of_typed typed 0 0
  obtain ⟨root, s, built, nodes, _⟩ := buildPredNode_of_flatten flat
    (fun lit mem rng => encrypts_value sem (values lit mem) rng) rng
  cases h with
  | filtered built' =>
    cases built.symm.trans built'
    rw [nodes]
    exact columnRef_of_flatten typed integers flat

end FheSql.PredicateExecution
