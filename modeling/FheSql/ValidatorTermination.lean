import FheSql.ValidatedPackage

/-!
# Termination of server-side validation

`validatePredTree` follows whatever indices the package holds and marks no node
as visited. It therefore reaches a verdict exactly on the packages whose
followed links never lead an index back to itself.
-/

namespace FheSql.ValidatorTermination

open ByteText Throwing FlatTree PredicateTree ValidatedPackage

variable {cat : Catalog} {pkg : QueryPackage} {schema : TableSchema}

/-- `validate` returns or throws after finitely many calls. -/
def Halts (cat : Catalog) (serverParamSetId : Str) (pkg : QueryPackage) : Prop :=
  ∃ fuel, QueryValidator.validate cat serverParamSetId fuel pkg ≠ .error .outOfFuel

theorem avoids_getTable (cat : Catalog) (id : Str) : Avoids Exn.outOfFuel (cat.getTable id) := by
  unfold Catalog.getTable
  split
  · exact avoids_ok _
  · exact avoids_error nofun

theorem avoids_column (t : TableSchema) (name : Str) :
    Avoids Exn.outOfFuel (t.column name) := by
  unfold TableSchema.column
  split
  · exact avoids_ok _
  · exact avoids_error nofun

theorem avoids_targetTable (name : Str) :
    Avoids Exn.outOfFuel (QueryValidator.targetTable cat pkg schema name) := by
  unfold QueryValidator.targetTable
  split
  · exact avoids_getTable cat _
  · exact avoids_ok _

theorem avoids_validateColumnNode (node : PredNode) :
    Avoids Exn.outOfFuel (QueryValidator.validateColumnNode cat pkg schema node) :=
  avoids_bind (avoids_targetTable _) fun _ _ => avoids_guard nofun (avoids_ok _)

theorem avoids_validateLiteralNode (node : PredNode) :
    Avoids Exn.outOfFuel (QueryValidator.validateLiteralNode pkg node) :=
  avoids_guard nofun (avoids_ok _)

theorem avoids_validateStringNode (node : PredNode) :
    Avoids Exn.outOfFuel (QueryValidator.validateStringNode pkg schema node) := by
  refine avoids_guard nofun (avoids_bind (avoids_column schema _) fun column _ => ?_)
  exact avoids_guard nofun (avoids_forM fun i _ => avoids_guard nofun (avoids_ok _))

theorem avoids_validateHeader (serverParamSetId : Str) :
    Avoids Exn.outOfFuel (QueryValidator.validateHeader cat serverParamSetId pkg) := by
  refine avoids_guard nofun (avoids_guard nofun (avoids_bind (avoids_getTable cat _) ?_))
  intro schema _
  refine avoids_bind (avoids_forM fun col _ => avoids_guard nofun (avoids_ok _)) fun _ _ => ?_
  refine avoids_bind (avoids_forM fun col _ => ?_) fun _ _ => ?_
  · exact avoids_bind (avoids_targetTable _) fun _ _ => avoids_guard nofun (avoids_ok _)
  · refine avoids_guard nofun (avoids_bind (avoids_forM fun lit _ => ?_) fun _ _ => ?_)
    · exact avoids_guard nofun (avoids_ok _)
    · exact avoids_ok _

/-- No visit throws the mark of an exhausted bound by itself. -/
theorem visit_noTimeout : NoTimeout Exn.outOfFuel (visit cat pkg schema) := by
  intro i result hv
  cases hn : pkg.predicateNodes[i.toNat]? with
  | none =>
    obtain ⟨e, he⟩ := visit_none cat schema hn
    rw [hv] at he
    cases he
    simp
  | some node =>
    cases hk : node.kind <;> simp only [visit, hn, hk] at hv
    case ColumnRef => cases hv; exact avoids_validateColumnNode node
    case LiteralRef => cases hv; exact avoids_validateLiteralNode node
    case StringEqual => cases hv; exact avoids_validateStringNode node
    case StringNotEqual => cases hv; exact avoids_validateStringNode node
    case unlisted => cases hv; exact avoids_ok _
    all_goals
      split at hv
      · cases hv; exact avoids_error (by simp)
      · cases hv

/-- No index that is followed from `root` is followed again below itself. -/
def NoFollowedCycle (cat : Catalog) (pkg : QueryPackage) (schema : TableSchema)
    (root : UInt32) : Prop :=
  ∀ j, Relation.ReflTransGen (Follows cat pkg schema) root j →
    ¬ Relation.TransGen (Follows cat pkg schema) j j

theorem validatePredTree_halts_iff (i : UInt32) :
    (∃ fuel, QueryValidator.validatePredTree cat pkg schema fuel i ≠ .error .outOfFuel) ↔
      NoFollowedCycle cat pkg schema i := by
  have same : Calls (visit cat pkg schema) = Follows cat pkg schema := by
    funext i j
    exact propext calls_iff_follows
  have finite : Finite UInt32 :=
    Finite.of_injective UInt32.toFin fun _ _ => UInt32.toFin_inj.mp
  simp only [validatePredTree_eq_walk, NoFollowedCycle, ← same]
  exact halts_iff_no_cycle visit_noTimeout i

/-- Validation halts on a package exactly when a header check fails, there is no
predicate, or no index followed from the last node is followed again below
itself. -/
theorem validate_halts_iff (cat : Catalog) (serverParamSetId : Str) (pkg : QueryPackage) :
    Halts cat serverParamSetId pkg ↔
      ∀ schema, HeaderOk cat serverParamSetId pkg schema → pkg.predicateNodes ≠ [] →
        NoFollowedCycle cat pkg schema pkg.rootIndex := by
  cases hh : QueryValidator.validateHeader cat serverParamSetId pkg with
  | error e =>
    have rejected : ∀ schema, ¬ HeaderOk cat serverParamSetId pkg schema := by
      intro schema ok
      rw [validateHeader_ok_iff.mpr ok] at hh
      cases hh
    have fueled : Exn.outOfFuel ≠ e := by
      rintro rfl
      exact avoids_validateHeader serverParamSetId hh
    constructor
    · intro _ schema ok
      exact False.elim (rejected schema ok)
    · intro _
      exact ⟨0, by simpa [QueryValidator.validate, hh] using fueled.symm⟩
  | ok schema =>
    have header := validateHeader_ok_iff.mp hh
    have unique : ∀ schema', HeaderOk cat serverParamSetId pkg schema' → schema' = schema := by
      intro schema' ok
      exact Except.ok.inj ((validateHeader_ok_iff.mpr ok).symm.trans hh)
    by_cases empty : pkg.predicateNodes = []
    · have halts : Halts cat serverParamSetId pkg :=
        ⟨0, by simp [QueryValidator.validate, hh, empty]⟩
      simp [halts, empty]
    · have halts : Halts cat serverParamSetId pkg ↔
          NoFollowedCycle cat pkg schema pkg.rootIndex := by
        rw [← validatePredTree_halts_iff]
        simp only [Halts, QueryValidator.validate, hh, ok_bind, if_neg empty]
      rw [halts]
      constructor
      · intro noCycle schema' ok _
        rwa [unique schema' ok]
      · intro h
        exact h schema header empty

/-- One AND node that names itself as both children. -/
def selfReference : QueryPackage where
  tableName := str "employees"
  predicateNodes := [{ kind := .And, left := 0, right := 0 }]

theorem selfReference_never_returns (fuel : Nat) :
    QueryValidator.validate makeEmployeesCatalog [] fuel selfReference = .error .outOfFuel := by
  have header : ∃ schema,
      QueryValidator.validateHeader makeEmployeesCatalog [] selfReference = .ok schema :=
    ⟨_, rfl⟩
  obtain ⟨schema, header⟩ := header
  have loop : QueryValidator.validatePredTree makeEmployeesCatalog selfReference schema fuel 0 =
      .error .outOfFuel := by
    induction fuel with
    | zero => rfl
    | succ fuel ih =>
      have here : selfReference.predicateNodes[(0 : UInt32).toNat]? =
          some { kind := .And, left := 0, right := 0 } := rfl
      have children : ¬ ((0 : UInt32) = UINT32_MAX ∨ (0 : UInt32) = UINT32_MAX) := by decide
      simp only [QueryValidator.validatePredTree, here, if_neg children, ih, error_bind]
  have root : selfReference.rootIndex = 0 := by decide
  have nonempty : selfReference.predicateNodes ≠ [] := by decide
  simp only [QueryValidator.validate, header, ok_bind, if_neg nonempty, root, loop]

/-- Validation does not halt on every package that can arrive. -/
theorem validate_does_not_always_halt :
    ¬ ∀ (cat : Catalog) (serverParamSetId : Str) (pkg : QueryPackage),
      Halts cat serverParamSetId pkg := by
  intro all
  obtain ⟨fuel, h⟩ := all makeEmployeesCatalog [] selfReference
  exact h (selfReference_never_returns fuel)

end FheSql.ValidatorTermination
