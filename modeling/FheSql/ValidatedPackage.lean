import FheSql.PredicateTree

/-!
# Validated packages

What a package satisfies when `validate` accepts it, field by field. Everything
later modules know about a received package goes through `validate_ok_iff`.
-/

namespace FheSql.ValidatedPackage

open ByteText Throwing PredicateTree

/-- The checks `validate` makes before it looks at the predicate. -/
structure HeaderOk (cat : Catalog) (serverParamSetId : Str) (pkg : QueryPackage)
    (schema : TableSchema) : Prop where
  version : pkg.protocolVersion = 2
  table : cat.getTable pkg.tableName = .ok schema
  scanColumns : ∀ col ∈ pkg.scanColumns, schema.hasColumn col = true
  projectColumns : ∀ col ∈ pkg.projectColumns, NamesColumn cat pkg schema col
  paramSet : pkg.fheParams.paramSetId = serverParamSetId
  literals : ∀ lit ∈ pkg.encryptedLiterals, lit.ciphertextBytes ≠ []

variable {cat : Catalog} {serverParamSetId : Str} {pkg : QueryPackage} {schema : TableSchema}

theorem validateScanColumn_ok_iff {col : Str} :
    QueryValidator.validateScanColumn pkg schema col = .ok () ↔ schema.hasColumn col = true := by
  simp only [QueryValidator.validateScanColumn, throw_eq_error, pure_eq_ok, guard_ok_iff]
  simp

theorem validateProjectColumn_ok_iff {col : Str} :
    QueryValidator.validateProjectColumn cat pkg schema col = .ok () ↔
      NamesColumn cat pkg schema col := by
  simp only [QueryValidator.validateProjectColumn, NamesColumn, bind_ok_iff, throw_eq_error,
    pure_eq_ok, guard_ok_iff]
  simp

theorem validateLiteral_ok_iff {lit : EncryptedLiteralEntry} :
    QueryValidator.validateLiteral lit = .ok () ↔ lit.ciphertextBytes ≠ [] := by
  simp only [QueryValidator.validateLiteral, throw_eq_error, pure_eq_ok, guard_ok_iff]
  simp

theorem validateHeader_ok_iff :
    QueryValidator.validateHeader cat serverParamSetId pkg = .ok schema ↔
      HeaderOk cat serverParamSetId pkg schema := by
  simp only [QueryValidator.validateHeader, throw_eq_error, pure_eq_ok, error_bind,
    guard_ok_iff, bind_ok_iff, forM_ok_iff, validateScanColumn_ok_iff,
    validateProjectColumn_ok_iff, validateLiteral_ok_iff]
  constructor
  · rintro ⟨version, known, t, ht, _, scan, _, project, paramSet, _, literals, same⟩
    cases same
    exact ⟨not_not.mp version, ht, scan, project, not_not.mp paramSet, literals⟩
  · rintro ⟨version, table, scan, project, paramSet, literals⟩
    have known := Catalog.hasTable_iff.mpr ⟨schema, table⟩
    exact ⟨by simp [version], by simp [known], schema, table, (), scan, (), project,
      by simp [paramSet], (), literals, rfl⟩

/-- A package `validate` accepts, together with its table's schema. -/
structure Validated (cat : Catalog) (serverParamSetId : Str) (pkg : QueryPackage)
    (schema : TableSchema) : Prop where
  header : HeaderOk cat serverParamSetId pkg schema
  predicate : pkg.predicateNodes ≠ [] → WellFormed cat pkg schema pkg.rootIndex

/-- `validate` accepts a package after finitely many calls. -/
def Accepts (cat : Catalog) (serverParamSetId : Str) (pkg : QueryPackage) : Prop :=
  ∃ fuel, QueryValidator.validate cat serverParamSetId fuel pkg = .ok ()

theorem accepts_iff :
    Accepts cat serverParamSetId pkg ↔ ∃ schema, Validated cat serverParamSetId pkg schema := by
  simp only [Accepts, QueryValidator.validate, bind_ok_iff, validateHeader_ok_iff]
  constructor
  · rintro ⟨fuel, schema, header, tree⟩
    refine ⟨schema, header, fun nonempty => ?_⟩
    rw [if_neg nonempty] at tree
    exact wellFormed_iff_validates.mpr ⟨fuel, tree⟩
  · rintro ⟨schema, header, predicate⟩
    by_cases empty : pkg.predicateNodes = []
    · exact ⟨0, schema, header, by rw [if_pos empty]; rfl⟩
    · obtain ⟨fuel, tree⟩ := wellFormed_iff_validates.mp (predicate empty)
      exact ⟨fuel, schema, header, by rwa [if_neg empty]⟩

end FheSql.ValidatedPackage
