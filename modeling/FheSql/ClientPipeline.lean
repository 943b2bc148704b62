import FheSql.QueryEncryptor
import FheSql.Semantic

/-!
# The client's way to a package

`executeQuery` of `client/client_main.cpp` up to the package it sends. The query
id is drawn after the encryption and is no part of it.
-/

namespace FheSql.ClientPipeline

open ByteText Throwing

/-- Logical plan, then physical plan. -/
def planQuery (stmt : SelectStatement) (schema : TableSchema) : Except Exn PhysicalPlan := do
  let logPlan ← LogicalPlanner.plan stmt schema
  PhysicalPlanner.plan logPlan

variable {P : Proto1}

/-- Analysis, planning and the catalog overload of `encrypt`, as the client
calls them. -/
def clientPackage (cat : Catalog) (fheMeta : FHEParamsMeta) (stmt : SelectStatement)
    (rng : P.Rng) : Except Exn QueryPackage := do
  let schema ← SemanticAnalyzer.analyze cat stmt
  let physPlan ← planQuery stmt schema
  QueryEncryptor.encrypt stmt physPlan cat fheMeta rng

/-- The same with the schema overload, as the tests and the benchmark call it. -/
def schemaPackage (cat : Catalog) (fheMeta : FHEParamsMeta) (stmt : SelectStatement)
    (rng : P.Rng) : Except Exn QueryPackage := do
  let schema ← SemanticAnalyzer.analyze cat stmt
  let physPlan ← planQuery stmt schema
  QueryEncryptor.encryptWithSchema stmt physPlan schema fheMeta rng

end FheSql.ClientPipeline
