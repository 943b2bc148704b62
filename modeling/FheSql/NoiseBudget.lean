import FheSql.TypeSoundness

/-!
# The noise budget

`docs/security-model.md` and `runSetup`: a comparison costs 8 levels of
multiplication, a connective one more, and the keys are generated for 12. The
depth of what the executor evaluates is a function of the WHERE clause alone.
-/

namespace FheSql

open ByteText

/-- Levels of an EQ, GT or LT. -/
def comparisonLevels : Nat := 8

/-- `params.multiplicativeDepth` of `runSetup`. -/
def keyDepth : Nat := 12

/-- The multiplicative depth of evaluating an expression. -/
def Expression.depth {CT : Type} : Expression CT → Nat
  | columnRef _ => 0
  | encLiteral _ => 0
  | equal l r => max l.depth r.depth + comparisonLevels
  | gt l r => max l.depth r.depth + comparisonLevels
  | lt l r => max l.depth r.depth + comparisonLevels
  | andExpr l r => max l.depth r.depth + 1
  | orExpr l r => max l.depth r.depth + 1
  | notExpr e => e.depth

namespace NoiseBudget

open Throwing SemanticAnalyzer QueryEncryptor PredicateCode PredicateExpression
open PredicateFlattening ClientPipeline PipelineAcceptance TypeSoundness

/-- The depth of the mask of a result: in a join the predicate's mask is multiplied
with the equality of the join columns. -/
def maskDepth {CT : Type} (hasJoin : Bool) (where? : Option (Expression CT)) : Nat :=
  match hasJoin, where? with
  | false, none => 0
  | false, some e => e.depth
  | true, none => comparisonLevels
  | true, some e => max comparisonLevels e.depth + 1

/-- The hidden OR of `>=` and `<=`. -/
def hiddenOr : CompareKind → Nat
  | .GreaterEqual | .LessEqual => 1
  | _ => 0

/-- The width of the column of a string comparison. -/
def stringWidthOf (schema : TableSchema) (column : Str) : Nat :=
  match schema.column (bareName column) with
  | .ok c => c.maxLength
  | .error _ => 0

/-- The levels a condition needs: 8 for a comparison, one more for `>=` and `<=`, the
logarithm of the width for a string, one for each AND and OR on the way up. -/
def conditionDepth (schema : TableSchema) : ASTExpr → Nat
  | .columnRef _ | .intLiteral _ | .stringLiteral _ => 0
  | .comparison kind l r =>
    match stringComparison? l r with
    | some (column, _) => comparisonLevels + Nat.clog 2 (stringWidthOf schema column)
    | none =>
      max (conditionDepth schema l) (conditionDepth schema r) + comparisonLevels + hiddenOr kind
  | .boolean _ l r => max (conditionDepth schema l) (conditionDepth schema r) + 1
  | .notExpr e => conditionDepth schema e

variable {P : Proto1} {cat : Catalog} {stmt : SelectStatement} {schema : TableSchema}
  {pkg : QueryPackage} {e : ASTExpr} {n l : Nat} {code : Code}

theorem depth_comparison (kind : CompareKind) (l r : Expression P.EncryptedVector) :
    (binaryExpression (comparisonNodeKind kind) l r).depth =
      max l.depth r.depth + comparisonLevels + hiddenOr kind := by
  cases kind <;> simp [binaryExpression, comparisonNodeKind, Expression.depth, hiddenOr]

theorem depth_boolean (kind : BooleanKind) (l r : Expression P.EncryptedVector) :
    (binaryExpression (booleanNodeKind kind) l r).depth = max l.depth r.depth + 1 := by
  cases kind <;> rfl

theorem depth_stringEquality {node : PredNode} {built : Expression P.EncryptedVector}
    (ok : QueryExecutor.stringEquality P pkg node = .ok built) :
    built.depth = comparisonLevels + Nat.clog 2 node.stringWidth.toNat := by
  obtain ⟨comparisons, rfl, nonempty, length, all⟩ := stringEquality_ok ok
  rw [← length]
  refine BalancedFold.balanced_height (h := Expression.depth) (fun _ _ => rfl) _ nonempty
    fun c mem => ?_
  obtain ⟨_, _, ct, rfl⟩ := all c mem
  rfl

/-- Columns whose width survives the 32 bits of a node. -/
def NarrowColumns (schema : TableSchema) : Prop := ∀ c ∈ schema.columns, c.maxLength < 2 ^ 32

/-- What is built at the root of a code has at most the depth of the condition, and
exactly that depth when no width is cut. -/
def HasDepth (schema : TableSchema) (built d : Nat) : Prop :=
  built ≤ d ∧ (NarrowColumns schema → built = d)

theorem hasDepth_max {a b c d k : Nat} (h : HasDepth schema a b) (h' : HasDepth schema c d) :
    HasDepth schema (max a c + k) (max b d + k) := by
  refine ⟨?_, fun narrow => by rw [h.2 narrow, h'.2 narrow]⟩
  have := h.1
  have := h'.1
  omega

theorem hasDepth_string {column literal : Str} {left right : ASTExpr} (kind : CompareKind)
    {columnSchema : ColumnSchema} (hs : stringComparison? left right = some (column, literal))
    (hcs : schema.column (bareName column) = .ok columnSchema) {node : PredNode}
    (width : node.stringWidth = UInt32.ofNat columnSchema.maxLength)
    {built : Expression P.EncryptedVector}
    (ok : QueryExecutor.stringEquality P pkg node = .ok built) :
    HasDepth schema built.depth (conditionDepth schema (.comparison kind left right)) := by
  have depth := depth_stringEquality ok
  rw [width, UInt32.toNat_ofNat'] at depth
  simp only [conditionDepth, hs, stringWidthOf, hcs, depth]
  refine ⟨Nat.add_le_add_left (Nat.clog_mono_right 2 (Nat.mod_le _ _)) _, fun narrow => ?_⟩
  rw [Nat.mod_eq_of_lt (narrow _ (TableSchema.column_ok hcs).1)]

theorem built_depth (h : Flattens schema e n l code) (carry : CarriesNodes pkg n code.nodes)
    {fuel : Nat} {built : Expression P.EncryptedVector}
    (ok : QueryExecutor.buildExpression P pkg fuel (rootOf n code) = .ok built) :
    HasDepth schema built.depth (conditionDepth schema e) := by
  induction h generalizing fuel built with
  | @columnRef name n l =>
    rw [built_columnRef (carries_root carry rfl) rfl ok]
    exact ⟨le_refl 0, fun _ => rfl⟩
  | @intLiteral v n l =>
    obtain ⟨ct, rfl⟩ := built_literal (carries_root carry rfl) rfl ok
    exact ⟨le_refl 0, fun _ => rfl⟩
  | @string kind left right n l column literal columnSchema hs hcs =>
    obtain ⟨equality, hx, same⟩ :=
      built_string (carries_root carry rfl) (stringNodeKind_cases kind) ok
    have depth := hasDepth_string kind hs hcs rfl hx
    rcases same with rfl | rfl <;> exact depth
  | @comparison kind left right n l a b hs ha hb iha ihb =>
    obtain ⟨fuel, x, y, hx, hy, rfl⟩ := built_join (isBinary_comparison kind) carry ok
    rw [depth_comparison]
    simp only [conditionDepth, hs, Nat.add_assoc]
    exact hasDepth_max (iha (carriesNodes_left carry) hx) (ihb (carriesNodes_right carry) hy)
  | @boolean kind left right n l a b ha hb iha ihb =>
    obtain ⟨fuel, x, y, hx, hy, rfl⟩ := built_join (isBinary_boolean kind) carry ok
    rw [depth_boolean]
    exact hasDepth_max (iha (carriesNodes_left carry) hx) (ihb (carriesNodes_right carry) hy)
  | @notExpr child n l a ha ih =>
    obtain ⟨fuel, x, hx, rfl⟩ := built_negate carry ok
    have depth : HasDepth schema x.depth (conditionDepth schema child) :=
      ih (carriesNodes_negated carry) hx
    exact depth

/-- The node at a position is the root of the code of a condition of some depth. -/
def HasSubcode (schema : TableSchema) (d n : Nat) (nodes : List PredNode) (k : Nat) : Prop :=
  ∃ front back part l e, nodes = front ++ part.nodes ++ back ∧
    front.length + part.nodes.length = k + 1 ∧ Flattens schema e (n + front.length) l part ∧
    conditionDepth schema e ≤ d

theorem hasSubcode_self (h : Flattens schema e n l code) {k : Nat}
    (last : code.nodes.length = k + 1) :
    HasSubcode schema (conditionDepth schema e) n code.nodes k :=
  ⟨[], [], code, l, e, by simp, by simp [last], h, le_refl _⟩

theorem hasSubcode_front {a b : List PredNode} {d d' k : Nat} (h : HasSubcode schema d n a k)
    (le : d ≤ d') : HasSubcode schema d' n (a ++ b) k := by
  obtain ⟨front, back, part, l, e, rfl, position, flat, depth⟩ := h
  exact ⟨front, back ++ b, part, l, e, by simp, position, flat, depth.trans le⟩

theorem hasSubcode_back {a b : List PredNode} {d d' k : Nat}
    (h : HasSubcode schema d (n + a.length) b k) (le : d ≤ d') :
    HasSubcode schema d' n (a ++ b) (a.length + k) := by
  obtain ⟨front, back, part, l, e, rfl, position, flat, depth⟩ := h
  refine ⟨a ++ front, back, part, l, e, by simp, ?_, ?_, depth.trans le⟩
  · rw [List.length_append]
    omega
  · rwa [List.length_append, ← Nat.add_assoc]

theorem hasSubcode_join {kind : PredNodeKind} {a b : Code} {da db d k : Nat}
    (ha : ∀ k < a.nodes.length, HasSubcode schema da n a.nodes k)
    (hb : ∀ k < b.nodes.length, HasSubcode schema db (n + a.nodes.length) b.nodes k)
    (lea : da ≤ d) (leb : db ≤ d)
    (root : (a.join n kind b).nodes.length = k + 1 →
      HasSubcode schema d n (a.join n kind b).nodes k)
    (inside : k < (a.join n kind b).nodes.length) :
    HasSubcode schema d n (a.join n kind b).nodes k := by
  rw [length_join] at inside root
  by_cases last : a.nodes.length + b.nodes.length + 1 = k + 1
  · exact root last
  · refine hasSubcode_front (le_refl d) (h := ?_)
    by_cases first : k < a.nodes.length
    · exact hasSubcode_front (ha k first) lea
    · have back : HasSubcode schema d n (a.nodes ++ b.nodes)
          (a.nodes.length + (k - a.nodes.length)) :=
        hasSubcode_back (hb (k - a.nodes.length) (by omega)) leb
      rwa [show a.nodes.length + (k - a.nodes.length) = k by omega] at back

/-- Every node of a code is the root of the code of some part of the condition, which
needs no more levels than the whole. -/
theorem hasSubcode (h : Flattens schema e n l code) {k : Nat} (inside : k < code.nodes.length) :
    HasSubcode schema (conditionDepth schema e) n code.nodes k := by
  induction h generalizing k with
  | @columnRef name n l =>
    refine hasSubcode_self (l := l) .columnRef ?_
    simp only [List.length_singleton] at inside ⊢
    omega
  | intLiteral =>
    exact hasSubcode_self .intLiteral (by simp only [List.length_singleton] at inside ⊢; omega)
  | string hs hcs =>
    exact hasSubcode_self (.string hs hcs)
      (by simp only [List.length_singleton] at inside ⊢; omega)
  | @comparison kind left right n l a b hs ha hb iha ihb =>
    refine hasSubcode_join (fun k => iha) (fun k => ihb) ?_ ?_
      (hasSubcode_self (.comparison hs ha hb)) inside <;>
    · simp only [conditionDepth, hs]
      omega
  | @boolean kind left right n l a b ha hb iha ihb =>
    refine hasSubcode_join (fun k => iha) (fun k => ihb) ?_ ?_
      (hasSubcode_self (.boolean ha hb)) inside <;>
    · simp only [conditionDepth]
      omega
  | @notExpr child n l a ha ih =>
    by_cases last : (a.negate n).nodes.length = k + 1
    · exact hasSubcode_self (.notExpr ha) last
    · refine hasSubcode_front (ih ?_) (le_refl _)
      simp only [Code.negate, List.length_append, List.length_singleton] at inside last
      omega

/-- Whatever its size, the predicate a package carries is not deeper than the WHERE
clause: an index that wraps is still the root of a part of it. -/
theorem built_depth_le (h : Flattens schema e 0 0 code) (nodes : pkg.predicateNodes = code.nodes)
    {fuel : Nat} {built : Expression P.EncryptedVector}
    (ok : QueryExecutor.buildExpression P pkg fuel pkg.rootIndex = .ok built) :
    built.depth ≤ conditionDepth schema e := by
  have pos := nodes_pos h
  have small : (code.nodes.length - 1) % 2 ^ 32 < 2 ^ 32 := Nat.mod_lt _ (by decide)
  have less := Nat.mod_le (code.nodes.length - 1) (2 ^ 32)
  obtain ⟨front, back, part, l, e', split, position, flat, depth⟩ :=
    hasSubcode h (k := (code.nodes.length - 1) % 2 ^ 32) (by omega)
  rw [Nat.zero_add] at flat
  have carry : CarriesNodes pkg front.length part.nodes := by
    refine ⟨fun k node hk => ?_, by omega⟩
    have hlt := (List.getElem?_eq_some_iff.mp hk).1
    rw [nodes, split, List.append_assoc, List.getElem?_append_right (by omega),
      Nat.add_sub_cancel_left, List.getElem?_append_left hlt, hk]
  have root : pkg.rootIndex = rootOf front.length part := by
    rw [QueryPackage.rootIndex, rootOf, nodes, position, Nat.add_sub_cancel]
    exact UInt32.toNat_inj.mp (by simp only [UInt32.toNat_ofNat', Nat.mod_mod])
  rw [root] at ok
  exact (built_depth flat carry ok).1.trans depth

/-- The WHERE clause leaves room for the equality of a join, if there is one. -/
def Shallow (stmt : SelectStatement) (schema : TableSchema) : Prop :=
  ∀ e, stmt.whereClause = some e →
    conditionDepth schema e + (if stmt.joins = [] then 0 else 1) ≤ keyDepth

/-- The mask of what the executor builds for an accepted statement stays within the
depth of the keys when the WHERE clause is shallow, and only then as long as node
indices and widths fit 32 bits. -/
theorem noise_within_budget_iff {fheMeta : FHEParamsMeta} {rng : P.Rng}
    (accepted : analyze cat stmt = .ok schema)
    (sent : clientPackage cat fheMeta stmt rng = .ok pkg ∨
      schemaPackage cat fheMeta stmt rng = .ok pkg) {fuel : Nat}
    {where? : Option (Expression P.EncryptedVector)}
    (built : QueryExecutor.buildWhere P pkg fuel = .ok where?) :
    (Shallow stmt schema → maskDepth pkg.hasJoin where? ≤ keyDepth) ∧
      (pkg.predicateNodes.length < 2 ^ 32 → NarrowColumns schema →
        maskDepth pkg.hasJoin where? ≤ keyDepth → Shallow stmt schema) := by
  obtain ⟨schema', plan, columns, accepted', planOf, madeFrom⟩ := builtFrom_of_sent sent
  obtain rfl := Except.ok.inj (accepted.symm.trans accepted')
  have joins : pkg.hasJoin = true ↔ stmt.joins ≠ [] := by
    rw [(madeFrom.copiesPlan.packageOf planOf).hasJoin]
    cases hj : stmt.joins <;> simp [StatementPlan.joined?, hj]
  rcases predicateNodes_of_package sent with ⟨noClause, empty⟩ |
    ⟨e, schema'', code, hw, accepted'', flat, nodes⟩
  · have noWhere : where? = none := by
      simp only [QueryExecutor.buildWhere, empty, if_true, pure_eq_ok] at built
      exact (Except.ok.inj built).symm
    have shallow : Shallow stmt schema := fun e he => by simp [noClause] at he
    refine ⟨fun _ => ?_, fun _ _ _ => shallow⟩
    cases pkg.hasJoin <;> simp [maskDepth, noWhere, keyDepth, comparisonLevels]
  · obtain rfl := Except.ok.inj (accepted.symm.trans accepted'')
    have nonempty : pkg.predicateNodes ≠ [] := nodes ▸ nodes_ne_nil flat
    simp only [QueryExecutor.buildWhere, if_neg nonempty] at built
    obtain ⟨x, hx, same⟩ := bind_ok_iff.mp built
    obtain rfl := Except.ok.inj same
    have bound : maskDepth pkg.hasJoin (some x) ≤ keyDepth ↔
        x.depth + (if stmt.joins = [] then 0 else 1) ≤ keyDepth := by
      by_cases single : stmt.joins = []
      · have scans : pkg.hasJoin = false := by
          by_contra other
          exact joins.mp (by simpa using other) single
        simp [scans, maskDepth, single]
      · simp only [joins.mpr single, maskDepth, if_neg single, keyDepth, comparisonLevels]
        omega
    have shallow : Shallow stmt schema ↔
        conditionDepth schema e + (if stmt.joins = [] then 0 else 1) ≤ keyDepth :=
      ⟨fun h => h e hw, fun h e' he' => by
        obtain rfl := Option.some.inj (hw.symm.trans he')
        exact h⟩
    rw [bound, shallow]
    constructor
    · intro fits
      have := built_depth_le flat nodes hx
      omega
    · intro few narrow fits
      have carry : CarriesNodes pkg 0 code.nodes :=
        ⟨fun k node hk => by rw [nodes, Nat.zero_add, hk], by rw [← nodes]; omega⟩
      have root : pkg.rootIndex = rootOf 0 code := by
        rw [QueryPackage.rootIndex, rootOf, nodes, Nat.zero_add]
      have exactly := (built_depth flat carry (root ▸ hx)).2 narrow
      omega

/-- `age = 1 OR age = 2 OR …`, as the parser nests a chain of `count` more comparisons. -/
def agesChain : Nat → ASTExpr
  | 0 => .comparison .Equal (.columnRef (str "age")) (.intLiteral 1)
  | count + 1 =>
    .boolean .Or (agesChain count) (.comparison .Equal (.columnRef (str "age"))
      (.intLiteral (count + 2)))

/-- The depth of the mask the plaintext proto1 evaluates for a chain. -/
def chainDepth (count : Nat) : Except Exn Nat := do
  let pkg ← clientPackage (P := plainProto1 1) makeEmployeesCatalog {}
    (namesWhere (agesChain count))
    ()
  let where? ← QueryExecutor.buildWhere (plainProto1 1) pkg (count + 2)
  pure (maskDepth pkg.hasJoin where?)

/-- Five comparisons are four levels of OR above one comparison. -/
theorem agesChain_within_budget : ∃ d ≤ keyDepth, chainDepth 4 = .ok d := by
  have evaluated : ∃ d, chainDepth 4 = .ok d := ⟨12, by decide +kernel⟩
  obtain ⟨d, hd⟩ := evaluated
  obtain ⟨pkg, sent, rest⟩ := bind_ok_iff.mp hd
  obtain ⟨where?, built, same⟩ := bind_ok_iff.mp rest
  obtain rfl := Except.ok.inj same
  refine ⟨_, (noise_within_budget_iff rfl (Or.inl sent) built).1 ?_, hd⟩
  rintro e he
  cases he
  decide

/-- A sixth comparison is one level too many. -/
theorem accepted_statement_can_exceed_budget :
    ¬ ∀ (P : Proto1) (cat : Catalog) (stmt : SelectStatement) (fheMeta : FHEParamsMeta)
      (rng : P.Rng) (pkg : QueryPackage) (fuel : Nat)
      (where? : Option (Expression P.EncryptedVector)),
      clientPackage cat fheMeta stmt rng = .ok pkg →
      QueryExecutor.buildWhere P pkg fuel = .ok where? →
      maskDepth pkg.hasJoin where? ≤ keyDepth := by
  intro all
  have evaluated : chainDepth 5 = .ok 13 := by decide +kernel
  obtain ⟨pkg, sent, rest⟩ := bind_ok_iff.mp evaluated
  obtain ⟨where?, built, same⟩ := bind_ok_iff.mp rest
  have fits := all _ _ _ _ _ _ _ _ sent built
  rw [Except.ok.inj same] at fits
  exact absurd fits (by decide)

end NoiseBudget

end FheSql
