import FheSql.Lib.BalancedFold
import FheSql.PredicateTree
import FheSql.QueryExecutor

/-!
# What `buildExpression` builds at a node

The conjunction that `combine` assembles from a range of comparisons is the
balanced fold of that range. With it each case of `buildExpression` has one
equation, and later modules never look inside the lambda again.
-/

namespace FheSql.PredicateExpression

open ByteText Throwing BalancedFold

/-- The balanced conjunction of a list of expressions. -/
def conjunction {CT : Type} (l : List (Expression CT)) : Expression CT :=
  balanced .andExpr (.columnRef []) l

variable {P : Proto1}

theorem slice_take {α : Type} (l : List α) {first middle last : Nat} (h : middle ≤ last) :
    ((l.drop first).take (last - first)).take (middle - first) =
      (l.drop first).take (middle - first) := by
  rw [List.take_take]
  congr 1
  omega

theorem slice_drop {α : Type} (l : List α) {first middle last : Nat} (h : first ≤ middle) :
    ((l.drop first).take (last - first)).drop (middle - first) =
      (l.drop middle).take (last - middle) := by
  rw [List.drop_take, List.drop_drop]
  congr 1
  · omega
  · congr 1
    omega

theorem combine_eq (comparisons : List (Expression P.EncryptedVector))
    {fuel first last : Nat} (enough : last - first ≤ fuel) (nonempty : first < last)
    (bound : last ≤ comparisons.length) :
    QueryExecutor.combine P comparisons fuel first last =
      .ok (conjunction ((comparisons.drop first).take (last - first))) := by
  induction fuel generalizing first last with
  | zero => omega
  | succ fuel ih =>
    simp only [QueryExecutor.combine]
    by_cases one : last - first = 1
    · have inside : first < comparisons.length := by omega
      have here : comparisons[first]? = some comparisons[first] := List.getElem?_eq_getElem _
      have single : (comparisons.drop first).take 1 = [comparisons[first]] := by
        rw [List.drop_eq_getElem_cons inside]
        rfl
      rw [if_pos one, here, one, single, conjunction, balanced_singleton]
    · generalize hmid : first + (last - first) / 2 = middle
      have length : ((comparisons.drop first).take (last - first)).length = last - first := by
        rw [List.length_take, List.length_drop]
        omega
      have half : (last - first) / 2 = middle - first := by omega
      rw [if_neg one, ih (by omega) (by omega) (by omega), ih (by omega) (by omega) (by omega)]
      simp only [ok_bind, pure_eq_ok, conjunction]
      rw [balanced_halves _ _ (l := (comparisons.drop first).take (last - first)) (by omega),
        length, half, slice_take _ (by omega), slice_drop _ (by omega)]

theorem combine_all {comparisons : List (Expression P.EncryptedVector)}
    (nonempty : comparisons ≠ []) :
    QueryExecutor.combine P comparisons comparisons.length 0 comparisons.length =
      .ok (conjunction comparisons) := by
  have pos := List.length_pos_of_ne_nil nonempty
  rw [combine_eq comparisons (by omega) pos (Nat.le_refl _)]
  simp

/-- The equation of the string cases: one comparison for each position, joined
by `conjunction`. -/
theorem stringEquality_eq {pkg : QueryPackage} {node : PredNode}
    (wide : node.stringWidth ≠ 0) :
    QueryExecutor.stringEquality P pkg node =
      conjunction <$>
        (List.range node.stringWidth.toNat).mapM
          (QueryExecutor.characterComparison P pkg node) := by
  unfold QueryExecutor.stringEquality
  cases hm : (List.range node.stringWidth.toNat).mapM
      (QueryExecutor.characterComparison P pkg node) with
  | error e => rfl
  | ok comparisons =>
    have same := (mapM_ok_iff.mp hm).length_eq
    have positive : node.stringWidth.toNat ≠ 0 := by
      intro h
      exact wide (UInt32.toNat_inj.mp (by simpa using h))
    have nonempty : comparisons ≠ [] := by
      rintro rfl
      rw [List.length_range] at same
      exact positive same
    simp only [ok_bind, if_neg nonempty, combine_all nonempty]
    rfl

/-- What the loop over the positions of a string pushes. -/
theorem characterComparison_ok {pkg : QueryPackage} {node : PredNode}
    {position : Nat} {e : Expression P.EncryptedVector}
    (ok : QueryExecutor.characterComparison P pkg node position = .ok e) :
    ∃ ct, e = .equal (.columnRef (P.stringPhysicalColumn node.columnName position))
      (.encLiteral ct) := by
  simp only [QueryExecutor.characterComparison] at ok
  split at ok
  · cases ok
  · obtain ⟨ct, _, ok⟩ := bind_ok_iff.mp ok
    cases ok
    exact ⟨ct, rfl⟩

/-- What the string cases build: a conjunction of one comparison for each position. -/
theorem stringEquality_ok {pkg : QueryPackage} {node : PredNode}
    {built : Expression P.EncryptedVector}
    (ok : QueryExecutor.stringEquality P pkg node = .ok built) :
    ∃ comparisons, built = conjunction comparisons ∧ comparisons ≠ [] ∧
      comparisons.length = node.stringWidth.toNat ∧ ∀ c ∈ comparisons,
        ∃ position < node.stringWidth.toNat, ∃ ct,
          c = .equal (.columnRef (P.stringPhysicalColumn node.columnName position))
            (.encLiteral ct) := by
  by_cases wide : node.stringWidth = 0
  · simp [QueryExecutor.stringEquality, wide] at ok
  rw [stringEquality_eq wide] at ok
  cases hm : (List.range node.stringWidth.toNat).mapM
      (QueryExecutor.characterComparison P pkg node) with
  | error e =>
    rw [hm] at ok
    cases ok
  | ok comparisons =>
    rw [hm] at ok
    have length := (mapM_ok_iff.mp hm).length_eq
    rw [List.length_range] at length
    refine ⟨comparisons, (Except.ok.inj ok).symm, ?_, length.symm, fun c mem => ?_⟩
    · rintro rfl
      exact wide (UInt32.toNat_inj.mp length)
    · obtain ⟨position, inside, hp⟩ := mapM_ok_mem hm mem
      obtain ⟨ct, built⟩ := characterComparison_ok hp
      exact ⟨position, List.mem_range.mp inside, ct, built⟩

/-- What the binary cases make of their two operands. -/
def binaryExpression {CT : Type} (kind : PredNodeKind) (l r : Expression CT) : Expression CT :=
  match kind with
  | .Equal => .equal l r
  | .NotEqual => .notExpr (.equal l r)
  | .GreaterThan => .gt l r
  | .LessThan => .lt l r
  | .GreaterEqual => .orExpr (.gt l r) (.equal l r)
  | .LessEqual => .orExpr (.lt l r) (.equal l r)
  | .And => .andExpr l r
  | _ => .orExpr l r

theorem buildExpression_binary {pkg : QueryPackage} {fuel : Nat} {i : UInt32} {node : PredNode}
    (hn : pkg.predicateNodes[i.toNat]? = some node) (hb : node.kind.isBinary = true) :
    QueryExecutor.buildExpression P pkg (fuel + 1) i = (do
      let l ← QueryExecutor.buildExpression P pkg fuel node.left
      let r ← QueryExecutor.buildExpression P pkg fuel node.right
      pure (binaryExpression node.kind l r)) := by
  cases hk : node.kind <;> rw [hk] at hb <;>
    first
      | (cases hb; done)
      | simp only [QueryExecutor.buildExpression, hn, hk, binaryExpression]

/-- The nodes and the literals are all that is read of a package. -/
theorem buildExpression_congr (pkg pkg' : QueryPackage)
    (nodes : pkg.predicateNodes = pkg'.predicateNodes)
    (literals : pkg.encryptedLiterals = pkg'.encryptedLiterals) (fuel : Nat) (i : UInt32) :
    QueryExecutor.buildExpression P pkg fuel i = QueryExecutor.buildExpression P pkg' fuel i := by
  have literal : ∀ id, pkg.literal? id = pkg'.literal? id := by
    intro id
    simp only [QueryPackage.literal?, literals]
  have character : QueryExecutor.characterComparison P pkg =
      QueryExecutor.characterComparison P pkg' := by
    funext node position
    simp only [QueryExecutor.characterComparison, literal]
  induction fuel generalizing i with
  | zero => rfl
  | succ fuel ih =>
    simp only [QueryExecutor.buildExpression, QueryExecutor.literalExpression,
      QueryExecutor.stringEquality, nodes, literal, character, ih]

theorem buildWhere_congr (pkg pkg' : QueryPackage)
    (nodes : pkg.predicateNodes = pkg'.predicateNodes)
    (literals : pkg.encryptedLiterals = pkg'.encryptedLiterals) (fuel : Nat) :
    QueryExecutor.buildWhere P pkg fuel = QueryExecutor.buildWhere P pkg' fuel := by
  have root : pkg.rootIndex = pkg'.rootIndex := by
    simp only [QueryPackage.rootIndex, nodes]
  simp only [QueryExecutor.buildWhere, nodes, root, buildExpression_congr pkg pkg' nodes literals]

theorem buildExpression_not {pkg : QueryPackage} {fuel : Nat} {i : UInt32} {node : PredNode}
    (hn : pkg.predicateNodes[i.toNat]? = some node) (hk : node.kind = .Not) :
    QueryExecutor.buildExpression P pkg (fuel + 1) i =
      .notExpr <$> QueryExecutor.buildExpression P pkg fuel node.left := by
  simp only [QueryExecutor.buildExpression, hn, hk]
  rfl

theorem buildExpression_stringEqual {pkg : QueryPackage} {fuel : Nat} {i : UInt32}
    {node : PredNode} (hn : pkg.predicateNodes[i.toNat]? = some node)
    (hk : node.kind = .StringEqual) :
    QueryExecutor.buildExpression P pkg (fuel + 1) i =
      QueryExecutor.stringEquality P pkg node := by
  simp only [QueryExecutor.buildExpression, hn, hk]

theorem buildExpression_stringNotEqual {pkg : QueryPackage} {fuel : Nat} {i : UInt32}
    {node : PredNode} (hn : pkg.predicateNodes[i.toNat]? = some node)
    (hk : node.kind = .StringNotEqual) :
    QueryExecutor.buildExpression P pkg (fuel + 1) i =
      .notExpr <$> QueryExecutor.stringEquality P pkg node := by
  simp only [QueryExecutor.buildExpression, hn, hk]
  rfl

end FheSql.PredicateExpression
