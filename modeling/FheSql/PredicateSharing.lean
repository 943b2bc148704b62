import FheSql.ValidatedPredicates
import Mathlib.Algebra.BigOperators.Ring.List
import Mathlib.Algebra.Order.BigOperators.Group.List
import Mathlib.Algebra.Order.Group.Nat
import Mathlib.Algebra.GroupWithZero.Nat
import Mathlib.Algebra.Ring.Nat

/-!
# Shared nodes

The validator keeps no record of the nodes it has been to, so a node may be the child of
two others, and `buildExpression` gives each operand of a `>=` or `<=` node to two operators.
The calls of both recursions and the operators of the built expression are counted here, for
predicates in which every node has one path from the root and for those that share.
-/

namespace FheSql

open ByteText

/-- The operators of an expression. -/
def Expression.operators {CT : Type} : Expression CT → Nat
  | columnRef _ => 0
  | encLiteral _ => 0
  | equal l r => l.operators + r.operators + 1
  | gt l r => l.operators + r.operators + 1
  | lt l r => l.operators + r.operators + 1
  | andExpr l r => l.operators + r.operators + 1
  | orExpr l r => l.operators + r.operators + 1
  | notExpr e => e.operators + 1

namespace PredicateSharing

open Throwing FlatTree BalancedFold PredicateTree PredicateExpression ValidatedPackage
open ValidatedPredicates

section Costs

variable (P : Proto1) (cat : Catalog) (pkg : QueryPackage) (schema : TableSchema)

/-- The reference of a node that is followed on a side. -/
def childOf (i : UInt32) (side : Bool) : Option UInt32 :=
  (pkg.predicateNodes[i.toNat]?).bind fun node =>
    if node.kind.isBinary then some (if side then node.right else node.left)
    else if node.kind = .Not ∧ side = false then some node.left
    else none

/-- One call of `buildExpression`. -/
def buildVisit (i : UInt32) : Visit UInt32 Exn (Expression P.EncryptedVector) :=
  match pkg.predicateNodes[i.toNat]? with
  | none => .done (throw (.runtimeError (str "buildExpression: node index out of range")))
  | some node =>
    match node.kind with
    | .ColumnRef => .done (pure (.columnRef node.columnName))
    | .LiteralRef => .done (QueryExecutor.literalExpression P pkg node)
    | .StringEqual => .done (QueryExecutor.stringEquality P pkg node)
    | .StringNotEqual => .done (.notExpr <$> QueryExecutor.stringEquality P pkg node)
    | .Not => .unary node.left .notExpr
    | .unlisted _ _ => .done (throw (.runtimeError (str "buildExpression: unknown node kind")))
    | kind => .binary node.left node.right (binaryExpression kind)

/-- The nodes `validate` calls `validatePredTree` on. -/
def validatorCalls (fuel : Nat) : List UInt32 :=
  if pkg.predicateNodes = [] then []
  else walkCalls .outOfFuel (visit cat pkg schema) fuel pkg.rootIndex

/-- The nodes `execute` calls `buildExpression` on. -/
def builderCalls (fuel : Nat) : List UInt32 :=
  if pkg.predicateNodes = [] then []
  else walkCalls .outOfFuel (buildVisit P pkg) fuel pkg.rootIndex

/-- The width of the string a node compares. -/
def textWidth (node : PredNode) : Nat :=
  if node.kind = .StringEqual ∨ node.kind = .StringNotEqual then node.stringWidth.toNat else 0

/-- The nodes of a package and the characters they compare. -/
def extent : Nat :=
  pkg.predicateNodes.length + (pkg.predicateNodes.map textWidth).sum

/-- Every node has one path from the last one, both recursions make at most one call for a
node, and the expression they end in has at most `constant` operators for each node and for
each character. -/
structure TreeShaped (constant : Nat) : Prop where
  paths : SinglePaths (childOf pkg) pkg.rootIndex
  validatorCalls : ∀ fuel,
    (validatorCalls cat pkg schema fuel).length ≤ pkg.predicateNodes.length
  builderCalls : ∀ (P : Proto1) fuel,
    (builderCalls P pkg fuel).length ≤ pkg.predicateNodes.length
  operators : ∀ (P : Proto1) fuel (e : Expression P.EncryptedVector),
    QueryExecutor.buildWhere P pkg fuel = .ok (some e) → e.operators ≤ constant * extent pkg

/-- The operators that stand for a node. -/
def ownOperators (node : PredNode) : Nat :=
  match node.kind with
  | .ColumnRef | .LiteralRef | .unlisted _ _ => 0
  | .Equal | .GreaterThan | .LessThan | .And | .Or | .Not => 1
  | .NotEqual => 2
  | .GreaterEqual | .LessEqual => 3
  | .StringEqual => 2 * node.stringWidth.toNat - 1
  | .StringNotEqual => 2 * node.stringWidth.toNat

/-- Whether the operands of a node are used twice. -/
def doubles (node : PredNode) : Nat :=
  if node.kind = .GreaterEqual ∨ node.kind = .LessEqual then 1 else 0

def operatorsAt (i : UInt32) : Nat := ((pkg.predicateNodes[i.toNat]?).map ownOperators).getD 0

def doublesAt (i : UInt32) : Nat := ((pkg.predicateNodes[i.toNat]?).map doubles).getD 0

/-- The nodes below a node, in the order of the calls, each with the number of `>=` and `<=`
nodes above it. -/
def occurrences : Nat → Nat → UInt32 → List (UInt32 × Nat)
  | 0, _, _ => []
  | fuel + 1, above, i =>
    (i, above) ::
      ((childOf pkg i false).elim [] (occurrences fuel (above + doublesAt pkg i)) ++
        (childOf pkg i true).elim [] (occurrences fuel (above + doublesAt pkg i)))

/-- The operators of all nodes, doubled for each `>=` and `<=` node above them. -/
def doubledOperators (fuel : Nat) : Nat :=
  ((occurrences pkg fuel 0 pkg.rootIndex).map fun o => operatorsAt pkg o.1 * 2 ^ o.2).sum

/-- No operator stands below more than `depth` nodes of `>=` and `<=`. -/
def NestsAtMost (depth : Nat) : Prop :=
  ∀ fuel, ∀ o ∈ occurrences pkg fuel 0 pkg.rootIndex, operatorsAt pkg o.1 ≠ 0 → o.2 ≤ depth

end Costs

variable {P : Proto1} {cat : Catalog} {serverParamSetId : Str} {pkg : QueryPackage}
  {schema : TableSchema}

/-- `buildExpression` is a walk over the nodes. -/
theorem buildExpression_eq_walk (fuel : Nat) (i : UInt32) :
    QueryExecutor.buildExpression P pkg fuel i =
      walk .outOfFuel (buildVisit P pkg) fuel i := by
  induction fuel generalizing i with
  | zero => rfl
  | succ fuel ih =>
    cases hn : pkg.predicateNodes[i.toNat]? with
    | none => simp only [QueryExecutor.buildExpression, walk, buildVisit, hn]
    | some node =>
      cases hk : node.kind <;>
        simp only [QueryExecutor.buildExpression, walk, buildVisit, hn, hk, ih, binaryExpression]
      rfl

theorem childOf_binary {i : UInt32} {node : PredNode}
    (hn : pkg.predicateNodes[i.toNat]? = some node) (hb : node.kind.isBinary = true) (side : Bool) :
    childOf pkg i side = some (if side then node.right else node.left) := by
  simp only [childOf, hn, Option.bind_some, hb, if_true]

theorem childOf_not {i : UInt32} {node : PredNode}
    (hn : pkg.predicateNodes[i.toNat]? = some node) (hk : node.kind = .Not) :
    childOf pkg i false = some node.left := by
  simp [childOf, hn, hk, PredNodeKind.isBinary]

theorem childOf_not_right {i : UInt32} {node : PredNode}
    (hn : pkg.predicateNodes[i.toNat]? = some node) (hk : node.kind = .Not) :
    childOf pkg i true = none := by
  simp [childOf, hn, hk, PredNodeKind.isBinary]

theorem childOf_leaf {i : UInt32} {node : PredNode}
    (hn : pkg.predicateNodes[i.toNat]? = some node) (notBinary : node.kind.isBinary = false)
    (notNot : node.kind ≠ .Not) (side : Bool) : childOf pkg i side = none := by
  simp [childOf, hn, notBinary, notNot]

theorem visit_conforms : Conforms (visit cat pkg schema) (childOf pkg) := by
  constructor
  · intro i c combine hv
    cases hn : pkg.predicateNodes[i.toNat]? with
    | none =>
      obtain ⟨e, he⟩ := visit_none cat schema hn
      rw [hv] at he
      cases he
    | some node =>
      rcases visit_cases cat schema hn with
        ⟨_, _, r, hv', _⟩ | ⟨_, _, e, hv'⟩ | ⟨hk, _, hv'⟩ | ⟨_, _, e, hv'⟩ | ⟨_, _, _, hv'⟩ <;>
        rw [hv] at hv' <;> cases hv'
      exact childOf_not hn hk
  · intro i left right combine hv
    cases hn : pkg.predicateNodes[i.toNat]? with
    | none =>
      obtain ⟨e, he⟩ := visit_none cat schema hn
      rw [hv] at he
      cases he
    | some node =>
      rcases visit_cases cat schema hn with
        ⟨_, _, r, hv', _⟩ | ⟨_, _, e, hv'⟩ | ⟨_, _, hv'⟩ | ⟨_, _, e, hv'⟩ | ⟨hb, _, _, hv'⟩ <;>
        rw [hv] at hv' <;> cases hv'
      exact ⟨childOf_binary hn hb false, childOf_binary hn hb true⟩

theorem operators_stringEquality {node : PredNode} {built : Expression P.EncryptedVector}
    (ok : QueryExecutor.stringEquality P pkg node = .ok built) :
    built.operators + 1 = 2 * node.stringWidth.toNat := by
  obtain ⟨comparisons, rfl, nonempty, length, all⟩ := stringEquality_ok ok
  rw [← length]
  refine balanced_size (s := Expression.operators) (fun _ _ => rfl) _ nonempty fun c mem => ?_
  obtain ⟨_, _, ct, rfl⟩ := all c mem
  rfl

variable (P) in
/-- What a call of `buildExpression` does at a node. -/
theorem buildVisit_cases {i : UInt32} {node : PredNode}
    (hn : pkg.predicateNodes[i.toNat]? = some node) :
    (node.kind.isBinary = false ∧ node.kind ≠ .Not ∧ ∃ r, buildVisit P pkg i = .done r ∧
      ∀ e, r = .ok e → e.operators = ownOperators node) ∨
    (node.kind = .Not ∧ buildVisit P pkg i = .unary node.left .notExpr) ∨
    (node.kind.isBinary = true ∧
      buildVisit P pkg i = .binary node.left node.right (binaryExpression node.kind)) := by
  cases hk : node.kind with
  | ColumnRef =>
    refine Or.inl ⟨rfl, nofun, _, by simp only [buildVisit, hn, hk]; rfl, fun e same => ?_⟩
    cases same
    rw [ownOperators, hk]
    rfl
  | LiteralRef =>
    refine Or.inl ⟨rfl, nofun, _, by simp only [buildVisit, hn, hk]; rfl, fun e same => ?_⟩
    unfold QueryExecutor.literalExpression at same
    split at same
    · cases same
    · obtain ⟨ct, _, same⟩ := bind_ok_iff.mp same
      cases same
      rw [ownOperators, hk]
      rfl
  | StringEqual =>
    refine Or.inl ⟨rfl, nofun, _, by simp only [buildVisit, hn, hk]; rfl, fun e same => ?_⟩
    have count := operators_stringEquality same
    simp only [ownOperators, hk]
    omega
  | StringNotEqual =>
    refine Or.inl ⟨rfl, nofun, _, by simp only [buildVisit, hn, hk]; rfl, fun e same => ?_⟩
    cases built : QueryExecutor.stringEquality P pkg node with
    | error what =>
      rw [built] at same
      cases same
    | ok equality =>
      rw [built] at same
      cases same
      have count := operators_stringEquality built
      simp only [ownOperators, hk]
      exact count
  | unlisted byte above =>
    refine Or.inl ⟨rfl, nofun, _, by simp only [buildVisit, hn, hk]; rfl, fun e same => ?_⟩
    cases same
  | Not => exact Or.inr (Or.inl ⟨rfl, by simp only [buildVisit, hn, hk]⟩)
  | Equal | NotEqual | GreaterThan | LessThan | GreaterEqual | LessEqual | And | Or =>
    exact Or.inr (Or.inr ⟨rfl, by simp only [buildVisit, hn, hk]⟩)

theorem buildVisit_conforms : Conforms (buildVisit P pkg) (childOf pkg) := by
  constructor
  · intro i c combine hv
    cases hn : pkg.predicateNodes[i.toNat]? with
    | none =>
      simp only [buildVisit, hn] at hv
      cases hv
    | some node =>
      rcases buildVisit_cases P hn with ⟨_, _, r, hv', _⟩ | ⟨hk, hv'⟩ | ⟨_, hv'⟩ <;>
        rw [hv] at hv' <;> cases hv'
      exact childOf_not hn hk
  · intro i left right combine hv
    cases hn : pkg.predicateNodes[i.toNat]? with
    | none =>
      simp only [buildVisit, hn] at hv
      cases hv
    | some node =>
      rcases buildVisit_cases P hn with ⟨_, _, r, hv', _⟩ | ⟨_, hv'⟩ | ⟨hb, hv'⟩ <;>
        rw [hv] at hv' <;> cases hv'
      exact ⟨childOf_binary hn hb false, childOf_binary hn hb true⟩

theorem operators_binary {node : PredNode} (hb : node.kind.isBinary = true)
    (l r : Expression P.EncryptedVector) :
    (binaryExpression node.kind l r).operators =
      ownOperators node + 2 ^ doubles node * (l.operators + r.operators) := by
  cases hk : node.kind <;> rw [hk] at hb <;> (try cases hb) <;>
    simp only [binaryExpression, Expression.operators, ownOperators, doubles, hk] <;> simp <;> omega

theorem operatorsAt_eq {i : UInt32} {node : PredNode}
    (hn : pkg.predicateNodes[i.toNat]? = some node) :
    operatorsAt pkg i = ownOperators node := by
  rw [operatorsAt, hn]
  rfl

theorem doublesAt_eq {i : UInt32} {node : PredNode}
    (hn : pkg.predicateNodes[i.toNat]? = some node) : doublesAt pkg i = doubles node := by
  rw [doublesAt, hn]
  rfl

/-- Building calls the nodes that occur, and their doubled operators are those of the result. -/
theorem occurrences_of_build {fuel : Nat} {i : UInt32} {e : Expression P.EncryptedVector}
    (built : QueryExecutor.buildExpression P pkg fuel i = .ok e) (above : Nat) :
    (occurrences pkg fuel above i).map Prod.fst =
        walkCalls .outOfFuel (buildVisit P pkg) fuel i ∧
      ((occurrences pkg fuel above i).map fun o => operatorsAt pkg o.1 * 2 ^ o.2).sum =
        2 ^ above * e.operators := by
  induction fuel generalizing i e above with
  | zero => cases built
  | succ fuel ih =>
    cases hn : pkg.predicateNodes[i.toNat]? with
    | none =>
      simp only [QueryExecutor.buildExpression, hn] at built
      cases built
    | some node =>
      rcases buildVisit_cases P hn with ⟨notBinary, notNot, r, hv, own⟩ | ⟨hk, hv⟩ | ⟨hb, hv⟩
      · have leaf := childOf_leaf hn notBinary notNot
        rw [buildExpression_eq_walk, walk, hv] at built
        simp only [occurrences, leaf, Option.elim_none, List.append_nil, walkCalls, hv,
          List.map_cons, List.map_nil, List.sum_singleton, operatorsAt_eq hn, own e built, true_and]
        exact Nat.mul_comm _ _
      · have single : doubles node = 0 := by simp [doubles, hk]
        rw [buildExpression_not hn hk, map_eq_pure_bind] at built
        obtain ⟨l, hl, same⟩ := bind_ok_iff.mp built
        cases same
        obtain ⟨calls, count⟩ := ih hl above
        simp only [occurrences, childOf_not hn hk, childOf_not_right hn hk, Option.elim_some,
          Option.elim_none, List.append_nil, walkCalls, hv, doublesAt_eq hn, single,
          Nat.add_zero, List.map_cons, calls, List.sum_cons, count, operatorsAt_eq hn,
          Expression.operators, true_and]
        simp only [ownOperators, hk, Nat.mul_add]
        omega
      · rw [buildExpression_binary hn hb] at built
        obtain ⟨l, hl, built⟩ := bind_ok_iff.mp built
        obtain ⟨r, hr, same⟩ := bind_ok_iff.mp built
        cases same
        obtain ⟨callsLeft, left⟩ := ih hl (above + doubles node)
        obtain ⟨callsRight, right⟩ := ih hr (above + doubles node)
        have reached : walk .outOfFuel (buildVisit P pkg) fuel node.left = .ok l := by
          rw [← buildExpression_eq_walk]
          exact hl
        simp only [occurrences, childOf_binary hn hb, Bool.false_eq_true, if_false, if_true,
          Option.elim_some, walkCalls, hv, reached, doublesAt_eq hn, List.map_cons,
          List.map_append, callsLeft, callsRight, List.sum_cons, List.sum_append, left, right,
          operatorsAt_eq hn, operators_binary hb, true_and]
        rw [Nat.pow_add, Nat.mul_add, Nat.mul_add, Nat.mul_add, Nat.mul_assoc, Nat.mul_assoc,
          Nat.mul_comm (ownOperators node)]

theorem occurrences_succ (fuel above : Nat) (i : UInt32) :
    (occurrences pkg fuel above i).Sublist (occurrences pkg (fuel + 1) above i) := by
  induction fuel generalizing above i with
  | zero => exact List.nil_sublist _
  | succ fuel ih =>
    have side : ∀ (child : Option UInt32) (above : Nat),
        (child.elim [] (occurrences pkg fuel above)).Sublist
          (child.elim [] (occurrences pkg (fuel + 1) above)) := by
      intro child above
      cases child with
      | none => exact List.nil_sublist _
      | some c => exact ih above c
    exact ((side _ _).append (side _ _)).cons_cons _

theorem doubledOperators_mono {fuel fuel' : Nat} (le : fuel ≤ fuel') :
    doubledOperators pkg fuel ≤ doubledOperators pkg fuel' := by
  induction le with
  | refl => exact le_rfl
  | step _ ih =>
    refine ih.trans ?_
    exact ((occurrences_succ _ 0 pkg.rootIndex).map _).sum_le_sum fun _ _ => Nat.zero_le _

theorem doubledOperators_of_build {fuel : Nat} {e : Expression P.EncryptedVector}
    (built : QueryExecutor.buildExpression P pkg fuel pkg.rootIndex = .ok e) :
    doubledOperators pkg fuel = e.operators := by
  rw [doubledOperators, (occurrences_of_build built 0).2, Nat.pow_zero, Nat.one_mul]

theorem link_iff_childOf {i j : UInt32} :
    Link pkg i j ↔ ∃ side, childOf pkg i side = some j := by
  constructor
  · rintro ⟨node, hn, ⟨hk, rfl⟩ | ⟨hb, rfl | rfl⟩⟩
    · exact ⟨false, childOf_not hn hk⟩
    · exact ⟨false, childOf_binary hn hb false⟩
    · exact ⟨true, childOf_binary hn hb true⟩
  · rintro ⟨side, h⟩
    obtain ⟨node, hn, h⟩ := Option.bind_eq_some_iff.mp h
    by_cases hb : node.kind.isBinary = true
    · rw [if_pos hb] at h
      refine ⟨node, hn, Or.inr ⟨hb, ?_⟩⟩
      cases side with
      | false => exact Or.inl (Option.some.inj h).symm
      | true => exact Or.inr (Option.some.inj h).symm
    · rw [if_neg hb] at h
      by_cases hk : node.kind = .Not ∧ side = false
      · rw [if_pos hk] at h
        exact ⟨node, hn, Or.inl ⟨hk.1, (Option.some.inj h).symm⟩⟩
      · rw [if_neg hk] at h
        cases h

theorem path_of_follow {i j : UInt32} {path : List Bool}
    (h : follow (childOf pkg) i path = some j) : Relation.ReflTransGen (Link pkg) i j := by
  induction path generalizing i with
  | nil =>
    cases h
    exact .refl
  | cons side path ih =>
    obtain ⟨k, link, rest⟩ := Option.bind_eq_some_iff.mp h
    exact (ih rest).head (link_iff_childOf.mpr ⟨side, link⟩)

theorem wellFormed_follow {i j : UInt32} {path : List Bool} (h : WellFormed cat pkg schema i)
    (followed : follow (childOf pkg) i path = some j) : WellFormed cat pkg schema j := by
  have reached := path_of_follow followed
  clear followed
  induction reached with
  | refl => exact h
  | tail _ link ih => exact wellFormed_link ih link

theorem exists_node_of_wellFormed {i : UInt32} (h : WellFormed cat pkg schema i) :
    ∃ node, pkg.predicateNodes[i.toNat]? = some node := by
  cases h with
  | leaf hn => exact ⟨_, hn⟩
  | unary hn => exact ⟨_, hn⟩
  | binary hn => exact ⟨_, hn⟩

/-- A well-formed index lies above its own subtree. -/
theorem acc_of_wellFormed {i : UInt32} (h : WellFormed cat pkg schema i) :
    Acc (fun j i => Link pkg i j) i := by
  induction h with
  | leaf hn notBinary notNot _ =>
    refine Acc.intro _ ?_
    rintro j ⟨node, hn', ⟨hk, _⟩ | ⟨hb, _⟩⟩ <;> cases hn.symm.trans hn'
    · exact absurd hk notNot
    · rw [notBinary] at hb
      cases hb
  | unary hn kind _ _ ih =>
    refine Acc.intro _ ?_
    rintro j ⟨node, hn', ⟨_, rfl⟩ | ⟨hb, _⟩⟩ <;> cases hn.symm.trans hn'
    · exact ih
    · rw [kind] at hb
      cases hb
  | binary hn kind _ _ _ _ ihl ihr =>
    refine Acc.intro _ ?_
    rintro j ⟨node, hn', ⟨hk, _⟩ | ⟨_, rfl | rfl⟩⟩ <;> cases hn.symm.trans hn'
    · rw [hk] at kind
      cases kind
    · exact ihl
    · exact ihr

theorem follow_acyclic {i : UInt32} (h : WellFormed cat pkg schema i) {path : List Bool}
    (back : follow (childOf pkg) i path = some i) : path = [] := by
  cases path with
  | nil => rfl
  | cons side path =>
    obtain ⟨k, link, rest⟩ := Option.bind_eq_some_iff.mp back
    have cycle : Relation.TransGen (Link pkg) i i :=
      .head' (link_iff_childOf.mpr ⟨side, link⟩) (path_of_follow rest)
    exact absurd (Relation.transGen_swap.mpr cycle) (acc_not_cyclic (acc_of_wellFormed h))

theorem wellFormed_of_mem_calls {α : Type} {walked : UInt32 → Visit UInt32 Exn α}
    (conforms : Conforms walked (childOf pkg)) {i j : UInt32} (h : WellFormed cat pkg schema i)
    {fuel : Nat} (mem : j ∈ walkCalls .outOfFuel walked fuel i) : WellFormed cat pkg schema j := by
  obtain ⟨path, followed⟩ := mem_walkCalls conforms mem
  exact wellFormed_follow h followed

/-- Calls on reached nodes, none twice, are not more than the nodes. -/
theorem calls_subperm {calls : List UInt32} (nodup : calls.Nodup)
    (reached : ∀ j ∈ calls, WellFormed cat pkg schema j) :
    (calls.map UInt32.toNat).Subperm (List.range pkg.predicateNodes.length) := by
  refine List.subperm_of_subset (nodup.map fun a b => UInt32.toNat_inj.mp) fun k mem => ?_
  obtain ⟨j, hj, rfl⟩ := List.mem_map.mp mem
  obtain ⟨node, hn⟩ := exists_node_of_wellFormed (reached j hj)
  exact List.mem_range.mpr (List.getElem?_eq_some_iff.mp hn).1

theorem length_calls_le {calls : List UInt32} (nodup : calls.Nodup)
    (reached : ∀ j ∈ calls, WellFormed cat pkg schema j) :
    calls.length ≤ pkg.predicateNodes.length := by
  have length := (calls_subperm nodup reached).length_le
  rwa [List.length_map, List.length_range] at length

/-- The width at an index of the array. -/
def widthAt (pkg : QueryPackage) (k : Nat) : Nat := ((pkg.predicateNodes[k]?).map textWidth).getD 0

theorem sum_widthAt :
    ((List.range pkg.predicateNodes.length).map (widthAt pkg)).sum =
      (pkg.predicateNodes.map textWidth).sum := by
  congr 1
  refine List.ext_getElem (by simp) fun k inside _ => ?_
  rw [List.length_map, List.length_range] at inside
  simp [widthAt, inside]

theorem ownOperators_le (node : PredNode) : ownOperators node ≤ 3 + 2 * textWidth node := by
  unfold ownOperators textWidth
  cases node.kind <;> simp
  omega

theorem operators_le {calls : List UInt32} (nodup : calls.Nodup)
    (reached : ∀ j ∈ calls, WellFormed cat pkg schema j) :
    (calls.map (operatorsAt pkg)).sum ≤ 3 * extent pkg := by
  have each : (calls.map (operatorsAt pkg)).sum ≤
      3 * calls.length + 2 * ((calls.map UInt32.toNat).map (widthAt pkg)).sum := by
    clear nodup
    induction calls with
    | nil => exact Nat.zero_le _
    | cons j calls ih =>
      have rest := ih fun k mem => reached k (List.mem_cons_of_mem j mem)
      obtain ⟨node, hn⟩ := exists_node_of_wellFormed (reached j List.mem_cons_self)
      have here := ownOperators_le node
      have width : widthAt pkg j.toNat = textWidth node := by rw [widthAt, hn]; rfl
      simp only [List.map_cons, List.sum_cons, List.length_cons, width, operatorsAt_eq hn]
      omega
  have count := length_calls_le nodup reached
  obtain ⟨part, perm, sub⟩ := calls_subperm nodup reached
  have widths : ((calls.map UInt32.toNat).map (widthAt pkg)).sum ≤
      (pkg.predicateNodes.map textWidth).sum := by
    rw [← sum_widthAt, ← (perm.map (widthAt pkg)).sum_eq]
    exact (sub.map (widthAt pkg)).sum_le_sum fun _ _ => Nat.zero_le _
  unfold extent
  omega

/-- Below at most `depth` nodes of `>=` and `<=` an operator is there `2 ^ depth` times. -/
theorem operators_le_of_nestsAtMost {depth : Nat} (nests : NestsAtMost pkg depth)
    (root : WellFormed cat pkg schema pkg.rootIndex)
    (single : SinglePaths (childOf pkg) pkg.rootIndex) {fuel : Nat}
    {e : Expression P.EncryptedVector}
    (built : QueryExecutor.buildExpression P pkg fuel pkg.rootIndex = .ok e) :
    e.operators ≤ 3 * 2 ^ depth * extent pkg := by
  obtain ⟨calls, count⟩ := occurrences_of_build built 0
  have nodup : (walkCalls .outOfFuel (buildVisit P pkg) fuel pkg.rootIndex).Nodup :=
    walkCalls_nodup buildVisit_conforms single
  have own : ((occurrences pkg fuel 0 pkg.rootIndex).map fun o => operatorsAt pkg o.1).sum ≤
      3 * extent pkg := by
    have few := operators_le nodup fun j mem => wellFormed_of_mem_calls buildVisit_conforms root mem
    rwa [← calls, List.map_map] at few
  have each : ∀ o ∈ occurrences pkg fuel 0 pkg.rootIndex,
      operatorsAt pkg o.1 * 2 ^ o.2 ≤ operatorsAt pkg o.1 * 2 ^ depth := by
    intro o mem
    by_cases none : operatorsAt pkg o.1 = 0
    · rw [none, Nat.zero_mul, Nat.zero_mul]
    · exact Nat.mul_le_mul_left _ (Nat.pow_le_pow_right (by decide) (nests fuel o mem none))
  calc e.operators
      = ((occurrences pkg fuel 0 pkg.rootIndex).map fun o =>
          operatorsAt pkg o.1 * 2 ^ o.2).sum := by
        rw [count, Nat.pow_zero, Nat.one_mul]
    _ ≤ ((occurrences pkg fuel 0 pkg.rootIndex).map fun o =>
          operatorsAt pkg o.1 * 2 ^ depth).sum := List.sum_le_sum each
    _ = ((occurrences pkg fuel 0 pkg.rootIndex).map fun o => operatorsAt pkg o.1).sum *
          2 ^ depth := List.sum_map_mul_right ..
    _ ≤ 3 * extent pkg * 2 ^ depth := Nat.mul_le_mul_right _ own
    _ = 3 * 2 ^ depth * extent pkg := Nat.mul_right_comm _ _ _

theorem childless_follow {child : UInt32 → Bool → Option UInt32} {i j : UInt32}
    (childless : ∀ i side, child i side = none) {path : List Bool}
    (followed : follow child i path = some j) : path = [] := by
  cases path with
  | nil => rfl
  | cons side path =>
    rw [follow, childless] at followed
    cases followed

/-- The calls of an accepted predicate with single paths. -/
theorem length_walkCalls_le {α : Type} {walked : UInt32 → Visit UInt32 Exn α}
    (conforms : Conforms walked (childOf pkg)) (root : WellFormed cat pkg schema pkg.rootIndex)
    (single : SinglePaths (childOf pkg) pkg.rootIndex) (fuel : Nat) :
    (walkCalls .outOfFuel walked fuel pkg.rootIndex).length ≤ pkg.predicateNodes.length :=
  length_calls_le (walkCalls_nodup conforms single) fun _ mem =>
    wellFormed_of_mem_calls conforms root mem

theorem singlePaths_iff_unshared_of_accepted (accepted : Accepts cat serverParamSetId pkg) :
    SinglePaths (childOf pkg) pkg.rootIndex ↔ Unshared (childOf pkg) pkg.rootIndex := by
  obtain ⟨schema, validated⟩ := accepts_iff.mp accepted
  refine singlePaths_iff_unshared fun path followed => ?_
  by_cases empty : pkg.predicateNodes = []
  · exact childless_follow (fun i side => by simp [childOf, empty]) followed
  · exact follow_acyclic (validated.predicate empty) followed

/-- Single paths bound the calls; a bound of the operators is what is left. -/
theorem treeShaped_of_operators (accepted : Accepts cat serverParamSetId pkg)
    (table : cat.getTable pkg.tableName = .ok schema)
    (unshared : Unshared (childOf pkg) pkg.rootIndex) {constant : Nat}
    (operators : ∀ (P : Proto1) fuel (e : Expression P.EncryptedVector),
      QueryExecutor.buildWhere P pkg fuel = .ok (some e) → e.operators ≤ constant * extent pkg) :
    TreeShaped cat pkg schema constant := by
  obtain ⟨schema', validated⟩ := accepts_iff.mp accepted
  cases validated.header.table.symm.trans table
  have single := (singlePaths_iff_unshared_of_accepted accepted).mpr unshared
  refine ⟨single, fun fuel => ?_, fun P fuel => ?_, operators⟩
  · unfold validatorCalls
    split
    · exact Nat.zero_le _
    · next some => exact length_walkCalls_le visit_conforms (validated.predicate some) single fuel
  · unfold builderCalls
    split
    · exact Nat.zero_le _
    · next some =>
      exact length_walkCalls_le buildVisit_conforms (validated.predicate some) single fuel

/-- The WHERE of a package with nodes is what `buildExpression` makes of the last one. -/
theorem buildWhere_some {fuel : Nat} {e : Expression P.EncryptedVector}
    (built : QueryExecutor.buildWhere P pkg fuel = .ok (some e)) :
    pkg.predicateNodes ≠ [] ∧
      QueryExecutor.buildExpression P pkg fuel pkg.rootIndex = .ok e := by
  unfold QueryExecutor.buildWhere at built
  split at built
  · cases built
  · next some =>
    obtain ⟨e', made, same⟩ := bind_ok_iff.mp built
    cases same
    exact ⟨some, made⟩

/-- A bound of the built operators is one of the doubled ones: where the kinds are
listed, some context builds the tree. -/
theorem doubledOperators_le (accepted : Accepts cat serverParamSetId pkg)
    (listed : KindsListed pkg) {most : Nat}
    (operators : ∀ (P : Proto1) fuel (e : Expression P.EncryptedVector),
      QueryExecutor.buildWhere P pkg fuel = .ok (some e) → e.operators ≤ most) (fuel : Nat) :
    doubledOperators pkg fuel ≤ most := by
  obtain ⟨schema, validated⟩ := accepts_iff.mp accepted
  obtain ⟨bound, builds⟩ := exists_buildWhere (P := rawContext) (fun _ _ => ⟨_, rfl⟩)
    validated.predicate listed
  obtain ⟨where?, built⟩ := builds (max fuel bound) (le_max_right _ _)
  cases where? with
  | none =>
    have empty : pkg.predicateNodes = [] := by
      by_contra some
      rw [QueryExecutor.buildWhere, if_neg some] at built
      obtain ⟨e, _, same⟩ := bind_ok_iff.mp built
      cases same
    cases fuel with
    | zero => exact Nat.zero_le _
    | succ fuel => simp [doubledOperators, occurrences, childOf, operatorsAt, empty]
  | some e =>
    calc doubledOperators pkg fuel
        ≤ doubledOperators pkg (max fuel bound) := doubledOperators_mono (le_max_left _ _)
      _ = e.operators := doubledOperators_of_build (buildWhere_some built).2
      _ ≤ most := operators rawContext _ e built

/-- Both recursions are walks over the nodes. An accepted predicate is a tree, and costs no
more than one, just when no two links lead to the same node and the operators, doubled for
each `>=` and `<=` above them, keep to the bound; where these nest to a fixed depth, a
bound that depends on the depth is kept. -/
theorem treeShaped_iff (accepted : Accepts cat serverParamSetId pkg)
    (table : cat.getTable pkg.tableName = .ok schema) :
    (∀ fuel i, QueryValidator.validatePredTree cat pkg schema fuel i =
      walk .outOfFuel (visit cat pkg schema) fuel i) ∧
    (∀ (P : Proto1) fuel i, QueryExecutor.buildExpression P pkg fuel i =
      walk .outOfFuel (buildVisit P pkg) fuel i) ∧
    (∀ constant, TreeShaped cat pkg schema constant ↔
      Unshared (childOf pkg) pkg.rootIndex ∧
        (KindsListed pkg → ∀ fuel, doubledOperators pkg fuel ≤ constant * extent pkg)) ∧
    ∀ depth, NestsAtMost pkg depth → Unshared (childOf pkg) pkg.rootIndex →
      TreeShaped cat pkg schema (3 * 2 ^ depth) := by
  refine ⟨fun fuel i => validatePredTree_eq_walk cat pkg schema fuel i,
    fun P fuel i => buildExpression_eq_walk fuel i, fun constant => ⟨?_, ?_⟩, ?_⟩
  · intro shaped
    refine ⟨(singlePaths_iff_unshared_of_accepted accepted).mp shaped.paths, fun listed => ?_⟩
    exact doubledOperators_le accepted listed shaped.operators
  · rintro ⟨unshared, few⟩
    refine treeShaped_of_operators accepted table unshared fun P fuel e built => ?_
    rw [← doubledOperators_of_build (buildWhere_some built).2]
    exact few (kindsListed_of_buildWhere built) fuel
  · intro depth nests unshared
    obtain ⟨schema', validated⟩ := accepts_iff.mp accepted
    refine treeShaped_of_operators accepted table unshared fun P fuel e built => ?_
    obtain ⟨some, made⟩ := buildWhere_some built
    exact operators_le_of_nestsAtMost nests (validated.predicate some)
      ((singlePaths_iff_unshared_of_accepted accepted).mpr unshared) made

/-- The condition `id >= age`. -/
def idAtLeastAge : QueryPackage where
  tableName := str "employees"
  predicateNodes := [{ columnName := str "id" }, { columnName := str "age" },
    { kind := .GreaterEqual, left := 0, right := 1 }]

theorem idAtLeastAge_treeShaped : ∃ schema,
    Accepts makeEmployeesCatalog [] idAtLeastAge ∧
      makeEmployeesCatalog.getTable idAtLeastAge.tableName = .ok schema ∧
      TreeShaped makeEmployeesCatalog idAtLeastAge schema 3 := by
  have accepted : Accepts makeEmployeesCatalog [] idAtLeastAge := ⟨2, rfl⟩
  have nests : NestsAtMost idAtLeastAge 0 := by
    rintro (_ | _ | fuel) o mem some
    · cases mem
    · rw [List.mem_singleton.mp mem]
    · have three : occurrences idAtLeastAge (fuel + 2) 0 idAtLeastAge.rootIndex =
          [(2, 0), (0, 1), (1, 1)] := rfl
      rw [three] at mem
      simp only [List.mem_cons, List.not_mem_nil, or_false] at mem
      rcases mem with rfl | rfl | rfl
      · exact le_rfl
      · exact absurd rfl some
      · exact absurd rfl some
  refine ⟨_, accepted, rfl, (treeShaped_iff accepted rfl).2.2.2 0 nests ?_⟩
  have links : ∀ i side j, childOf idAtLeastAge i side = some j →
      i = 2 ∧ j = if side then 1 else 0 := by
    intro i side j h
    obtain ⟨node, hn, h⟩ := Option.bind_eq_some_iff.mp h
    have inside := (List.getElem?_eq_some_iff.mp hn).1
    have index : i.toNat = 0 ∨ i.toNat = 1 ∨ i.toNat = 2 := by
      simp only [idAtLeastAge, List.length_cons, List.length_nil] at inside
      omega
    rcases index with index | index | index <;> rw [index] at hn <;> cases hn
    · cases h
    · cases h
    · refine ⟨UInt32.toNat_inj.mp index, ?_⟩
      cases side <;> exact (Option.some.inj h).symm
  intro path path' i i' side side' j _ _ hj hj'
  obtain ⟨rfl, left⟩ := links i side j hj
  obtain ⟨rfl, right⟩ := links i' side' j hj'
  refine ⟨rfl, ?_⟩
  rw [left] at right
  cases side <;> cases side' <;> first
    | rfl
    | exact absurd right (by decide)

/-- An AND node over the node in front of it, twice. -/
def twice (k : Nat) : PredNode where
  kind := .And
  left := UInt32.ofNat k
  right := UInt32.ofNat k

/-- A column, and AND nodes that each name the node before them twice. -/
def doubling (n : Nat) : QueryPackage where
  tableName := str "employees"
  predicateNodes := { columnName := str "id" } :: (List.range n).map twice

theorem doubling_node {n k : Nat} (h : k < n) :
    (doubling n).predicateNodes[k + 1]? = some (twice k) := by
  simp [doubling, h]

theorem length_doubling (n : Nat) : (doubling n).predicateNodes.length = n + 1 := by
  simp [doubling]

theorem rootIndex_doubling (n : Nat) : (doubling n).rootIndex = UInt32.ofNat n := by
  rw [QueryPackage.rootIndex, length_doubling]
  rfl

section Doubling

variable {n k : Nat}

theorem toNat_index (small : n < 2 ^ 32) (h : k ≤ n) : (UInt32.ofNat k).toNat = k := by
  have word : k < 2 ^ 32 := by omega
  exact UInt32.toNat_ofNat_of_lt' word

theorem index_ne_max (small : n < 2 ^ 32) (h : k < n) : UInt32.ofNat k ≠ UINT32_MAX := by
  intro same
  have place := congrArg UInt32.toNat same
  have last : UINT32_MAX.toNat = 4294967295 := rfl
  rw [toNat_index small h.le, last] at place
  omega

/-- The visit of an AND node of the chain. -/
theorem visit_twice (small : n < 2 ^ 32) (h : k < n) :
    visit makeEmployeesCatalog (doubling n) schema (UInt32.ofNat (k + 1)) =
      .binary (UInt32.ofNat k) (UInt32.ofNat k) fun _ _ => () := by
  have hn : (doubling n).predicateNodes[(UInt32.ofNat (k + 1)).toNat]? = some (twice k) := by
    rw [toNat_index small h]
    exact doubling_node h
  have present := index_ne_max small h
  simp only [visit, hn, twice, present, or_self, if_false]

theorem visit_first (table : makeEmployeesCatalog.getTable (str "employees") = .ok schema) :
    visit makeEmployeesCatalog (doubling n) schema (UInt32.ofNat 0) = .done (.ok ()) := by
  cases table
  rfl

theorem walk_doubling (table : makeEmployeesCatalog.getTable (str "employees") = .ok schema)
    (small : n < 2 ^ 32) (h : k ≤ n) {fuel : Nat} (enough : k < fuel) :
    walk .outOfFuel (visit makeEmployeesCatalog (doubling n) schema) fuel (UInt32.ofNat k) =
      .ok () := by
  induction k generalizing fuel with
  | zero =>
    obtain ⟨fuel, rfl⟩ : ∃ m, fuel = m + 1 := ⟨fuel - 1, by omega⟩
    simp only [walk, visit_first table]
  | succ k ih =>
    obtain ⟨fuel, rfl⟩ : ∃ m, fuel = m + 1 := ⟨fuel - 1, by omega⟩
    have below := ih (by omega) (by omega : k < fuel)
    simp only [walk, visit_twice small h, below, ok_bind, pure_eq_ok]

theorem calls_doubling (table : makeEmployeesCatalog.getTable (str "employees") = .ok schema)
    (small : n < 2 ^ 32) (h : k ≤ n) {fuel : Nat} (enough : k < fuel) :
    (walkCalls .outOfFuel (visit makeEmployeesCatalog (doubling n) schema) fuel
      (UInt32.ofNat k)).length + 1 = 2 ^ (k + 1) := by
  induction k generalizing fuel with
  | zero =>
    obtain ⟨fuel, rfl⟩ : ∃ m, fuel = m + 1 := ⟨fuel - 1, by omega⟩
    simp only [walkCalls, visit_first table]
    rfl
  | succ k ih =>
    obtain ⟨fuel, rfl⟩ : ∃ m, fuel = m + 1 := ⟨fuel - 1, by omega⟩
    have half := ih (by omega) (by omega : k < fuel)
    have reached := walk_doubling table small (by omega) (by omega : k < fuel)
    simp only [walkCalls, visit_twice small h, reached, List.length_cons, List.length_append]
    rw [Nat.pow_succ]
    omega

end Doubling

/-- The validator accepts the chain of `n + 1` nodes, after `2 ^ (n + 1) - 1` calls. -/
theorem doubling_accepted {n : Nat} (small : n < 2 ^ 32) : ∃ schema,
    makeEmployeesCatalog.getTable (doubling n).tableName = .ok schema ∧
      Accepts makeEmployeesCatalog [] (doubling n) ∧ ∀ fuel, n < fuel →
        (validatorCalls makeEmployeesCatalog (doubling n) schema fuel).length + 1 =
          2 ^ (n + 1) := by
  have nonempty : (doubling n).predicateNodes ≠ [] := List.cons_ne_nil _ _
  obtain ⟨schema, header⟩ : ∃ schema,
      QueryValidator.validateHeader makeEmployeesCatalog [] (doubling n) = .ok schema := ⟨_, rfl⟩
  have table := (validateHeader_ok_iff.mp header).table
  refine ⟨schema, table, ⟨n + 1, ?_⟩, fun fuel enough => ?_⟩
  · simp only [QueryValidator.validate, header, ok_bind, if_neg nonempty, rootIndex_doubling,
      validatePredTree_eq_walk]
    exact walk_doubling table small (le_refl n) n.lt_succ_self
  · rw [validatorCalls, if_neg nonempty, rootIndex_doubling]
    exact calls_doubling table small (le_refl n) enough

/-- A column, and at even places a `>=` node over the two nodes before it. -/
def nestedNode (place : Nat) : PredNode :=
  if place % 2 = 0 ∧ place ≠ 0 then
    { kind := .GreaterEqual, left := UInt32.ofNat (place - 2), right := UInt32.ofNat (place - 1) }
  else { columnName := str "age" }

/-- A chain of `>=` nodes, each the left operand of the next. -/
def nested (n : Nat) : QueryPackage where
  tableName := str "employees"
  predicateNodes := (List.range (2 * n + 1)).map nestedNode

section Nested

variable {n k : Nat}

theorem nested_node {place : Nat} (small : 2 * n < 2 ^ 32) (inside : place ≤ 2 * n) :
    (nested n).predicateNodes[(UInt32.ofNat place).toNat]? = some (nestedNode place) := by
  rw [toNat_index small inside]
  have bound : place < 2 * n + 1 := by omega
  simp [nested, bound]

theorem nestedNode_column {place : Nat} (column : place % 2 = 1 ∨ place = 0) :
    nestedNode place = { columnName := str "age" } := by
  rw [nestedNode, if_neg]
  omega

theorem nestedNode_atLeast (k : Nat) :
    nestedNode (2 * k + 2) =
      { kind := .GreaterEqual, left := UInt32.ofNat (2 * k),
        right := UInt32.ofNat (2 * k + 1) } := by
  have even : (2 * k + 2) % 2 = 0 ∧ 2 * k + 2 ≠ 0 := by omega
  rw [nestedNode, if_pos even]
  congr 2

theorem rootIndex_nested (n : Nat) : (nested n).rootIndex = UInt32.ofNat (2 * n) := by
  rw [QueryPackage.rootIndex, nested, List.length_map, List.length_range]
  rfl

theorem nested_wellFormed (table : makeEmployeesCatalog.getTable (str "employees") = .ok schema)
    (small : 2 * n < 2 ^ 32) (h : k ≤ n) :
    WellFormed makeEmployeesCatalog (nested n) schema (UInt32.ofNat (2 * k)) := by
  have column : ∀ place, place ≤ 2 * n → place % 2 = 1 ∨ place = 0 →
      WellFormed makeEmployeesCatalog (nested n) schema (UInt32.ofNat place) := by
    intro place inside isColumn
    have hn := nested_node small inside
    rw [nestedNode_column isColumn] at hn
    cases table
    exact .leaf hn rfl nofun ⟨_, rfl, rfl⟩
  induction k with
  | zero => exact column 0 (Nat.zero_le _) (Or.inr rfl)
  | succ k ih =>
    have hn := nested_node small (show 2 * k + 2 ≤ 2 * n by omega)
    rw [nestedNode_atLeast] at hn
    exact .binary hn rfl (index_ne_max small (by omega)) (index_ne_max small (by omega))
      (ih (by omega)) (column (2 * k + 1) (by omega) (by omega))

theorem nested_built (P : Proto1) (small : 2 * n < 2 ^ 32) (h : k ≤ n) {fuel : Nat}
    (enough : k < fuel) : ∃ e,
      QueryExecutor.buildExpression P (nested n) fuel (UInt32.ofNat (2 * k)) = .ok e ∧
        e.operators + 3 = 3 * 2 ^ k := by
  have column : ∀ place fuel, place ≤ 2 * n → place % 2 = 1 ∨ place = 0 →
      QueryExecutor.buildExpression P (nested n) (fuel + 1) (UInt32.ofNat place) =
        .ok (.columnRef (str "age")) := by
    intro place fuel inside isColumn
    have hn := nested_node small inside
    rw [nestedNode_column isColumn] at hn
    simp only [QueryExecutor.buildExpression, hn]
    rfl
  induction k generalizing fuel with
  | zero =>
    obtain ⟨fuel, rfl⟩ : ∃ m, fuel = m + 1 := ⟨fuel - 1, by omega⟩
    exact ⟨_, column 0 fuel (Nat.zero_le _) (Or.inr rfl), rfl⟩
  | succ k ih =>
    obtain ⟨fuel, rfl⟩ : ∃ m, fuel = m + 2 := ⟨fuel - 2, by omega⟩
    obtain ⟨l, left, count⟩ := ih (by omega) (show k < fuel + 1 by omega)
    have right := column (2 * k + 1) fuel (by omega) (by omega)
    have hn := nested_node small (show 2 * k + 2 ≤ 2 * n by omega)
    rw [nestedNode_atLeast] at hn
    refine ⟨binaryExpression .GreaterEqual l (.columnRef (str "age")), ?_, ?_⟩
    · rw [show 2 * (k + 1) = 2 * k + 2 by omega, buildExpression_binary hn rfl]
      simp only [left, right, ok_bind]
      rfl
    simp only [binaryExpression, Expression.operators]
    rw [Nat.pow_succ]
    omega

theorem nested_links (small : 2 * n < 2 ^ 32) {i j : UInt32} {side : Bool}
    (link : childOf (nested n) i side = some j) :
    i.toNat % 2 = 0 ∧ i.toNat = if side then j.toNat + 1 else j.toNat + 2 := by
  obtain ⟨node, hn, h⟩ := Option.bind_eq_some_iff.mp link
  have inside := (List.getElem?_eq_some_iff.mp hn).1
  rw [nested, List.length_map, List.length_range] at inside
  have here := nested_node small (show i.toNat ≤ 2 * n by omega)
  rw [UInt32.ofNat_toNat, hn] at here
  cases Option.some.inj here
  by_cases column : i.toNat % 2 = 1 ∨ i.toNat = 0
  · rw [nestedNode_column column] at h
    cases h
  · obtain ⟨k, hk⟩ : ∃ k, i.toNat = 2 * k + 2 := ⟨i.toNat / 2 - 1, by omega⟩
    rw [hk, nestedNode_atLeast] at h
    have same := Option.some.inj h
    refine ⟨by omega, ?_⟩
    cases side with
    | false =>
      rw [← same, hk]
      simp only [Bool.false_eq_true, if_false]
      rw [toNat_index small (by omega)]
    | true =>
      rw [← same, hk]
      simp only [if_true]
      rw [toNat_index small (by omega)]

theorem nested_unshared (small : 2 * n < 2 ^ 32) :
    Unshared (childOf (nested n)) (nested n).rootIndex := by
  intro path path' i i' side side' j _ _ hj hj'
  obtain ⟨even, left⟩ := nested_links small hj
  obtain ⟨even', right⟩ := nested_links small hj'
  have same : side = side' := by
    cases side <;> cases side' <;> simp only [Bool.false_eq_true, if_false, if_true] at left right
    all_goals first
      | rfl
      | omega
  subst same
  exact ⟨UInt32.toNat_inj.mp (left.trans right.symm), rfl⟩

end Nested

/-- The validator accepts the chain of `2 * n + 1` nodes, which no two links share, and
`3 * 2 ^ n - 3` operators are built of it. -/
theorem nested_accepted {n : Nat} (small : 2 * n < 2 ^ 32) : ∃ schema,
    makeEmployeesCatalog.getTable (nested n).tableName = .ok schema ∧
      Accepts makeEmployeesCatalog [] (nested n) ∧
        Unshared (childOf (nested n)) (nested n).rootIndex ∧ ∀ P : Proto1, ∃ fuel e,
          QueryExecutor.buildWhere P (nested n) fuel = .ok (some e) ∧
            e.operators + 3 = 3 * 2 ^ n := by
  obtain ⟨schema, header⟩ : ∃ schema,
      QueryValidator.validateHeader makeEmployeesCatalog [] (nested n) = .ok schema := ⟨_, rfl⟩
  have header := validateHeader_ok_iff.mp header
  refine ⟨schema, header.table, accepts_iff.mpr ⟨schema, header, fun _ => ?_⟩,
    nested_unshared small, fun P => ?_⟩
  · rw [rootIndex_nested]
    exact nested_wellFormed header.table small le_rfl
  · obtain ⟨e, built, count⟩ := nested_built P small (le_refl n) n.lt_succ_self
    refine ⟨n + 1, e, ?_, count⟩
    have nonempty : (nested n).predicateNodes ≠ [] := by simp [nested]
    rw [QueryExecutor.buildWhere, if_neg nonempty, rootIndex_nested, built]
    rfl

theorem extent_nested (n : Nat) : extent (nested n) = 2 * n + 1 := by
  have textless : ∀ place, textWidth (nestedNode place) = 0 := by
    intro place
    rw [nestedNode]
    split <;> rfl
  rw [extent, nested, List.length_map, List.length_range, List.map_map]
  have none : ((List.range (2 * n + 1)).map (textWidth ∘ nestedNode)).sum = 0 :=
    List.sum_eq_zero fun width mem => by
      obtain ⟨place, _, rfl⟩ := List.mem_map.mp mem
      exact textless place
  rw [none]

/-- A node that names its child twice is accepted, and its child called twice; 81 nodes
without sharing are accepted of which more than `2 ^ 30` operators a node are built. -/
theorem accepted_predicate_can_share_or_double :
    (¬ ∃ constant, ∀ (cat : Catalog) (serverParamSetId : Str) (pkg : QueryPackage)
      (schema : TableSchema), Accepts cat serverParamSetId pkg →
        cat.getTable pkg.tableName = .ok schema → TreeShaped cat pkg schema constant) ∧
    ∃ (pkg : QueryPackage) (schema : TableSchema), Accepts makeEmployeesCatalog [] pkg ∧
      makeEmployeesCatalog.getTable pkg.tableName = .ok schema ∧
        Unshared (childOf pkg) pkg.rootIndex ∧
          ¬ TreeShaped makeEmployeesCatalog pkg schema (2 ^ 30) := by
  constructor
  · rintro ⟨constant, all⟩
    obtain ⟨schema, table, accepted, calls⟩ := doubling_accepted (by decide : 1 < 2 ^ 32)
    have few := (all _ _ _ schema accepted table).validatorCalls 2
    have many := calls 2 (by decide)
    rw [length_doubling] at few
    omega
  · obtain ⟨schema, table, accepted, unshared, builds⟩ :=
      nested_accepted (by decide : 2 * 40 < 2 ^ 32)
    refine ⟨nested 40, schema, accepted, table, unshared, fun shaped => ?_⟩
    obtain ⟨fuel, e, built, count⟩ := builds rawContext
    have few := shaped.operators rawContext fuel e built
    rw [extent_nested] at few
    omega

end PredicateSharing

end FheSql
