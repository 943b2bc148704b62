import FheSql.PlainProto1
import FheSql.PredicateExpression

/-!
# The conjunction of a string's characters

The comparisons of the characters of a string are multiplied in a tree of the least
possible depth. What the tree evaluates to is 1 in the slots where each of the
comparisons is.
-/

namespace FheSql.CombineTree

open ByteText Throwing BalancedFold IndicatorPoly PredicateExpression

/-- A conjunction of expressions in their order, each used once, with a number of levels
of AND. -/
abbrev AndTree {CT : Type} (leaves : List (Expression CT)) (depth : Nat)
    (tree : Expression CT) : Prop :=
  Tree Expression.andExpr leaves depth tree

theorem andTree_conjunction {CT : Type} {leaves : List (Expression CT)} (nonempty : leaves ≠ []) :
    AndTree leaves (Nat.clog 2 leaves.length) (conjunction leaves) :=
  tree_balanced _ nonempty

section Masks

variable {CT : Type} {leaves : List (Expression CT)}

theorem isMask_conjunction (nonempty : leaves ≠ []) (masks : ∀ e ∈ leaves, e.isMask = true) :
    (conjunction leaves).isMask = true := by
  refine balanced_forall (p := fun e => e.isMask = true) (fun a b ha hb => ?_) nonempty masks
  simp only [Expression.isMask, ha, hb, Bool.and_self]

theorem columns_conjunction {reads : Str → Prop} (nonempty : leaves ≠ [])
    (columns : ∀ e ∈ leaves, ∀ name ∈ e.columns, reads name) :
    ∀ name ∈ (conjunction leaves).columns, reads name := by
  refine balanced_forall (p := fun e => ∀ name ∈ e.columns, reads name) (fun a b ha hb => ?_)
    nonempty columns
  intro name mem
  exact (List.mem_append.mp mem).elim (ha name) (hb name)

/-- The conjunction is 1 where all of its comparisons are. -/
theorem value_conjunction (nonempty : leaves ≠ []) (masks : ∀ e ∈ leaves, e.isMask = true)
    (column : Str → Slot) (literal : CT → Slot) :
    (conjunction leaves).value column literal = 1 ↔
      ∀ e ∈ leaves, e.value column literal = 1 := by
  have product : (conjunction leaves).value column literal =
      (leaves.map fun e => e.value column literal).prod :=
    map_balanced (fun e => e.value column literal) (fun _ _ => rfl) _ nonempty
  rw [product, prod_eq_one_iff]
  · simp only [List.forall_mem_map]
  · simp only [List.forall_mem_map]
    intro e mem
    exact Expression.isBit_value (masks e mem) column literal

end Masks

variable {P : Proto1} {pkg : QueryPackage} {node : PredNode} {n : Nat}
  {comparisons : List (Expression P.EncryptedVector)}

/-- Every comparison reads the column of a position, and is a mask. -/
theorem comparison_of_loop
    (loop : (List.range n).mapM (QueryExecutor.characterComparison P pkg node) = .ok comparisons)
    {e : Expression P.EncryptedVector} (mem : e ∈ comparisons) :
    e.isMask = true ∧ ∀ name ∈ e.columns, ∃ position < n,
      name = P.stringPhysicalColumn node.columnName position := by
  obtain ⟨position, inside, ok⟩ := mapM_ok_mem loop mem
  obtain ⟨ct, rfl⟩ := characterComparison_ok ok
  refine ⟨rfl, fun name here => ⟨position, List.mem_range.mp inside, ?_⟩⟩
  exact List.mem_singleton.mp here

/-- Masks of a list of expressions over one batch. -/
def Masks (batch : EncryptedBatch P.EncryptedVector) (es : List (Expression P.EncryptedVector))
    (masks : List P.EncryptedVector) : Prop :=
  List.Forall₂ (fun e mask => P.evaluate e batch = .ok mask) es masks

variable (sem : SlotSemantics P)

/-- The slots of a batch, as an expression reads them. -/
def slotColumn (batch : EncryptedBatch P.EncryptedVector) (i : Nat) (name : Str) : Slot :=
  ((batch.first? name).map (sem.slot · i)).getD 0

theorem masks_of_evaluable {batch : EncryptedBatch P.EncryptedVector}
    {es : List (Expression P.EncryptedVector)} (evaluable : ∀ e ∈ es, e.isMask = true ∧
      ∀ name ∈ e.columns, ∃ ct, batch.first? name = some ct) :
    ∃ masks, Masks batch es masks ∧ ∀ i < P.slotCount,
      ((∀ mask ∈ masks, sem.slot mask i = 1) ↔
        ∀ e ∈ es, e.value (slotColumn sem batch i) (sem.slot · i) = 1) := by
  induction es with
  | nil => exact ⟨[], .nil, fun i _ => by simp⟩
  | cons e es ih =>
    obtain ⟨here, rest⟩ := List.forall_mem_cons.mp evaluable
    obtain ⟨mask, ok, slots⟩ := sem.evaluate e batch here.1 here.2
    obtain ⟨masks, oks, all⟩ := ih rest
    refine ⟨mask :: masks, .cons ok oks, fun i inside => ?_⟩
    rw [List.forall_mem_cons, List.forall_mem_cons, all i inside, slots i inside]
    rfl

/-- `combine` on all `n` comparisons of a string returns, with any sufficient bound on the
nesting of its calls, a tree with the comparisons as leaves and the least possible
number of levels, whose mask is 1 just where the mask of every comparison is. -/
theorem combine_andTree (wide : 1 ≤ n)
    (loop : (List.range n).mapM (QueryExecutor.characterComparison P pkg node) = .ok comparisons) :
    ∃ tree, (∀ fuel, n ≤ fuel → QueryExecutor.combine P comparisons fuel 0 n = .ok tree) ∧
      comparisons.length = n ∧ AndTree comparisons (Nat.clog 2 n) tree ∧
      (∀ other depth, AndTree comparisons depth other → Nat.clog 2 n ≤ depth) ∧
      ∀ batch : EncryptedBatch P.EncryptedVector, (∀ position < n, ∃ ct,
          batch.first? (P.stringPhysicalColumn node.columnName position) = some ct) →
        ∃ mask masks, P.evaluate tree batch = .ok mask ∧ Masks batch comparisons masks ∧
          ∀ i < P.slotCount, sem.slot mask i = 1 ↔ ∀ m ∈ masks, sem.slot m i = 1 := by
  have length : comparisons.length = n := by
    have same := (mapM_ok_iff.mp loop).length_eq
    rw [List.length_range] at same
    exact same.symm
  have nonempty : comparisons ≠ [] := List.ne_nil_of_length_pos (by omega)
  have masks : ∀ e ∈ comparisons, e.isMask = true := fun e mem => (comparison_of_loop loop mem).1
  refine ⟨conjunction comparisons, fun fuel enough => ?_, length, ?_, fun other depth tree => ?_,
    fun batch present => ?_⟩
  · rw [combine_eq comparisons (by omega) (by omega) (by omega)]
    simp [← length]
  · rw [← length]
    exact andTree_conjunction nonempty
  · rw [← length]
    exact tree.clog_le
  · have stored : ∀ e ∈ comparisons, ∀ name ∈ e.columns, ∃ ct, batch.first? name = some ct := by
      intro e mem name here
      obtain ⟨position, inside, rfl⟩ := (comparison_of_loop loop mem).2 name here
      exact present position inside
    have read : ∀ name ∈ (conjunction comparisons).columns, ∃ ct, batch.first? name = some ct :=
      columns_conjunction nonempty stored
    obtain ⟨mask, ok, slots⟩ := sem.evaluate _ batch (isMask_conjunction nonempty masks) read
    obtain ⟨each, oks, all⟩ := masks_of_evaluable sem fun e mem => ⟨masks e mem, stored e mem⟩
    refine ⟨mask, each, ok, oks, fun i inside => ?_⟩
    rw [all i inside, slots i inside]
    exact value_conjunction nonempty masks _ _

/-- A package with the characters of a string literal in its first three entries. -/
def threeCharacters : QueryPackage where
  encryptedLiterals := [0, 1, 2].map fun position =>
    { id := position, ciphertextBytes := PlainProto1.serialize ⟨[97], 1⟩, logicalSize := 1 }

def threeNode : PredNode := { kind := .StringEqual, columnName := str "name", stringWidth := 3 }

def threeComparisons : List (Expression PlainProto1.PlainVector) :=
  ([0, 1, 2] : List Nat).map fun position =>
    .equal (.columnRef (str "name#" ++ decimal position)) (.encLiteral ⟨[97], 1⟩)

theorem combine_andTree_three :
    ∃ tree, (∀ fuel, 3 ≤ fuel →
        QueryExecutor.combine (plainProto1 1) threeComparisons fuel 0 3 = .ok tree) ∧
      AndTree threeComparisons 2 tree := by
  have levels : Nat.clog 2 3 = 2 := by decide
  have loop : (List.range 3).mapM
      (QueryExecutor.characterComparison (plainProto1 1) threeCharacters threeNode) =
        .ok threeComparisons := rfl
  obtain ⟨tree, ok, _, shape, _⟩ := combine_andTree (plainSlotSemantics 1) (by decide) loop
  exact ⟨tree, ok, levels ▸ shape⟩

end FheSql.CombineTree
