import FheSql.QueryValidator

/-!
# Predicate trees in a package

What `validatePredTree` decides, stated without its recursion: an index is well
formed when the nodes below it form a finite tree and each of them passes its
own check. The recursion itself is an instance of `FlatTree.walk`.
-/

namespace FheSql

open ByteText Throwing FlatTree

/-- The kinds whose two children are both followed. -/
def PredNodeKind.isBinary : PredNodeKind → Bool
  | .Equal | .NotEqual | .GreaterThan | .LessThan | .GreaterEqual | .LessEqual => true
  | .And | .Or => true
  | _ => false

namespace PredicateTree

section

variable (cat : Catalog) (pkg : QueryPackage) (schema : TableSchema)

/-- The table a name is checked against exists and has the column. -/
def NamesColumn (name : Str) : Prop :=
  ∃ t, QueryValidator.targetTable cat pkg schema name = .ok t ∧
    t.hasColumn (bareName name) = true

/-- A string node names a STRING column of its width, and each of its positions
has a usable character literal. -/
structure IsStringNode (node : PredNode) : Prop where
  named : node.columnName ≠ []
  wide : node.stringWidth ≠ 0
  column : ∃ c, schema.column node.columnName = .ok c ∧ c.type = .STRING ∧
    node.stringWidth.toNat = c.maxLength
  literals : ∀ i < node.stringWidth.toNat, ∃ lit ∈ pkg.encryptedLiterals,
    QueryValidator.isCharacterLiteral (node.literalId + UInt32.ofNat i) lit = true

/-- The check of a node without children, by kind. -/
def LeafOk (node : PredNode) : Prop :=
  match node.kind with
  | .ColumnRef => NamesColumn cat pkg schema node.columnName
  | .LiteralRef => ∃ lit ∈ pkg.encryptedLiterals, lit.id = node.literalId
  | .StringEqual | .StringNotEqual => IsStringNode pkg schema node
  | _ => True

inductive WellFormed : UInt32 → Prop where
  | leaf {i node} : pkg.predicateNodes[i.toNat]? = some node →
      node.kind.isBinary = false → node.kind ≠ .Not → LeafOk cat pkg schema node →
      WellFormed i
  | unary {i node} : pkg.predicateNodes[i.toNat]? = some node → node.kind = .Not →
      node.left ≠ UINT32_MAX → WellFormed node.left → WellFormed i
  | binary {i node} : pkg.predicateNodes[i.toNat]? = some node →
      node.kind.isBinary = true → node.left ≠ UINT32_MAX → node.right ≠ UINT32_MAX →
      WellFormed node.left → WellFormed node.right → WellFormed i

/-- The links the recursion follows: a NOT to its child, a binary node to its
left child and, below a well-formed left child, to its right one. -/
def Follows (i j : UInt32) : Prop :=
  ∃ node, pkg.predicateNodes[i.toNat]? = some node ∧ node.left ≠ UINT32_MAX ∧
    ((node.kind = .Not ∧ j = node.left) ∨
      (node.kind.isBinary = true ∧ node.right ≠ UINT32_MAX ∧
        (j = node.left ∨ (j = node.right ∧ WellFormed cat pkg schema node.left))))

/-- One call of `validatePredTree`. -/
def visit (i : UInt32) : Visit UInt32 Exn Unit :=
  match pkg.predicateNodes[i.toNat]? with
  | none =>
    .done (throw (.validationError (str "Predicate node index out of range: " ++
      decimal i.toNat)))
  | some node =>
    match node.kind with
    | .ColumnRef => .done (QueryValidator.validateColumnNode cat pkg schema node)
    | .LiteralRef => .done (QueryValidator.validateLiteralNode pkg node)
    | .StringEqual | .StringNotEqual =>
      .done (QueryValidator.validateStringNode pkg schema node)
    | .Equal | .NotEqual | .GreaterThan | .LessThan | .GreaterEqual | .LessEqual =>
      if node.left = UINT32_MAX ∨ node.right = UINT32_MAX then
        .done (throw (.validationError (str "Binary predicate node missing children")))
      else .binary node.left node.right fun _ _ => ()
    | .And | .Or =>
      if node.left = UINT32_MAX ∨ node.right = UINT32_MAX then
        .done (throw (.validationError (str "Boolean predicate node missing children")))
      else .binary node.left node.right fun _ _ => ()
    | .Not =>
      if node.left = UINT32_MAX then
        .done (throw (.validationError (str "NOT predicate node missing child")))
      else .unary node.left id
    | .unlisted _ _ => .done (pure ())

theorem validatePredTree_eq_walk (fuel : Nat) (i : UInt32) :
    QueryValidator.validatePredTree cat pkg schema fuel i =
      walk .outOfFuel (visit cat pkg schema) fuel i := by
  induction fuel generalizing i with
  | zero => rfl
  | succ fuel ih =>
    have unit_bind : ∀ x : Except Exn Unit, (x >>= fun _ => Except.ok ()) = x := by
      intro x
      cases x <;> rfl
    simp only [QueryValidator.validatePredTree, walk, visit]
    cases pkg.predicateNodes[i.toNat]? with
    | none => rfl
    | some node =>
      simp only
      cases node.kind <;> simp only [] <;> first
        | rfl
        | (split
           · rfl
           · simp only [ih, pure_eq_ok, id, unit_bind])

end

section Checks

variable {cat : Catalog} {pkg : QueryPackage} {schema : TableSchema} {node : PredNode}

theorem validateColumnNode_ok_iff :
    QueryValidator.validateColumnNode cat pkg schema node = .ok () ↔
      NamesColumn cat pkg schema node.columnName := by
  simp only [QueryValidator.validateColumnNode, NamesColumn, bind_ok_iff, throw_eq_error,
    pure_eq_ok, guard_ok_iff]
  simp

theorem validateLiteralNode_ok_iff :
    QueryValidator.validateLiteralNode pkg node = .ok () ↔
      ∃ lit ∈ pkg.encryptedLiterals, lit.id = node.literalId := by
  simp only [QueryValidator.validateLiteralNode, throw_eq_error, pure_eq_ok, guard_ok_iff]
  simp

theorem validateStringNode_ok_iff :
    QueryValidator.validateStringNode pkg schema node = .ok () ↔
      IsStringNode pkg schema node := by
  simp only [QueryValidator.validateStringNode, throw_eq_error, pure_eq_ok, error_bind,
    guard_ok_iff, bind_ok_iff, forM_ok_iff]
  constructor
  · rintro ⟨header, column, hcolumn, shape, literals⟩
    simp only [not_or] at header
    simp only [not_or, Decidable.not_not] at shape
    refine ⟨header.1, header.2, ⟨column, hcolumn, shape.1, shape.2⟩, ?_⟩
    intro i hi
    simpa using literals i (List.mem_range.mpr hi)
  · rintro ⟨named, wide, ⟨column, hcolumn, type, width⟩, literals⟩
    refine ⟨by simp [named, wide], column, hcolumn, by simp [type, width], ?_⟩
    intro i hi
    simpa using literals i (List.mem_range.mp hi)

end Checks

section Verdicts

variable {cat : Catalog} {pkg : QueryPackage} {schema : TableSchema}

variable (cat schema) in
/-- What a visit does at a node, by the number of children its kind follows. -/
theorem visit_cases {i : UInt32} {node : PredNode}
    (hn : pkg.predicateNodes[i.toNat]? = some node) :
    (node.kind.isBinary = false ∧ node.kind ≠ .Not ∧
      ∃ r, visit cat pkg schema i = .done r ∧ (r = .ok () ↔ LeafOk cat pkg schema node)) ∨
    (node.kind = .Not ∧ node.left = UINT32_MAX ∧
      ∃ e, visit cat pkg schema i = .done (.error (.validationError e))) ∨
    (node.kind = .Not ∧ node.left ≠ UINT32_MAX ∧
      visit cat pkg schema i = .unary node.left id) ∨
    (node.kind.isBinary = true ∧ (node.left = UINT32_MAX ∨ node.right = UINT32_MAX) ∧
      ∃ e, visit cat pkg schema i = .done (.error (.validationError e))) ∨
    (node.kind.isBinary = true ∧ node.left ≠ UINT32_MAX ∧ node.right ≠ UINT32_MAX ∧
      visit cat pkg schema i = .binary node.left node.right fun _ _ => ()) := by
  cases hk : node.kind with
  | ColumnRef =>
    refine Or.inl ⟨rfl, by simp, _, by simp only [visit, hn, hk]; rfl, ?_⟩
    simp only [validateColumnNode_ok_iff, LeafOk, hk]
  | LiteralRef =>
    refine Or.inl ⟨rfl, by simp, _, by simp only [visit, hn, hk]; rfl, ?_⟩
    simp only [validateLiteralNode_ok_iff, LeafOk, hk]
  | StringEqual | StringNotEqual =>
    refine Or.inl ⟨rfl, by simp, _, by simp only [visit, hn, hk]; rfl, ?_⟩
    simp only [validateStringNode_ok_iff, LeafOk, hk]
  | unlisted byte above =>
    refine Or.inl ⟨rfl, by simp, _, by simp only [visit, hn, hk]; rfl, ?_⟩
    simp [LeafOk, hk]
  | Not =>
    refine Or.inr ?_
    by_cases hl : node.left = UINT32_MAX
    · exact Or.inl ⟨rfl, hl, _, by simp [visit, hn, hk, hl]; rfl⟩
    · exact Or.inr (Or.inl ⟨rfl, hl, by simp [visit, hn, hk, hl]⟩)
  | Equal | NotEqual | GreaterThan | LessThan | GreaterEqual | LessEqual | And | Or =>
    refine Or.inr (Or.inr (Or.inr ?_))
    by_cases hm : node.left = UINT32_MAX ∨ node.right = UINT32_MAX
    · exact Or.inl ⟨rfl, hm, _, by simp [visit, hn, hk, hm]; rfl⟩
    · refine Or.inr ⟨rfl, fun h => hm (Or.inl h), fun h => hm (Or.inr h), ?_⟩
      simp [visit, hn, hk, hm]

variable (cat schema) in
theorem visit_none {i : UInt32} (hn : pkg.predicateNodes[i.toNat]? = none) :
    ∃ e, visit cat pkg schema i = .done (.error (.validationError e)) :=
  ⟨_, by simp only [visit, hn]; rfl⟩

theorem evaluates_of_wellFormed {i : UInt32} (h : WellFormed cat pkg schema i) :
    Evaluates (visit cat pkg schema) i (.ok ()) := by
  induction h with
  | leaf hn notBinary notNot ok =>
    rcases visit_cases cat schema hn with
      ⟨_, _, r, hv, hr⟩ | ⟨hk, _⟩ | ⟨hk, _⟩ | ⟨hk, _⟩ | ⟨hk, _⟩
    · exact .done (hv.trans (by rw [hr.mpr ok]))
    · exact False.elim (notNot hk)
    · exact False.elim (notNot hk)
    · rw [notBinary] at hk; cases hk
    · rw [notBinary] at hk; cases hk
  | unary hn kind present _ ih =>
    rcases visit_cases cat schema hn with
      ⟨_, hk, _⟩ | ⟨_, hl, _⟩ | ⟨_, _, hv⟩ | ⟨hk, _⟩ | ⟨hk, _⟩
    · exact False.elim (hk kind)
    · exact False.elim (present hl)
    · exact .unary hv ih
    · rw [kind] at hk; cases hk
    · rw [kind] at hk; cases hk
  | binary hn kind presentLeft presentRight _ _ ihl ihr =>
    rcases visit_cases cat schema hn with
      ⟨hk, _⟩ | ⟨hk, _⟩ | ⟨hk, _⟩ | ⟨_, hm, _⟩ | ⟨_, _, _, hv⟩
    · rw [kind] at hk; cases hk
    · rw [hk] at kind; cases kind
    · rw [hk] at kind; cases kind
    · exact False.elim (hm.elim presentLeft presentRight)
    · exact .binary hv ihl ihr

theorem wellFormed_of_evaluates {i : UInt32} {r : Except Exn Unit}
    (h : Evaluates (visit cat pkg schema) i r) (ok : r = .ok ()) :
    WellFormed cat pkg schema i := by
  induction h with
  | @done i result hv =>
    subst ok
    cases hn : pkg.predicateNodes[i.toNat]? with
    | none =>
      obtain ⟨e, he⟩ := visit_none cat schema hn
      rw [hv] at he
      cases he
    | some node =>
      rcases visit_cases cat schema hn with
        ⟨hb, hnot, r, hv', hr⟩ | ⟨_, _, e, hv'⟩ | ⟨_, _, hv'⟩ | ⟨_, _, e, hv'⟩ | ⟨_, _, _, hv'⟩ <;>
        rw [hv] at hv' <;> cases hv'
      exact .leaf hn hb hnot (hr.mp rfl)
  | @unary i child combine a hv _ ih =>
    cases hn : pkg.predicateNodes[i.toNat]? with
    | none =>
      obtain ⟨e, he⟩ := visit_none cat schema hn
      rw [hv] at he
      cases he
    | some node =>
      rcases visit_cases cat schema hn with
        ⟨_, _, r, hv', _⟩ | ⟨_, _, e, hv'⟩ | ⟨hk, hl, hv'⟩ | ⟨_, _, e, hv'⟩ | ⟨_, _, _, hv'⟩ <;>
        rw [hv] at hv' <;> cases hv'
      exact .unary hn hk hl (ih rfl)
  | @binary i left right combine a b hv _ _ ihl ihr =>
    cases hn : pkg.predicateNodes[i.toNat]? with
    | none =>
      obtain ⟨e, he⟩ := visit_none cat schema hn
      rw [hv] at he
      cases he
    | some node =>
      rcases visit_cases cat schema hn with
        ⟨_, _, r, hv', _⟩ | ⟨_, _, e, hv'⟩ | ⟨_, _, hv'⟩ | ⟨_, _, e, hv'⟩ | ⟨hk, hl, hr, hv'⟩ <;>
        rw [hv] at hv' <;> cases hv'
      exact .binary hn hk hl hr (ihl rfl) (ihr rfl)
  | unaryError | leftError | rightError => cases ok

theorem accepted_iff_wellFormed {i : UInt32} :
    Accepted (visit cat pkg schema) i ↔ WellFormed cat pkg schema i := by
  constructor
  · rintro ⟨⟨⟩, h⟩
    exact wellFormed_of_evaluates h rfl
  · intro h
    exact ⟨(), evaluates_of_wellFormed h⟩

/-- Soundness and completeness of the recursion. -/
theorem wellFormed_iff_validates {i : UInt32} :
    WellFormed cat pkg schema i ↔
      ∃ fuel, QueryValidator.validatePredTree cat pkg schema fuel i = .ok () := by
  rw [← accepted_iff_wellFormed]
  simp only [validatePredTree_eq_walk, ← accepted_iff_walk]
  constructor
  · rintro ⟨⟨⟩, h⟩
    exact h
  · intro h
    exact ⟨(), h⟩

theorem calls_iff_follows {i j : UInt32} :
    Calls (visit cat pkg schema) i j ↔ Follows cat pkg schema i j := by
  cases hn : pkg.predicateNodes[i.toNat]? with
  | none =>
    obtain ⟨e, he⟩ := visit_none cat schema hn
    simp [Calls, Follows, he, hn]
  | some node =>
    simp only [Calls, Follows, hn, accepted_iff_wellFormed]
    rcases visit_cases cat schema hn with
      ⟨hb, hk, r, hv, _⟩ | ⟨hk, hl, e, hv⟩ | ⟨hk, hl, hv⟩ | ⟨hb, hm, e, hv⟩ | ⟨hb, hl, hr, hv⟩
    · simp [hv, hb, hk]
    · simp [hv, hl]
    · have flip : node.left = j ↔ j = node.left := eq_comm
      simp [hv, hk, hl, PredNodeKind.isBinary, flip]
    · simp only [hv]
      rcases hm with hm | hm <;> simp [hm]
      intro _ hk
      rw [hk] at hb
      cases hb
    · have hk : node.kind ≠ .Not := by
        intro hk
        rw [hk] at hb
        cases hb
      simp only [hv, Visit.binary.injEq, reduceCtorEq, exists_false, false_or]
      constructor
      · rintro (⟨_, _, hj, _⟩ | ⟨_, _, ⟨hl', hj, _⟩, accepted⟩)
        · exact ⟨node, rfl, hl, Or.inr ⟨hb, hr, Or.inl hj.symm⟩⟩
        · exact ⟨node, rfl, hl, Or.inr ⟨hb, hr, Or.inr ⟨hj.symm, hl' ▸ accepted⟩⟩⟩
      · rintro ⟨_, same, _, ⟨hk', _⟩ | ⟨_, _, rfl | ⟨rfl, accepted⟩⟩⟩ <;> cases same
        · exact False.elim (hk hk')
        · exact Or.inl ⟨node.right, fun _ _ => (), rfl, rfl, trivial⟩
        · exact Or.inr ⟨node.left, fun _ _ => (), ⟨rfl, rfl, trivial⟩, accepted⟩

end Verdicts

end PredicateTree

end FheSql
