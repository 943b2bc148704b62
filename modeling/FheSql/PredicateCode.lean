import FheSql.QueryEncryptor

/-!
# The code of a predicate

`buildPredNode` interleaves two things: it lays out nodes and it encrypts
literals. `flatten` is the layout alone, `encryptLiterals` the encryption
alone, and `buildPredNode_ok_iff` says that a successful run is the one after
the other.
-/

namespace FheSql.PredicateCode

open ByteText Throwing QueryEncryptor

/-- The nodes of a flattened expression and its literals, type and value. -/
structure Code where
  nodes : List PredNode
  literals : List (Str × Int)

/-- Two codes, the second laid out behind the first, under one node. -/
def Code.join (n : Nat) (kind : PredNodeKind) (a b : Code) : Code where
  nodes := a.nodes ++ b.nodes ++
    [{ kind := kind
       left := UInt32.ofNat (n + a.nodes.length - 1)
       right := UInt32.ofNat (n + a.nodes.length + b.nodes.length - 1) }]
  literals := a.literals ++ b.literals

def Code.negate (n : Nat) (a : Code) : Code where
  nodes := a.nodes ++ [{ kind := .Not, left := UInt32.ofNat (n + a.nodes.length - 1) }]
  literals := a.literals

/-- The characters of a string literal, padded to the width of its column. -/
def characters (literal : Str) (maxLength : Nat) : List (Str × Int) :=
  (List.range maxLength).map fun position =>
    (str "STRING_CHAR", characterCode literal position)

/-- The code of an expression behind `n` nodes and `l` literals. -/
def flatten (schema : TableSchema) : ASTExpr → Nat → Nat → Except Exn Code
  | .columnRef name, _, _ => .ok ⟨[{ kind := .ColumnRef, columnName := name }], []⟩
  | .intLiteral v, _, l =>
    .ok ⟨[{ kind := .LiteralRef, literalId := UInt32.ofNat l }], [(str "INT64", v)]⟩
  | .stringLiteral _, _, _ =>
    .error (.runtimeError (str "QueryEncryptor: string literal must be used in a comparison"))
  | .comparison kind left right, n, l =>
    match stringComparison? left right with
    | some (column, literal) => do
      let columnSchema ← schema.column (bareName column)
      .ok ⟨[{ kind := stringNodeKind kind
              columnName := column
              literalId := UInt32.ofNat l
              stringWidth := UInt32.ofNat columnSchema.maxLength }],
        characters literal columnSchema.maxLength⟩
    | none => do
      let a ← flatten schema left n l
      let b ← flatten schema right (n + a.nodes.length) (l + a.literals.length)
      .ok (a.join n (comparisonNodeKind kind) b)
  | .boolean kind left right, n, l => do
    let a ← flatten schema left n l
    let b ← flatten schema right (n + a.nodes.length) (l + a.literals.length)
    .ok (a.join n (booleanNodeKind kind) b)
  | .notExpr child, n, l => do
    let a ← flatten schema child n l
    .ok (a.negate n)

variable {P : Proto1}

/-- Encrypt a list of literals one after the other. -/
def encryptLiterals (literals : List (Str × Int)) (s : BuildState P) :
    Except Exn (BuildState P) :=
  literals.foldlM (fun s lit => pushLiteral lit.1 lit.2 s) s

theorem encryptLiterals_append (a b : List (Str × Int)) (s : BuildState P) :
    encryptLiterals (a ++ b) s = encryptLiterals a s >>= encryptLiterals b :=
  List.foldlM_append

/-- What pushing a literal does to the state. -/
theorem pushLiteral_ok_iff {t : Str} {v : Int} {s s' : BuildState P} :
    pushLiteral t v s = .ok s' ↔ ∃ ct rng, encryptScalar P v s.rng = .ok (ct, rng) ∧
      s' = { s with
        literals := s.literals ++ [{ id := s.nextLiteralId, logicalType := t
                                     ciphertextBytes := P.serialize ct
                                     logicalSize := P.logicalSize ct }]
        nextLiteralId := s.nextLiteralId + 1
        rng := rng } := by
  simp only [pushLiteral, bind_ok_iff, Prod.exists, pure_eq_ok, Except.ok.injEq]
  exact exists₂_congr fun ct rng => and_congr_right fun _ => eq_comm

theorem pushLiteral_nodes (t : Str) (v : Int) (s : BuildState P) (nodes : List PredNode) :
    pushLiteral t v { s with nodes := nodes } =
      (fun u => { u with nodes := nodes }) <$> pushLiteral t v s := by
  simp only [pushLiteral]
  cases encryptScalar P v s.rng <;> rfl

/-- The literals do not look at the nodes. -/
theorem encryptLiterals_nodes (literals : List (Str × Int)) (s : BuildState P)
    (nodes : List PredNode) :
    encryptLiterals literals { s with nodes := nodes } =
      (fun t => { t with nodes := nodes }) <$> encryptLiterals literals s := by
  induction literals generalizing s with
  | nil => rfl
  | cons lit literals ih =>
    simp only [encryptLiterals, List.foldlM_cons] at ih ⊢
    rw [pushLiteral_nodes]
    cases pushLiteral lit.1 lit.2 s with
    | error e => rfl
    | ok u => exact ih u

theorem encryptLiterals_keeps_nodes {literals : List (Str × Int)} {s t : BuildState P}
    (h : encryptLiterals literals s = .ok t) : t.nodes = s.nodes := by
  have frame : Except.ok t = Except.ok (ε := Exn) { t with nodes := s.nodes } := by
    have frame := encryptLiterals_nodes literals s s.nodes
    rwa [h] at frame
  have same := congrArg BuildState.nodes (Except.ok.inj frame)
  exact same

theorem encryptLiterals_nextLiteralId {literals : List (Str × Int)} {s t : BuildState P}
    (h : encryptLiterals literals s = .ok t) :
    t.nextLiteralId = s.nextLiteralId + UInt32.ofNat literals.length := by
  induction literals generalizing s with
  | nil => cases h; simp
  | cons lit literals ih =>
    simp only [encryptLiterals, List.foldlM_cons] at ih h
    obtain ⟨u, hu, h⟩ := bind_ok_iff.mp h
    obtain ⟨ct, rng, _, rfl⟩ := pushLiteral_ok_iff.mp hu
    rw [ih h, List.length_cons, UInt32.ofNat_add, UInt32.add_assoc]
    congr 1
    exact UInt32.add_comm _ _

theorem encryptLiterals_ok_nodes_iff {literals : List (Str × Int)} {s t : BuildState P}
    {nodes : List PredNode} :
    encryptLiterals literals { s with nodes := nodes } = .ok t ↔
      ∃ u, encryptLiterals literals s = .ok u ∧ t = { u with nodes := nodes } := by
  rw [encryptLiterals_nodes]
  cases encryptLiterals literals s with
  | error e => simp
  | ok u => simp [eq_comm]

/-- The outcome of laying out an expression from a state that has used `l`
literal ids. -/
def LaidOut (schema : TableSchema) (e : ASTExpr) (s : BuildState P) (l : Nat) (root : UInt32)
    (s' : BuildState P) : Prop :=
  ∃ code t, flatten schema e s.nodes.length l = .ok code ∧
    encryptLiterals code.literals s = .ok t ∧
    root = UInt32.ofNat (s.nodes.length + code.nodes.length - 1) ∧
    s' = { t with nodes := s.nodes ++ code.nodes }

/-- A successful `buildPredNode` is the layout followed by the encryption. -/
def Splits (P : Proto1) (schema : TableSchema) (e : ASTExpr) : Prop :=
  ∀ (s : BuildState P) (l : Nat) (root : UInt32) (s' : BuildState P),
    s.nextLiteralId = UInt32.ofNat l →
      (buildPredNode schema e s = .ok (root, s') ↔ LaidOut schema e s l root s')

theorem pushNode_eq (node : PredNode) (s : BuildState P) :
    pushNode node s =
      (UInt32.ofNat s.nodes.length, { s with nodes := s.nodes ++ [node] }) := rfl

/-- Both operands and then their node, the step of every binary case. -/
theorem splits_join {schema : TableSchema} {left right : ASTExpr}
    (hl : Splits P schema left) (hr : Splits P schema right) (kind : PredNodeKind)
    {s : BuildState P} {l : Nat} {root : UInt32} {s' : BuildState P}
    (fresh : s.nextLiteralId = UInt32.ofNat l) :
    (do
      let (i, s₁) ← buildPredNode schema left s
      let (j, s₂) ← buildPredNode schema right s₁
      pure (pushNode { kind := kind, left := i, right := j } s₂)) = .ok (root, s') ↔
    ∃ code t, (do
        let a ← flatten schema left s.nodes.length l
        let b ← flatten schema right (s.nodes.length + a.nodes.length) (l + a.literals.length)
        .ok (a.join s.nodes.length kind b)) = .ok code ∧
      encryptLiterals code.literals s = .ok t ∧
      root = UInt32.ofNat (s.nodes.length + code.nodes.length - 1) ∧
      s' = { t with nodes := s.nodes ++ code.nodes } := by
  constructor
  · intro h
    obtain ⟨⟨i, s₁⟩, h₁, h⟩ := bind_ok_iff.mp h
    obtain ⟨⟨j, s₂⟩, h₂, h⟩ := bind_ok_iff.mp h
    obtain ⟨a, t, ha, ht, hi, rfl⟩ := (hl s l i s₁ fresh).mp h₁
    have fresh' : t.nextLiteralId = UInt32.ofNat (l + a.literals.length) := by
      rw [encryptLiterals_nextLiteralId ht, fresh, UInt32.ofNat_add]
    obtain ⟨b, u, hb, hu, hj, rfl⟩ := (hr { t with nodes := s.nodes ++ a.nodes }
      (l + a.literals.length) j s₂ fresh').mp h₂
    obtain ⟨v, hv, rfl⟩ := encryptLiterals_ok_nodes_iff.mp hu
    simp only [List.length_append] at hb hj
    simp only [pushNode_eq, pure_eq_ok, Except.ok.injEq, Prod.mk.injEq] at h
    obtain ⟨rfl, rfl⟩ := h
    refine ⟨a.join s.nodes.length kind b, v, ?_, ?_, ?_, ?_⟩
    · simp only [ha, hb, ok_bind]
    · rw [Code.join, encryptLiterals_append, ht]
      exact hv
    · simp only [Code.join, List.length_append, List.length_singleton]
      congr 1
      omega
    · simp only [Code.join, hi, hj, List.append_assoc]
  · rintro ⟨code, t, h, ht, rfl, rfl⟩
    obtain ⟨a, ha, h⟩ := bind_ok_iff.mp h
    obtain ⟨b, hb, h⟩ := bind_ok_iff.mp h
    cases h
    rw [Code.join, encryptLiterals_append] at ht
    obtain ⟨u, hu, hv⟩ := bind_ok_iff.mp ht
    have fresh' : u.nextLiteralId = UInt32.ofNat (l + a.literals.length) := by
      rw [encryptLiterals_nextLiteralId hu, fresh, UInt32.ofNat_add]
    have first := (hl s l _ _ fresh).mpr ⟨a, u, ha, hu, rfl, rfl⟩
    have second := (hr { u with nodes := s.nodes ++ a.nodes } (l + a.literals.length) _ _
      fresh').mpr ⟨b, { t with nodes := s.nodes ++ a.nodes }, by
        simpa only [List.length_append] using hb,
        encryptLiterals_ok_nodes_iff.mpr ⟨t, hv, rfl⟩, rfl, rfl⟩
    simp only [first, second, ok_bind, pure_eq_ok, pushNode_eq, Code.join, List.length_append,
      List.length_singleton, List.append_assoc]
    congr 2

theorem addEncryptedString_ok_iff {literal : Str} {maxLength : Nat} {s : BuildState P}
    {firstId : UInt32} {t : BuildState P} :
    addEncryptedString literal maxLength s = .ok (firstId, t) ↔
      firstId = s.nextLiteralId ∧ encryptLiterals (characters literal maxLength) s = .ok t := by
  simp only [addEncryptedString, encryptLiterals, characters, List.foldlM_map, bind_ok_iff,
    pure_eq_ok, Except.ok.injEq, Prod.mk.injEq]
  constructor
  · rintro ⟨u, hu, rfl, rfl⟩
    exact ⟨rfl, hu⟩
  · rintro ⟨rfl, hu⟩
    exact ⟨t, hu, rfl, rfl⟩

theorem encryptLiterals_singleton {t : Str} {v : Int} {s : BuildState P} :
    encryptLiterals [(t, v)] s = pushLiteral t v s := by
  simp only [encryptLiterals, List.foldlM_cons, List.foldlM_nil]
  cases pushLiteral t v s <;> rfl

theorem buildPredNode_splits (schema : TableSchema) (e : ASTExpr) : Splits P schema e := by
  induction e with
  | columnRef name =>
    intro s l root s' _
    simp only [buildPredNode, LaidOut, flatten]
    constructor
    · intro h
      obtain ⟨rfl, rfl⟩ := Prod.mk.inj (Except.ok.inj h)
      exact ⟨_, s, rfl, rfl, rfl, rfl⟩
    · rintro ⟨code, t, h, ht, rfl, rfl⟩
      cases h
      cases ht
      rfl
  | intLiteral v =>
    intro s l root s' fresh
    simp only [buildPredNode, LaidOut, flatten]
    constructor
    · intro h
      obtain ⟨t, ht, h⟩ := bind_ok_iff.mp h
      obtain ⟨rfl, rfl⟩ := Prod.mk.inj (Except.ok.inj h)
      obtain ⟨ct, rng, _, rfl⟩ := pushLiteral_ok_iff.mp ht
      exact ⟨_, _, rfl, encryptLiterals_singleton.trans ht, rfl, by simp [fresh]⟩
    · rintro ⟨code, t, h, ht, rfl, rfl⟩
      cases h
      rw [encryptLiterals_singleton] at ht
      obtain ⟨ct, rng, _, rfl⟩ := pushLiteral_ok_iff.mp ht
      rw [ht]
      simp [pushNode_eq, fresh]
  | stringLiteral value =>
    intro s l root s' _
    simp [buildPredNode, LaidOut, flatten]
  | comparison kind left right ihl ihr =>
    intro s l root s' fresh
    simp only [buildPredNode, LaidOut, flatten]
    cases stringComparison? left right with
    | none => exact splits_join ihl ihr (comparisonNodeKind kind) fresh
    | some pair =>
      obtain ⟨column, literal⟩ := pair
      simp only [bind_ok_iff, Prod.exists, addEncryptedString_ok_iff, pure_eq_ok, pushNode_eq,
        Except.ok.injEq, Prod.mk.injEq]
      constructor
      · rintro ⟨cs, hcs, firstId, t, ⟨rfl, ht⟩, rfl, rfl⟩
        have same := encryptLiterals_keeps_nodes ht
        refine ⟨_, t, ⟨cs, hcs, rfl⟩, ht, ?_, ?_⟩
        · simp [same]
        · simp [same, fresh]
      · rintro ⟨code, t, ⟨cs, hcs, rfl⟩, ht, rfl, rfl⟩
        have same := encryptLiterals_keeps_nodes ht
        refine ⟨cs, hcs, s.nextLiteralId, t, ⟨rfl, ht⟩, ?_, ?_⟩
        · simp [same]
        · simp [same, fresh]
  | boolean kind left right ihl ihr =>
    intro s l root s' fresh
    simp only [buildPredNode, LaidOut, flatten]
    exact splits_join ihl ihr (booleanNodeKind kind) fresh
  | notExpr child ih =>
    intro s l root s' fresh
    simp only [buildPredNode, LaidOut, flatten, bind_ok_iff, Prod.exists, pure_eq_ok,
      Except.ok.injEq, pushNode_eq, Prod.mk.injEq]
    constructor
    · rintro ⟨i, t, h, rfl, rfl⟩
      obtain ⟨a, u, ha, hu, rfl, rfl⟩ := (ih s l i t fresh).mp h
      refine ⟨a.negate s.nodes.length, u, ⟨a, ha, rfl⟩, hu, ?_, ?_⟩
      · simp only [Code.negate, List.length_append, List.length_singleton]
        congr 1
      · simp only [Code.negate, List.append_assoc]
    · rintro ⟨code, u, ⟨a, ha, rfl⟩, hu, rfl, rfl⟩
      refine ⟨_, _, (ih s l _ _ fresh).mpr ⟨a, u, ha, hu, rfl, rfl⟩, ?_, ?_⟩
      · simp only [Code.negate, List.length_append, List.length_singleton]
        congr 1
      · simp only [Code.negate, List.append_assoc]

/-- `flatten` as a relation, with one rule for each shape of code. -/
inductive Flattens (schema : TableSchema) : ASTExpr → Nat → Nat → Code → Prop where
  | columnRef {name n l} :
      Flattens schema (.columnRef name) n l ⟨[{ kind := .ColumnRef, columnName := name }], []⟩
  | intLiteral {v n l} :
      Flattens schema (.intLiteral v) n l
        ⟨[{ kind := .LiteralRef, literalId := UInt32.ofNat l }], [(str "INT64", v)]⟩
  | string {kind left right n l column literal columnSchema} :
      stringComparison? left right = some (column, literal) →
      schema.column (bareName column) = .ok columnSchema →
      Flattens schema (.comparison kind left right) n l
        ⟨[{ kind := stringNodeKind kind
            columnName := column
            literalId := UInt32.ofNat l
            stringWidth := UInt32.ofNat columnSchema.maxLength }],
          characters literal columnSchema.maxLength⟩
  | comparison {kind left right n l a b} :
      stringComparison? left right = none → Flattens schema left n l a →
      Flattens schema right (n + a.nodes.length) (l + a.literals.length) b →
      Flattens schema (.comparison kind left right) n l (a.join n (comparisonNodeKind kind) b)
  | boolean {kind left right n l a b} :
      Flattens schema left n l a →
      Flattens schema right (n + a.nodes.length) (l + a.literals.length) b →
      Flattens schema (.boolean kind left right) n l (a.join n (booleanNodeKind kind) b)
  | notExpr {child n l a} :
      Flattens schema child n l a → Flattens schema (.notExpr child) n l (a.negate n)

theorem flattens_of_ok {schema : TableSchema} {e : ASTExpr} {n l : Nat} {code : Code}
    (h : flatten schema e n l = .ok code) : Flattens schema e n l code := by
  induction e generalizing n l code with
  | columnRef name => cases h; exact .columnRef
  | intLiteral v => cases h; exact .intLiteral
  | stringLiteral value => cases h
  | comparison kind left right ihl ihr =>
    simp only [flatten] at h
    cases hs : stringComparison? left right with
    | some pair =>
      rw [hs] at h
      obtain ⟨cs, hcs, h⟩ := bind_ok_iff.mp h
      cases h
      exact .string hs hcs
    | none =>
      rw [hs] at h
      obtain ⟨a, ha, h⟩ := bind_ok_iff.mp h
      obtain ⟨b, hb, h⟩ := bind_ok_iff.mp h
      cases h
      exact .comparison hs (ihl ha) (ihr hb)
  | boolean kind left right ihl ihr =>
    obtain ⟨a, ha, h⟩ := bind_ok_iff.mp h
    obtain ⟨b, hb, h⟩ := bind_ok_iff.mp h
    cases h
    exact .boolean (ihl ha) (ihr hb)
  | notExpr child ih =>
    obtain ⟨a, ha, h⟩ := bind_ok_iff.mp h
    cases h
    exact .notExpr (ih ha)

/-- The entry that encrypts a literal under an id. -/
structure Encrypts (P : Proto1) (lit : Str × Int) (id : Nat) (entry : EncryptedLiteralEntry) :
    Prop where
  id : entry.id = UInt32.ofNat id
  logicalType : entry.logicalType = lit.1
  encrypted : ∃ rng ct rng', encryptScalar P lit.2 rng = .ok (ct, rng') ∧
    entry.ciphertextBytes = P.serialize ct ∧ entry.logicalSize = P.logicalSize ct

theorem encryptLiterals_entries {literals : List (Str × Int)} {s t : BuildState P} {l : Nat}
    (h : encryptLiterals literals s = .ok t) (fresh : s.nextLiteralId = UInt32.ofNat l) :
    ∃ entries, t.literals = s.literals ++ entries ∧
      List.Forall₂ (fun lit entry => Encrypts P lit.1 lit.2 entry) (literals.zipIdx l)
        entries := by
  induction literals generalizing s l with
  | nil =>
    cases h
    exact ⟨[], by simp, .nil⟩
  | cons lit literals ih =>
    simp only [encryptLiterals, List.foldlM_cons] at ih h
    obtain ⟨u, hu, h⟩ := bind_ok_iff.mp h
    obtain ⟨ct, rng, hct, rfl⟩ := pushLiteral_ok_iff.mp hu
    obtain ⟨entries, ht, all⟩ := ih (l := l + 1) h (by rw [fresh, UInt32.ofNat_add]; rfl)
    refine ⟨{ id := s.nextLiteralId, logicalType := lit.1, ciphertextBytes := P.serialize ct,
              logicalSize := P.logicalSize ct } :: entries, ?_, ?_⟩
    · rw [ht, List.append_assoc, List.singleton_append]
    · rw [List.zipIdx_cons]
      exact .cons ⟨fresh, rfl, s.rng, ct, rng, hct, rfl, rfl⟩ all

end FheSql.PredicateCode
