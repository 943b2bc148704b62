import FheSql.PredicateCode
import FheSql.PlainProto1
import FheSql.PredicateCompiler

/-!
# Flattening and rebuilding a predicate

The nodes that `buildPredNode` lays out form one tree, the literal ids are used
once each and in order, and `buildExpression` on the last node gives back the
directly compiled predicate.
-/

namespace FheSql.PredicateFlattening

open ByteText Throwing QueryEncryptor PredicateCode PredicateCompiler PredicateExpression

/-- The child indices a node holds; `UINT32_MAX` stands for none. -/
def children (node : PredNode) : List UInt32 :=
  [node.left, node.right].filter (· ≠ UINT32_MAX)

/-- The literal ids a node uses: one of its own, or one for each position. -/
def literalUses (node : PredNode) : List UInt32 :=
  match node.kind with
  | .LiteralRef => [node.literalId]
  | .StringEqual | .StringNotEqual =>
    (List.range node.stringWidth.toNat).map fun i => node.literalId + UInt32.ofNat i
  | _ => []

/-- The indices from `n` up, `count` of them. -/
def indices (n count : Nat) : List UInt32 := (List.range' n count).map UInt32.ofNat

variable {P : Proto1} {schema : TableSchema} {e : ASTExpr} {n l : Nat} {code : Code}

theorem indices_append (n a b : Nat) :
    indices n a ++ indices (n + a) b = indices n (a + b) := by
  rw [indices, indices, ← List.map_append, List.range'_append_1, indices]

theorem indices_succ (n k : Nat) : indices n (k + 1) = indices n k ++ [UInt32.ofNat (n + k)] := by
  rw [← indices_append n k 1]
  rfl

theorem toNat_ofNat {i : Nat} (h : i < 2 ^ 32) : (UInt32.ofNat i).toNat = i :=
  UInt32.toNat_ofNat_of_lt' h

theorem nodup_indices {n count : Nat} (bound : n + count ≤ 2 ^ 32) :
    (indices n count).Nodup := by
  refine List.Nodup.map_on ?_ (List.nodup_range' 1)
  intro i hi j hj same
  rw [List.mem_range'_1] at hi hj
  have := congrArg UInt32.toNat same
  rwa [toNat_ofNat (by omega), toNat_ofNat (by omega)] at this

theorem ofNat_ne_max {i : Nat} (h : i + 1 < 2 ^ 32) : UInt32.ofNat i ≠ UINT32_MAX := by
  intro same
  have := congrArg UInt32.toNat same
  rw [toNat_ofNat (by omega), show UINT32_MAX.toNat = 2 ^ 32 - 1 from rfl] at this
  omega

theorem nodes_ne_nil (h : Flattens schema e n l code) : code.nodes ≠ [] := by
  cases h <;> simp [Code.join, Code.negate]

theorem nodes_pos (h : Flattens schema e n l code) : 1 ≤ code.nodes.length :=
  List.length_pos_of_ne_nil (nodes_ne_nil h)

theorem children_join {kind : PredNodeKind} {i j : Nat} (hi : i + 1 < 2 ^ 32)
    (hj : j + 1 < 2 ^ 32) :
    children { kind := kind, left := UInt32.ofNat i, right := UInt32.ofNat j } =
      [UInt32.ofNat i, UInt32.ofNat j] := by
  simp [children, ofNat_ne_max hi, ofNat_ne_max hj]

theorem children_negate {i : Nat} (hi : i + 1 < 2 ^ 32) :
    children { kind := .Not, left := UInt32.ofNat i } = [UInt32.ofNat i] := by
  simp [children, ofNat_ne_max hi]

theorem length_join (kind : PredNodeKind) (a b : Code) :
    (a.join n kind b).nodes.length = a.nodes.length + b.nodes.length + 1 := by
  simp [Code.join, Nat.add_assoc]

/-- The children of a code end in its own root's predecessors. -/
theorem perm_root {c : List UInt32} {n k : Nat} (h : c.Perm (indices n (k - 1))) (pos : 1 ≤ k) :
    (c ++ [UInt32.ofNat (n + k - 1)]).Perm (indices n k) := by
  obtain ⟨k, rfl⟩ : ∃ j, k = j + 1 := ⟨k - 1, by omega⟩
  rw [indices_succ]
  exact h.append_right _

theorem children_perm_join {kind : PredNodeKind} {a b : Code}
    (ha : (a.nodes.flatMap children).Perm (indices n (a.nodes.length - 1)))
    (hb : (b.nodes.flatMap children).Perm
      (indices (n + a.nodes.length) (b.nodes.length - 1)))
    (posa : 1 ≤ a.nodes.length) (posb : 1 ≤ b.nodes.length)
    (bound : n + (a.join n kind b).nodes.length < 2 ^ 32) :
    ((a.join n kind b).nodes.flatMap children).Perm
      (indices n ((a.join n kind b).nodes.length - 1)) := by
  rw [length_join] at bound ⊢
  have split : (a.join n kind b).nodes.flatMap children =
      a.nodes.flatMap children ++ b.nodes.flatMap children ++
        [UInt32.ofNat (n + a.nodes.length - 1),
          UInt32.ofNat (n + a.nodes.length + b.nodes.length - 1)] := by
    simp only [Code.join, List.flatMap_append, List.flatMap_singleton]
    rw [children_join (by omega) (by omega)]
  rw [split, Nat.add_sub_cancel, ← indices_append]
  refine List.Perm.trans ?_ ((perm_root ha posa).append (perm_root hb posb))
  simp only [List.append_assoc]
  refine List.Perm.append_left _ ?_
  have swap : (b.nodes.flatMap children ++ [UInt32.ofNat (n + a.nodes.length - 1)]).Perm
      ([UInt32.ofNat (n + a.nodes.length - 1)] ++ b.nodes.flatMap children) :=
    List.perm_append_comm
  simpa only [List.append_assoc, List.cons_append, List.nil_append] using
    swap.append_right [UInt32.ofNat (n + a.nodes.length + b.nodes.length - 1)]

/-- Every index below the root of a code is a child in it, once. -/
theorem children_perm (h : Flattens schema e n l code)
    (bound : n + code.nodes.length < 2 ^ 32) :
    (code.nodes.flatMap children).Perm (indices n (code.nodes.length - 1)) := by
  induction h with
  | columnRef | intLiteral | string => exact .refl _
  | comparison _ ha hb iha ihb | boolean ha hb iha ihb =>
    have total := bound
    rw [length_join] at total
    exact children_perm_join (iha (by omega)) (ihb (by omega)) (nodes_pos ha) (nodes_pos hb) bound
  | @notExpr child n l a ha ih =>
    have total := bound
    simp only [Code.negate, List.length_append, List.length_singleton] at total
    simp only [Code.negate, List.flatMap_append, List.flatMap_singleton, List.length_append,
      List.length_singleton, Nat.add_sub_cancel]
    have pos := nodes_pos ha
    rw [children_negate (by omega)]
    exact perm_root (ih (by omega)) pos

/-- The children of a node lie in front of the node. -/
def Below (n : Nat) (nodes : List PredNode) : Prop :=
  ∀ k node, nodes[k]? = some node → ∀ c ∈ children node, c.toNat < n + k

theorem below_append {a b : List PredNode} (ha : Below n a) (hb : Below (n + a.length) b) :
    Below n (a ++ b) := by
  intro k node hk c hc
  by_cases first : k < a.length
  · rw [List.getElem?_append_left first] at hk
    exact ha k node hk c hc
  · rw [List.getElem?_append_right (by omega)] at hk
    have := hb _ node hk c hc
    omega

theorem below_singleton {node : PredNode} (h : ∀ c ∈ children node, c.toNat < n) :
    Below n [node] := by
  intro k m hk c hc
  obtain rfl := List.mem_singleton.mp (List.mem_of_getElem? hk)
  have := h c hc
  omega

theorem below_of_flattens (h : Flattens schema e n l code)
    (bound : n + code.nodes.length < 2 ^ 32) : Below n code.nodes := by
  induction h with
  | columnRef | intLiteral | string => exact below_singleton nofun
  | @comparison kind left right n l a b _ ha hb iha ihb
  | @boolean kind left right n l a b ha hb iha ihb =>
    rw [length_join] at bound
    have posa := nodes_pos ha
    have posb := nodes_pos hb
    refine below_append (below_append (iha (by omega)) (ihb (by omega))) (below_singleton ?_)
    intro c hc
    rw [children_join (by omega) (by omega)] at hc
    rw [List.length_append]
    rcases List.mem_pair.mp hc with rfl | rfl <;> rw [toNat_ofNat (by omega)] <;> omega
  | @notExpr child n l a ha ih =>
    simp only [Code.negate, List.length_append, List.length_singleton] at bound
    have pos := nodes_pos ha
    refine below_append (ih (by omega)) (below_singleton ?_)
    intro c hc
    rw [children_negate (by omega)] at hc
    obtain rfl := List.mem_singleton.mp hc
    rw [toNat_ofNat (by omega)]
    omega

theorem literalUses_string {node : PredNode}
    (hk : node.kind = .StringEqual ∨ node.kind = .StringNotEqual) :
    literalUses node =
      (List.range node.stringWidth.toNat).map fun i => node.literalId + UInt32.ofNat i := by
  rcases hk with hk | hk <;> simp only [literalUses, hk]

theorem stringNodeKind_cases (kind : CompareKind) :
    stringNodeKind kind = .StringEqual ∨ stringNodeKind kind = .StringNotEqual := by
  unfold stringNodeKind
  split
  · exact Or.inl rfl
  · exact Or.inr rfl

theorem literalUses_binary {kind : PredNodeKind} (hb : kind.isBinary = true) (i j : UInt32) :
    literalUses { kind := kind, left := i, right := j } = [] := by
  cases kind <;> first | rfl | cases hb

theorem isBinary_comparison (kind : CompareKind) :
    (comparisonNodeKind kind).isBinary = true := by
  cases kind <;> rfl

theorem isBinary_boolean (kind : BooleanKind) : (booleanNodeKind kind).isBinary = true := by
  cases kind <;> rfl

theorem literalUses_join {kind : PredNodeKind} (hb : kind.isBinary = true) (a b : Code) :
    (a.join n kind b).nodes.flatMap literalUses =
      a.nodes.flatMap literalUses ++ b.nodes.flatMap literalUses := by
  simp only [Code.join, List.flatMap_append, List.flatMap_singleton, literalUses_binary hb,
    List.append_nil]

/-- The literal ids of a code are used once each, in the order of the nodes. -/
theorem literalUses_eq (h : Flattens schema e n l code)
    (bound : l + code.literals.length < 2 ^ 32) :
    code.nodes.flatMap literalUses = indices l code.literals.length := by
  induction h with
  | columnRef => rfl
  | intLiteral => rfl
  | @string kind left right n l column literal columnSchema _ _ =>
    simp only [characters, List.length_map, List.length_range] at bound ⊢
    rw [List.flatMap_singleton, literalUses_string (stringNodeKind_cases kind)]
    simp only [toNat_ofNat (show columnSchema.maxLength < 2 ^ 32 by omega), indices,
      List.range'_eq_map_range, List.map_map]
    refine List.map_congr_left fun i _ => ?_
    exact (UInt32.ofNat_add l i).symm
  | @comparison kind left right n l a b _ ha hb iha ihb =>
    simp only [Code.join, List.length_append] at bound
    rw [literalUses_join (isBinary_comparison kind), iha (by omega), ihb (by omega),
      indices_append, Code.join, List.length_append]
  | @boolean kind left right n l a b ha hb iha ihb =>
    simp only [Code.join, List.length_append] at bound
    rw [literalUses_join (isBinary_boolean kind), iha (by omega), ihb (by omega),
      indices_append, Code.join, List.length_append]
  | @notExpr child n l a ha ih =>
    rw [Code.negate, List.flatMap_append, ih bound, List.flatMap_singleton]
    exact List.append_nil _

theorem find?_of_nodup {α β : Type} [BEq β] [LawfulBEq β] {f : α → β} {xs : List α}
    (distinct : (xs.map f).Nodup) {i : Nat} {a : α} (h : xs[i]? = some a) :
    xs.find? (fun x => f x == f a) = some a := by
  induction xs generalizing i with
  | nil => cases h
  | cons x xs ih =>
    rw [List.map_cons, List.nodup_cons] at distinct
    cases i with
    | zero =>
      obtain rfl : x = a := by simpa using h
      simp
    | succ i =>
      have mem : a ∈ xs := List.mem_of_getElem? (by simpa using h)
      have differ : f x ≠ f a := fun same =>
        distinct.1 (same ▸ List.mem_map_of_mem mem)
      rw [List.find?_cons_of_neg (by simpa using differ)]
      exact ih distinct.2 (by simpa using h)

section Literals

variable {literals : List (Str × Int)} {entries : List EncryptedLiteralEntry}

/-- The entries have the ids of their positions. -/
theorem entries_ids {start : Nat}
    (h : List.Forall₂ (fun lit entry => Encrypts P lit.1 lit.2 entry) (literals.zipIdx start)
      entries) : entries.map (·.id) = indices start literals.length := by
  induction literals generalizing start entries with
  | nil => cases h; rfl
  | cons lit literals ih =>
    rw [List.zipIdx_cons] at h
    obtain ⟨entry, rest, first, tail, rfl⟩ := List.forall₂_cons_left_iff.mp h
    rw [List.map_cons, ih tail, first.id, List.length_cons]
    rfl

/-- The executor's search for the id of a literal finds its own entry. -/
theorem literal?_of_entries {pkg : QueryPackage}
    (h : List.Forall₂ (fun lit entry => Encrypts P lit.1 lit.2 entry) (literals.zipIdx 0)
      pkg.encryptedLiterals) (bound : literals.length < 2 ^ 32) {i : Nat} {lit : Str × Int}
    (hi : literals[i]? = some lit) :
    ∃ entry, pkg.literal? (UInt32.ofNat i) = some entry ∧ Encrypts P lit i entry := by
  obtain ⟨hlt, rfl⟩ := List.getElem?_eq_some_iff.mp hi
  have same := h.length_eq
  rw [List.length_zipIdx] at same
  have hget := List.Forall₂.get h (i := i) (by rw [List.length_zipIdx]; exact hlt) (by omega)
  simp only [List.get_eq_getElem, List.getElem_zipIdx, Nat.zero_add] at hget
  refine ⟨_, ?_, hget⟩
  have distinct : (pkg.encryptedLiterals.map (·.id)).Nodup := by
    rw [entries_ids h]
    exact nodup_indices (by omega)
  rw [QueryPackage.literal?, ← hget.id]
  exact find?_of_nodup (f := EncryptedLiteralEntry.id) distinct (List.getElem?_eq_getElem _)

end Literals

/-- A ciphertext the server holds for a literal: encrypted by the client and
brought over in serialized form. -/
def Holds (P : Proto1) (ct : P.EncryptedVector) (v : Int) : Prop :=
  ∃ rng sent rng', encryptScalar P v rng = .ok (sent, rng') ∧
    P.deserializeWithSize (P.serialize sent) (P.logicalSize sent) = .ok ct

/-- What the client serializes the server can deserialize. -/
def RoundTrips (P : Proto1) : Prop :=
  ∀ v rng sent rng', encryptScalar P v rng = .ok (sent, rng') →
    ∃ ct, P.deserializeWithSize (P.serialize sent) (P.logicalSize sent) = .ok ct

section Rebuilding

variable {pkg : QueryPackage}

/-- The nodes of a code as a package holds them, from index `n` on. -/
structure CarriesNodes (pkg : QueryPackage) (n : Nat) (nodes : List PredNode) : Prop where
  node : ∀ (k : Nat) node, nodes[k]? = some node → pkg.predicateNodes[n + k]? = some node
  few : n + nodes.length ≤ 2 ^ 32

theorem carriesNodes_front {a b : List PredNode} (h : CarriesNodes pkg n (a ++ b)) :
    CarriesNodes pkg n a where
  node k node hk := by
    have hlt := (List.getElem?_eq_some_iff.mp hk).1
    exact h.node k node (by rw [List.getElem?_append_left hlt, hk])
  few := by
    have := h.few
    rw [List.length_append] at this
    omega

theorem carriesNodes_back {a b : List PredNode} (h : CarriesNodes pkg n (a ++ b)) :
    CarriesNodes pkg (n + a.length) b where
  node k node hk := by
    rw [Nat.add_assoc]
    exact h.node (a.length + k) node
      (by rw [List.getElem?_append_right (by omega), Nat.add_sub_cancel_left, hk])
  few := by
    have := h.few
    rw [List.length_append] at this
    omega

theorem carriesNodes_left {kind : PredNodeKind} {a b : Code}
    (h : CarriesNodes pkg n (a.join n kind b).nodes) : CarriesNodes pkg n a.nodes :=
  carriesNodes_front (carriesNodes_front h)

theorem carriesNodes_right {kind : PredNodeKind} {a b : Code}
    (h : CarriesNodes pkg n (a.join n kind b).nodes) :
    CarriesNodes pkg (n + a.nodes.length) b.nodes :=
  carriesNodes_back (carriesNodes_front h)

theorem carriesNodes_negated {a : Code} (h : CarriesNodes pkg n (a.negate n).nodes) :
    CarriesNodes pkg n a.nodes :=
  carriesNodes_front h

/-- The literals of a code as a package holds them, under the ids from `l` on. -/
structure CarriesLiterals (P : Proto1) (pkg : QueryPackage) (l : Nat)
    (literals : List (Str × Int)) : Prop where
  literal : ∀ (i : Nat) lit, literals[i]? = some lit →
    ∃ entry, pkg.literal? (UInt32.ofNat (l + i)) = some entry ∧ Encrypts P lit (l + i) entry
  few : l + literals.length < 2 ^ 32

theorem carriesLiterals_front {a b : List (Str × Int)} (h : CarriesLiterals P pkg l (a ++ b)) :
    CarriesLiterals P pkg l a where
  literal i lit hi := by
    have hlt := (List.getElem?_eq_some_iff.mp hi).1
    exact h.literal i lit (by rw [List.getElem?_append_left hlt, hi])
  few := by
    have := h.few
    rw [List.length_append] at this
    omega

theorem carriesLiterals_back {a b : List (Str × Int)} (h : CarriesLiterals P pkg l (a ++ b)) :
    CarriesLiterals P pkg (l + a.length) b where
  literal i lit hi := by
    rw [Nat.add_assoc]
    exact h.literal (a.length + i) lit
      (by rw [List.getElem?_append_right (by omega), Nat.add_sub_cancel_left, hi])
  few := by
    have := h.few
    rw [List.length_append] at this
    omega

/-- The index of the last node of a code. -/
def rootOf (n : Nat) (code : Code) : UInt32 := UInt32.ofNat (n + code.nodes.length - 1)

theorem carries_root (h : CarriesNodes pkg n code.nodes) {node : PredNode}
    (last : code.nodes.getLast? = some node) :
    pkg.predicateNodes[(rootOf n code).toNat]? = some node := by
  have pos : 1 ≤ code.nodes.length := by
    cases hc : code.nodes with
    | nil => rw [hc] at last; cases last
    | cons a as => simp
  have few := h.few
  rw [rootOf, toNat_ofNat (by omega), show n + code.nodes.length - 1 =
    n + (code.nodes.length - 1) by omega]
  exact h.node _ node (by rwa [← List.getLast?_eq_getElem?])

section Built

variable {fuel : Nat} {i : UInt32} {node : PredNode} {built : Expression P.EncryptedVector}

theorem built_columnRef (here : pkg.predicateNodes[i.toNat]? = some node)
    (kind : node.kind = .ColumnRef)
    (ok : QueryExecutor.buildExpression P pkg fuel i = .ok built) :
    built = .columnRef node.columnName := by
  cases fuel with
  | zero => cases ok
  | succ fuel =>
    simp only [QueryExecutor.buildExpression, here, kind, pure_eq_ok] at ok
    exact (Except.ok.inj ok).symm

theorem built_literal (here : pkg.predicateNodes[i.toNat]? = some node)
    (kind : node.kind = .LiteralRef)
    (ok : QueryExecutor.buildExpression P pkg fuel i = .ok built) :
    ∃ ct, built = .encLiteral ct := by
  cases fuel with
  | zero => cases ok
  | succ fuel =>
    simp only [QueryExecutor.buildExpression, here, kind, QueryExecutor.literalExpression] at ok
    split at ok
    · cases ok
    · obtain ⟨ct, _, ok⟩ := bind_ok_iff.mp ok
      cases ok
      exact ⟨ct, rfl⟩

/-- A string node is built from the conjunction of its positions. -/
theorem built_string (here : pkg.predicateNodes[i.toNat]? = some node)
    (kind : node.kind = .StringEqual ∨ node.kind = .StringNotEqual)
    (ok : QueryExecutor.buildExpression P pkg fuel i = .ok built) :
    ∃ equality, QueryExecutor.stringEquality P pkg node = .ok equality ∧
      (built = equality ∨ built = .notExpr equality) := by
  cases fuel with
  | zero => cases ok
  | succ fuel =>
    rcases kind with kind | kind
    · rw [buildExpression_stringEqual here kind] at ok
      exact ⟨built, ok, Or.inl rfl⟩
    · rw [buildExpression_stringNotEqual here kind, map_eq_pure_bind] at ok
      obtain ⟨equality, hx, ok⟩ := bind_ok_iff.mp ok
      cases ok
      exact ⟨equality, hx, Or.inr rfl⟩

/-- The root of a joined code is built from the roots of its two parts. -/
theorem built_join {kind : PredNodeKind} {a b : Code} (hb : kind.isBinary = true)
    (carry : CarriesNodes pkg n (a.join n kind b).nodes)
    (ok : QueryExecutor.buildExpression P pkg fuel (rootOf n (a.join n kind b)) = .ok built) :
    ∃ fuel' x y, QueryExecutor.buildExpression P pkg fuel' (rootOf n a) = .ok x ∧
      QueryExecutor.buildExpression P pkg fuel' (rootOf (n + a.nodes.length) b) = .ok y ∧
      built = binaryExpression kind x y := by
  cases fuel with
  | zero => cases ok
  | succ fuel =>
    have last : (a.join n kind b).nodes.getLast? = some
        { kind := kind, left := rootOf n a
          right := rootOf (n + a.nodes.length) b } := List.getLast?_concat
    rw [buildExpression_binary (carries_root carry last) hb] at ok
    obtain ⟨x, hx, ok⟩ := bind_ok_iff.mp ok
    obtain ⟨y, hy, ok⟩ := bind_ok_iff.mp ok
    cases ok
    exact ⟨fuel, x, y, hx, hy, rfl⟩

theorem built_negate {a : Code} (carry : CarriesNodes pkg n (a.negate n).nodes)
    (ok : QueryExecutor.buildExpression P pkg fuel (rootOf n (a.negate n)) = .ok built) :
    ∃ fuel' x, QueryExecutor.buildExpression P pkg fuel' (rootOf n a) = .ok x ∧
      built = .notExpr x := by
  cases fuel with
  | zero => cases ok
  | succ fuel =>
    have last : (a.negate n).nodes.getLast? = some { kind := .Not, left := rootOf n a } :=
      List.getLast?_concat
    rw [buildExpression_not (carries_root carry last) rfl, map_eq_pure_bind] at ok
    obtain ⟨x, hx, ok⟩ := bind_ok_iff.mp ok
    cases ok
    exact ⟨fuel, x, hx, rfl⟩

end Built

/-- A literal that is carried deserializes to a ciphertext that holds it. -/
theorem carries_holds (trips : RoundTrips P) {literals : List (Str × Int)}
    (h : CarriesLiterals P pkg l literals) {i : Nat} {lit : Str × Int}
    (hi : literals[i]? = some lit) :
    ∃ entry ct, pkg.literal? (UInt32.ofNat (l + i)) = some entry ∧
      P.deserializeWithSize entry.ciphertextBytes entry.logicalSize = .ok ct ∧
      Holds P ct lit.2 := by
  obtain ⟨entry, found, _, _, rng, sent, rng', hsent, hbytes, hsize⟩ := h.literal i lit hi
  obtain ⟨ct, hct⟩ := trips lit.2 rng sent rng' hsent
  exact ⟨entry, ct, found, by rw [hbytes, hsize, hct], rng, sent, rng', hsent, hct⟩

/-- What `buildExpression` gives back for a code, from enough fuel on. -/
def Rebuilds (P : Proto1) (pkg : QueryPackage) (root : UInt32) (size : Nat)
    (compiled : Expression Int) : Prop :=
  ∃ built, (∀ fuel, size ≤ fuel → QueryExecutor.buildExpression P pkg fuel root = .ok built) ∧
    built.Rel (Holds P) compiled

theorem rebuilds_join {kind : PredNodeKind} {a b : Code} {ca cb c : Expression Int}
    (carry : CarriesNodes pkg n (a.join n kind b).nodes) (hb : kind.isBinary = true)
    (ra : Rebuilds P pkg (rootOf n a) a.nodes.length ca)
    (rb : Rebuilds P pkg (rootOf (n + a.nodes.length) b) b.nodes.length cb)
    (rel : ∀ x y : Expression P.EncryptedVector, x.Rel (Holds P) ca → y.Rel (Holds P) cb →
      (binaryExpression kind x y).Rel (Holds P) c) :
    Rebuilds P pkg (rootOf n (a.join n kind b)) (a.join n kind b).nodes.length c := by
  obtain ⟨x, hx, relx⟩ := ra
  obtain ⟨y, hy, rely⟩ := rb
  refine ⟨binaryExpression kind x y, fun fuel le => ?_, rel x y relx rely⟩
  rw [length_join] at le
  obtain ⟨fuel, rfl⟩ : ∃ m, fuel = m + 1 := ⟨fuel - 1, by omega⟩
  have last : (a.join n kind b).nodes.getLast? =
      some { kind := kind, left := rootOf n a, right := rootOf (n + a.nodes.length) b } :=
    List.getLast?_concat
  have root := carries_root carry last
  rw [buildExpression_binary root hb]
  simp only [hx fuel (by omega), hy fuel (by omega), ok_bind, pure_eq_ok]

theorem rebuilds_string (trips : RoundTrips P) {kind : CompareKind} {column literal : Str}
    {columnSchema : ColumnSchema} (hcs : schema.column (bareName column) = .ok columnSchema)
    (wide : 1 ≤ columnSchema.maxLength) (operator : kind = .Equal ∨ kind = .NotEqual)
    (carry : CarriesNodes pkg n
      [{ kind := stringNodeKind kind
         columnName := column
         literalId := UInt32.ofNat l
         stringWidth := UInt32.ofNat columnSchema.maxLength }])
    (held : CarriesLiterals P pkg l (characters literal columnSchema.maxLength)) :
    ∃ compiled, compileString P.stringPhysicalColumn schema kind column literal = some compiled ∧
      Rebuilds P pkg (UInt32.ofNat n) 1 compiled := by
  have few := held.few
  simp only [characters, List.length_map, List.length_range] at few
  generalize hnode : ({ kind := stringNodeKind kind, columnName := column
                        literalId := UInt32.ofNat l
                        stringWidth := UInt32.ofNat columnSchema.maxLength } : PredNode) = node
    at carry
  have root : pkg.predicateNodes[(UInt32.ofNat n).toNat]? = some node :=
    carries_root (show CarriesNodes pkg n (Code.mk [node] []).nodes from carry) rfl
  have width : node.stringWidth.toNat = columnSchema.maxLength := by
    rw [← hnode]
    exact toNat_ofNat (by omega)
  have wideNode : node.stringWidth ≠ 0 := by
    intro h
    rw [h] at width
    simp only [UInt32.toNat_zero] at width
    omega
  -- each position is found under its own id and holds its own character
  have character : ∀ position ∈ List.range columnSchema.maxLength, ∃ comparison,
      QueryExecutor.characterComparison P pkg node position = .ok comparison ∧
      comparison.Rel (Holds P) (.equal (.columnRef (P.stringPhysicalColumn column position))
        (.encLiteral (characterCode literal position))) := by
    intro position hp
    have hlit : (characters literal columnSchema.maxLength)[position]? =
        some (str "STRING_CHAR", characterCode literal position) := by
      rw [characters, List.getElem?_map, List.getElem?_range (List.mem_range.mp hp)]
      rfl
    obtain ⟨entry, ct, found, hct, holds⟩ := carries_holds trips held hlit
    have id : node.literalId + UInt32.ofNat position = UInt32.ofNat (l + position) := by
      rw [← hnode, UInt32.ofNat_add]
    refine ⟨_, ?_, .equal .columnRef (.encLiteral holds)⟩
    simp only [QueryExecutor.characterComparison, id, found, hct, fromProto1_ok, ok_bind,
      pure_eq_ok]
    rw [← hnode]
  have all : ∃ comparisons,
      (List.range columnSchema.maxLength).mapM
        (QueryExecutor.characterComparison P pkg node) = .ok comparisons ∧
      List.Forall₂ (Expression.Rel (Holds P)) comparisons
        ((List.range columnSchema.maxLength).map fun position =>
          .equal (.columnRef (P.stringPhysicalColumn column position))
            (.encLiteral (characterCode literal position))) := by
    revert character
    generalize List.range columnSchema.maxLength = positions
    intro character
    induction positions with
    | nil => exact ⟨[], rfl, .nil⟩
    | cons position positions ih =>
      obtain ⟨c, hc, relc⟩ := character position List.mem_cons_self
      obtain ⟨cs, hcs, relcs⟩ := ih fun p hp => character p (List.mem_cons_of_mem _ hp)
      exact ⟨c :: cs, by rw [List.mapM_cons, hc, hcs]; rfl, .cons relc relcs⟩
  obtain ⟨comparisons, hcomparisons, rel⟩ := all
  have nonempty : comparisons ≠ [] := by
    rintro rfl
    have := rel.length_eq
    simp only [List.length_nil, List.length_map, List.length_range] at this
    omega
  have built : QueryExecutor.stringEquality P pkg node = .ok (conjunction comparisons) := by
    rw [stringEquality_eq wideNode, width, hcomparisons]
    rfl
  have related : (conjunction comparisons).Rel (Holds P)
      (stringEqual P.stringPhysicalColumn column literal columnSchema.maxLength) :=
    rel_conjunction nonempty rel
  have positive : columnSchema.maxLength ≠ 0 := by omega
  rcases operator with rfl | rfl
  · refine ⟨_, by simp only [compileString, hcs, if_neg positive],
      conjunction comparisons, fun fuel le => ?_, related⟩
    obtain ⟨fuel, rfl⟩ : ∃ m, fuel = m + 1 := ⟨fuel - 1, by omega⟩
    have kind : node.kind = .StringEqual := by rw [← hnode]; rfl
    rw [buildExpression_stringEqual root kind, built]
  · refine ⟨_, by simp only [compileString, hcs, if_neg positive],
      .notExpr (conjunction comparisons), fun fuel le => ?_, .notExpr related⟩
    obtain ⟨fuel, rfl⟩ : ∃ m, fuel = m + 1 := ⟨fuel - 1, by omega⟩
    have kind : node.kind = .StringNotEqual := by rw [← hnode]; rfl
    rw [buildExpression_stringNotEqual root kind, built]
    rfl

/-- Rebuilding the code of an expression gives the directly compiled expression. -/
theorem rebuilds_of_flattens (trips : RoundTrips P) (h : Flattens schema e n l code)
    (carry : CarriesNodes pkg n code.nodes) (held : CarriesLiterals P pkg l code.literals)
    (ok : StringComparisonsOk schema e) :
    ∃ compiled, compile P.stringPhysicalColumn schema e = some compiled ∧
      Rebuilds P pkg (rootOf n code) code.nodes.length compiled := by
  induction h with
  | @columnRef name n l =>
    refine ⟨.columnRef name, rfl, .columnRef name, fun fuel le => ?_, .columnRef⟩
    obtain ⟨fuel, rfl⟩ : ∃ m, fuel = m + 1 := ⟨fuel - 1, by simp at le; omega⟩
    have root : pkg.predicateNodes[(rootOf n _).toNat]? =
        some { kind := .ColumnRef, columnName := name } := carries_root carry rfl
    simp only [QueryExecutor.buildExpression, root, pure_eq_ok]
  | @intLiteral v n l =>
    obtain ⟨entry, ct, found, hct, holds⟩ := carries_holds trips held (i := 0) rfl
    refine ⟨.encLiteral v, rfl, .encLiteral ct, fun fuel le => ?_, .encLiteral holds⟩
    obtain ⟨fuel, rfl⟩ : ∃ m, fuel = m + 1 := ⟨fuel - 1, by simp at le; omega⟩
    rw [Nat.add_zero] at found
    have root : pkg.predicateNodes[(rootOf n _).toNat]? =
        some { kind := .LiteralRef, literalId := UInt32.ofNat l } := carries_root carry rfl
    simp only [QueryExecutor.buildExpression, root, QueryExecutor.literalExpression, found, hct,
      fromProto1_ok, ok_bind, pure_eq_ok]
  | @string kind left right n l column literal columnSchema hs hcs =>
    simp only [StringComparisonsOk, hs] at ok
    obtain ⟨operator, cs, hcs', wide⟩ := ok
    obtain rfl : columnSchema = cs := Except.ok.inj (hcs.symm.trans hcs')
    obtain ⟨compiled, hc, built⟩ := rebuilds_string trips hcs wide operator carry held
    exact ⟨compiled, by simp only [compile, hs, hc], built⟩
  | @comparison kind left right n l a b hs ha hb iha ihb =>
    simp only [StringComparisonsOk, hs] at ok
    obtain ⟨ca, hca, ra⟩ := iha (carriesNodes_left carry) (carriesLiterals_front held) ok.1
    obtain ⟨cb, hcb, rb⟩ := ihb (carriesNodes_right carry) (carriesLiterals_back held) ok.2
    refine ⟨compileComparison kind ca cb, by simp [compile, hs, hca, hcb], ?_⟩
    exact rebuilds_join carry (isBinary_comparison kind) ra rb
      fun x y hx hy => rel_binaryExpression kind hx hy
  | @boolean kind left right n l a b ha hb iha ihb =>
    obtain ⟨ca, hca, ra⟩ := iha (carriesNodes_left carry) (carriesLiterals_front held) ok.1
    obtain ⟨cb, hcb, rb⟩ := ihb (carriesNodes_right carry) (carriesLiterals_back held) ok.2
    refine ⟨compileBoolean kind ca cb, by simp [compile, hca, hcb], ?_⟩
    exact rebuilds_join carry (isBinary_boolean kind) ra rb
      fun x y hx hy => rel_booleanExpression kind hx hy
  | @notExpr child n l a ha ih =>
    obtain ⟨ca, hca, x, hx, rel⟩ := ih (carriesNodes_negated carry) held ok
    refine ⟨.notExpr ca, by simp [compile, hca], .notExpr x, fun fuel le => ?_, .notExpr rel⟩
    simp only [Code.negate, List.length_append, List.length_singleton] at le
    obtain ⟨fuel, rfl⟩ : ∃ m, fuel = m + 1 := ⟨fuel - 1, by omega⟩
    have last : (a.negate n).nodes.getLast? = some { kind := .Not, left := rootOf n a } :=
      List.getLast?_concat
    rw [buildExpression_not (carries_root carry last) rfl, hx fuel (by omega)]
    rfl

end Rebuilding

/-- Nodes and literals that flatten an expression faithfully: one tree with its
root last, every literal id used once, and the expression given back. -/
structure Faithful (P : Proto1) (schema : TableSchema) (e : ASTExpr) (root : UInt32)
    (nodes : List PredNode) (literals : List EncryptedLiteralEntry) : Prop where
  root : nodes ≠ [] ∧ root = UInt32.ofNat (nodes.length - 1)
  below : Below 0 nodes
  parents : ∀ i, i + 1 < nodes.length → (nodes.flatMap children).count (UInt32.ofNat i) = 1
  ids : ∀ (i : Nat) entry, literals[i]? = some entry → entry.id = UInt32.ofNat i
  users : ∀ i, i < literals.length → (nodes.flatMap literalUses).count (UInt32.ofNat i) = 1
  known : ∀ id ∈ nodes.flatMap literalUses, id.toNat < literals.length
  rebuilt : StringComparisonsOk schema e →
    ∃ compiled, compile P.stringPhysicalColumn schema e = some compiled ∧
      ∀ pkg : QueryPackage, pkg.predicateNodes = nodes → pkg.encryptedLiterals = literals →
        Rebuilds P pkg pkg.rootIndex nodes.length compiled

theorem count_indices {count i : Nat} (h : i < count) (bound : count < 2 ^ 32) :
    (indices 0 count).count (UInt32.ofNat i) = 1 := by
  refine List.count_eq_one_of_mem (nodup_indices (by omega)) ?_
  exact List.mem_map_of_mem (List.mem_range'_1.mpr ⟨Nat.zero_le i, by omega⟩)

/-- A package that holds a laid out code and its entries is rebuilt from its root to
the compiled expression. -/
theorem rebuilt_of_flattens (trips : RoundTrips P) (flat : Flattens schema e 0 0 code)
    {entries : List EncryptedLiteralEntry}
    (encrypts : List.Forall₂ (fun lit entry => Encrypts P lit.1 lit.2 entry)
      (code.literals.zipIdx 0) entries)
    (fewNodes : code.nodes.length < 2 ^ 32) (fewLiterals : code.literals.length < 2 ^ 32)
    (ok : StringComparisonsOk schema e) :
    ∃ compiled, compile P.stringPhysicalColumn schema e = some compiled ∧
      ∀ pkg : QueryPackage, pkg.predicateNodes = code.nodes → pkg.encryptedLiterals = entries →
        Rebuilds P pkg pkg.rootIndex code.nodes.length compiled := by
  have carried : ∀ pkg : QueryPackage, pkg.predicateNodes = code.nodes →
      pkg.encryptedLiterals = entries →
      CarriesNodes pkg 0 code.nodes ∧ CarriesLiterals P pkg 0 code.literals := by
    intro pkg hn hl
    refine ⟨⟨fun k node hk => by rw [hn, Nat.zero_add, hk], by omega⟩,
      fun i lit hi => ?_, by omega⟩
    rw [← hl] at encrypts
    rw [Nat.zero_add]
    exact literal?_of_entries encrypts (by omega) hi
  obtain ⟨carry, held⟩ :=
    carried { predicateNodes := code.nodes, encryptedLiterals := entries } rfl rfl
  obtain ⟨compiled, hc, _⟩ := rebuilds_of_flattens trips flat carry held ok
  refine ⟨compiled, hc, fun pkg hn hl => ?_⟩
  obtain ⟨carry, held⟩ := carried pkg hn hl
  obtain ⟨compiled', hc', rebuilt⟩ := rebuilds_of_flattens trips flat carry held ok
  obtain rfl := Option.some.inj (hc.symm.trans hc')
  simpa only [rootOf, Nat.zero_add, QueryPackage.rootIndex, hn] using rebuilt

/-- What `buildPredNode` builds from empty arrays is faithful. -/
theorem buildPredNode_faithful (trips : RoundTrips P) {rng : P.Rng} {root : UInt32}
    {s : BuildState P} (built : buildPredNode schema e (initialState rng) = .ok (root, s))
    (fewNodes : s.nodes.length < 2 ^ 32) (fewLiterals : s.literals.length < 2 ^ 32) :
    Faithful P schema e root s.nodes s.literals := by
  obtain ⟨code, t, hcode, ht, rfl, rfl⟩ :=
    (buildPredNode_splits schema e (initialState rng) 0 root s rfl).mp built
  obtain ⟨entries, hentries, encrypts⟩ := encryptLiterals_entries (l := 0) ht rfl
  have flat := flattens_of_ok hcode
  simp only [initialState, List.length_nil, List.nil_append, Nat.zero_add] at *
  rw [hentries] at fewLiterals ⊢
  have same : code.literals.length = entries.length := by
    rw [← encrypts.length_eq, List.length_zipIdx]
  have uses := literalUses_eq flat (by omega)
  rw [same] at uses
  refine ⟨⟨nodes_ne_nil flat, rfl⟩, below_of_flattens flat (by omega), ?_, ?_, ?_, ?_, ?_⟩
  · intro i hi
    rw [(children_perm flat (by omega)).count_eq]
    exact count_indices (by omega) (by omega)
  · intro i entry hi
    have ids := congrArg (fun ids => ids[i]?) (entries_ids encrypts)
    have hlt := (List.getElem?_eq_some_iff.mp hi).1
    simp only [List.getElem?_map, hi, Option.map_some, indices, same,
      List.getElem?_range' hlt] at ids
    simpa using ids
  · intro i hi
    rw [uses]
    exact count_indices hi fewLiterals
  · intro id hid
    rw [uses] at hid
    obtain ⟨i, hi, rfl⟩ := List.mem_map.mp hid
    have := List.mem_range'_1.mp hi
    rw [toNat_ofNat (by omega)]
    omega
  · exact fun ok => rebuilt_of_flattens trips flat encrypts (by omega) (by omega) ok

theorem plain_roundTrips (slotCount : Nat) : RoundTrips (plainProto1 slotCount) :=
  fun _ _ _ _ _ => ⟨_, rfl⟩

/-- A table with one INT64 and one STRING(2) column. -/
def people : TableSchema where
  tableId := str "people"
  columns := [{ name := str "age", type := .INT64 },
    { name := str "code", type := .STRING, maxLength := 2 }]

theorem people_predicate_faithful :
    ∃ root s, buildPredNode (P := plainProto1 4) people
        (.boolean .And (.comparison .LessEqual (.columnRef (str "age")) (.intLiteral 30))
          (.notExpr (.comparison .Equal (.columnRef (str "code")) (.stringLiteral (str "x")))))
        (initialState ()) = .ok (root, s) ∧
      Faithful (plainProto1 4) people
        (.boolean .And (.comparison .LessEqual (.columnRef (str "age")) (.intLiteral 30))
          (.notExpr (.comparison .Equal (.columnRef (str "code")) (.stringLiteral (str "x")))))
        root s.nodes s.literals :=
  ⟨_, _, rfl, buildPredNode_faithful (plain_roundTrips 4) rfl (by decide) (by decide)⟩

/-- A string literal compared with a column of width 0 is laid out but not
built again, and the string comparisons other than `=` all get the code of `!=`. -/
theorem flattening_can_lose_the_predicate :
    (¬ ∀ (P : Proto1) (schema : TableSchema) (e : ASTExpr) (rng : P.Rng) (root : UInt32)
        (s : BuildState P), RoundTrips P →
      buildPredNode schema e (initialState rng) = .ok (root, s) →
      s.nodes.length < 2 ^ 32 → s.literals.length < 2 ^ 32 →
      ∀ pkg : QueryPackage, pkg.predicateNodes = s.nodes → pkg.encryptedLiterals = s.literals →
        ∃ fuel built, QueryExecutor.buildExpression P pkg fuel pkg.rootIndex = .ok built) ∧
    buildPredNode (P := plainProto1 4) people
        (.comparison .LessThan (.columnRef (str "code")) (.stringLiteral (str "x")))
        (initialState ()) =
      buildPredNode (P := plainProto1 4) people
        (.comparison .NotEqual (.columnRef (str "code")) (.stringLiteral (str "x")))
        (initialState ()) := by
  refine ⟨fun all => ?_, rfl⟩
  obtain ⟨fuel, built, h⟩ := all (plainProto1 4) people
    (.comparison .Equal (.columnRef (str "age")) (.stringLiteral (str "x"))) () 0 _
    (plain_roundTrips 4) rfl (by decide) (by decide)
    { predicateNodes := [{ kind := .StringEqual, columnName := str "age" }] } rfl rfl
  cases fuel with
  | zero => cases h
  | succ fuel => cases h

end FheSql.PredicateFlattening
