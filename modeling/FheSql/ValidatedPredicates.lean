import FheSql.PredicateExpression
import FheSql.ValidatedPackage

/-!
# Building a validated predicate

The validator and `buildExpression` are two recursions over the same nodes.
They part in two places: a kind byte outside the enumeration passes the
validator's switch, and the executor takes the first literal with an id where
the validator is content with any usable one.
-/

namespace FheSql.ValidatedPredicates

open ByteText Throwing PredicateTree PredicateExpression ValidatedPackage

section Statements

variable (pkg : QueryPackage)

/-- The child links between nodes. -/
def Link (i j : UInt32) : Prop :=
  ∃ node, pkg.predicateNodes[i.toNat]? = some node ∧
    ((node.kind = .Not ∧ j = node.left) ∨
      (node.kind.isBinary = true ∧ (j = node.left ∨ j = node.right)))

/-- A node of the tree below the last node. -/
def InTree (i : UInt32) (node : PredNode) : Prop :=
  Relation.ReflTransGen (Link pkg) pkg.rootIndex i ∧
    pkg.predicateNodes[i.toNat]? = some node

/-- A position of a string node in the tree. -/
def InString (node : PredNode) (position : Nat) : Prop :=
  (∃ i, InTree pkg i node) ∧ (node.kind = .StringEqual ∨ node.kind = .StringNotEqual) ∧
    position < node.stringWidth.toNat

/-- An expression, or an exception that proto1 raised. -/
def Settles {α : Type} (x : Except Exn α) : Prop :=
  (∃ a, x = .ok a) ∨ ∃ what, x = .error (.external what)

/-- `buildExpression` on the last node returns in every context, and throws none
of its own errors. -/
def AlwaysBuilds : Prop :=
  ∀ P : Proto1, ∃ bound, ∀ fuel, bound ≤ fuel →
    Settles (QueryExecutor.buildExpression P pkg fuel pkg.rootIndex)

/-- The comparison built at each position of a string predicate holds the
ciphertext of a literal the validator has checked for that position. -/
def BindsChecked : Prop :=
  ∀ (P : Proto1) (node : PredNode) (position : Nat) (e : Expression P.EncryptedVector),
    InString pkg node position → QueryExecutor.characterComparison P pkg node position = .ok e →
    ∃ lit ∈ pkg.encryptedLiterals,
      QueryValidator.isCharacterLiteral (node.literalId + UInt32.ofNat position) lit = true ∧
      ∃ ct, P.deserializeWithSize lit.ciphertextBytes lit.logicalSize = .ok ct ∧
        e = .equal (.columnRef (P.stringPhysicalColumn node.columnName position)) (.encLiteral ct)

/-- Every kind in the tree is an enumerator. -/
def KindsListed : Prop :=
  ∀ i node, InTree pkg i node → ∀ byte above, node.kind ≠ .unlisted byte above

/-- The first literal with the id of a string position has the bytes and the
size of a checked one. -/
def FirstEntriesChecked : Prop :=
  ∀ node position, InString pkg node position →
    ∃ lit ∈ pkg.encryptedLiterals,
      QueryValidator.isCharacterLiteral (node.literalId + UInt32.ofNat position) lit = true ∧
      ∃ first, pkg.literal? (node.literalId + UInt32.ofNat position) = some first ∧
        first.ciphertextBytes = lit.ciphertextBytes ∧ first.logicalSize = lit.logicalSize

end Statements

section Settling

theorem settles_ok {α : Type} (a : α) : Settles (.ok a : Except Exn α) := Or.inl ⟨a, rfl⟩

theorem settles_fromProto1 {α : Type} (x : Except Str α) : Settles (fromProto1 x) := by
  cases x with
  | error what => exact Or.inr ⟨what, rfl⟩
  | ok a => exact settles_ok a

theorem settles_bind {α β : Type} {x : Except Exn α} {f : α → Except Exn β} (hx : Settles x)
    (hf : ∀ a, Settles (f a)) : Settles (x >>= f) := by
  rcases hx with ⟨a, rfl⟩ | ⟨what, rfl⟩
  · exact hf a
  · exact Or.inr ⟨what, rfl⟩

theorem settles_map {α β : Type} {x : Except Exn α} (f : α → β) (hx : Settles x) :
    Settles (f <$> x) := by
  rcases hx with ⟨a, rfl⟩ | ⟨what, rfl⟩
  · exact settles_ok _
  · exact Or.inr ⟨what, rfl⟩

theorem settles_mapM {α β : Type} {f : α → Except Exn β} {l : List α}
    (h : ∀ a ∈ l, Settles (f a)) : Settles (l.mapM f) := by
  induction l with
  | nil => exact settles_ok []
  | cons a l ih =>
    rw [List.mapM_cons]
    refine settles_bind (h a List.mem_cons_self) fun b => settles_bind ?_ fun bs => settles_ok _
    exact ih fun c hc => h c (List.mem_cons_of_mem a hc)

end Settling

variable {P : Proto1} {cat : Catalog} {pkg : QueryPackage} {schema : TableSchema}

theorem wellFormed_link {i j : UInt32} (h : WellFormed cat pkg schema i) (link : Link pkg i j) :
    WellFormed cat pkg schema j := by
  obtain ⟨node, hn, shape⟩ := link
  cases h with
  | leaf hn' notBinary notNot ok =>
    rw [hn] at hn'
    cases hn'
    rcases shape with ⟨hk, _⟩ | ⟨hb, _⟩
    · exact False.elim (notNot hk)
    · rw [notBinary] at hb; cases hb
  | unary hn' kind present child =>
    rw [hn] at hn'
    cases hn'
    rcases shape with ⟨_, rfl⟩ | ⟨hb, _⟩
    · exact child
    · rw [kind] at hb; cases hb
  | binary hn' kind presentLeft presentRight left right =>
    rw [hn] at hn'
    cases hn'
    rcases shape with ⟨hk, _⟩ | ⟨_, rfl | rfl⟩
    · rw [hk] at kind; cases kind
    · exact left
    · exact right

theorem wellFormed_inTree (h : WellFormed cat pkg schema pkg.rootIndex) {i : UInt32}
    {node : PredNode} (inTree : InTree pkg i node) : WellFormed cat pkg schema i := by
  obtain ⟨path, hn⟩ := inTree
  clear hn
  induction path with
  | refl => exact h
  | tail _ link ih => exact wellFormed_link ih link

theorem wellFormed_string {i : UInt32} {node : PredNode} (h : WellFormed cat pkg schema i)
    (hn : pkg.predicateNodes[i.toNat]? = some node)
    (hk : node.kind = .StringEqual ∨ node.kind = .StringNotEqual) :
    IsStringNode pkg schema node := by
  cases h with
  | leaf hn' _ _ ok =>
    rw [hn] at hn'
    cases hn'
    rcases hk with hk | hk <;> simpa only [LeafOk, hk] using ok
  | unary hn' kind =>
    rw [hn] at hn'
    cases hn'
    rcases hk with hk | hk <;> rw [hk] at kind <;> cases kind
  | binary hn' kind =>
    rw [hn] at hn'
    cases hn'
    rcases hk with hk | hk <;> rw [hk] at kind <;> cases kind

theorem literal?_of_mem {lit : EncryptedLiteralEntry} {id : UInt32}
    (mem : lit ∈ pkg.encryptedLiterals) (same : lit.id = id) :
    ∃ first, pkg.literal? id = some first := by
  cases hf : pkg.literal? id with
  | some first => exact ⟨first, rfl⟩
  | none =>
    have none := List.find?_eq_none.mp hf lit mem
    exact False.elim (none (by simpa using same))

theorem isCharacterLiteral_id {id : UInt32} {lit : EncryptedLiteralEntry}
    (h : QueryValidator.isCharacterLiteral id lit = true) : lit.id = id := by
  simp only [QueryValidator.isCharacterLiteral, Bool.and_eq_true, beq_iff_eq] at h
  exact h.1.1

theorem settles_characterComparison {node : PredNode} (ok : IsStringNode pkg schema node)
    {position : Nat} (h : position < node.stringWidth.toNat) :
    Settles (QueryExecutor.characterComparison P pkg node position) := by
  obtain ⟨lit, mem, checked⟩ := ok.literals position h
  obtain ⟨first, hf⟩ := literal?_of_mem mem (isCharacterLiteral_id checked)
  simp only [QueryExecutor.characterComparison, hf]
  exact settles_bind (settles_fromProto1 _) fun ct => settles_ok _

theorem settles_stringEquality {node : PredNode} (ok : IsStringNode pkg schema node) :
    Settles (QueryExecutor.stringEquality P pkg node) := by
  rw [stringEquality_eq ok.wide]
  refine settles_map _ (settles_mapM fun position h => ?_)
  exact settles_characterComparison ok (List.mem_range.mp h)

theorem settles_leaf {i : UInt32} {node : PredNode} {fuel : Nat}
    (hn : pkg.predicateNodes[i.toNat]? = some node) (notBinary : node.kind.isBinary = false)
    (notNot : node.kind ≠ .Not) (listed : ∀ byte above, node.kind ≠ .unlisted byte above)
    (ok : LeafOk cat pkg schema node) :
    Settles (QueryExecutor.buildExpression P pkg (fuel + 1) i) := by
  cases hk : node.kind <;> rw [hk] at notBinary <;> (try cases notBinary) <;>
    simp only [QueryExecutor.buildExpression, hn, hk] <;> simp only [LeafOk, hk] at ok
  case ColumnRef => exact settles_ok _
  case LiteralRef =>
    obtain ⟨lit, mem, same⟩ := ok
    obtain ⟨first, hf⟩ := literal?_of_mem mem same
    simp only [QueryExecutor.literalExpression, hf]
    exact settles_bind (settles_fromProto1 _) fun ct => settles_ok _
  case StringEqual => exact settles_stringEquality ok
  case StringNotEqual => exact settles_bind (settles_stringEquality ok) fun e => settles_ok _
  case Not => exact False.elim (notNot hk)
  case unlisted byte above => exact False.elim (listed byte above hk)

/-- A well-formed tree of enumerators builds, whatever the context. -/
theorem settles_of_wellFormed {i : UInt32} (h : WellFormed cat pkg schema i)
    (listed : ∀ j node, Relation.ReflTransGen (Link pkg) i j →
      pkg.predicateNodes[j.toNat]? = some node → ∀ byte above, node.kind ≠ .unlisted byte above) :
    ∃ bound, ∀ fuel, bound ≤ fuel → Settles (QueryExecutor.buildExpression P pkg fuel i) := by
  induction h with
  | @leaf i node hn notBinary notNot ok =>
    refine ⟨1, fun fuel le => ?_⟩
    obtain ⟨fuel, rfl⟩ : ∃ m, fuel = m + 1 := ⟨fuel - 1, by omega⟩
    exact settles_leaf hn notBinary notNot (listed i node .refl hn) ok
  | @unary i node hn kind _ _ ih =>
    have link : Link pkg i node.left := ⟨node, hn, Or.inl ⟨kind, rfl⟩⟩
    obtain ⟨bound, hb⟩ := ih fun j m path => listed j m (.head link path)
    refine ⟨bound + 1, fun fuel le => ?_⟩
    obtain ⟨fuel, rfl⟩ : ∃ m, fuel = m + 1 := ⟨fuel - 1, by omega⟩
    rw [buildExpression_not hn kind]
    exact settles_map _ (hb fuel (by omega))
  | @binary i node hn kind _ _ _ _ ihl ihr =>
    have left : Link pkg i node.left := ⟨node, hn, Or.inr ⟨kind, Or.inl rfl⟩⟩
    have right : Link pkg i node.right := ⟨node, hn, Or.inr ⟨kind, Or.inr rfl⟩⟩
    obtain ⟨n, hn'⟩ := ihl fun j m path => listed j m (.head left path)
    obtain ⟨k, hk⟩ := ihr fun j m path => listed j m (.head right path)
    refine ⟨max n k + 1, fun fuel le => ?_⟩
    obtain ⟨fuel, rfl⟩ : ∃ m, fuel = m + 1 := ⟨fuel - 1, by omega⟩
    rw [buildExpression_binary hn kind]
    refine settles_bind (hn' fuel (by omega)) fun l => ?_
    exact settles_bind (hk fuel (by omega)) fun r => settles_ok _

/-- A tree that builds has enumerators only: every linked node is built too. -/
theorem built_listed {fuel : Nat} {i : UInt32} {e : Expression P.EncryptedVector}
    (h : QueryExecutor.buildExpression P pkg fuel i = .ok e) {j : UInt32} {node : PredNode}
    (path : Relation.ReflTransGen (Link pkg) i j)
    (hn : pkg.predicateNodes[j.toNat]? = some node) (byte : UInt8) (above : 12 < byte) :
    node.kind ≠ .unlisted byte above := by
  induction path using Relation.ReflTransGen.head_induction_on generalizing fuel e with
  | refl =>
    intro hk
    cases fuel with
    | zero => cases h
    | succ fuel => simp only [QueryExecutor.buildExpression, hn, hk, throw_eq_error] at h; cases h
  | head link _ ih =>
    obtain ⟨parent, hp, shape⟩ := link
    cases fuel with
    | zero => cases h
    | succ fuel =>
      rcases shape with ⟨hk, rfl⟩ | ⟨hb, child⟩
      · rw [buildExpression_not hp hk, map_eq_pure_bind] at h
        obtain ⟨l, hl, _⟩ := bind_ok_iff.mp h
        exact ih hl
      · rw [buildExpression_binary hp hb] at h
        obtain ⟨l, hl, h⟩ := bind_ok_iff.mp h
        obtain ⟨r, hr, _⟩ := bind_ok_iff.mp h
        rcases child with rfl | rfl
        · exact ih hl
        · exact ih hr

/-- Where every ciphertext deserializes, building raises no exception of proto1. -/
theorem buildExpression_avoids
    (total : ∀ bytes size, ∃ ct, P.deserializeWithSize bytes size = .ok ct) (what : Str)
    (fuel : Nat) (i : UInt32) :
    Avoids (.external what) (QueryExecutor.buildExpression P pkg fuel i) := by
  have raw : ∀ entry : EncryptedLiteralEntry, Avoids (.external what)
      (fromProto1 (P.deserializeWithSize entry.ciphertextBytes entry.logicalSize)) := by
    intro entry
    obtain ⟨ct, read⟩ := total entry.ciphertextBytes entry.logicalSize
    rw [read]
    exact avoids_ok _
  have character : ∀ node position, Avoids (.external what)
      (QueryExecutor.characterComparison P pkg node position) := by
    intro node position
    unfold QueryExecutor.characterComparison
    split
    · exact avoids_error (by simp)
    · exact avoids_bind (raw _) fun ct _ => avoids_ok _
  have literal : ∀ node, Avoids (.external what)
      (QueryExecutor.literalExpression P pkg node) := by
    intro node
    unfold QueryExecutor.literalExpression
    split
    · exact avoids_error (by simp)
    · exact avoids_bind (raw _) fun ct _ => avoids_ok _
  have string : ∀ node, Avoids (.external what)
      (QueryExecutor.stringEquality P pkg node) := by
    intro node
    by_cases wide : node.stringWidth = 0
    · simp only [QueryExecutor.stringEquality, wide, UInt32.toNat_zero, List.range_zero,
        List.mapM_nil, pure_eq_ok, ok_bind, if_true, throw_eq_error]
      exact avoids_error (by simp)
    · rw [stringEquality_eq wide]
      exact avoids_map _ (avoids_mapM fun position _ => character node position)
  induction fuel generalizing i with
  | zero => exact avoids_error (by simp)
  | succ fuel ih =>
    cases hn : pkg.predicateNodes[i.toNat]? with
    | none =>
      simp only [QueryExecutor.buildExpression, hn]
      exact avoids_error (by simp)
    | some node =>
      by_cases hb : node.kind.isBinary = true
      · rw [buildExpression_binary hn hb]
        exact avoids_bind (ih _) fun l _ => avoids_bind (ih _) fun r _ => avoids_ok _
      · cases hk : node.kind <;> rw [hk] at hb <;> (try exact False.elim (hb rfl)) <;>
          simp only [QueryExecutor.buildExpression, hn, hk]
        case ColumnRef => exact avoids_ok _
        case LiteralRef => exact literal node
        case Not => exact avoids_bind (ih _) fun l _ => avoids_ok _
        case StringEqual => exact string node
        case StringNotEqual => exact avoids_bind (string node) fun l _ => avoids_ok _
        case unlisted => exact avoids_error (by simp)

/-- Then a well-formed tree of enumerators has a WHERE. -/
theorem exists_buildWhere (total : ∀ bytes size, ∃ ct, P.deserializeWithSize bytes size = .ok ct)
    (root : pkg.predicateNodes ≠ [] → WellFormed cat pkg schema pkg.rootIndex)
    (listed : KindsListed pkg) : ∃ bound, ∀ fuel, bound ≤ fuel →
      ∃ where?, QueryExecutor.buildWhere P pkg fuel = .ok where? := by
  by_cases empty : pkg.predicateNodes = []
  · exact ⟨0, fun fuel _ => ⟨none, by rw [QueryExecutor.buildWhere, if_pos empty]; rfl⟩⟩
  · obtain ⟨bound, settles⟩ := settles_of_wellFormed (P := P) (root empty)
      fun j node path hn => listed j node ⟨path, hn⟩
    refine ⟨bound, fun fuel enough => ?_⟩
    rcases settles fuel enough with ⟨e, built⟩ | ⟨what, thrown⟩
    · exact ⟨some e, by rw [QueryExecutor.buildWhere, if_neg empty, built]; rfl⟩
    · exact (buildExpression_avoids total what _ _ thrown).elim

theorem kindsListed_of_buildWhere {fuel : Nat} {where? : Option (Expression P.EncryptedVector)}
    (built : QueryExecutor.buildWhere P pkg fuel = .ok where?) : KindsListed pkg := by
  rintro i node ⟨path, hn⟩ byte above
  by_cases empty : pkg.predicateNodes = []
  · rw [empty] at hn
    cases hn
  · rw [QueryExecutor.buildWhere, if_neg empty] at built
    obtain ⟨e, h, _⟩ := bind_ok_iff.mp built
    exact built_listed h path hn byte above

/-- A context whose ciphertexts are the bytes and the size they arrived with. -/
def rawContext : Proto1 where
  EncryptedVector := List UInt8 × Nat
  Rng := Unit
  slotCount := 1
  serialize ct := ct.1
  logicalSize ct := ct.2
  deserializeWithSize bytes size := .ok (bytes, size)
  encrypt _ _ := .error []
  decrypt _ _ := .error []
  evalMult _ _ := .error []
  evaluate _ _ := .error []
  filterExec _ _ := .error []
  projectExec _ _ := .error []
  stringPhysicalColumn name _ := name

theorem rawContext_characterComparison {node : PredNode} {position : Nat}
    {first : EncryptedLiteralEntry}
    (h : pkg.literal? (node.literalId + UInt32.ofNat position) = some first) :
    QueryExecutor.characterComparison rawContext pkg node position =
      .ok (.equal (.columnRef node.columnName)
        (.encLiteral (first.ciphertextBytes, first.logicalSize))) := by
  simp only [QueryExecutor.characterComparison, h]
  rfl

theorem kindsListed_of_alwaysBuilds (h : AlwaysBuilds pkg) : KindsListed pkg := by
  obtain ⟨bound, hb⟩ := h rawContext
  rcases hb bound (Nat.le_refl _) with ⟨e, built⟩ | ⟨what, thrown⟩
  · rintro i node ⟨path, hn⟩ byte above
    exact built_listed built path hn byte above
  · exact False.elim (buildExpression_avoids (fun _ _ => ⟨_, rfl⟩) what _ _ thrown)

theorem inString_isStringNode (h : WellFormed cat pkg schema pkg.rootIndex) {node : PredNode}
    {position : Nat} (inString : InString pkg node position) : IsStringNode pkg schema node := by
  obtain ⟨⟨i, inTree⟩, hk, _⟩ := inString
  exact wellFormed_string (wellFormed_inTree h inTree) inTree.2 hk

theorem firstEntriesChecked_of_bindsChecked (h : WellFormed cat pkg schema pkg.rootIndex)
    (binds : BindsChecked pkg) : FirstEntriesChecked pkg := by
  intro node position inString
  have ok := inString_isStringNode h inString
  obtain ⟨lit, mem, checked⟩ := ok.literals position inString.2.2
  obtain ⟨first, hf⟩ := literal?_of_mem mem (isCharacterLiteral_id checked)
  obtain ⟨bound, bmem, bchecked, ct, hct, same⟩ :=
    binds rawContext node position _ inString (rawContext_characterComparison hf)
  cases hct
  obtain ⟨bytes, size⟩ := Prod.mk.inj (Expression.encLiteral.inj (Expression.equal.inj same).2)
  exact ⟨bound, bmem, bchecked, first, hf, bytes, size⟩

theorem bindsChecked_of_firstEntriesChecked (h : FirstEntriesChecked pkg) :
    BindsChecked pkg := by
  intro P node position e inString built
  obtain ⟨lit, mem, checked, first, hf, bytes, size⟩ := h node position inString
  simp only [QueryExecutor.characterComparison, hf] at built
  obtain ⟨ct, hct, same⟩ := bind_ok_iff.mp built
  cases same
  rw [bytes, size] at hct
  exact ⟨lit, mem, checked, ct, fromProto1_ok_iff.mp hct, rfl⟩

/-- A validated package with a predicate always builds and binds checked
character literals exactly when every kind in its tree is an enumerator and the
first entry for every string position is as good as a checked one. -/
theorem validated_builds_iff {serverParamSetId : Str}
    (accepted : Accepts cat serverParamSetId pkg) (nonempty : pkg.predicateNodes ≠ []) :
    (AlwaysBuilds pkg ∧ BindsChecked pkg) ↔ (KindsListed pkg ∧ FirstEntriesChecked pkg) := by
  obtain ⟨schema, valid⟩ := accepts_iff.mp accepted
  have root := valid.predicate nonempty
  constructor
  · rintro ⟨builds, binds⟩
    exact ⟨kindsListed_of_alwaysBuilds builds, firstEntriesChecked_of_bindsChecked root binds⟩
  · rintro ⟨listed, first⟩
    refine ⟨fun P => ?_, bindsChecked_of_firstEntriesChecked first⟩
    exact settles_of_wellFormed root fun j node path hn => listed j node ⟨path, hn⟩

/-- A table with one STRING(1) column. -/
def letters : Catalog :=
  ({} : Catalog).registerTable
    { tableId := str "letters"
      columns := [{ name := str "letter", type := .STRING, maxLength := 1 }] }

/-- A string predicate whose literal is found, usable and the only one of its id. -/
def letterPackage : QueryPackage where
  tableName := str "letters"
  predicateNodes := [{ kind := .StringEqual, columnName := str "letter", stringWidth := 1 }]
  encryptedLiterals :=
    [{ logicalType := str "STRING_CHAR", ciphertextBytes := [7], logicalSize := 1 }]

theorem letterPackage_builds :
    (AlwaysBuilds letterPackage ∧ BindsChecked letterPackage) ↔
      (KindsListed letterPackage ∧ FirstEntriesChecked letterPackage) :=
  have accepted : Accepts letters [] letterPackage := ⟨1, rfl⟩
  validated_builds_iff accepted (by decide)

/-- One node of a kind byte past the enumeration. -/
def unlistedPackage : QueryPackage where
  tableName := str "letters"
  predicateNodes := [{ kind := .unlisted 13 (by decide) }]

/-- `letterPackage` with another literal of the same id in front. -/
def shadowedPackage : QueryPackage :=
  { letterPackage with
    encryptedLiterals :=
      { logicalType := str "INT64", ciphertextBytes := [9], logicalSize := 1 } ::
        letterPackage.encryptedLiterals }

/-- A package whose child links never lead an index back to itself. -/
def Acyclic (pkg : QueryPackage) : Prop := ∀ i, ¬ Relation.TransGen (Link pkg) i i

theorem acyclic_of_leaf {node : PredNode} (only : pkg.predicateNodes = [node])
    (notBinary : node.kind.isBinary = false) (notNot : node.kind ≠ .Not) : Acyclic pkg := by
  have none : ∀ i j, ¬ Link pkg i j := by
    rintro i j ⟨m, hm, shape⟩
    rw [only] at hm
    obtain rfl := List.mem_singleton.mp (List.mem_of_getElem? hm)
    rcases shape with ⟨hk, _⟩ | ⟨hb, _⟩
    · exact notNot hk
    · rw [notBinary] at hb; cases hb
  intro i cycle
  obtain ⟨j, link, _⟩ := Relation.TransGen.head'_iff.mp cycle
  exact none i j link

theorem validated_predicate_can_fail_to_build :
    (¬ ∀ (cat : Catalog) (serverParamSetId : Str) (pkg : QueryPackage),
      pkg.predicateNodes ≠ [] → Acyclic pkg → Accepts cat serverParamSetId pkg →
        AlwaysBuilds pkg) ∧
    ¬ ∀ (cat : Catalog) (serverParamSetId : Str) (pkg : QueryPackage),
      pkg.predicateNodes ≠ [] → Acyclic pkg → Accepts cat serverParamSetId pkg →
        BindsChecked pkg := by
  constructor
  · intro all
    have builds := all letters [] unlistedPackage (by decide)
      (acyclic_of_leaf rfl rfl nofun) ⟨1, rfl⟩
    have listed := kindsListed_of_alwaysBuilds builds
    exact listed 0 _ ⟨.refl, rfl⟩ 13 (by decide) rfl
  · intro all
    have accepted : Accepts letters [] shadowedPackage := ⟨1, rfl⟩
    obtain ⟨schema, valid⟩ := accepts_iff.mp accepted
    have binds := all letters [] shadowedPackage (by decide)
      (acyclic_of_leaf rfl rfl nofun) accepted
    have inString : InString shadowedPackage
        { kind := .StringEqual, columnName := str "letter", stringWidth := 1 } 0 :=
      ⟨⟨0, .refl, rfl⟩, Or.inl rfl, by decide⟩
    obtain ⟨lit, mem, checked, first, hf, bytes, _⟩ :=
      firstEntriesChecked_of_bindsChecked (valid.predicate (by decide)) binds _ 0 inString
    have shadow : first.ciphertextBytes = [9] := by
      have h : shadowedPackage.literal? 0 =
          some { logicalType := str "INT64", ciphertextBytes := [9], logicalSize := 1 } := rfl
      rw [Option.some.inj (hf.symm.trans h)]
    rcases List.mem_cons.mp mem with rfl | mem
    · revert checked
      decide
    · obtain rfl := List.mem_singleton.mp mem
      rw [shadow] at bytes
      revert bytes
      decide

end FheSql.ValidatedPredicates
