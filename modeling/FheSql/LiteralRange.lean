import FheSql.PipelineAcceptance

/-!
# The range of integer literals

The server compares residues modulo 257, which order integers only within 0 to
128. No stage of the client looks at the value of a literal: what the encryption
of proto1 takes is sent.
-/

namespace FheSql.LiteralRange

open ByteText Throwing IndicatorPoly SemanticAnalyzer QueryEncryptor PredicateCode
open PipelineAcceptance

/-- The integer literals that are compared with a column. -/
def comparedIntegers : ASTExpr → List Int
  | .comparison _ (.columnRef _) (.intLiteral v) => [v]
  | .comparison _ (.intLiteral v) (.columnRef _) => [v]
  | .boolean _ l r => comparedIntegers l ++ comparedIntegers r
  | .notExpr e => comparedIntegers e
  | _ => []

/-- For every column value of the comparable range the server's comparisons with a
literal are those of the integers. -/
def OrdersLikeIntegers (v : Int) : Prop :=
  ∀ x : Nat, x ≤ 128 → gtPoly (x : Slot) (v : Slot) = bit (v < x) ∧
    ltPoly (x : Slot) (v : Slot) = bit ((x : Int) < v)

/-- String literals stand in comparisons only, opposite a column of the table. -/
def LaysOut (schema : TableSchema) : ASTExpr → Prop
  | .columnRef _ | .intLiteral _ => True
  | .stringLiteral _ => False
  | .comparison _ l r =>
    match stringComparison? l r with
    | some (column, _) => schema.hasColumn (bareName column) = true
    | none => LaysOut schema l ∧ LaysOut schema r
  | .boolean _ l r => LaysOut schema l ∧ LaysOut schema r
  | .notExpr e => LaysOut schema e

/-- The scalars that are encrypted for a condition. -/
def scalars (schema : TableSchema) : ASTExpr → List Int
  | .columnRef _ | .stringLiteral _ => []
  | .intLiteral v => [v]
  | .comparison _ l r =>
    match stringComparison? l r with
    | some (column, literal) =>
      match schema.column (bareName column) with
      | .ok c => (List.range c.maxLength).map (characterCode literal)
      | .error _ => []
    | none => scalars schema l ++ scalars schema r
  | .boolean _ l r => scalars schema l ++ scalars schema r
  | .notExpr e => scalars schema e

/-- Whether proto1 encrypts a scalar depends on the scalar. -/
def EncryptsJust (P : Proto1) (accepts : Int → Prop) : Prop :=
  ∀ v rng, (∃ ct rng', encryptScalar P v rng = .ok (ct, rng')) ↔ accepts v

section Residues

/-- A residue of the upper half is above every number that it is less than 129 below,
around the modulus. -/
theorem gtPoly_upper {x r : Nat} (hx : x ≤ 128) (low : 129 ≤ r) (high : r ≤ 256) :
    gtPoly (x : Slot) (r : Slot) = bit (x + 129 ≤ r) := by
  rw [gtPoly_eq_bit]
  refine bit_congr ⟨?_, fun le => ⟨256 + x - r, by omega, ?_⟩⟩
  · rintro ⟨k, hk, same⟩
    have shifted : ((x + 257 - r : Nat) : Slot) = ((k + 1 : Nat) : Slot) := by
      rw [Nat.cast_sub (by omega), Nat.cast_add, ← same]
      have zero : ((257 : Nat) : Slot) = 0 := by decide
      rw [zero, add_zero]
    have := natCast_inj_of_half (by omega) (by omega) shifted
    omega
  · rw [show 256 + x - r + 1 = x + 257 - r by omega, Nat.cast_sub (by omega), Nat.cast_add]
    have zero : ((257 : Nat) : Slot) = 0 := by decide
    rw [zero, add_zero]

theorem intCast_residue (v : Int) : (v : Slot) = ((v % 257).toNat : Slot) := by
  rw [← Int.cast_natCast, Int.toNat_of_nonneg (Int.emod_nonneg v (by decide))]
  exact (ZMod.intCast_mod v 257).symm

/-- The comparisons agree with the integers exactly for the literals of the range. -/
theorem ordersLikeIntegers_iff (v : Int) : OrdersLikeIntegers v ↔ 0 ≤ v ∧ v ≤ 128 := by
  constructor
  · intro faithful
    obtain ⟨gtZero, -⟩ := faithful 0 (by decide)
    obtain ⟨gtTop, ltTop⟩ := faithful 128 (by decide)
    rw [intCast_residue v] at gtZero gtTop ltTop
    generalize hr : (v % 257).toNat = r at gtZero gtTop ltTop
    have below : r ≤ 256 := by omega
    by_cases lower : r ≤ 128
    · rw [gtPoly_natCast (by decide) lower] at gtZero
      rw [ltPoly_natCast (by decide) lower] at ltTop
      have zero := bit_eq_iff.mp gtZero
      have top := bit_eq_iff.mp ltTop
      omega
    · rw [gtPoly_upper (by decide) (by omega) below] at gtZero gtTop
      have zero := bit_eq_iff.mp gtZero
      have top := bit_eq_iff.mp gtTop
      omega
  · rintro ⟨low, high⟩ x hx
    have natural : (v : Slot) = (v.toNat : Slot) := by
      rw [← Int.cast_natCast, Int.toNat_of_nonneg low]
    rw [natural, gtPoly_natCast hx (by omega), ltPoly_natCast hx (by omega)]
    exact ⟨bit_congr (by omega), bit_congr (by omega)⟩

end Residues

section Encryption

variable {P : Proto1} {accepts : Int → Prop} {schema : TableSchema} {e : ASTExpr}

theorem flatten_ok_iff (e : ASTExpr) (n l : Nat) :
    (∃ code, flatten schema e n l = .ok code) ↔ LaysOut schema e := by
  induction e generalizing n l with
  | columnRef | intLiteral => exact iff_of_true ⟨_, rfl⟩ trivial
  | stringLiteral =>
    refine iff_of_false ?_ id
    rintro ⟨_, ⟨⟩⟩
  | comparison kind left right ihl ihr =>
    cases hs : stringComparison? left right with
    | some pair =>
      simp only [flatten, hs, LaysOut, TableSchema.hasColumn_iff, bind_ok_iff, Except.ok.injEq]
      constructor
      · rintro ⟨_, c, hc, _⟩
        exact ⟨c, hc⟩
      · rintro ⟨c, hc⟩
        exact ⟨_, c, hc, rfl⟩
    | none =>
      simp only [flatten, hs, LaysOut, bind_ok_iff, Except.ok.injEq]
      constructor
      · rintro ⟨_, a, ha, b, hb, _⟩
        exact ⟨(ihl _ _).mp ⟨a, ha⟩, (ihr _ _).mp ⟨b, hb⟩⟩
      · rintro ⟨hl, hr⟩
        obtain ⟨a, ha⟩ := (ihl n l).mpr hl
        obtain ⟨b, hb⟩ := (ihr (n + a.nodes.length) (l + a.literals.length)).mpr hr
        exact ⟨_, a, ha, b, hb, rfl⟩
  | boolean kind left right ihl ihr =>
    simp only [flatten, LaysOut, bind_ok_iff, Except.ok.injEq]
    constructor
    · rintro ⟨_, a, ha, b, hb, _⟩
      exact ⟨(ihl _ _).mp ⟨a, ha⟩, (ihr _ _).mp ⟨b, hb⟩⟩
    · rintro ⟨hl, hr⟩
      obtain ⟨a, ha⟩ := (ihl n l).mpr hl
      obtain ⟨b, hb⟩ := (ihr (n + a.nodes.length) (l + a.literals.length)).mpr hr
      exact ⟨_, a, ha, b, hb, rfl⟩
  | notExpr e ih =>
    simp only [flatten, LaysOut, bind_ok_iff, Except.ok.injEq, ← ih n l]
    constructor
    · rintro ⟨_, a, ha, _⟩
      exact ⟨a, ha⟩
    · rintro ⟨a, ha⟩
      exact ⟨_, a, ha, rfl⟩

/-- The literals of a code are the scalars of its condition. -/
theorem literals_of_flattens {n l : Nat} {code : Code} (h : Flattens schema e n l code) :
    code.literals.map Prod.snd = scalars schema e := by
  induction h with
  | columnRef | intLiteral => rfl
  | string hs hcs => simp [scalars, hs, hcs, characters]
  | comparison hs _ _ iha ihb => simp [scalars, hs, Code.join, iha, ihb]
  | boolean _ _ iha ihb => simp [scalars, Code.join, iha, ihb]
  | notExpr _ ih => exact ih

theorem encryptLiterals_ok_iff (encrypts : EncryptsJust P accepts) {literals : List (Str × Int)}
    {s : BuildState P} :
    (∃ t, encryptLiterals literals s = .ok t) ↔ ∀ v ∈ literals.map Prod.snd, accepts v := by
  rw [List.forall_mem_map]
  constructor
  · rintro ⟨t, ht⟩
    induction literals generalizing s with
    | nil => nofun
    | cons lit literals ih =>
      simp only [encryptLiterals, List.foldlM_cons] at ih ht
      obtain ⟨u, hu, ht⟩ := bind_ok_iff.mp ht
      obtain ⟨ct, rng, hct, rfl⟩ := pushLiteral_ok_iff.mp hu
      exact List.forall_mem_cons.mpr ⟨(encrypts _ _).mp ⟨ct, rng, hct⟩, ih ht⟩
  · intro all
    exact encryptLiterals_total (fun lit mem rng => (encrypts _ _).mpr (all lit mem)) s

/-- `buildPredNode` succeeds whatever the integers are, as long as proto1 takes them. -/
theorem buildPredNode_ok_iff (encrypts : EncryptsJust P accepts) (rng : P.Rng) :
    (∃ root s, buildPredNode schema e (initialState rng) = .ok (root, s)) ↔
      LaysOut schema e ∧ ∀ v ∈ scalars schema e, accepts v := by
  constructor
  · rintro ⟨root, s, built⟩
    obtain ⟨code, t, hcode, ht, _, _⟩ := (buildPredNode_splits schema e _ 0 root s rfl).mp built
    rw [← literals_of_flattens (flattens_of_ok hcode)]
    exact ⟨(flatten_ok_iff e _ _).mp ⟨code, hcode⟩,
      (encryptLiterals_ok_iff encrypts).mp ⟨t, ht⟩⟩
  · rintro ⟨laysOut, accepted⟩
    obtain ⟨code, hcode⟩ := (flatten_ok_iff e 0 0).mpr laysOut
    rw [← literals_of_flattens (flattens_of_ok hcode),
      ← encryptLiterals_ok_iff encrypts] at accepted
    obtain ⟨t, ht⟩ := accepted
    exact ⟨_, _, (buildPredNode_splits schema e (initialState rng) 0 _ _ rfl).mpr
      ⟨code, t, hcode, ht, rfl, rfl⟩⟩

end Encryption

/-- Every integer literal that parser, analyzer and encryptor let through is in the
comparable range. -/
def LiteralsInRange (P : Proto1) (cat : Catalog) (rng : P.Rng) (sql : Str) : Prop :=
  ∀ stmt schema e root s, SQLParser.parse sql = .ok stmt → analyze cat stmt = .ok schema →
    stmt.whereClause = some e → buildPredNode schema e (initialState rng) = .ok (root, s) →
    ∀ v ∈ comparedIntegers e, 0 ≤ v ∧ v ≤ 128

theorem plain_encryptsJust (slotCount : Nat) : EncryptsJust (plainProto1 slotCount) fun _ => True :=
  fun _ _ => iff_of_true ⟨_, _, rfl⟩ trivial

end FheSql.LiteralRange
