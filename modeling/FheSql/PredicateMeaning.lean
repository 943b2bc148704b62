import FheSql.PredicateCompiler
import FheSql.StoredRows

/-!
# The meaning of a compiled predicate

In a slot that holds the codes of a row the compiled predicate is 1 if the row
satisfies the WHERE clause and 0 if it does not.
-/

namespace FheSql

open ByteText IndicatorPoly

namespace Expression

variable {α β : Type} {R : α → β → Prop}

theorem Rel.isLeaf_eq {a : Expression α} {b : Expression β} (h : a.Rel R b) :
    a.isLeaf = b.isLeaf := by
  cases h <;> rfl

theorem Rel.isMask_eq {a : Expression α} {b : Expression β} (h : a.Rel R b) :
    a.isMask = b.isMask := by
  induction h with
  | columnRef => rfl
  | encLiteral => rfl
  | equal hl hr | gt hl hr | lt hl hr => simp only [isMask, hl.isLeaf_eq, hr.isLeaf_eq]
  | andExpr _ _ ihl ihr | orExpr _ _ ihl ihr => simp only [isMask, ihl, ihr]
  | notExpr _ ih => exact ih

theorem Rel.columns_eq {a : Expression α} {b : Expression β} (h : a.Rel R b) :
    a.columns = b.columns := by
  induction h with
  | columnRef => rfl
  | encLiteral => rfl
  | equal _ _ ihl ihr | gt _ _ ihl ihr | lt _ _ ihl ihr | andExpr _ _ ihl ihr
  | orExpr _ _ ihl ihr => simp only [columns, ihl, ihr]
  | notExpr _ ih => exact ih

theorem Rel.value_eq {a : Expression α} {b : Expression β} (h : a.Rel R b) {column : Str → Slot}
    {literal : α → Slot} {literal' : β → Slot}
    (same : ∀ x y, R x y → y ∈ b.literals → literal x = literal' y) :
    a.value column literal = b.value column literal' := by
  induction h with
  | columnRef => rfl
  | encLiteral hxy => exact same _ _ hxy (List.mem_singleton.mpr rfl)
  | equal _ _ ihl ihr | gt _ _ ihl ihr | lt _ _ ihl ihr | andExpr _ _ ihl ihr
  | orExpr _ _ ihl ihr =>
    simp only [value, ihl fun x y hxy mem => same x y hxy (List.mem_append_left _ mem),
      ihr fun x y hxy mem => same x y hxy (List.mem_append_right _ mem)]
  | notExpr _ ih => simp only [value, ih same]

end Expression

namespace PredicateMeaning

open QueryEncryptor PredicateCompiler PredicateExpression BalancedFold SqlSemantics StoredRows

section Typing

variable (column? : Str → ColumnSchema → Prop)

/-- An operand of an integer comparison. -/
inductive IntOperand : ASTExpr → Prop where
  | column {name c} : column? name c → c.type = .INT64 → IntOperand (.columnRef name)
  | literal {v} : 0 ≤ v → v ≤ 128 → IntOperand (.intLiteral v)

/-- Conditions over integer comparisons and comparisons of STRING columns with
literals, where `column?` says which column a reference stands for. -/
inductive Typed (schema : TableSchema) : ASTExpr → Prop where
  | int {kind l r} : IntOperand column? l → IntOperand column? r →
      Typed schema (.comparison kind l r)
  | string {kind l r name literal c} : stringComparison? l r = some (name, literal) →
      (kind = .Equal ∨ kind = .NotEqual) → column? name c → c.type = .STRING →
      schema.column (bareName name) = .ok c → 1 ≤ c.maxLength →
      literal.length ≤ c.maxLength → (0 : UInt8) ∉ literal → Typed schema (.comparison kind l r)
  | boolean {kind l r} : Typed schema l → Typed schema r → Typed schema (.boolean kind l r)
  | notExpr {e} : Typed schema e → Typed schema (.notExpr e)

end Typing

variable {P : Proto1} {column? : Str → ColumnSchema → Prop} {schema : TableSchema}

variable (P column?) in
/-- Slots that hold the codes of a row's values. -/
def Agrees (row : Row) (slotOf : Str → Slot) : Prop :=
  ∀ reference c, column? reference c → Fits c (row reference) ∧
    ∀ position < width c,
      slotOf (physicalName P c reference position) = (code (row reference) position : Slot)

variable (P column?) in
/-- The physical columns behind the references of a condition. -/
def IsPhysical (name : Str) : Prop :=
  ∃ reference c position, column? reference c ∧ position < width c ∧
    name = physicalName P c reference position

/-- The numbers that can be encrypted. -/
def IsSlotValue (v : Int) : Prop := 0 ≤ v ∧ v < 257

variable (P column?) in
/-- A compiled expression that means what a condition says. -/
structure Means (compiled : Expression Int) (e : ASTExpr) : Prop where
  mask : compiled.isMask = true
  reads : ∀ name ∈ compiled.columns, IsPhysical P column? name
  literals : ∀ v ∈ compiled.literals, IsSlotValue v
  value : ∀ row slotOf, Agrees P column? row slotOf →
    compiled.value slotOf (fun v : Int => (v : Slot)) = bit (holds row e = true)

variable (P column?) in
/-- A compiled operand and its value, a number of the comparable range. -/
structure OperandMeans (compiled : Expression Int) (e : ASTExpr) : Prop where
  leaf : compiled.isLeaf = true
  reads : ∀ name ∈ compiled.columns, IsPhysical P column? name
  literals : ∀ v ∈ compiled.literals, IsSlotValue v
  value : ∀ row slotOf, Agrees P column? row slotOf → ∃ n : Nat, n ≤ 128 ∧
    operand row e = .int n ∧ compiled.value slotOf (fun v : Int => (v : Slot)) = (n : Slot)

variable (P schema) in
theorem operandMeans_of_typed {e : ASTExpr} (h : IntOperand column? e) :
    ∃ compiled, compile P.stringPhysicalColumn schema e = some compiled ∧
      OperandMeans P column? compiled e := by
  cases h with
  | @column name c found type =>
    have single : width c = 1 := by simp [width, type]
    have physical : physicalName P c name 0 = name := by simp [physicalName, type]
    refine ⟨.columnRef name, rfl, rfl, ?_, fun _ mem => (List.not_mem_nil mem).elim,
      fun row slotOf agrees => ?_⟩
    · intro column mem
      obtain rfl := List.mem_singleton.mp mem
      exact ⟨column, c, 0, found, by omega, physical.symm⟩
    · obtain ⟨fits, codes⟩ := agrees name c found
      have slot := codes 0 (by omega)
      rw [physical] at slot
      obtain ⟨n, hv, low, high⟩ := fits.int_of_type type
      rw [hv] at slot
      refine ⟨n.toNat, by omega, ?_, ?_⟩
      · rw [operand, hv, Int.toNat_of_nonneg low]
      · change slotOf name = _
        rw [slot, code, ← Int.cast_natCast, Int.toNat_of_nonneg low]
  | @literal v low high =>
    refine ⟨.encLiteral v, rfl, rfl, fun _ mem => (List.not_mem_nil mem).elim, fun w mem => ?_,
      fun row slotOf _ => ⟨v.toNat, by omega, ?_, ?_⟩⟩
    · obtain rfl := List.mem_singleton.mp mem
      exact ⟨low, by omega⟩
    · rw [operand, Int.toNat_of_nonneg low]
    · change ((v : Int) : Slot) = _
      rw [← Int.cast_natCast, Int.toNat_of_nonneg low]

/-- Integer comparisons of the comparable range are truth values of the order. -/
theorem value_compareComparison (kind : CompareKind) {l r : Expression Int} {x y : Nat}
    {slotOf : Str → Slot} (hx : x ≤ 128) (hy : y ≤ 128)
    (hl : l.value slotOf (fun v : Int => (v : Slot)) = (x : Slot))
    (hr : r.value slotOf (fun v : Int => (v : Slot)) = (y : Slot)) :
    (compileComparison kind l r).value slotOf (fun v : Int => (v : Slot)) =
      bit (compares kind (.int x) (.int y) = true) := by
  have eq : eqPoly (x : Slot) (y : Slot) = bit (x = y) := by
    rw [eqPoly_eq_bit]
    refine bit_congr ⟨fun h => ?_, fun h => by rw [h]⟩
    exact natCast_inj_of_half (by omega) (by omega) h
  have gt : gtPoly (x : Slot) (y : Slot) = bit (y < x) := gtPoly_natCast hx hy
  have lt : ltPoly (x : Slot) (y : Slot) = bit (x < y) := ltPoly_natCast hx hy
  have same : (Value.int x = Value.int y) ↔ x = y := by simp
  cases kind with
  | Equal =>
    simp only [compileComparison, Expression.value, hl, hr, eq]
    exact bit_congr (by simp [compares])
  | NotEqual =>
    simp only [compileComparison, Expression.value, hl, hr, eq, bit_not]
    exact bit_congr (by simp [compares])
  | GreaterThan =>
    simp only [compileComparison, Expression.value, hl, hr, gt]
    exact bit_congr (by simp [compares, Value.lt])
  | LessThan =>
    simp only [compileComparison, Expression.value, hl, hr, lt]
    exact bit_congr (by simp [compares, Value.lt])
  | GreaterEqual =>
    simp only [compileComparison, Expression.value, hl, hr, gt, eq, bit_or]
    exact bit_congr (by simp [compares, Value.lt])
  | LessEqual =>
    simp only [compileComparison, Expression.value, hl, hr, lt, eq, bit_or]
    exact bit_congr (by simp [compares, Value.lt])

theorem columns_compileComparison (kind : CompareKind) {l r : Expression Int} {name : Str}
    (h : name ∈ (compileComparison kind l r).columns) : name ∈ l.columns ∨ name ∈ r.columns := by
  cases kind <;>
    simp only [compileComparison, Expression.columns, List.mem_append] at h <;> tauto

theorem literals_compileComparison (kind : CompareKind) {l r : Expression Int} {v : Int}
    (h : v ∈ (compileComparison kind l r).literals) : v ∈ l.literals ∨ v ∈ r.literals := by
  cases kind <;>
    simp only [compileComparison, Expression.literals, List.mem_append] at h <;> tauto

theorem isMask_compileComparison (kind : CompareKind) {l r : Expression Int}
    (hl : l.isLeaf = true) (hr : r.isLeaf = true) : (compileComparison kind l r).isMask = true := by
  cases kind <;> simp [compileComparison, Expression.isMask, hl, hr]

theorem stringComparison?_of_int {l r : ASTExpr} (hl : IntOperand column? l)
    (hr : IntOperand column? r) : stringComparison? l r = none := by
  cases hl <;> cases hr <;> rfl

theorem positions_ne_nil {α : Type} {f : Nat → α} {m : Nat} (wide : 1 ≤ m) :
    (List.range m).map f ≠ [] := by
  simp only [ne_eq, List.map_eq_nil_iff, List.range_eq_nil]
  omega

/-- The product over the positions of a string column. -/
theorem value_stringEqual {physical : Str → Nat → Str} {name literal : Str} {m : Nat}
    (wide : 1 ≤ m) (slotOf : Str → Slot) :
    (stringEqual physical name literal m).value slotOf (fun v : Int => (v : Slot)) =
      bit (∀ position ∈ List.range m,
        slotOf (physical name position) = (characterCode literal position : Slot)) := by
  rw [stringEqual, conjunction, map_balanced (fun e : Expression Int =>
    e.value slotOf fun v : Int => (v : Slot)) (fun _ _ => rfl) _ (positions_ne_nil wide),
    List.map_map]
  simp only [Function.comp_def, Expression.value, eqPoly_eq_bit]
  exact bit_prod _ _

theorem agrees_string {row : Row} {slotOf : Str → Slot} (agrees : Agrees P column? row slotOf)
    {name literal : Str} {c : ColumnSchema} (found : column? name c) (type : c.type = .STRING)
    (fits : literal.length ≤ c.maxLength) (nul : (0 : UInt8) ∉ literal) :
    (∀ position ∈ List.range c.maxLength, slotOf (P.stringPhysicalColumn name position) =
      (characterCode literal position : Slot)) ↔ row name = .string literal := by
  obtain ⟨rowFits, codes⟩ := agrees name c found
  have wide : width c = c.maxLength := by simp [width, type]
  have physical : ∀ position, physicalName P c name position =
      P.stringPhysicalColumn name position := fun position => by simp [physicalName, type]
  obtain ⟨s, hv, short, ascii⟩ := rowFits.string_of_type type
  rw [hv] at codes
  have nulRow : (0 : UInt8) ∉ s := fun zero => absurd (ascii 0 zero).1 (by decide)
  rw [hv, Value.string.injEq, ← characterCode_inj short fits nulRow nul]
  refine forall_congr' fun position => ?_
  rw [List.mem_range]
  refine forall_congr' fun inside => ?_
  have stored := characterCode_bounds s position
  have asked := characterCode_bounds literal position
  rw [← physical, codes position (by omega), code, intCast_inj (by omega) (by omega)]

theorem columns_stringEqual {physical : Str → Nat → Str} {name literal column : Str} {m : Nat}
    (wide : 1 ≤ m) (h : column ∈ (stringEqual physical name literal m).columns) :
    ∃ position < m, column = physical name position := by
  refine balanced_forall (p := fun e : Expression Int => ∀ column ∈ e.columns,
    ∃ position < m, column = physical name position) ?_ (positions_ne_nil wide) ?_ column h
  · intro a b ha hb column mem
    rcases List.mem_append.mp mem with mem | mem
    · exact ha column mem
    · exact hb column mem
  · intro e mem column hc
    obtain ⟨position, inside, rfl⟩ := List.mem_map.mp mem
    simp only [Expression.columns, List.append_nil, List.mem_singleton] at hc
    exact ⟨position, List.mem_range.mp inside, hc⟩

theorem literals_stringEqual {physical : Str → Nat → Str} {name literal : Str} {m : Nat}
    (wide : 1 ≤ m) : ∀ v ∈ (stringEqual physical name literal m).literals, IsSlotValue v := by
  refine balanced_forall (p := fun e : Expression Int => ∀ v ∈ e.literals, IsSlotValue v) ?_
    (positions_ne_nil wide) ?_
  · intro a b ha hb v mem
    exact (List.mem_append.mp mem).elim (ha v) (hb v)
  · intro e mem v hv
    obtain ⟨position, _, rfl⟩ := List.mem_map.mp mem
    simp only [Expression.literals, List.nil_append, List.mem_singleton] at hv
    obtain ⟨low, high⟩ := characterCode_bounds literal position
    rw [hv]
    exact ⟨low, by omega⟩

theorem isMask_stringEqual {physical : Str → Nat → Str} {name literal : Str} {m : Nat}
    (wide : 1 ≤ m) : (stringEqual physical name literal m).isMask = true := by
  refine balanced_forall (p := fun e : Expression Int => e.isMask = true) ?_
    (positions_ne_nil wide) ?_
  · intro a b ha hb
    simp [Expression.isMask, ha, hb]
  · intro e mem
    obtain ⟨position, _, rfl⟩ := List.mem_map.mp mem
    rfl

theorem stringEqual_means {name literal : Str} {c : ColumnSchema} {l r : ASTExpr}
    (shape : stringComparison? l r = some (name, literal)) (found : column? name c)
    (type : c.type = .STRING) (wide : 1 ≤ c.maxLength) (fits : literal.length ≤ c.maxLength)
    (nul : (0 : UInt8) ∉ literal) :
    Means P column? (stringEqual P.stringPhysicalColumn name literal c.maxLength)
      (.comparison .Equal l r) := by
  refine ⟨isMask_stringEqual wide, fun column mem => ?_, literals_stringEqual wide,
    fun row slotOf agrees => ?_⟩
  · obtain ⟨position, inside, rfl⟩ := columns_stringEqual wide mem
    exact ⟨name, c, position, found, by simpa [width, type] using inside,
      by simp [physicalName, type]⟩
  · rw [value_stringEqual wide]
    refine bit_congr ((agrees_string agrees found type fits nul).trans ?_)
    cases l <;> cases r <;> cases shape <;> simp only [holds, compares, operand, beq_iff_eq]
    exact eq_comm

/-- What a typed condition compiles to means what it says. -/
theorem compile_means {e : ASTExpr} (typed : Typed column? schema e) :
    ∃ compiled, compile P.stringPhysicalColumn schema e = some compiled ∧
      Means P column? compiled e := by
  induction typed with
  | @int kind l r hl hr =>
    obtain ⟨a, ha, meansA⟩ := operandMeans_of_typed P schema hl
    obtain ⟨b, hb, meansB⟩ := operandMeans_of_typed P schema hr
    refine ⟨compileComparison kind a b, ?_, ?_, fun name mem => ?_, fun v mem => ?_,
      fun row slotOf agrees => ?_⟩
    · simp [compile, stringComparison?_of_int hl hr, ha, hb]
    · exact isMask_compileComparison kind meansA.leaf meansB.leaf
    · exact (columns_compileComparison kind mem).elim (meansA.reads name) (meansB.reads name)
    · exact (literals_compileComparison kind mem).elim (meansA.literals v) (meansB.literals v)
    · obtain ⟨x, hx, rowX, slotX⟩ := meansA.value row slotOf agrees
      obtain ⟨y, hy, rowY, slotY⟩ := meansB.value row slotOf agrees
      rw [value_compareComparison kind hx hy slotX slotY, holds, rowX, rowY]
  | @string kind l r name literal c shape operator found type column wide fits nul =>
    have means := stringEqual_means (P := P) shape found type wide fits nul
    have positive : c.maxLength ≠ 0 := by omega
    rcases operator with rfl | rfl
    · exact ⟨_, by simp [compile, shape, compileString, column, positive], means⟩
    · refine ⟨.notExpr _, by simp [compile, shape, compileString, column, positive]; rfl, ?_⟩
      refine ⟨means.mask, means.reads, means.literals, fun row slotOf agrees => ?_⟩
      rw [Expression.value, means.value row slotOf agrees, bit_not]
      refine bit_congr ?_
      simp [holds, compares, bne]
  | @boolean kind l r _ _ ihl ihr =>
    obtain ⟨a, ha, meansA⟩ := ihl
    obtain ⟨b, hb, meansB⟩ := ihr
    refine ⟨compileBoolean kind a b, by simp [compile, ha, hb], ?_⟩
    cases kind with
    | And =>
      refine ⟨by simp [compileBoolean, Expression.isMask, meansA.mask, meansB.mask],
        fun name mem => (List.mem_append.mp mem).elim (meansA.reads name) (meansB.reads name),
        fun v mem => (List.mem_append.mp mem).elim (meansA.literals v) (meansB.literals v),
        fun row slotOf agrees => ?_⟩
      · rw [compileBoolean, Expression.value, meansA.value row slotOf agrees,
          meansB.value row slotOf agrees, bit_and]
        exact bit_congr (by simp [holds])
    | Or =>
      refine ⟨by simp [compileBoolean, Expression.isMask, meansA.mask, meansB.mask],
        fun name mem => (List.mem_append.mp mem).elim (meansA.reads name) (meansB.reads name),
        fun v mem => (List.mem_append.mp mem).elim (meansA.literals v) (meansB.literals v),
        fun row slotOf agrees => ?_⟩
      · rw [compileBoolean, Expression.value, meansA.value row slotOf agrees,
          meansB.value row slotOf agrees, bit_or]
        exact bit_congr (by simp [holds])
  | @notExpr e _ ih =>
    obtain ⟨a, ha, means⟩ := ih
    refine ⟨.notExpr a, by simp [compile, ha], means.mask, means.reads, means.literals,
      fun row slotOf agrees => ?_⟩
    rw [Expression.value, means.value row slotOf agrees, bit_not]
    exact bit_congr (by simp [holds])

end PredicateMeaning

end FheSql
