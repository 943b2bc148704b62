import FheSql.PredicateExpression
import FheSql.QueryEncryptor

/-!
# Compiling a predicate directly

The expression a WHERE clause stands for, with its literals in the clear. It is
the yardstick for the way through node arrays and literal ids: whatever the
server rebuilds must be this expression with ciphertexts in place of literals.
-/

namespace FheSql

/-- Two expressions of one shape whose literals are related. -/
inductive Expression.Rel {α β : Type} (R : α → β → Prop) :
    Expression α → Expression β → Prop where
  | columnRef {name} : Rel R (.columnRef name) (.columnRef name)
  | encLiteral {a b} : R a b → Rel R (.encLiteral a) (.encLiteral b)
  | equal {l l' r r'} : Rel R l l' → Rel R r r' → Rel R (.equal l r) (.equal l' r')
  | gt {l l' r r'} : Rel R l l' → Rel R r r' → Rel R (.gt l r) (.gt l' r')
  | lt {l l' r r'} : Rel R l l' → Rel R r r' → Rel R (.lt l r) (.lt l' r')
  | andExpr {l l' r r'} : Rel R l l' → Rel R r r' → Rel R (.andExpr l r) (.andExpr l' r')
  | orExpr {l l' r r'} : Rel R l l' → Rel R r r' → Rel R (.orExpr l r) (.orExpr l' r')
  | notExpr {e e'} : Rel R e e' → Rel R (.notExpr e) (.notExpr e')

namespace PredicateCompiler

open ByteText Throwing BalancedFold PredicateExpression QueryEncryptor

def compileComparison (kind : CompareKind) (l r : Expression Int) : Expression Int :=
  match kind with
  | .Equal => .equal l r
  | .NotEqual => .notExpr (.equal l r)
  | .GreaterThan => .gt l r
  | .LessThan => .lt l r
  | .GreaterEqual => .orExpr (.gt l r) (.equal l r)
  | .LessEqual => .orExpr (.lt l r) (.equal l r)

def compileBoolean (kind : BooleanKind) (l r : Expression Int) : Expression Int :=
  match kind with
  | .And => .andExpr l r
  | .Or => .orExpr l r

/-- Every character column of a STRING column equals the literal's code there. -/
def stringEqual (physical : Str → Nat → Str) (column literal : Str) (maxLength : Nat) :
    Expression Int :=
  conjunction ((List.range maxLength).map fun position =>
    .equal (.columnRef (physical column position)) (.encLiteral (characterCode literal position)))

/-- A string comparison has a meaning for `=` and `!=` on a column of some width. -/
def compileString (physical : Str → Nat → Str) (schema : TableSchema) (kind : CompareKind)
    (column literal : Str) : Option (Expression Int) :=
  match schema.column (bareName column) with
  | .error _ => none
  | .ok columnSchema =>
    if columnSchema.maxLength = 0 then none
    else
      match kind with
      | .Equal => some (stringEqual physical column literal columnSchema.maxLength)
      | .NotEqual => some (.notExpr (stringEqual physical column literal columnSchema.maxLength))
      | _ => none

def compile (physical : Str → Nat → Str) (schema : TableSchema) :
    ASTExpr → Option (Expression Int)
  | .columnRef name => some (.columnRef name)
  | .intLiteral v => some (.encLiteral v)
  | .stringLiteral _ => none
  | .comparison kind left right =>
    match stringComparison? left right with
    | some (column, literal) => compileString physical schema kind column literal
    | none => do
      let l ← compile physical schema left
      let r ← compile physical schema right
      some (compileComparison kind l r)
  | .boolean kind left right => do
    let l ← compile physical schema left
    let r ← compile physical schema right
    some (compileBoolean kind l r)
  | .notExpr child => do
    let e ← compile physical schema child
    some (.notExpr e)

/-- Every string comparison of an expression is `=` or `!=` on a column of the
schema with a positive width. -/
def StringComparisonsOk (schema : TableSchema) : ASTExpr → Prop
  | .comparison kind left right =>
    match stringComparison? left right with
    | some (column, _) => (kind = .Equal ∨ kind = .NotEqual) ∧
        ∃ columnSchema, schema.column (bareName column) = .ok columnSchema ∧
          1 ≤ columnSchema.maxLength
    | none => StringComparisonsOk schema left ∧ StringComparisonsOk schema right
  | .boolean _ left right => StringComparisonsOk schema left ∧ StringComparisonsOk schema right
  | .notExpr child => StringComparisonsOk schema child
  | _ => True

theorem rel_binaryExpression {α : Type} {R : α → Int → Prop} (kind : CompareKind)
    {l r : Expression α} {l' r' : Expression Int} (hl : l.Rel R l') (hr : r.Rel R r') :
    (binaryExpression (comparisonNodeKind kind) l r).Rel R (compileComparison kind l' r') := by
  cases kind with
  | Equal => exact .equal hl hr
  | NotEqual => exact .notExpr (.equal hl hr)
  | GreaterThan => exact .gt hl hr
  | LessThan => exact .lt hl hr
  | GreaterEqual => exact .orExpr (.gt hl hr) (.equal hl hr)
  | LessEqual => exact .orExpr (.lt hl hr) (.equal hl hr)

theorem rel_booleanExpression {α : Type} {R : α → Int → Prop} (kind : BooleanKind)
    {l r : Expression α} {l' r' : Expression Int} (hl : l.Rel R l') (hr : r.Rel R r') :
    (binaryExpression (booleanNodeKind kind) l r).Rel R (compileBoolean kind l' r') := by
  cases kind with
  | And => exact .andExpr hl hr
  | Or => exact .orExpr hl hr

theorem rel_conjunction {α β : Type} {R : α → β → Prop} {l : List (Expression α)}
    {l' : List (Expression β)} (nonempty : l ≠ [])
    (h : List.Forall₂ (Expression.Rel R) l l') :
    (conjunction l).Rel R (conjunction l') :=
  balanced_rel (fun _ _ _ _ => .andExpr) nonempty h

end PredicateCompiler

end FheSql
