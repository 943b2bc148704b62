import FheSql.DocumentedGrammar
import FheSql.ParserTermination
import FheSql.StatementLiterals

/-!
# Integer literals

`consumeInt` multiplies and adds in `int64_t` without a test. Its arithmetic is
written down here in the integers, where nothing wraps: the source stays within
its range if and only if these numbers do.
-/

namespace FheSql.IntegerLiterals

open ByteText SQLParser SqlTokens SqlGrammar DocumentedGrammar ParserSoundness
  ParserTermination StatementLiterals Throwing

/-- The integer that an optional minus sign and digits denote. -/
def denoted (neg : Bool) (digits : Str) : Int :=
  if neg then -(decimalValue digits : Int) else decimalValue digits

/-- A value of type `int64_t`. -/
def InInt64 (v : Int) : Prop := -2 ^ 63 ≤ v ∧ v < 2 ^ 63

/-- The product and the sum of every round of `v = v * 10 + digit`. -/
def rounds : Int → Str → List Int
  | _, [] => []
  | v, c :: digits =>
    v * 10 :: (v * 10 + ((c.toNat : Int) - 48)) ::
      rounds (v * 10 + ((c.toNat : Int) - 48)) digits

/-- All that `consumeInt` computes, the negation last. -/
def computed (neg : Bool) (digits : Str) : List Int :=
  rounds 0 digits ++ if neg then [denoted true digits] else []

def NoOverflow (neg : Bool) (digits : Str) : Prop := ∀ v ∈ computed neg digits, InInt64 v

/-- The sign and the digits that stand at a place of a text. -/
def numberAt (rest : Str) : Bool × Str :=
  match skipWS rest with
  | 45 :: rest => (true, rest.takeWhile isDigit)
  | rest => (false, rest.takeWhile isDigit)

/-- `consumeInt` throws a `ParseError` or returns what the digits denote, and no step
of it leaves the range. -/
def ReadExactly (size : Nat) (rest : Str) : Prop :=
  ((∃ what, consumeInt size rest = .error (.parseError what)) ∨
    ∃ next, consumeInt size rest = .ok (denoted (numberAt rest).1 (numberAt rest).2, next)) ∧
    NoOverflow (numberAt rest).1 (numberAt rest).2

/-- The numbers among the tokens of a text. -/
def tokenNumbers (ts : List Token) : List (Bool × Str) :=
  ts.filterMap fun
    | .int neg digits => some (neg, digits)
    | _ => none

def exprNumbers : ASTExpr → List Int
  | .intLiteral v => [v]
  | .columnRef _ => []
  | .stringLiteral _ => []
  | .comparison _ l r => exprNumbers l ++ exprNumbers r
  | .boolean _ l r => exprNumbers l ++ exprNumbers r
  | .notExpr child => exprNumbers child

def conditionNumbers (e : Option ASTExpr) : List Int := (e.map exprNumbers).getD []

/-- The numbers that a statement holds: those of ON and WHERE, and the limit if there
is one. -/
def storedNumbers (stmt : SelectStatement) : List Int :=
  stmt.joins.flatMap (fun join => conditionNumbers join.condition) ++
    (conditionNumbers stmt.whereClause ++ if 0 ≤ stmt.limitCount then [stmt.limitCount] else [])

variable {digits : Str} {neg : Bool}

theorem digit_range {c : UInt8} (h : isDigit c = true) : 48 ≤ c.toNat ∧ c.toNat ≤ 57 := by
  simp only [isDigit, Bool.and_eq_true, decide_eq_true_eq] at h
  exact ⟨UInt8.le_iff_toNat_le.mp h.1, UInt8.le_iff_toNat_le.mp h.2⟩

/-- The value behind digits whose front has been read already. -/
def valueFrom (n : Nat) (digits : Str) : Nat :=
  digits.foldl (fun v c => 10 * v + (c.toNat - 48)) n

theorem le_valueFrom (n : Nat) (digits : Str) : n ≤ valueFrom n digits := by
  induction digits generalizing n with
  | nil => exact Nat.le_refl n
  | cons c digits ih =>
    have step := ih (10 * n + (c.toNat - 48))
    rw [valueFrom, List.foldl_cons]
    exact le_trans (by omega) step

/-- The rounds grow towards the value of all digits. -/
theorem rounds_bounded (all : ∀ c ∈ digits, isDigit c = true) (n : Nat) :
    ∀ v ∈ rounds n digits, 0 ≤ v ∧ v ≤ valueFrom n digits := by
  induction digits generalizing n with
  | nil => nofun
  | cons c digits ih =>
    have digit := digit_range (all c List.mem_cons_self)
    have sum : (n : Int) * 10 + ((c.toNat : Int) - 48) = (10 * n + (c.toNat - 48) : Nat) := by omega
    have grows := le_valueFrom (10 * n + (c.toNat - 48)) digits
    have last : valueFrom n (c :: digits) = valueFrom (10 * n + (c.toNat - 48)) digits := rfl
    have rest := ih (fun d mem => all d (List.mem_cons_of_mem c mem)) (10 * n + (c.toNat - 48))
    intro v mem
    rw [rounds, sum] at mem
    rw [last]
    rcases List.mem_cons.mp mem with rfl | mem
    · omega
    · rcases List.mem_cons.mp mem with rfl | mem
      · omega
      · exact rest v mem

/-- The last round gives the value of all digits. -/
theorem value_mem_rounds (all : ∀ c ∈ digits, isDigit c = true) (nonempty : digits ≠ []) (n : Nat) :
    (valueFrom n digits : Int) ∈ rounds n digits := by
  induction digits generalizing n with
  | nil => exact (nonempty rfl).elim
  | cons c digits ih =>
    have digit := digit_range (all c List.mem_cons_self)
    have sum : (n : Int) * 10 + ((c.toNat : Int) - 48) = (10 * n + (c.toNat - 48) : Nat) := by omega
    rw [rounds, sum]
    refine List.mem_cons_of_mem _ ?_
    by_cases last : digits = []
    · subst last
      exact List.mem_cons_self
    · exact List.mem_cons_of_mem _ (ih (fun d mem => all d (List.mem_cons_of_mem c mem)) last _)

theorem noOverflow_iff (all : ∀ c ∈ digits, isDigit c = true) :
    NoOverflow neg digits ↔ decimalValue digits ≤ 2 ^ 63 - 1 := by
  constructor
  · intro h
    by_cases nonempty : digits = []
    · subst nonempty
      exact Nat.zero_le _
    · have value : (decimalValue digits : Int) ∈ rounds 0 digits := value_mem_rounds all nonempty 0
      have inside := (h _ (List.mem_append_left _ value)).2
      omega
  · intro small v mem
    rcases List.mem_append.mp mem with mem | mem
    · have bounds := rounds_bounded all 0 v mem
      have last : valueFrom 0 digits = decimalValue digits := rfl
      constructor <;> omega
    · cases neg with
      | false => cases mem
      | true =>
        obtain rfl := List.mem_singleton.mp mem
        constructor <;> simp only [denoted, if_true] <;> omega

theorem toInt64_range (v : Int) : InInt64 (toInt64 v) := by
  rw [toInt64, Int.bmod]
  constructor <;> split <;> omega

/-- The accumulation wraps around once at the end as well as in every round. -/
theorem digitsValue_wraps (all : ∀ c ∈ digits, isDigit c = true) :
    digitsValue digits = toInt64 (decimalValue digits) := by
  induction digits using List.reverseRecOn with
  | nil => rfl
  | append_singleton digits c ih =>
    have digit := digit_range (all c (List.mem_append_right digits List.mem_cons_self))
    have ih := ih fun d mem => all d (List.mem_append_left [c] mem)
    have sum : ((decimalValue (digits ++ [c]) : Nat) : Int) =
        decimalValue digits * 10 + ((c.toNat : Int) - 48) := by
      rw [decimalValue_append]
      omega
    rw [digitsValue, List.foldl_append, List.foldl_cons, List.foldl_nil, ← digitsValue, ih, sum]
    simp only [toInt64, Int.bmod_mul_bmod, Int.bmod_add_bmod]

theorem readInt_wraps (all : ∀ c ∈ digits, isDigit c = true) :
    readInt neg digits = toInt64 (denoted neg digits) := by
  have negated : ∀ (m : Nat) (v : Int), (-v.bmod m).bmod m = (-v).bmod m := fun _ _ =>
    Int.bmod_neg_bmod
  rw [readInt, denoted, digitsValue_wraps all]
  cases neg with
  | true =>
    rw [if_pos rfl, if_pos rfl]
    simp only [toInt64, negated]
  | false => rw [if_neg Bool.false_ne_true, if_neg Bool.false_ne_true]

/-- Digits are read as what they denote if and only if that is an `int64_t`. -/
theorem readInt_eq_denoted_iff (all : ∀ c ∈ digits, isDigit c = true) :
    readInt neg digits = denoted neg digits ↔ InInt64 (denoted neg digits) := by
  rw [readInt_wraps all]
  constructor
  · intro same
    rw [← same]
    exact toInt64_range _
  · exact fun inside => toInt64_of_range inside.1 inside.2

theorem readInt_denoted (all : ∀ c ∈ digits, isDigit c = true)
    (small : decimalValue digits ≤ 2 ^ 63 - 1) : readInt neg digits = denoted neg digits := by
  refine (readInt_eq_denoted_iff all).mpr ?_
  cases neg <;> constructor <;> simp only [denoted, if_true, Bool.false_eq_true, if_false] <;> omega

theorem numberAt_digits (rest : Str) : ∀ c ∈ (numberAt rest).2, isDigit c = true := by
  intro c mem
  rw [numberAt] at mem
  split at mem <;> exact List.mem_takeWhile_imp mem

/-- The result of `consumeInt`, from the sign and the digits at its place. -/
theorem consumeInt_numberAt (size : Nat) (rest : Str) :
    (∃ what, consumeInt size rest = .error (.parseError what)) ∨
      ∃ next, consumeInt size rest = .ok (readInt (numberAt rest).1 (numberAt rest).2, next) := by
  have digits : ∀ (neg : Bool) (text : Str),
      (∃ what, consumeDigits size neg text = .error (.parseError what)) ∨
        ∃ next, consumeDigits size neg text =
          .ok (readInt neg (text.takeWhile isDigit), next) := by
    intro neg text
    rw [consumeDigits]
    by_cases none : text.takeWhile isDigit = []
    · rw [if_pos none]
      exact Or.inl ⟨_, rfl⟩
    · rw [if_neg none]
      exact Or.inr ⟨_, rfl⟩
  by_cases minus : ∃ tail, skipWS rest = 45 :: tail
  · obtain ⟨tail, minus⟩ := minus
    rw [consumeInt, numberAt, minus]
    exact digits true tail
  · have unsigned : consumeInt size rest = consumeDigits size false (skipWS rest) := by
      rw [consumeInt]
      split
      · next tail here => exact (minus ⟨tail, here⟩).elim
      · rfl
    have number : numberAt rest = (false, (skipWS rest).takeWhile isDigit) := by
      rw [numberAt]
      split
      · next tail here => exact (minus ⟨tail, here⟩).elim
      · rfl
    rw [unsigned, number]
    exact digits false _

theorem readExactly_iff (size : Nat) (rest : Str) :
    ReadExactly size rest ↔ decimalValue (numberAt rest).2 ≤ 2 ^ 63 - 1 := by
  have all := numberAt_digits rest
  constructor
  · exact fun h => (noOverflow_iff all).mp h.2
  · intro small
    refine ⟨?_, (noOverflow_iff all).mpr small⟩
    rw [← readInt_denoted all small]
    exact consumeInt_numberAt size rest

variable {ts : List Token}

/-- A text writes every number among its tokens with digits. -/
theorem spans_digits {rest next : Str} (h : Spans anyCase ts rest next) :
    ∀ n ∈ tokenNumbers ts, ∀ c ∈ n.2, isDigit c = true := by
  intro n mem
  obtain ⟨t, here, number⟩ := List.mem_filterMap.mp mem
  obtain ⟨w, writes⟩ := spans_writes h t here
  cases writes with
  | int _ all =>
    cases number
    exact all
  | keyword => cases number
  | ident => cases number
  | table => cases number
  | string => cases number
  | symbol => cases number

/-- The number among the literals. -/
def numberOf : Literal → Option Int
  | .int v => some v
  | .string _ => none

theorem exprNumbers_eq (e : ASTExpr) : exprNumbers e = (exprLiterals e).filterMap numberOf := by
  induction e with
  | columnRef => rfl
  | intLiteral => rfl
  | stringLiteral => rfl
  | comparison _ _ _ ihl ihr | boolean _ _ _ ihl ihr =>
    rw [exprNumbers, exprLiterals, List.filterMap_append, ihl, ihr]
  | notExpr _ ih => exact ih

theorem conditionNumbers_eq (e : Option ASTExpr) :
    conditionNumbers e = (conditionLiterals e).filterMap numberOf := by
  cases e with
  | none => rfl
  | some e => exact exprNumbers_eq e

theorem storedNumbers_eq (stmt : SelectStatement) :
    storedNumbers stmt = (statementLiterals stmt).filterMap numberOf := by
  have limit : ((if 0 ≤ stmt.limitCount then [Literal.int stmt.limitCount] else []).filterMap
      numberOf) = if 0 ≤ stmt.limitCount then [stmt.limitCount] else [] := by
    by_cases present : 0 ≤ stmt.limitCount
    · rw [if_pos present, if_pos present]
      rfl
    · rw [if_neg present, if_neg present]
      rfl
  rw [statementLiterals, List.filterMap_append, List.filterMap_append, List.filterMap_flatMap,
    limit, storedNumbers, conditionNumbers_eq]
  simp only [conditionNumbers_eq]

theorem tokenNumbers_literals (number : Bool → Str → Int) (ts : List Token) :
    ((tokenNumbers ts).map fun n => number n.1 n.2) =
      (tokenLiterals number ts).filterMap numberOf := by
  rw [tokenNumbers, tokenLiterals, List.map_filterMap, List.filterMap_filterMap]
  refine congrArg (fun f => ts.filterMap f) (funext fun t => ?_)
  cases t <;> rfl

/-- A statement holds what is stored for the numbers of its tokens, one for one. -/
theorem renders_numbers {L : Lexicon} {number : Bool → Str → Int} (stores : Stores L number)
    {stmt : SelectStatement} (h : Renders L stmt ts) :
    storedNumbers stmt = (tokenNumbers ts).map fun n => number n.1 n.2 := by
  rw [storedNumbers_eq, tokenNumbers_literals, renders_literals stores h]

/-- The numbers of a text are stored as what they denote, and read without overflow. -/
def StoredExactly (stmt : SelectStatement) (ts : List Token) : Prop :=
  storedNumbers stmt = ((tokenNumbers ts).map fun n => denoted n.1 n.2) ∧
    ∀ n ∈ tokenNumbers ts, NoOverflow n.1 n.2

theorem storedExactly_iff {stmt : SelectStatement} {text : Str} (renders : Renders accepted stmt ts)
    (lays : Lays anyCase ts text) :
    StoredExactly stmt ts ↔ ∀ n ∈ tokenNumbers ts, decimalValue n.2 ≤ 2 ^ 63 - 1 := by
  have all := spans_digits lays
  constructor
  · exact fun h n mem => (noOverflow_iff (all n mem)).mp (h.2 n mem)
  · intro small
    refine ⟨?_, fun n mem => (noOverflow_iff (all n mem)).mpr (small n mem)⟩
    rw [renders_numbers stores_accepted renders]
    exact List.map_congr_left fun n mem => readInt_denoted (all n mem) (small n mem)

/-- A number is read exactly, wherever it stands, if and only if its digits are at most
`INT64_MAX`; a text is refused or its statement holds what its numbers denote, if and
only if all of them are. -/
theorem literals_exact_iff (size : Nat) (rest text : Str) :
    (ReadExactly size rest ↔ decimalValue (numberAt rest).2 ≤ 2 ^ 63 - 1) ∧
      ((∃ what, parse text = .error (.parseError what)) ∨
        ∃ stmt, parse text = .ok stmt ∧
          (∃ ts, Renders accepted stmt ts ∧ Lays anyCase ts text) ∧
          ∀ ts, Renders accepted stmt ts → Lays anyCase ts text →
            (StoredExactly stmt ts ↔
              ∀ n ∈ tokenNumbers ts, decimalValue n.2 ≤ 2 ^ 63 - 1)) := by
  refine ⟨readExactly_iff size rest, ?_⟩
  cases parsed : parse text with
  | error e =>
    obtain ⟨what, rfl⟩ := parse_refuses text e parsed
    exact Or.inl ⟨what, rfl⟩
  | ok stmt =>
    exact Or.inr ⟨stmt, rfl, renders_of_parse parsed, fun _ => storedExactly_iff⟩

/-- The statement of a limit beyond the range of `int64_t`. -/
def wrappedLimit : SelectStatement :=
  { projections := [], tableName := str "employees", tableAlias := str "employees"
    limitCount := 1 }

/-- 2 ^ 64 + 1 wraps around to 1. -/
theorem large_limit_wraps :
    ¬ ∀ text stmt ts, parse text = .ok stmt → Renders accepted stmt ts → Lays anyCase ts text →
      StoredExactly stmt ts := by
  intro exact_
  have wrapped : (1 : Int) = readInt false (str "18446744073709551617") := by decide +kernel
  have renders : Renders accepted wrappedLimit
      [.keyword (str "SELECT"), .symbol (str "*"), .keyword (str "FROM"),
        .table (str "employees"), .keyword (str "LIMIT"),
        .int false (str "18446744073709551617")] :=
    .plain (.mk .star (.bare trivial) .nil (Or.inl rfl) .absent .absent
      (.present wrapped (by decide)))
  have lays : ∀ {spell : Spelling}, (∀ kw ∈ keywords, spell kw kw) → Lays spell
      [.keyword (str "SELECT"), .symbol (str "*"), .keyword (str "FROM"),
        .table (str "employees"), .keyword (str "LIMIT"),
        .int false (str "18446744073709551617")]
      ([] ++ (str "SELECT" ++ ([32] ++ (str "*" ++ ([32] ++ (str "FROM" ++ ([32] ++
        (str "employees" ++ ([32] ++ (str "LIMIT" ++ ([32] ++
          (str "18446744073709551617" ++ ([] ++ []))))))))))))) := by
    intro spell spelled
    have keyword : ∀ kw ∈ keywords, Token.Writes spell (.keyword kw) kw := fun kw known =>
      .keyword known (spelled kw known)
    refine .cons nofun (keyword _ (by decide)) (by rintro c ⟨⟩; rfl) ?_
    refine .cons (by decide +kernel) (.symbol (by decide)) (by rintro c ⟨⟩; rfl) ?_
    refine .cons (by decide +kernel) (keyword _ (by decide)) (by rintro c ⟨⟩; rfl) ?_
    refine .cons (by decide +kernel) (.table (by decide +kernel)) (by rintro c ⟨⟩; rfl) ?_
    refine .cons (by decide +kernel) (keyword _ (by decide)) (by rintro c ⟨⟩; rfl) ?_
    exact .cons (by decide +kernel) (.int (by decide) (by decide +kernel)) nofun (.nil nofun)
  have parsed := StatementCompleteness.parse_renders spells_exactly renders
    (lays fun kw _ => rfl) (Or.inl StatementCompleteness.keeps_exactly)
  have folded : ∀ kw ∈ keywords, toUpper kw = kw := by decide
  have stored := (exact_ _ _ _ parsed renders (lays folded)).1
  exact absurd stored (by decide +kernel)

end FheSql.IntegerLiterals
