import FheSql.StatementCompleteness
import Mathlib.Data.List.Induction

/-!
# The parser implements the documented grammar

A rendering of a statement writes its keywords in upper case, uses no keyword as an
identifier and no number beyond 63 bits. The accepted lexicon lets all of that pass,
so the parser gives the statement back.
-/

namespace FheSql.DocumentedGrammar

open ByteText SQLParser SqlTokens SqlGrammar StatementCompleteness

theorem toInt64_of_range {v : Int} (low : -2 ^ 63 ≤ v) (high : v < 2 ^ 63) : toInt64 v = v := by
  rw [toInt64, Int.bmod_eq_of_le] <;> omega

theorem decimalValue_append (digits : Str) (c : UInt8) :
    decimalValue (digits ++ [c]) = 10 * decimalValue digits + (c.toNat - 48) := by
  rw [decimalValue, decimalValue, List.foldl_append]
  rfl

/-- Digits within the range of `int64_t` are read without wrapping. -/
theorem digitsValue_of_range {digits : Str} (all : ∀ c ∈ digits, isDigit c = true)
    (small : decimalValue digits ≤ 2 ^ 63 - 1) : digitsValue digits = decimalValue digits := by
  induction digits using List.reverseRecOn with
  | nil => rfl
  | append_singleton digits c ih =>
    rw [decimalValue_append] at small
    have digit : 48 ≤ c.toNat := by
      have h := all c (List.mem_append_right digits List.mem_cons_self)
      simp only [isDigit, Bool.and_eq_true, decide_eq_true_eq] at h
      exact UInt8.le_iff_toNat_le.mp h.1
    have ih := ih (fun d mem => all d (List.mem_append_left [c] mem)) (by omega)
    have step : digitsValue (digits ++ [c]) =
        toInt64 (toInt64 (digitsValue digits * 10) + ((c.toNat : Int) - 48)) := by
      rw [digitsValue, List.foldl_append]
      rfl
    have shifted : toInt64 ((decimalValue digits : Int) * 10) = decimalValue digits * 10 :=
      toInt64_of_range (by omega) (by omega)
    rw [step, ih, shifted, decimalValue_append, toInt64_of_range (by omega) (by omega)]
    omega

theorem documented_within : documented.Within accepted where
  ident _ _ := trivial
  operand name known := by
    intro same
    refine known ?_
    rw [same]
    decide
  implicitAlias name known := by
    refine ⟨fun same => known ?_, fun clause => known ?_⟩
    · rw [same]
      decide
    · exact (by decide : ∀ w ∈ clauseWords, toUpper w ∈ keywords) name clause
  number neg digits v value := by
    obtain ⟨all, small, rfl⟩ := value
    change _ = readInt neg digits
    rw [readInt, digitsValue_of_range all small]
    cases neg with
    | true => exact (toInt64_of_range (by omega) (by omega)).symm
    | false => rfl
  strayInner := False.elim

/-- Every rendering of a statement by the documented grammar, with any white space
between its tokens, is parsed to that statement. -/
theorem parse_rendering {stmt : SelectStatement} {ts : List Token} {text : Str}
    (renders : Renders documented stmt ts) (lays : Lays exactly ts text) :
    parse text = .ok stmt :=
  parse_renders spells_exactly (renders_within documented_within renders) lays
    (Or.inl keeps_exactly)

theorem parse_namesBelow30 :
    parse (str "SELECT name FROM emp e WHERE NOT(age>=30);") =
      .ok { projections := [str "name"]
            tableName := str "emp"
            tableAlias := str "e"
            whereClause := some (.notExpr
              (.comparison .GreaterEqual (.columnRef (str "age")) (.intLiteral 30))) } := by
  have known : ∀ name ∈ [str "name", str "emp", str "e", str "age"], toUpper name ∉ keywords := by
    decide
  have column : Expr documented .primary (.columnRef (str "age")) [.ident (str "age")] :=
    .column (.bare (known _ (by decide)))
  have number : Expr documented .primary (.intLiteral 30) [.int false (str "30")] :=
    .int ⟨by decide +kernel, by decide, rfl⟩
  have compared : Expr documented .comparison
      (.comparison .GreaterEqual (.columnRef (str "age")) (.intLiteral 30)) _ :=
    .compare column number
  have compared := Expr.comparison (fun name head => by cases head; exact known _ (by decide))
    compared
  have condition := Expr.conjunction (.negation (.not (.comparison (fun _ head => by cases head)
    (.operand (.parentheses (.conjunction (.negation compared)))))))
  have table : Table documented ⟨str "emp", str "e"⟩ [.ident (str "emp"), .ident (str "e")] :=
    .implicit (known _ (by decide)) (known _ (by decide)) (known _ (by decide))
  have renders := Renders.terminated (Select.mk (.columns (.one (.bare (known (str "name")
    (by decide))))) table .nil (Or.inl rfl) (.present condition) .absent .absent)
  have identifier : ∀ name ∈ [str "name", str "emp", str "e", str "age"], Identifier name := by
    decide +kernel
  have lays : Lays exactly
      [.keyword (str "SELECT"), .ident (str "name"), .keyword (str "FROM"), .ident (str "emp"),
        .ident (str "e"), .keyword (str "WHERE"), .keyword (str "NOT"), .symbol (str "("),
        .ident (str "age"), .symbol (str ">="), .int false (str "30"), .symbol (str ")"),
        .symbol (str ";")]
      ([] ++ (str "SELECT" ++ ([32] ++ (str "name" ++ ([32] ++ (str "FROM" ++ ([32] ++
        (str "emp" ++ ([32] ++ (str "e" ++ ([32] ++ (str "WHERE" ++ ([32] ++ (str "NOT" ++
        ([] ++ (str "(" ++ ([] ++ (str "age" ++ ([] ++ (str ">=" ++ ([] ++ (str "30" ++
        ([] ++ (str ")" ++ ([] ++ (str ";" ++ ([] ++ []))))))))))))))))))))))))))) := by
    repeat' first
      | exact Spans.nil nofun
      | refine Spans.cons (by decide +kernel) ?_ (by rintro c ⟨⟩ <;> rfl) ?_
    all_goals first
      | exact .keyword (by decide) rfl
      | exact .ident (identifier _ (by decide))
      | exact .symbol (by decide)
      | exact .int (by decide) (by decide +kernel)
  exact parse_rendering renders lays

end FheSql.DocumentedGrammar
