import FheSql.AnalyzedStatement
import FheSql.ParserSoundness
import FheSql.PredicateCode
import FheSql.PredicateMeaning
import FheSql.ResultDecoder
import FheSql.StatementLiterals
import Mathlib.Data.Set.Function

/-!
# String literals in columns of fixed width

A literal is padded with zeros to the width of its column, and a stored string ends at
the first zero. The lexer takes every ASCII byte into a literal, the zero as well, so
that a literal is told from its padding only if it holds no zero itself.
-/

namespace FheSql.StringCodes

open ByteText Throwing IndicatorPoly SQLParser SqlTokens SqlGrammar StatementLiterals
open SemanticAnalyzer AnalyzedStatement QueryEncryptor PredicateCode PredicateCompiler
open PredicateMeaning ResultDecoder StoredRows

/-- The codes of a string in a column of a width. -/
def codes (value : Str) (maxLength : Nat) : List Int :=
  (List.range maxLength).map (characterCode value)

/-- Codes read by the rule of `decode`, one column of one row for each position. -/
def readBack (codes : List Int) : Except Exn Str := decodeString 0 (codes.map fun code => [code])

/-- The columns that a condition compares with string literals. -/
def comparedStrings : ASTExpr → List (Str × Str)
  | .comparison _ l r => (stringComparison? l r).toList
  | .boolean _ l r => comparedStrings l ++ comparedStrings r
  | .notExpr e => comparedStrings e
  | _ => []

/-- Some text with the literal opposite the column is parsed and analyzed. -/
def Accepted (cat : Catalog) (c : ColumnSchema) (literal : Str) : Prop :=
  ∃ text stmt schema e name, parse text = .ok stmt ∧ analyze cat stmt = .ok schema ∧
    stmt.whereClause = some e ∧ (name, literal) ∈ comparedStrings e ∧ Finds cat stmt name c

/-- `addEncryptedString` appends the encryptions of the codes, in their order. -/
def SendsCodes (value : Str) (maxLength : Nat) : Prop :=
  ∀ (P : Proto1) (s t : BuildState P) (first : UInt32),
    addEncryptedString value maxLength s = .ok (first, t) →
    ∃ entries, t.literals = s.literals ++ entries ∧
      List.Forall₂ (fun code entry => Encrypts P (str "STRING_CHAR", code.1) code.2 entry)
        ((codes value maxLength).zipIdx s.nextLiteralId.toNat) entries

/-- Literals that can be read back from the codes that are sent for them, that differ in
their codes when they differ, and whose predicates hold of the rows with just that string. -/
structure Faithful (c : ColumnSchema) (literals : Set Str) : Prop where
  sends : ∀ literal ∈ literals, SendsCodes literal c.maxLength
  reads : ∀ literal ∈ literals, readBack (codes literal c.maxLength) = .ok literal
  differ : Set.InjOn (codes · c.maxLength) literals
  selects : ∀ literal ∈ literals, ∀ s, Fits c (.string s) →
    ∀ (physical : Str → Nat → Str) (name : Str) (slotOf : Str → Slot),
      (∀ position < c.maxLength,
        slotOf (physical name position) = (characterCode s position : Slot)) →
      ((stringEqual physical name literal c.maxLength).value slotOf
          (fun v : Int => (v : Slot)) = 1 ↔
        s = literal)

theorem sendsCodes (value : Str) (maxLength : Nat) : SendsCodes value maxLength := by
  intro P s t first h
  obtain ⟨_, encrypted⟩ := addEncryptedString_ok_iff.mp h
  obtain ⟨entries, pushed, all⟩ := encryptLiterals_entries encrypted UInt32.ofNat_toNat.symm
  refine ⟨entries, pushed, ?_⟩
  have same : characters value maxLength =
      (codes value maxLength).map fun code => (str "STRING_CHAR", code) := by
    rw [characters, codes, List.map_map]
    rfl
  rw [same, List.zipIdx_map, List.forall₂_map_left_iff] at all
  exact all

theorem codes_eq {value : Str} {m : Nat} (fits : value.length ≤ m) :
    codes value m =
      value.map (fun c => (c.toNat : Int)) ++ List.replicate (m - value.length) 0 := by
  refine List.ext_getElem? fun i => ?_
  by_cases inside : i < value.length
  · rw [List.getElem?_append_left (by simpa using inside), codes, List.getElem?_map,
      List.getElem?_range (by omega), List.getElem?_map, List.getElem?_eq_getElem inside,
      Option.map_some, Option.map_some, characterCode, List.getElem?_eq_getElem inside]
  · rw [List.getElem?_append_right (by simpa using inside), codes, List.getElem?_map,
      List.length_map, List.getElem?_replicate]
    by_cases padding : i < m
    · rw [List.getElem?_range padding, Option.map_some, characterCode,
        List.getElem?_eq_none (by omega), if_pos (by omega)]
    · rw [List.getElem?_eq_none (by simpa using padding), Option.map_none, if_neg (by omega)]

/-- What is read back of a literal ends at its first zero. -/
theorem readBack_codes {value : Str} {m : Nat} (fits : value.length ≤ m)
    (ascii : ∀ c ∈ value, ¬ 127 < c) :
    readBack (codes value m) = .ok (value.takeWhile (· != 0)) := by
  rw [codes_eq fits, readBack, List.map_append, List.map_map]
  generalize m - value.length = padding
  induction value with
  | nil =>
    cases padding with
    | zero => rfl
    | succ padding => rfl
  | cons c value ih =>
    have ih := ih (by simp only [List.length_cons] at fits; omega)
      fun d mem => ascii d (List.mem_cons_of_mem c mem)
    have low : c.toNat ≤ 127 := by
      have h := ascii c List.mem_cons_self
      rw [UInt8.lt_iff_toNat_lt] at h
      have bound : (127 : UInt8).toNat = 127 := rfl
      omega
    rw [List.map_cons, List.cons_append, decodeString]
    simp only [Function.comp_apply, List.getElem?_cons_zero]
    by_cases zero : c = 0
    · subst zero
      rfl
    · have nonzero : c.toNat ≠ 0 := fun h => zero (UInt8.toNat.inj h)
      have positive : ¬ (c.toNat : Int) = 0 := by omega
      have range : ¬ ((c.toNat : Int) < 0 ∨ 127 < (c.toNat : Int)) := by omega
      rw [if_neg positive, if_neg range, ih, ok_bind, Int.toNat_natCast, UInt8.ofNat_toNat,
        List.takeWhile_cons, if_pos (by simpa using zero)]
      rfl

theorem takeWhile_eq_self_iff {value : Str} :
    value.takeWhile (· != 0) = value ↔ (0 : UInt8) ∉ value := by
  rw [List.takeWhile_eq_self_iff]
  constructor
  · intro all mem
    exact absurd (all 0 mem) (by decide)
  · intro absent c mem
    rw [bne_iff_ne]
    rintro rfl
    exact absent mem

theorem codes_eq_iff {s t : Str} {m : Nat} :
    codes s m = codes t m ↔
      ∀ position < m, characterCode s position = characterCode t position := by
  rw [codes, codes, List.map_inj_left]
  simp only [List.mem_range]

/-- The predicate of a literal holds in the slots with the codes of a stored string just if
these are the literal's codes. -/
theorem stringEqual_eq_one_iff {physical : Str → Nat → Str} {name literal s : Str} {m : Nat}
    (wide : 1 ≤ m) {slotOf : Str → Slot} (stored : ∀ position < m,
      slotOf (physical name position) = (characterCode s position : Slot)) :
    (stringEqual physical name literal m).value slotOf (fun v : Int => (v : Slot)) = 1 ↔
      codes s m = codes literal m := by
  have truth : ∀ {p : Prop} [Decidable p], (bit p : Slot) = 1 ↔ p := by
    intro p _
    by_cases h : p <;> simp [bit, h]
  rw [value_stringEqual wide, truth, codes_eq_iff]
  refine forall_congr' fun position => ?_
  rw [List.mem_range]
  refine forall_congr' fun inside => ?_
  have low := characterCode_bounds s position
  have high := characterCode_bounds literal position
  rw [stored position inside, intCast_inj (by omega) (by omega)]

variable {cat : Catalog} {c : ColumnSchema}

/-- The strings of a parsed statement are ASCII. -/
theorem ascii_of_parse {text : Str} {stmt : SelectStatement} (parsed : parse text = .ok stmt)
    {value : Str} (mem : Literal.string value ∈ statementLiterals stmt) :
    ∀ c ∈ value, ¬ 127 < c := by
  obtain ⟨ts, renders, lays⟩ := ParserSoundness.renders_of_parse parsed
  rw [renders_literals stores_accepted renders] at mem
  obtain ⟨t, here, same⟩ := List.mem_filterMap.mp mem
  obtain ⟨w, writes⟩ := spans_writes lays t here
  cases writes with
  | string ascii =>
    cases same
    exact ascii
  | int => cases same
  | keyword => cases same
  | ident => cases same
  | table => cases same
  | symbol => cases same

theorem comparedStrings_literals {e : ASTExpr} {name literal : Str}
    (h : (name, literal) ∈ comparedStrings e) : Literal.string literal ∈ exprLiterals e := by
  induction e with
  | columnRef | intLiteral | stringLiteral => cases h
  | comparison kind l r =>
    rw [comparedStrings, Option.mem_toList] at h
    unfold stringComparison? at h
    split at h
    · cases h
      exact List.mem_singleton_self _
    · cases h
      exact List.mem_singleton_self _
    · cases h
  | boolean _ _ _ ihl ihr =>
    exact (List.mem_append.mp h).elim (fun h => List.mem_append_left _ (ihl h))
      fun h => List.mem_append_right _ (ihr h)
  | notExpr _ ih => exact ih h

/-- What the analyzer has checked of a literal and its column. -/
theorem column_of_validated {stmt : SelectStatement} {e : ASTExpr} {name literal : Str}
    (ok : validateExpr cat stmt e = .ok ()) (h : (name, literal) ∈ comparedStrings e)
    (found : Finds cat stmt name c) :
    c.type = .STRING ∧ 1 ≤ c.maxLength ∧ literal.length ≤ c.maxLength := by
  have once : ∀ {d}, Finds cat stmt name d → d = c := fun other =>
    Except.ok.inj (other.symm.trans found)
  induction e with
  | columnRef | intLiteral | stringLiteral => cases h
  | comparison kind l r =>
    rw [comparedStrings, Option.mem_toList] at h
    have ok := validateComparison_ok_iff.mp ok
    unfold stringComparison? at h
    split at h
    · cases h
      obtain ⟨_, d, other, type, wide, fits⟩ := ok
      obtain rfl := once other
      exact ⟨type, by omega, fits⟩
    · cases h
      obtain ⟨_, d, other, type, wide, fits⟩ := ok
      obtain rfl := once other
      exact ⟨type, by omega, fits⟩
    · cases h
  | boolean _ _ _ ihl ihr =>
    obtain ⟨_, okl, okr⟩ := bind_ok_iff.mp ok
    exact (List.mem_append.mp h).elim (ihl okl) (ihr okr)
  | notExpr _ ih => exact ih ok h

theorem accepted_literal {literal : Str} (h : Accepted cat c literal) :
    c.type = .STRING ∧ 1 ≤ c.maxLength ∧ literal.length ≤ c.maxLength ∧
      ∀ c ∈ literal, ¬ 127 < c := by
  obtain ⟨text, stmt, schema, e, name, parsed, analyzed, clause, compared, found⟩ := h
  obtain ⟨scopes, analyzed⟩ := analyze_ok_iff.mp analyzed
  obtain ⟨type, wide, fits⟩ := column_of_validated (analyzed.whereOk e clause) compared found
  refine ⟨type, wide, fits, ascii_of_parse parsed ?_⟩
  rw [statementLiterals, clause]
  exact List.mem_append_right _ (List.mem_append_left _ (comparedStrings_literals compared))

/-- The encoding is faithful to accepted literals of a column if and only if none of them
holds a zero byte. -/
theorem faithful_iff_noZero {literals : Set Str}
    (accepted : ∀ literal ∈ literals, Accepted cat c literal) :
    Faithful c literals ↔ ∀ literal ∈ literals, (0 : UInt8) ∉ literal := by
  constructor
  · intro faithful literal mem
    obtain ⟨_, _, fits, ascii⟩ := accepted_literal (accepted literal mem)
    have whole := faithful.reads literal mem
    rw [readBack_codes fits ascii] at whole
    exact takeWhile_eq_self_iff.mp (Except.ok.inj whole)
  · intro noZero
    refine ⟨fun literal _ => sendsCodes literal c.maxLength, fun literal mem => ?_,
      fun s hs t ht same => ?_, fun literal mem s fits physical name slotOf stored => ?_⟩
    · obtain ⟨_, _, fits, ascii⟩ := accepted_literal (accepted literal mem)
      rw [readBack_codes fits ascii, takeWhile_eq_self_iff.mpr (noZero literal mem)]
    · obtain ⟨_, _, fitsS, _⟩ := accepted_literal (accepted s hs)
      obtain ⟨_, _, fitsT, _⟩ := accepted_literal (accepted t ht)
      exact (characterCode_inj fitsS fitsT (noZero s hs) (noZero t ht)).mp (codes_eq_iff.mp same)
    · obtain ⟨type, wide, short, _⟩ := accepted_literal (accepted literal mem)
      obtain ⟨u, same, fitsS, ascii⟩ := fits.string_of_type type
      cases same
      have nul : (0 : UInt8) ∉ s := fun zero => absurd (ascii 0 zero).1 (by decide)
      rw [stringEqual_eq_one_iff wide stored, codes_eq_iff]
      exact characterCode_inj fitsS short nul (noZero literal mem)

/-- The column `name` of the employees. -/
def nameColumn : ColumnSchema := { name := str "name", type := .STRING, maxLength := 16 }

/-- The statement of `SELECT id FROM employees WHERE name = ...`. -/
def selectNamed (literal : Str) : SelectStatement where
  projections := [str "id"]
  tableName := str "employees"
  tableAlias := str "employees"
  whereClause := some (.comparison .Equal (.columnRef (str "name")) (.stringLiteral literal))

theorem accepted_named {literal : Str}
    (parsed : parse (str "SELECT id FROM employees WHERE name = '" ++ literal ++ [39]) =
      .ok (selectNamed literal))
    (analyzed : ∃ schema, analyze makeEmployeesCatalog (selectNamed literal) = .ok schema) :
    Accepted makeEmployeesCatalog nameColumn literal := by
  obtain ⟨schema, analyzed⟩ := analyzed
  exact ⟨_, _, schema, _, str "name", parsed, analyzed, rfl, List.mem_singleton_self _, rfl⟩

theorem accepted_ana : Accepted makeEmployeesCatalog nameColumn (str "Ana") :=
  accepted_named (by decide +kernel) ⟨_, by rfl⟩

theorem accepted_anna : Accepted makeEmployeesCatalog nameColumn (str "Anna") :=
  accepted_named (by decide +kernel) ⟨_, by rfl⟩

theorem twoNames_faithful : Faithful nameColumn {str "Ana", str "Anna"} := by
  have accepted : ∀ literal ∈ ({str "Ana", str "Anna"} : Set Str),
      Accepted makeEmployeesCatalog nameColumn literal := by
    rintro literal (rfl | rfl)
    · exact accepted_ana
    · exact accepted_anna
  apply (faithful_iff_noZero accepted).mpr
  rintro literal (rfl | rfl)
  · decide
  · decide

theorem accepted_zero : Accepted makeEmployeesCatalog nameColumn [97, 0] :=
  accepted_named (by decide +kernel) ⟨_, by rfl⟩

/-- A literal that ends with a zero is read back without it. -/
theorem zero_is_not_read_back :
    ¬ ∀ cat c literals, (∀ literal ∈ literals, Accepted cat c literal) → Faithful c literals := by
  intro faithful
  have accepted : ∀ literal ∈ ({[97, 0]} : Set Str),
      Accepted makeEmployeesCatalog nameColumn literal := by
    rintro literal rfl
    exact accepted_zero
  have whole := (faithful makeEmployeesCatalog nameColumn {[97, 0]} accepted).reads _ rfl
  have cut : readBack (codes [97, 0] 16) = .ok [97] := rfl
  cases cut.symm.trans whole

end FheSql.StringCodes
