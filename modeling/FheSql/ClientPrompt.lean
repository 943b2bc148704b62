import FheSql.Parser

/-!
# The end of a statement at the prompt

`hasStatementTerminator` of `client/client_main.cpp`. The read loop sends its buffer
once this scanner is satisfied; the parser then delimits the string literals by a
scanner of its own.
-/

namespace FheSql.ClientPrompt

open ByteText Throwing SQLParser

/-- `inString` behind the last character: a doubled quote in a string is passed over. -/
def inStringAtEnd : Bool → Str → Bool
  | inString, [] => inString
  | inString, [c] => if c = 39 then !inString else inString
  | inString, c :: d :: rest =>
    if c = 39 then
      if inString = true ∧ d = 39 then inStringAtEnd true rest
      else inStringAtEnd (!inString) (d :: rest)
    else inStringAtEnd inString (d :: rest)

def hasStatementTerminator (sql : Str) : Bool := !inStringAtEnd false sql && sql.contains 59

/-- What stands behind a string literal, from behind its opening quote on. -/
def behindLiteral : Str → Option Str
  | [] => none
  | [c] => if c = 39 then some [] else none
  | c :: d :: rest =>
    if c = 39 then
      if d = 39 then behindLiteral rest else some (d :: rest)
    else behindLiteral (d :: rest)

/-- The characters of a text outside its string literals, and whether a literal is
left open at its end. -/
inductive Scans : Str → Str → Bool → Prop where
  | nil : Scans [] [] false
  | outside {c rest out isOpen} : c ≠ 39 → Scans rest out isOpen →
      Scans (c :: rest) (c :: out) isOpen
  | literal {body rest out isOpen} : behindLiteral body = some rest → Scans rest out isOpen →
      Scans (39 :: body) out isOpen
  | unterminated {body} : behindLiteral body = none → Scans (39 :: body) [] true

/-- No literal is left open, and a semicolon stands outside all of them. -/
def Finished (text : Str) : Prop := ∃ out, Scans text out false ∧ 59 ∈ out

theorem stringChars_ends (value : Str) {body : Str} (ascii : ∀ c ∈ body, ¬ 127 < c) :
    (stringChars body value).toOption.map Prod.snd = behindLiteral body := by
  fun_induction stringChars body value with
  | case1 => rfl
  | case2 => rfl
  | case3 c _ _ large => exact (ascii c List.mem_cons_self large).elim
  | case4 c _ other => simp [behindLiteral, other, Except.toOption]
  | case5 rest value ih =>
    rw [ih fun c mem => ascii c (List.mem_cons_of_mem _ (List.mem_cons_of_mem _ mem))]
    simp [behindLiteral]
  | case6 d rest value single => simp [behindLiteral, single, Except.toOption]
  | case7 c _ _ _ _ large => exact (ascii c List.mem_cons_self large).elim
  | case8 c d rest value other _ ih =>
    rw [ih fun c mem => ascii c (List.mem_cons_of_mem _ mem)]
    simp [behindLiteral, other]

/-- `consumeString` ends a literal of ASCII characters where `behindLiteral` does, and
throws when it is left open. -/
theorem consumeString_ends (size : Nat) {body : Str} (ascii : ∀ c ∈ body, ¬ 127 < c) :
    (consumeString size (39 :: body)).toOption.map Prod.snd = behindLiteral body :=
  stringChars_ends [] ascii

theorem suffix_behindLiteral {body rest : Str} (h : behindLiteral body = some rest) :
    rest <:+ body ∧ rest.length < body.length := by
  fun_induction behindLiteral body with
  | case1 => cases h
  | case2 =>
    cases h
    exact ⟨List.nil_suffix, Nat.zero_lt_one⟩
  | case3 => cases h
  | case4 tail ih =>
    obtain ⟨suffix, shorter⟩ := ih h
    refine ⟨(suffix.trans (List.suffix_cons _ _)).trans (List.suffix_cons _ _), ?_⟩
    simp only [List.length_cons]
    omega
  | case5 =>
    cases h
    exact ⟨List.suffix_cons _ _, Nat.lt_succ_self _⟩
  | case6 c d tail _ ih =>
    obtain ⟨suffix, shorter⟩ := ih h
    exact ⟨suffix.trans (List.suffix_cons _ _), Nat.lt_succ_of_lt shorter⟩

/-- Every text is scanned in one way. -/
theorem exists_scans (text : Str) : ∃ out isOpen, Scans text out isOpen := by
  induction h : text.length using Nat.strong_induction_on generalizing text with
  | h n ih =>
    cases text with
    | nil => exact ⟨[], false, .nil⟩
    | cons c rest =>
      subst h
      by_cases quote : c = 39
      · subst quote
        cases behind : behindLiteral rest with
        | none => exact ⟨[], true, .unterminated behind⟩
        | some tail =>
          have shorter := (suffix_behindLiteral behind).2
          obtain ⟨out, isOpen, scans⟩ := ih tail.length (by simp only [List.length_cons]; omega)
            tail rfl
          exact ⟨out, isOpen, .literal behind scans⟩
      · obtain ⟨out, isOpen, scans⟩ := ih rest.length (Nat.lt_succ_self _) rest rfl
        exact ⟨c :: out, isOpen, .outside quote scans⟩

theorem scans_append {plain rest out : Str} {isOpen : Bool} (unquoted : 39 ∉ plain)
    (h : Scans rest out isOpen) : Scans (plain ++ rest) (plain ++ out) isOpen := by
  induction plain with
  | nil => exact h
  | cons c plain ih =>
    rw [List.mem_cons, not_or] at unquoted
    exact .outside (Ne.symm unquoted.1) (ih unquoted.2)

theorem scans_unique {text out out' : Str} {isOpen isOpen' : Bool} (h : Scans text out isOpen)
    (h' : Scans text out' isOpen') : out = out' ∧ isOpen = isOpen' := by
  induction h generalizing out' isOpen' with
  | nil =>
    cases h'
    exact ⟨rfl, rfl⟩
  | outside other _ ih =>
    cases h' with
    | outside _ scans =>
      obtain ⟨rfl, rfl⟩ := ih scans
      exact ⟨rfl, rfl⟩
    | literal => exact (other rfl).elim
    | unterminated => exact (other rfl).elim
  | literal behind _ ih =>
    cases h' with
    | outside other _ => exact (other rfl).elim
    | literal behind' scans =>
      cases behind.symm.trans behind'
      exact ih scans
    | unterminated behind' => cases behind.symm.trans behind'
  | unterminated behind =>
    cases h' with
    | outside other _ => exact (other rfl).elim
    | literal behind' _ => cases behind.symm.trans behind'
    | unterminated => exact ⟨rfl, rfl⟩

/-- In a string the client's loop goes on to the end of the literal. -/
theorem inStringAtEnd_true (body : Str) :
    inStringAtEnd true body = ((behindLiteral body).map (inStringAtEnd false)).getD true := by
  fun_induction behindLiteral body with
  | case1 => rfl
  | case2 => rfl
  | case3 c other => simp [inStringAtEnd, other]
  | case4 tail ih => simp [inStringAtEnd, ih]
  | case5 d tail single => simp [inStringAtEnd, single]
  | case6 c d tail other ih => simp [inStringAtEnd, other, ih]

theorem inStringAtEnd_outside {c : UInt8} (other : c ≠ 39) (rest : Str) :
    inStringAtEnd false (c :: rest) = inStringAtEnd false rest := by
  cases rest <;> simp [inStringAtEnd, other]

theorem inStringAtEnd_quote (rest : Str) :
    inStringAtEnd false (39 :: rest) = inStringAtEnd true rest := by
  cases rest <;> simp [inStringAtEnd]

/-- The client's loop ends in a string when a literal is left open. -/
theorem inStringAtEnd_of_scans {text out : Str} {isOpen : Bool} (h : Scans text out isOpen) :
    inStringAtEnd false text = isOpen := by
  induction h with
  | nil => rfl
  | outside other _ ih => rw [inStringAtEnd_outside other, ih]
  | literal behind _ ih => rw [inStringAtEnd_quote, inStringAtEnd_true, behind]; exact ih
  | unterminated behind => rw [inStringAtEnd_quote, inStringAtEnd_true, behind]; rfl

theorem subset_of_scans {text out : Str} {isOpen : Bool} (h : Scans text out isOpen) :
    out ⊆ text := by
  induction h with
  | nil => exact List.Subset.refl _
  | outside _ _ ih => exact List.cons_subset_cons _ ih
  | unterminated => exact List.nil_subset _
  | literal behind _ ih =>
    have inner := (suffix_behindLiteral behind).1.subset
    exact fun c mem => List.mem_cons_of_mem _ (inner (ih mem))

theorem hasStatementTerminator_iff {text out : Str} {isOpen : Bool} (h : Scans text out isOpen) :
    hasStatementTerminator text = true ↔ isOpen = false ∧ 59 ∈ text := by
  simp [hasStatementTerminator, inStringAtEnd_of_scans h]

theorem finished_iff {text out : Str} {isOpen : Bool} (h : Scans text out isOpen) :
    Finished text ↔ isOpen = false ∧ 59 ∈ out := by
  constructor
  · rintro ⟨out', scans, mem⟩
    obtain ⟨rfl, rfl⟩ := scans_unique h scans
    exact ⟨rfl, mem⟩
  · rintro ⟨rfl, mem⟩
    exact ⟨out, h, mem⟩

/-- The parser ends a literal where `behindLiteral` does. Prompt and parser agree on a
text just when a literal is left open at its end, or it has no semicolon, or one outside
its literals. -/
theorem terminator_agrees_iff (text : Str) :
    (∀ (size : Nat) (body : Str), (∀ c ∈ body, ¬ 127 < c) →
      (consumeString size (39 :: body)).toOption.map Prod.snd = behindLiteral body) ∧
    ((hasStatementTerminator text = true ↔ Finished text) ↔
      (∃ out, Scans text out true) ∨ 59 ∉ text ∨
        ∃ out isOpen, Scans text out isOpen ∧ 59 ∈ out) := by
  refine ⟨fun size body ascii => consumeString_ends size ascii, ?_⟩
  obtain ⟨out, isOpen, scans⟩ := exists_scans text
  have opened : (∃ out, Scans text out true) ↔ isOpen = true := by
    constructor
    · rintro ⟨_, other⟩
      exact (scans_unique scans other).2
    · rintro rfl
      exact ⟨out, scans⟩
  have outside : (∃ out isOpen, Scans text out isOpen ∧ 59 ∈ out) ↔ 59 ∈ out := by
    constructor
    · rintro ⟨_, _, other, mem⟩
      exact (scans_unique scans other).1 ▸ mem
    · exact fun mem => ⟨out, isOpen, scans, mem⟩
  have inside : 59 ∈ out → 59 ∈ text := fun mem => subset_of_scans scans mem
  rw [hasStatementTerminator_iff scans, finished_iff scans, opened, outside]
  cases isOpen
  · simp only [true_and, Bool.false_eq_true, false_or]
    tauto
  · simp

/-- The prompt takes a semicolon in a string for the end of the statement. -/
theorem semicolon_in_string_terminates :
    ¬ ∀ text, hasStatementTerminator text = true ↔ Finished text := by
  intro all
  have behind : behindLiteral (str "a;b'") = some [] := rfl
  have literal : Scans (str "'a;b'") [] false := .literal behind .nil
  have scans : Scans (str "SELECT id FROM employees WHERE name = " ++ str "'a;b'")
      (str "SELECT id FROM employees WHERE name = " ++ []) false :=
    scans_append (by decide) literal
  have finished := (finished_iff scans).mp ((all _).mp (by decide))
  exact absurd finished.2 (by decide)

end FheSql.ClientPrompt
