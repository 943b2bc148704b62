import FheSql.AnalysisErrors
import FheSql.ClientSession
import FheSql.ParserTermination

/-!
# What ends a session

The read loop catches a `ParseError` and nothing else, and `executeQuery` catches what
`parse`, the `SemanticError`s of `analyze` and the network throw. Everything else ends the
program: lookups in vain during the analysis, failures of the encryptor and of the decoder.
-/

namespace FheSql.SessionEnd

open ByteText Throwing Tracing SQLParser SemanticAnalyzer AnalyzedStatement StatementPlan
open ClientPipeline QueryEncryptor ResultDecoder ClientQuery ClientSession
open AnalysisErrors (Semantic semantic)
open ParserTermination (Refusal refusal parse_refuses)

section Query

variable (P : Proto1) (cat : Catalog) (paramSetId : Str) (rng : P.Rng) (queryId : Str)
  (network : Network)

/-- The exceptions that leave `executeQuery`, by the stage that throws them. -/
inductive Uncaught (sql : Str) (e : Exn) : Prop where
  | analysis {stmt} : parse sql = .ok stmt → analyze cat stmt = .error e → ¬ Semantic e →
      Uncaught sql e
  | encryption {stmt schema plan} : parse sql = .ok stmt → analyze cat stmt = .ok schema →
      planQuery stmt schema = .ok plan →
      encrypt stmt plan cat (fheMetaOf P paramSetId) rng = .error e → Uncaught sql e
  | decoding {stmt schema plan pkg resp batches} : parse sql = .ok stmt →
      analyze cat stmt = .ok schema → planQuery stmt schema = .ok plan →
      encrypt stmt plan cat (fheMetaOf P paramSetId) rng = .ok pkg →
      network { pkg with queryId := queryId } = .ok (resp, batches) → resp.success = true →
      decodeAll P batches = .error e → Uncaught sql e

/-- The exceptions that leave the body of the read loop. -/
def EndsClient (sql : Str) (e : Exn) : Prop :=
  Uncaught P cat paramSetId rng queryId network sql e ∧ ¬ Refusal e

variable {P cat paramSetId rng queryId network} {sql : Str} {stmt : SelectStatement}
  {schema : TableSchema} {plan : PhysicalPlan}

theorem uncaught_parsed {e : Exn} (h : Uncaught P cat paramSetId rng queryId network sql e) :
    ∃ stmt, parse sql = .ok stmt := by
  cases h with
  | analysis parsed => exact ⟨_, parsed⟩
  | encryption parsed => exact ⟨_, parsed⟩
  | decoding parsed => exact ⟨_, parsed⟩

/-- Behind the network call only the decoder throws. -/
theorem showAnswer_error_iff {reply : Except Str (QueryResponse × List EncryptedResultBatch)}
    {e : Exn} : (showAnswer P stmt plan reply).outcome = .error e ↔
      ∃ resp batches, reply = .ok (resp, batches) ∧ resp.success = true ∧
        decodeAll P batches = .error e := by
  cases reply with
  | error what =>
    constructor
    · intro thrown
      cases thrown
    · rintro ⟨resp, batches, same, _⟩
      cases same
  | ok answer =>
    obtain ⟨resp, batches⟩ := answer
    unfold showAnswer
    by_cases failed : resp.success = false
    · simp only [if_pos failed]
      constructor
      · intro thrown
        cases thrown
      · rintro ⟨resp', batches', same, success, _⟩
        cases same
        cases failed.symm.trans success
    · simp only [if_neg failed, outcome_bind, outcome_ofExcept, bind_error_iff]
      constructor
      · rintro (throws | ⟨rows, _, printed⟩)
        · exact ⟨resp, batches, rfl, Bool.of_not_eq_false failed, throws⟩
        · cases printed
      · rintro ⟨_, _, same, _, throws⟩
        cases same
        exact Or.inl throws

section Accepted

variable (parsed : parse sql = .ok stmt) (accepted : analyze cat stmt = .ok schema)

include parsed accepted

/-- Once a statement is analyzed, only the encryptor and the decoder can throw. -/
theorem uncaught_accepted_iff (planned : planQuery stmt schema = .ok plan) {e : Exn} :
    Uncaught P cat paramSetId rng queryId network sql e ↔
      encrypt stmt plan cat (fheMetaOf P paramSetId) rng = .error e ∨
        ∃ pkg, encrypt stmt plan cat (fheMetaOf P paramSetId) rng = .ok pkg ∧
          ∃ resp batches, network { pkg with queryId := queryId } = .ok (resp, batches) ∧
            resp.success = true ∧ decodeAll P batches = .error e := by
  constructor
  · intro thrown
    cases thrown with
    | analysis parsed' throws =>
      cases parsed.symm.trans parsed'
      cases accepted.symm.trans throws
    | encryption parsed' accepted' planned' throws =>
      cases parsed.symm.trans parsed'
      cases accepted.symm.trans accepted'
      cases planned.symm.trans planned'
      exact Or.inl throws
    | decoding parsed' accepted' planned' sent answered success throws =>
      cases parsed.symm.trans parsed'
      cases accepted.symm.trans accepted'
      cases planned.symm.trans planned'
      exact Or.inr ⟨_, sent, _, _, answered, success, throws⟩
  · rintro (throws | ⟨pkg, sent, resp, batches, answered, success, throws⟩)
    · exact .encryption parsed accepted planned throws
    · exact .decoding parsed accepted planned sent answered success throws

theorem executeQuery_accepted (planned : planQuery stmt schema = .ok plan) :
    (executeQuery P cat paramSetId rng queryId network sql).outcome =
      encrypt stmt plan cat (fheMetaOf P paramSetId) rng >>= fun pkg =>
        (showAnswer P stmt plan (network { pkg with queryId := queryId })).outcome := by
  unfold executeQuery
  simp only [parsed, accepted, planned, outcome_bind, outcome_ofExcept, ok_bind]
  rfl

end Accepted

theorem executeQuery_error_iff (parsed : parse sql = .ok stmt) {e : Exn} :
    (executeQuery P cat paramSetId rng queryId network sql).outcome = .error e ↔
      Uncaught P cat paramSetId rng queryId network sql e := by
  cases analysis : analyze cat stmt with
  | ok schema =>
    obtain ⟨scopes, analyzed⟩ := analyze_ok_iff.mp analysis
    obtain ⟨plan, planned, _⟩ := planQuery_analyzed analyzed
    simp only [executeQuery_accepted parsed analysis planned, bind_error_iff, showAnswer_error_iff,
      uncaught_accepted_iff parsed analysis planned]
  | error thrown =>
    have own : Uncaught P cat paramSetId rng queryId network sql e ↔
        thrown = e ∧ ¬ Semantic thrown := by
      constructor
      · intro uncaught
        cases uncaught with
        | analysis parsed' throws escapes =>
          cases parsed.symm.trans parsed'
          cases analysis.symm.trans throws
          exact ⟨rfl, escapes⟩
        | encryption parsed' accepted _ _ | decoding parsed' accepted _ _ _ _ _ =>
          cases parsed.symm.trans parsed'
          cases analysis.symm.trans accepted
      · rintro ⟨rfl, escapes⟩
        exact .analysis parsed analysis escapes
    rw [own]
    unfold executeQuery
    simp only [parsed, analysis]
    cases thrown with
    | semanticError what =>
      constructor
      · intro same
        cases same
      · exact fun h => (h.2 (semantic what)).elim
    | runtimeError _ | parseError _ | validationError _ | lengthError _ | external _ | outOfBounds
    | outOfFuel =>
      constructor
      · intro same
        cases same
        refine ⟨rfl, ?_⟩
        rintro ⟨what, same⟩
        cases same
      · rintro ⟨rfl, _⟩
        rfl

end Query

/-- An exception leaves the body of the loop when the statement is parsed, its run throws
and what it throws is no `ParseError`. -/
theorem runStatement_error_iff {exec : Str → Console Unit} {sql : Str} {e : Exn} :
    (runStatement exec sql).outcome = .error e ↔
      (∃ stmt, parse sql = .ok stmt) ∧ (exec sql).outcome = .error e ∧ ¬ Refusal e := by
  unfold runStatement
  cases parsed : parse sql with
  | error thrown =>
    obtain ⟨what, rfl⟩ := parse_refuses sql thrown parsed
    constructor
    · intro same
      cases same
    · rintro ⟨⟨stmt, same⟩, _⟩
      cases same
  | ok stmt =>
    generalize exec sql = run
    obtain ⟨outcome, log⟩ := run
    cases outcome with
    | ok a =>
      constructor
      · intro same
        cases same
      · rintro ⟨_, same, _⟩
        cases same
    | error thrown =>
      by_cases refused : Refusal thrown
      · obtain ⟨what, rfl⟩ := refused
        constructor
        · intro same
          cases same
        · rintro ⟨_, same, other⟩
          cases same
          exact (other (refusal what)).elim
      · have passed : (runStatement (fun _ => ⟨.error thrown, log⟩) sql).outcome =
            .error thrown := by
          unfold runStatement
          rw [parsed]
          cases thrown with
          | parseError what => exact (refused (refusal what)).elim
          | runtimeError _ | semanticError _ | validationError _ | lengthError _ | external _
          | outOfBounds | outOfFuel => rfl
        rw [runStatement, parsed] at passed
        rw [passed]
        constructor
        · intro same
          cases same
          exact ⟨⟨stmt, rfl⟩, rfl, refused⟩
        · rintro ⟨_, same, _⟩
          exact same

theorem runAll_error_iff (exec : Nat → Str → Console Unit) (statements : List Str) (k : Nat)
    {e : Exn} : (runAll exec k statements).outcome = .error e ↔
      ∃ (i : Nat) (sql : Str), statements[i]? = some sql ∧
        (runStatement (exec (k + i)) sql).outcome = .error e ∧
        ∀ (i' : Nat) (sql' : Str), i' < i → statements[i']? = some sql' →
          ∀ e', (runStatement (exec (k + i')) sql').outcome ≠ .error e' := by
  induction statements generalizing k with
  | nil =>
    constructor
    · intro same
      cases same
    · rintro ⟨i, sql, found, _⟩
      cases found
  | cons first rest ih =>
    rw [runAll, outcome_bind, bind_error_iff]
    constructor
    · rintro (throws | ⟨_, runs, later⟩)
      · exact ⟨0, first, rfl, throws, fun i' _ below => absurd below (Nat.not_lt_zero i')⟩
      · obtain ⟨i, sql, found, throws, before⟩ := (ih (k + 1)).mp later
        refine ⟨i + 1, sql, found, ?_, fun i' sql' below found' => ?_⟩
        · rwa [show k + 1 + i = k + (i + 1) by omega] at throws
        · cases i' with
          | zero =>
            cases found'
            intro e' throws'
            cases runs.symm.trans throws'
          | succ i' =>
            have other := before i' sql' (by omega) found'
            rwa [show k + 1 + i' = k + (i' + 1) by omega] at other
    · rintro ⟨i, sql, found, throws, before⟩
      cases i with
      | zero =>
        cases found
        exact Or.inl throws
      | succ i =>
        have head := before 0 first (by omega) rfl
        cases runs : (runStatement (exec k) first).outcome with
        | error e' => exact (head e' runs).elim
        | ok _ =>
          refine Or.inr ⟨(), rfl, (ih (k + 1)).mpr ⟨i, sql, found, ?_, fun i' sql' below at' => ?_⟩⟩
          · rwa [show k + 1 + i = k + (i + 1) by omega]
          · rw [show k + 1 + i' = k + (i' + 1) by omega]
            exact before (i' + 1) sql' (by omega) at'

-- A qualified column that is misspelled in WHERE ends the session before its last statement.
example : (readLoop (fun _ => executeQuery (plainProto1 1) makeEmployeesCatalog [] () []
      fun _ => .error (str "refused")) 0 []
    [str "SELECT id FROM employees;", str "SELECT id FROM employees WHERE employees.nope = 1;",
      str "SELECT age FROM employees;"]).outcome =
    .error (.runtimeError (str "Column not found: nope")) := by decide +kernel

end FheSql.SessionEnd
