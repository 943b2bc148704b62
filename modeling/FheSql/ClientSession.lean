import FheSql.ClientPrompt
import FheSql.ClientQuery
import Mathlib.Data.List.DropRight

/-!
# The read loop of the client

`main` of `client/client_main.cpp` once its context is loaded. Lines are collected until
the scanner of `ClientPrompt` is satisfied, then the statement is run; an exception that
is no `ParseError` ends the program. Each line typed before the end takes part in exactly
one statement, and the statements run in their order.
-/

namespace FheSql.ClientSession

open ByteText Throwing Tracing SQLParser ClientPrompt ClientQuery

/-- The prompts, and what the queries do. -/
inductive SessionEvent where
  | prompted (text : Str)
  | query (event : Event)
  deriving DecidableEq, Repr

abbrev Terminal := Traced SessionEvent Exn

def prompt (sql : Str) : Terminal Unit :=
  Traced.ask [.prompted (if sql = [] then str "SQL> " else str "  -> ")] (.ok ())

def lift {α : Type} (x : Console α) : Terminal α := ⟨x.outcome, x.log.map .query⟩

def goodbye : Console Unit := print (str "\nGoodbye.\n")

/-- `while (!line.empty() && isspace(line.back())) line.pop_back();` -/
def trimEnd (line : Str) : Str := line.rdropWhile isSpace

/-- The body of the `try` with its `catch`: the statement is parsed before it is run. -/
def runStatement (exec : Str → Console Unit) (sql : Str) : Console Unit :=
  tryCatch
    (do
      discard (MonadExcept.ofExcept (parse sql) : Console SelectStatement)
      exec sql)
    fun
      | .parseError what => print (errorLine what)
      | e => throw e

/-- The loop over the lines of the input, with the statement typed so far. `exec k` is
`executeQuery` for the `k`-th statement. -/
def readLoop (exec : Nat → Str → Console Unit) (k : Nat) (sql : Str) : List Str → Terminal Unit
  | [] => do
    prompt sql
    lift goodbye
  | line :: lines => do
    prompt sql
    if trimEnd line = str "exit" ∨ trimEnd line = str "quit" then lift goodbye
    else if trimEnd line = [] then readLoop exec k sql lines
    else
      let sql := sql ++ (if sql = [] then [] else str " ") ++ trimEnd line
      if !hasStatementTerminator sql then readLoop exec k sql lines
      else do
        lift (runStatement (exec k) sql)
        readLoop exec (k + 1) [] lines

/-- The lines that belong to statements. -/
def kept : List Str → List Str
  | [] => []
  | line :: lines =>
    if trimEnd line = str "exit" ∨ trimEnd line = str "quit" then []
    else if trimEnd line = [] then kept lines
    else trimEnd line :: kept lines

/-- The statement some lines add up to. -/
def joined (lines : List Str) : Str := (str " ").intercalate lines

/-- None of the statements along the way is at its end. -/
def Unfinished (lines : List Str) : Prop :=
  ∀ part, part <+: lines → hasStatementTerminator (joined part) = false

/-- Lines that add up to a statement with the last one. -/
structure Complete (lines : List Str) : Prop where
  ends : hasStatementTerminator (joined lines) = true
  first : ∀ part, part <+: lines → part ≠ lines → hasStatementTerminator (joined part) = false

/-- Statements run in their order, up to the first that throws. -/
def runAll (exec : Nat → Str → Console Unit) : Nat → List Str → Console Unit
  | _, [] => goodbye
  | k, sql :: rest => do
    runStatement (exec k) sql
    runAll exec (k + 1) rest

/-- What is left of a session without its prompts. -/
def queries {α : Type} (x : Terminal α) : Console α where
  outcome := x.outcome
  log := x.log.filterMap fun
    | .prompted _ => none
    | .query event => some event

theorem queries_bind {α β : Type} (x : Terminal α) (f : α → Terminal β) :
    queries (x >>= f) = queries x >>= fun a => queries (f a) := by
  obtain ⟨outcome, log⟩ := x
  cases outcome with
  | error e => rfl
  | ok a =>
    rw [bind_ok (a := a) rfl, bind_ok (a := a) rfl]
    exact congrArg (Traced.mk _) List.filterMap_append

theorem queries_lift {α : Type} (x : Console α) : queries (lift x) = x := by
  obtain ⟨outcome, log⟩ := x
  simp only [queries, lift, List.filterMap_map]
  exact congrArg (Traced.mk outcome) (List.filterMap_some)

theorem queries_prompt {α : Type} (sql : Str) (x : Terminal α) :
    queries (prompt sql >>= fun _ => x) = queries x := rfl

theorem intercalate_concat (separator : Str) (lines : List Str) (line : Str) :
    separator.intercalate (lines ++ [line]) =
      separator.intercalate lines ++ (if lines = [] then [] else separator) ++ line := by
  induction lines with
  | nil => simp [List.intercalate_singleton]
  | cons first lines ih =>
    cases lines with
    | nil => simp [List.intercalate_cons_cons, List.intercalate_singleton]
    | cons second lines =>
      rw [List.cons_append, List.cons_append, List.intercalate_cons_cons,
        List.intercalate_cons_cons, ← List.cons_append, ih]
      simp

/-- The buffer is empty just at the start of a statement. -/
theorem joined_eq_nil {lines : List Str} (some : ∀ line ∈ lines, line ≠ []) :
    joined lines = [] ↔ lines = [] := by
  constructor
  · intro empty
    cases lines with
    | nil => rfl
    | cons line lines =>
      cases lines with
      | nil =>
        rw [joined, List.intercalate_singleton] at empty
        exact (some line List.mem_cons_self empty).elim
      | cons next lines =>
        rw [joined, List.intercalate_cons_cons] at empty
        have front := (List.append_eq_nil_iff.mp empty).1
        exact (some line List.mem_cons_self (List.append_eq_nil_iff.mp front).1).elim
  · rintro rfl
    rfl

theorem joined_concat {lines : List Str} (some : ∀ line ∈ lines, line ≠ []) (line : Str) :
    joined lines ++ (if joined lines = [] then [] else str " ") ++ line =
      joined (lines ++ [line]) := by
  by_cases empty : lines = []
  · rw [if_pos ((joined_eq_nil some).mpr empty), joined, joined, intercalate_concat, if_pos empty]
  · rw [if_neg fun none => empty ((joined_eq_nil some).mp none), joined, joined,
      intercalate_concat, if_neg empty]

theorem none_typed : ∀ line ∈ ([] : List Str), line ≠ [] := fun _ mem =>
  (List.not_mem_nil mem).elim

theorem unfinished_nil : Unfinished [] := by
  intro part inside
  rw [List.prefix_nil.mp inside]
  decide

section Grouping

variable {lines : List Str} (unfinished : Unfinished lines)

include unfinished

theorem unfinished_concat {line : Str}
    (goes : hasStatementTerminator (joined (lines ++ [line])) = false) :
    Unfinished (lines ++ [line]) := by
  intro part inside
  rcases List.prefix_concat_iff.mp inside with rfl | inner
  · exact goes
  · exact unfinished part inner

theorem complete_concat {line : Str}
    (ends : hasStatementTerminator (joined (lines ++ [line])) = true) :
    Complete (lines ++ [line]) := by
  refine ⟨ends, fun part inside proper => ?_⟩
  exact unfinished part ((List.prefix_concat_iff.mp inside).resolve_left proper)

end Grouping

/-- The rest of a session, from the middle of a statement on. -/
theorem readLoop_groups (exec : Nat → Str → Console Unit) (input : List Str) (k : Nat)
    {typed : List Str} (some : ∀ line ∈ typed, line ≠ []) (unfinished : Unfinished typed) :
    ∃ (groups : List (List Str)) (rest : List Str), typed ++ kept input = groups.flatten ++ rest ∧
      (∀ group ∈ groups, Complete group) ∧ Unfinished rest ∧
      queries (readLoop exec k (joined typed) input) = runAll exec k (groups.map joined) := by
  induction input generalizing k typed with
  | nil =>
    refine ⟨[], typed, List.append_nil typed, nofun, unfinished, ?_⟩
    rw [readLoop, queries_prompt, queries_lift]
    rfl
  | cons line input ih =>
    rw [readLoop, queries_prompt, kept]
    by_cases leaves : trimEnd line = str "exit" ∨ trimEnd line = str "quit"
    · rw [if_pos leaves, if_pos leaves]
      refine ⟨[], typed, List.append_nil typed, nofun, unfinished, ?_⟩
      rw [queries_lift]
      rfl
    · rw [if_neg leaves, if_neg leaves]
      by_cases empty : trimEnd line = []
      · rw [if_pos empty, if_pos empty]
        exact ih k some unfinished
      · rw [if_neg empty, if_neg empty]
        have grown := joined_concat some (trimEnd line)
        have some' : ∀ l ∈ typed ++ [trimEnd line], l ≠ [] := by
          intro l mem
          rcases List.mem_append.mp mem with mem | mem
          · exact some l mem
          · rwa [List.mem_singleton.mp mem]
        rw [List.append_cons]
        simp only [grown]
        cases ends : hasStatementTerminator (joined (typed ++ [trimEnd line])) with
        | false =>
          obtain ⟨groups, rest, split, complete, left, runs⟩ :=
            ih k some' (unfinished_concat unfinished ends)
          exact ⟨groups, rest, split, complete, left, runs⟩
        | true =>
          obtain ⟨groups, rest, split, complete, left, runs⟩ := ih (k + 1) none_typed unfinished_nil
          refine ⟨(typed ++ [trimEnd line]) :: groups, rest, ?_, ?_, left, ?_⟩
          · rw [List.flatten_cons, List.append_assoc _ groups.flatten, ← split, List.nil_append]
          · intro group mem
            rcases List.mem_cons.mp mem with rfl | mem
            · exact complete_concat unfinished ends
            · exact complete group mem
          · simp only [Bool.not_true, Bool.false_eq_true, if_false]
            rw [queries_bind, queries_lift, List.map_cons, runAll, ← runs]
            rfl

/-- The statements of an input, and what is left unfinished at its end. -/
structure Splits (input : List Str) (groups : List (List Str)) (rest : List Str) : Prop where
  lines : kept input = groups.flatten ++ rest
  complete : ∀ group ∈ groups, Complete group
  unfinished : Unfinished rest

/-- Of two complete beginnings of the same lines none is longer. -/
theorem complete_unique {group group' lines : List Str} (complete : Complete group)
    (complete' : Complete group') (h : group <+: lines) (h' : group' <+: lines) :
    group = group' := by
  rcases List.prefix_or_prefix_of_prefix h h' with inner | inner
  · by_contra proper
    cases (complete'.first group inner proper).symm.trans complete.ends
  · by_contra proper
    cases (complete.first group' inner (Ne.symm proper)).symm.trans complete'.ends

theorem unfinished_excludes {group rest lines : List Str} (complete : Complete group)
    (unfinished : Unfinished rest) (same : rest = group ++ lines) : False := by
  have open' := unfinished group (same ▸ List.prefix_append _ _)
  cases open'.symm.trans complete.ends

/-- Lines fall into statements in one way. -/
theorem groups_unique {groups groups' : List (List Str)} {rest rest' : List Str}
    (complete : ∀ group ∈ groups, Complete group) (complete' : ∀ group ∈ groups', Complete group)
    (unfinished : Unfinished rest) (unfinished' : Unfinished rest')
    (same : groups.flatten ++ rest = groups'.flatten ++ rest') :
    groups = groups' ∧ rest = rest' := by
  induction groups generalizing groups' with
  | nil =>
    cases groups' with
    | nil => exact ⟨rfl, same⟩
    | cons group' groups' =>
      rw [List.flatten_cons, List.append_assoc] at same
      exact (unfinished_excludes (complete' group' List.mem_cons_self) unfinished same).elim
  | cons group groups ih =>
    have head := complete group List.mem_cons_self
    cases groups' with
    | nil =>
      rw [List.flatten_cons, List.append_assoc] at same
      exact (unfinished_excludes head unfinished' same.symm).elim
    | cons group' groups' =>
      rw [List.flatten_cons, List.flatten_cons, List.append_assoc, List.append_assoc] at same
      have second : group' <+: group ++ (groups.flatten ++ rest) := same ▸ List.prefix_append _ _
      obtain rfl := complete_unique head (complete' group' List.mem_cons_self)
        (List.prefix_append _ _) second
      obtain ⟨rfl, rfl⟩ := ih (fun g mem => complete g (List.mem_cons_of_mem _ mem))
        (fun g mem => complete' g (List.mem_cons_of_mem _ mem)) (List.append_cancel_left same)
      exact ⟨rfl, rfl⟩

theorem splits_unique {input : List Str} {groups groups' : List (List Str)} {rest rest' : List Str}
    (h : Splits input groups rest) (h' : Splits input groups' rest') :
    groups = groups' ∧ rest = rest' :=
  groups_unique h.complete h'.complete h.unfinished h'.unfinished (h.lines.symm.trans h'.lines)

theorem readLoop_runs (exec : Nat → Str → Console Unit) (input : List Str) :
    ∃ (groups : List (List Str)) (rest : List Str), Splits input groups rest ∧
      queries (readLoop exec 0 [] input) = runAll exec 0 (groups.map joined) := by
  obtain ⟨groups, rest, lines, complete, unfinished, runs⟩ :=
    readLoop_groups exec input 0 none_typed unfinished_nil
  exact ⟨groups, rest, ⟨lines, complete, unfinished⟩, runs⟩

/-- Whatever is typed, the lines up to the end fall into statements in just one way, and
each statement is run, its lines joined by blanks, as soon as the scanner takes it for
complete and not before. They run in the order they are typed, and what stays unfinished
at the end is not run. -/
theorem lines_run_in_order (exec : Nat → Str → Console Unit) (input : List Str) :
    ∃ (groups : List (List Str)) (rest : List Str), Splits input groups rest ∧
      (∀ groups' rest', Splits input groups' rest' → groups' = groups ∧ rest' = rest) ∧
      queries (readLoop exec 0 [] input) = runAll exec 0 (groups.map joined) := by
  obtain ⟨groups, rest, splits, runs⟩ := readLoop_runs exec input
  exact ⟨groups, rest, splits, fun _ _ other => splits_unique other splits, runs⟩

open SemanticAnalyzer ClientPipeline QueryEncryptor PipelineAcceptance SqlSemantics
open ScanCorrectness PrintedRows ServerHandler QueryService

section Sessions

variable {P : Proto1} (sem : SlotSemantics P)
  (storage : EncryptedStorage (Except Exn) P.EncryptedVector) (cat : Catalog)

/-- A supported query over a stored table, with the lines it is typed in. -/
structure TypedQuery where
  lines : List Str
  stmt : SelectStatement
  schema : TableSchema
  chunks : List (List Row)
  complete : Complete lines
  parsed : parse (joined lines) = .ok stmt
  accepted : analyze cat stmt = .ok schema
  table : PlainTable schema
  carried : Carried schema
  stores : Stores sem storage stmt.tableName schema chunks
  supported : SupportedQuery stmt schema
  distinct : stmt.projections.Nodup

variable {sem storage cat}

/-- The table of the rows it selects. -/
def TypedQuery.answer (q : TypedQuery sem storage cat) : Str :=
  str "\n" ++ tableOf (requested q.stmt q.schema) (select q.stmt q.chunks.flatten)

/-- Its package can be framed. -/
def TypedQuery.Short (q : TypedQuery sem storage cat) (paramSetId : Str) (rng : P.Rng)
    (queryId : Str) : Prop :=
  ∀ plan encrypted, planQuery q.stmt q.schema = .ok plan →
    encrypt q.stmt plan cat (fheMetaOf P paramSetId) rng = .ok encrypted →
    { encrypted with queryId := queryId : QueryPackage }.serialize.length < 2 ^ 32

/-- What the client does for it. -/
def TypedQuery.Runs (q : TypedQuery sem storage cat) (queryId : Str) (part : List Event) : Prop :=
  ∃ plan pkg, pkg.queryId = queryId ∧
    part = [.shown (banner plan pkg), .sent pkg, .shown q.answer]

theorem runStatement_ok {exec : Str → Console Unit} {sql : Str} {stmt : SelectStatement}
    {log : List Event} (parsed : parse sql = .ok stmt) (runs : exec sql = ⟨.ok (), log⟩) :
    runStatement exec sql = ⟨.ok (), log⟩ := by
  unfold runStatement
  rw [parsed, runs]
  rfl

theorem runAll_answers (works : EncryptsScalars P) (paramSetId : Str) (rng : Nat → P.Rng)
    (ids : Nat → Str) (qs : List (TypedQuery sem storage cat)) (k : Nat)
    (short : ∀ (j : Nat) q, qs[j]? = some q → q.Short paramSetId (rng (k + j)) (ids (k + j))) :
    ∃ bound, ∀ fuel, bound ≤ fuel → ∀ network : Nat → Network,
      (∀ n pkg, network n pkg =
        .ok (answerOf (queryHandler P storage cat paramSetId fuel) pkg)) →
      ∃ parts, runAll (fun n => executeQuery P cat paramSetId (rng n) (ids n) (network n)) k
          (qs.map fun q => joined q.lines) =
          ⟨.ok (), parts.flatten ++ [.shown (str "\nGoodbye.\n")]⟩ ∧
        List.Forall₂ (fun x part => TypedQuery.Runs x.1 (ids x.2) part) (qs.zipIdx k) parts := by
  induction qs generalizing k with
  | nil => exact ⟨0, fun _ _ _ _ => ⟨[], rfl, .nil⟩⟩
  | cons q qs ih =>
    obtain ⟨plan, encrypted, bound, planned, sent, shows⟩ := supported_shown sem works q.accepted
      q.table q.carried q.stores q.supported q.distinct paramSetId (rng k)
    have fits := short 0 q rfl plan encrypted planned sent
    obtain ⟨bound', rest⟩ := ih (k + 1) fun j q here => by
      have moved := short (j + 1) q here
      rwa [show k + (j + 1) = k + 1 + j by omega] at moved
    refine ⟨max bound bound', fun fuel enough network answers => ?_⟩
    obtain ⟨parts, runs, all⟩ := rest fuel (by omega) network answers
    have sends := executeQuery_sends q.parsed q.accepted planned sent (ids k) (network k)
    rw [answers, shows fuel (by omega) (ids k) _ rfl fits] at sends
    have first := runStatement_ok q.parsed sends
    refine ⟨[_, _, _] :: parts, ?_, .cons ⟨plan, { encrypted with queryId := ids k }, rfl, rfl⟩ all⟩
    rw [List.map_cons, runAll, first, runs]
    rfl

/-- A session of supported queries over a network that answers: each query in its turn leaves
the banner, the package and the table of the rows it selects. -/
theorem session_shows_answers (works : EncryptsScalars P) (paramSetId : Str) (rng : Nat → P.Rng)
    (ids : Nat → Str) (qs : List (TypedQuery sem storage cat))
    (short : ∀ (k : Nat) q, qs[k]? = some q → q.Short paramSetId (rng k) (ids k)) :
    ∃ bound, ∀ fuel, bound ≤ fuel → ∀ network : Nat → Network,
      (∀ n pkg, network n pkg =
        .ok (answerOf (queryHandler P storage cat paramSetId fuel) pkg)) →
      ∀ input rest, Splits input (qs.map (·.lines)) rest → ∃ parts,
        queries (readLoop (fun n => executeQuery P cat paramSetId (rng n) (ids n) (network n)) 0 []
            input) = ⟨.ok (), parts.flatten ++ [.shown (str "\nGoodbye.\n")]⟩ ∧
          List.Forall₂ (fun x part => TypedQuery.Runs x.1 (ids x.2) part) qs.zipIdx parts := by
  obtain ⟨bound, answers⟩ := runAll_answers works paramSetId rng ids qs 0 fun j q here => by
    rw [Nat.zero_add]
    exact short j q here
  refine ⟨bound, fun fuel enough network returns input rest splits => ?_⟩
  obtain ⟨parts, runs, all⟩ := answers fuel enough network returns
  obtain ⟨groups, rest', splits', session⟩ := readLoop_runs
    (fun n => executeQuery P cat paramSetId (rng n) (ids n) (network n)) input
  obtain ⟨rfl, rfl⟩ := splits_unique splits splits'
  rw [List.map_map] at session
  exact ⟨parts, session.trans runs, all⟩

end Sessions

open PlainProto1

def typedLines : List Str :=
  [str "SELECT name FROM people  ", str "", str "ORDER BY age DESC LIMIT 1;", str "quit",
    str "SELECT age FROM people;"]

def typedQuery : List Str := [str "SELECT name FROM people", str "ORDER BY age DESC LIMIT 1;"]

theorem typedQuery_complete : Complete typedQuery := by
  have first : Unfinished [str "SELECT name FROM people"] :=
    unfinished_concat unfinished_nil (by decide +kernel)
  exact complete_concat first (by decide +kernel)

def oldestTyped : TypedQuery (plainSlotSemantics 2) peopleStorage peopleCatalog where
  lines := typedQuery
  stmt := oldest
  schema := people
  chunks := [persons]
  complete := typedQuery_complete
  parsed := by decide +kernel
  accepted := rfl
  table := people_plain
  carried := people_carried
  stores := people_stored
  supported := oldest_supported
  distinct := by decide

/-- The blank line is passed over, and what follows `quit` is not read. -/
theorem typed_split : Splits typedLines [typedQuery] [] where
  lines := by decide +kernel
  complete := fun group mem => List.mem_singleton.mp mem ▸ typedQuery_complete
  unfinished := unfinished_nil

theorem oldest_session : ∃ fuel part,
    queries (readLoop (fun _ => executeQuery (plainProto1 2) peopleCatalog (str "p") () (str "q1")
      fun pkg => .ok (answerOf (oldestHandler fuel) pkg)) 0 [] typedLines) =
        ⟨.ok (), part ++ [.shown (str "\nGoodbye.\n")]⟩ ∧ oldestTyped.Runs (str "q1") part := by
  obtain ⟨bound, session⟩ := session_shows_answers (plain_encryptsScalars 2) (str "p")
    (fun _ => ()) (fun _ => str "q1") [oldestTyped] (by
      rintro k q here plan encrypted planned sent
      obtain rfl := List.mem_singleton.mp (List.mem_of_getElem? here)
      cases planned
      cases sent
      exact (oldest_deliverable 0).small)
  obtain ⟨parts, runs, all⟩ := session bound (le_refl _)
    (fun _ pkg => .ok (answerOf (oldestHandler bound) pkg)) (fun _ _ => rfl) typedLines []
    typed_split
  cases all with
  | cons head tail =>
    cases tail
    refine ⟨bound, _, ?_, head⟩
    rw [runs, List.flatten_cons, List.flatten_nil, List.append_nil]

end FheSql.ClientSession
