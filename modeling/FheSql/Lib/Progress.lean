import FheSql.Lib.Connection

/-!
# Calls that do not fail

While a connection stands and neither end has closed it, a receive brings bytes and
a send is accepted. `Reaches` is a run of such calls up to any point of a program.
What a program has taken and sent by then can be continued in any way, so a reader
that has all it needs is not waiting, and the end that closes first has met no failure.
-/

namespace ByteStream

open BinaryCodec BinaryCodec.Codec Relation

variable {ε α δ β : Type}

/-- The next call is a receive. -/
inductive Waits : Program ε α → Prop where
  | recv {n asks next} : Waits (.recv n asks next)

/-- The next call is a send. -/
inductive Writes : Program ε α → Prop where
  | send {bytes holds next} : Writes (.send bytes holds next)

theorem not_ended_of_waits {p : Program ε α} (waits : Waits p) : ¬ p.result?.isSome = true := by
  cases waits
  exact Bool.false_ne_true

theorem not_ended_of_writes {p : Program ε α} (writes : Writes p) :
    ¬ p.result?.isSome = true := by
  cases writes
  exact Bool.false_ne_true

theorem not_waits_of_writes {p : Program ε α} (writes : Writes p) : ¬ Waits p := by
  rintro ⟨⟩
  cases writes

/-- A program that has not ended makes a call. -/
theorem ended_or_calls (p : Program ε α) : p.result?.isSome = true ∨ Waits p ∨ Writes p := by
  cases p with
  | done a => exact Or.inl rfl
  | fail e => exact Or.inl rfl
  | recv n asks next => exact Or.inr (Or.inl .recv)
  | send bytes holds next => exact Or.inr (Or.inr .send)

/-- With calls that succeed, a program takes `i`, sends `o` and goes on as another. -/
inductive Reaches : Program ε α → Bytes → Bytes → Program ε α → Prop where
  | here {p} : Reaches p [] [] p
  | recv {n asks next bytes i o q} : bytes ≠ [] → bytes.length ≤ n →
      Reaches (next bytes) i o q → Reaches (.recv n asks next) (bytes ++ i) o q
  | send {bytes holds next sent i o q} : 0 < sent → sent ≤ bytes.length →
      Reaches (next sent) i o q → Reaches (.send bytes holds next) i (bytes.take sent ++ o) q

section Runs

variable {p q : Program ε α} {i o i' o' left : Bytes} {breaks : Prop} {r : Except ε α}

theorem Reaches.trans {s : Program ε α} (h : Reaches p i o q) (h' : Reaches q i' o' s) :
    Reaches p (i ++ i') (o ++ o') s := by
  induction h with
  | here => exact h'
  | recv nonempty short _ ih =>
    rw [List.append_assoc]
    exact .recv nonempty short (ih h')
  | send positive short _ ih =>
    rw [List.append_assoc]
    exact .send positive short (ih h')

/-- Whatever comes after the calls, the whole is a run. -/
theorem Reaches.runs (h : Reaches p i o q) (run : Runs breaks q i' o' left r) :
    Runs breaks p (i ++ i') (o ++ o') left r := by
  induction h with
  | here => exact run
  | recv nonempty short _ ih =>
    rw [List.append_assoc]
    exact .recv nonempty short (ih run)
  | send positive short _ ih =>
    rw [List.append_assoc]
    exact .send positive short (ih run)

/-- Nothing is left of nothing. -/
theorem left_of_nothing (run : Runs breaks p i o left r) (nothing : i = []) : left = [] := by
  induction run with
  | done => exact nothing
  | fail => exact nothing
  | recv nonempty _ _ _ =>
    rw [List.append_eq_nil_iff] at nothing
    exact (nonempty nothing.1).elim
  | closed _ ih => exact ih rfl
  | send _ _ _ ih => exact ih nothing
  | broken _ _ ih => exact ih nothing

/-- A program that waits takes one more byte and leaves nothing of it. -/
theorem exists_runs_of_waits (waits : Waits q) (b : UInt8) :
    ∃ o r, Runs True q [b] o [] r := by
  cases waits with
  | @recv n asks next =>
    obtain ⟨o, left, r, run⟩ := exists_runs (next [b]) True []
    obtain rfl := left_of_nothing run rfl
    exact ⟨o, r, .recv (List.cons_ne_nil b []) asks run⟩

/-- What a program gives back depends on nothing that it has not read. -/
theorem Reaches.ended (h : Reaches p i o q) (ended : q.result? = some r) (rest : Bytes) :
    Runs breaks p (i ++ rest) o rest r := by
  have run := h.runs (runs_ended ended breaks rest)
  rwa [List.append_nil] at run

theorem Emits.not_waiting {bytes : Bytes} {a : α} (emits : Emits p bytes a)
    (h : Reaches p i o q) : ¬ Waits q := by
  intro waits
  obtain ⟨o', r, run⟩ := exists_runs_of_waits waits 0
  obtain ⟨none, _⟩ := emits _ _ _ _ _ (h.runs run)
  exact List.append_ne_nil_of_right_ne_nil i (List.cons_ne_nil 0 []) none.symm

theorem Reads.silent {get : Reader α} (reads : Reads p get) (h : Reaches p i o q) : o = [] := by
  obtain ⟨o', left, r, run⟩ := exists_runs q True []
  have none := (reads _ _ _ _ _ (h.runs run)).1
  exact (List.append_eq_nil_iff.mp none).1

/-- A reader that has what it reads asks for nothing more. -/
theorem Reads.not_waiting {get : Reader α} {a : α} {rest : Bytes} (reads : Reads p get)
    (takes : Local get) (h : Reaches p i o q) (found : get i = some (a, rest)) : ¬ Waits q := by
  intro waits
  obtain ⟨o', r, run⟩ := exists_runs_of_waits waits 0
  obtain ⟨used, rfl, again⟩ := takes i a rest found
  have more := again (rest ++ [0])
  rw [← List.append_assoc] at more
  obtain ⟨_, ⟨a', found', _⟩ | ⟨none, _⟩⟩ := reads _ _ _ _ _ (h.runs run)
  · rw [more] at found'
    have left := congrArg Prod.snd (Option.some.inj found')
    exact List.append_ne_nil_of_right_ne_nil rest (List.cons_ne_nil 0 []) left
  · rw [more] at none
    cases none

/-- A sending program ends when all is sent. -/
theorem Emits.reaches_end {bytes : Bytes} {a : α} (emits : Emits p bytes a)
    (h : Reaches p i o q) (ended : q.result? = some r) : i = [] ∧ o = bytes ∧ r = .ok a := by
  obtain ⟨none, ⟨ok, whole⟩ | ⟨no, _⟩⟩ := emits False _ _ _ _ (h.ended ended [])
  · exact ⟨(List.append_eq_nil_iff.mp none.symm).1, whole, ok⟩
  · exact no.elim

/-- A reader ends when it has all of what it reads. -/
theorem Reads.reaches_end {get : Reader α} {a : α} {rest : Bytes} (reads : Reads p get)
    (h : Reaches p i o q) (ended : q.result? = some r) (whole : get (i ++ rest) = some (a, [])) :
    rest = [] ∧ r = .ok a := by
  obtain ⟨_, ⟨a', found, ok⟩ | ⟨none, _⟩⟩ := reads True _ _ _ _ (h.ended ended rest)
  · rw [whole] at found
    cases found
    exact ⟨rfl, ok⟩
  · rw [whole] at none
    cases none

theorem ended_of_bind {x : Program ε α} {f : α → Program ε β} {r : Except ε β}
    (h : (x >>= f).result? = some r) (going : ∀ a, x ≠ .done a) :
    ∃ e, x = .fail e ∧ r = .error e := by
  cases x with
  | done a => exact (going a rfl).elim
  | fail e =>
    cases h
    exact ⟨e, rfl, rfl⟩
  | recv n asks next => cases h
  | send bytes holds next => cases h

theorem ended_of_handle {x : Program ε α} {f : ε → Program ε α}
    (h : (x.handle f).result? = some r) (going : ∀ e, x ≠ .fail e) :
    ∃ a, x = .done a ∧ r = .ok a := by
  cases x with
  | done a =>
    cases h
    exact ⟨a, rfl, rfl⟩
  | fail e => exact (going e rfl).elim
  | recv n asks next => cases h
  | send bytes holds next => cases h

theorem waits_of_bind {x : Program ε α} {f : α → Program ε β} (h : Waits (x >>= f))
    (going : ∀ a, x ≠ .done a) : Waits x := by
  cases x with
  | done a => exact (going a rfl).elim
  | fail e => cases h
  | recv n asks next => exact .recv
  | send bytes holds next => cases h

theorem waits_of_handle {x : Program ε α} {f : ε → Program ε α} (h : Waits (x.handle f))
    (going : ∀ e, x ≠ .fail e) : Waits x := by
  cases x with
  | done a => cases h
  | fail e => exact (going e rfl).elim
  | recv n asks next => exact .recv
  | send bytes holds next => cases h

/-- The calls of a sequence are calls of its first program, or all of that and calls of
the second. -/
theorem reaches_bind {x : Program ε α} {f : α → Program ε β} {q : Program ε β}
    (h : Reaches (x >>= f) i o q) :
    (∃ x', Reaches x i o x' ∧ (∀ a, x' ≠ .done a) ∧ q = x' >>= f) ∨
      ∃ a i₁ o₁ i₂ o₂, Reaches x i₁ o₁ (.done a) ∧ Reaches (f a) i₂ o₂ q ∧
        i = i₁ ++ i₂ ∧ o = o₁ ++ o₂ := by
  induction x generalizing i o with
  | done a => exact Or.inr ⟨a, [], [], i, o, .here, h, rfl, rfl⟩
  | fail e =>
    cases h
    exact Or.inl ⟨.fail e, .here, nofun, rfl⟩
  | recv n asks next ih =>
    cases h with
    | here => exact Or.inl ⟨.recv n asks next, .here, nofun, rfl⟩
    | recv nonempty short h =>
      rcases ih _ h with ⟨x', first, going, rfl⟩ | ⟨a, i₁, o₁, i₂, o₂, first, second, rfl, rfl⟩
      · exact Or.inl ⟨x', .recv nonempty short first, going, rfl⟩
      · exact Or.inr ⟨a, _, o₁, i₂, o₂, .recv nonempty short first, second,
          (List.append_assoc _ _ _).symm, rfl⟩
  | send bytes holds next ih =>
    cases h with
    | here => exact Or.inl ⟨.send bytes holds next, .here, nofun, rfl⟩
    | send positive short h =>
      rcases ih _ h with ⟨x', first, going, rfl⟩ | ⟨a, i₁, o₁, i₂, o₂, first, second, rfl, rfl⟩
      · exact Or.inl ⟨x', .send positive short first, going, rfl⟩
      · exact Or.inr ⟨a, i₁, _, i₂, o₂, .send positive short first, second, rfl,
          (List.append_assoc _ _ _).symm⟩

theorem reaches_handle {x : Program ε α} {f : ε → Program ε α} {q : Program ε α}
    (h : Reaches (tryCatch x f) i o q) :
    (∃ x', Reaches x i o x' ∧ (∀ e, x' ≠ .fail e) ∧ q = x'.handle f) ∨
      ∃ e i₁ o₁ i₂ o₂, Reaches x i₁ o₁ (.fail e) ∧ Reaches (f e) i₂ o₂ q ∧
        i = i₁ ++ i₂ ∧ o = o₁ ++ o₂ := by
  change Reaches (x.handle f) i o q at h
  induction x generalizing i o with
  | done a =>
    cases h
    exact Or.inl ⟨.done a, .here, nofun, rfl⟩
  | fail e => exact Or.inr ⟨e, [], [], i, o, .here, h, rfl, rfl⟩
  | recv n asks next ih =>
    cases h with
    | here => exact Or.inl ⟨.recv n asks next, .here, nofun, rfl⟩
    | recv nonempty short h =>
      rcases ih _ h with ⟨x', first, going, rfl⟩ | ⟨e, i₁, o₁, i₂, o₂, first, second, rfl, rfl⟩
      · exact Or.inl ⟨x', .recv nonempty short first, going, rfl⟩
      · exact Or.inr ⟨e, _, o₁, i₂, o₂, .recv nonempty short first, second,
          (List.append_assoc _ _ _).symm, rfl⟩
  | send bytes holds next ih =>
    cases h with
    | here => exact Or.inl ⟨.send bytes holds next, .here, nofun, rfl⟩
    | send positive short h =>
      rcases ih _ h with ⟨x', first, going, rfl⟩ | ⟨e, i₁, o₁, i₂, o₂, first, second, rfl, rfl⟩
      · exact Or.inl ⟨x', .send positive short first, going, rfl⟩
      · exact Or.inr ⟨e, i₁, _, i₂, o₂, .send positive short first, second, rfl,
          (List.append_assoc _ _ _).symm⟩

end Runs

section Moves

variable {p p' : Program ε α} {inp inp' out out' : Wire} {gone gone' : Prop} {broken : Bool}

theorem Move.mono (may : gone → gone') (move : Move gone broken p inp out p' inp' out') :
    Move gone' broken p inp out p' inp' out' := by
  cases move with
  | recv nonempty short => exact .recv nonempty short
  | closed finished => exact .closed (finished.imp_left may)
  | send unbroken positive short => exact .send unbroken positive short
  | lost broken positive short => exact .lost broken positive short
  | refused finished => exact .refused (finished.imp_left may)

theorem not_ended_of_move (move : Move gone broken p inp out p' inp' out') :
    ¬ p.result?.isSome = true := by
  intro ended
  cases move <;> cases ended

/-- A program takes from one wire and puts into the other, no more. -/
theorem wires_of_move (move : Move gone broken p inp out p' inp' out') :
    inp'.arrived = inp.arrived ∧ out'.taken = out.taken := by
  cases move with
  | recv => exact ⟨List.append_assoc _ _ _, rfl⟩
  | closed => exact ⟨rfl, rfl⟩
  | send => exact ⟨rfl, rfl⟩
  | lost => exact ⟨rfl, rfl⟩
  | refused => exact ⟨rfl, rfl⟩

/-- A call on a connection that stands on both sides does not fail. -/
theorem reaches_of_move (move : Move gone broken p inp out p' inp' out') (stays : ¬ gone)
    (unbroken : broken = false) : ∃ i o, Reaches p i o p' ∧
      inp'.taken = inp.taken ++ i ∧ out'.arrived = out.arrived ++ o := by
  have neither : ¬ (gone ∨ broken = true) := by
    rintro (left | down)
    · exact stays left
    · cases unbroken.symm.trans down
  cases move with
  | @recv _ _ _ _ bytes _ _ nonempty short =>
    refine ⟨bytes ++ [], [], .recv nonempty short .here, ?_, (List.append_nil _).symm⟩
    rw [List.append_nil]
  | closed finished => exact (neither finished).elim
  | @send bytes _ _ sent _ t f _ positive short =>
    refine ⟨[], bytes.take sent ++ [], .send positive short .here, (List.append_nil _).symm, ?_⟩
    rw [List.append_nil]
    exact (List.append_assoc _ _ _).symm
  | lost down => exact (neither (Or.inr down)).elim
  | refused finished => exact (neither finished).elim

/-- While both sides stand, a program that waits does not move before bytes are on their way. -/
theorem no_move_of_idle (waits : Waits p) (idle : inp.flight = []) (stays : ¬ gone)
    (unbroken : broken = false) : ¬ Move gone broken p inp out p' inp' out' := by
  intro move
  have neither : ¬ (gone ∨ broken = true) := by
    rintro (left | down)
    · exact stays left
    · cases unbroken.symm.trans down
  cases move with
  | recv nonempty => exact nonempty (List.append_eq_nil_iff.mp idle).1
  | closed finished => exact neither finished
  | send => cases waits
  | lost => cases waits
  | refused => cases waits

/-- Whoever does not wait for bytes can move. -/
theorem exists_move_of_writes (writes : Writes p) (gone : Prop) (broken : Bool)
    (inp out : Wire) : ∃ p' out', Move gone broken p inp out p' inp out' := by
  cases writes with
  | @send bytes holds next =>
    obtain ⟨t, f⟩ := out
    have some : 0 < bytes.length := List.length_pos_of_ne_nil holds
    cases broken with
    | false => exact ⟨_, _, .send rfl some (Nat.le_refl _)⟩
    | true => exact ⟨_, _, .lost rfl some (Nat.le_refl _)⟩

/-- One that waits can move unless nothing is on its way and both sides stand. -/
theorem exists_move_of_waits (waits : Waits p) (gone : Prop) (broken : Bool) (inp out : Wire)
    (ready : inp.flight ≠ [] ∨ gone ∨ broken = true) :
    ∃ p' inp', Move gone broken p inp out p' inp' out := by
  cases waits with
  | @recv n asks next =>
    obtain ⟨t, f⟩ := inp
    cases f with
    | nil =>
      have finished := ready.resolve_left fun some => some rfl
      exact ⟨_, _, .closed finished⟩
    | cons b f =>
      have move : Move gone broken (.recv n asks next) ⟨t, [b] ++ f⟩ out (next [b])
          ⟨t ++ [b], f⟩ out := .recv (List.cons_ne_nil _ _) asks
      exact ⟨_, _, move⟩

end Moves

/-- No call of the client has failed. -/
def Connection.ClientUnfailed (c : Program ε α) (now : Connection ε α δ β) : Prop :=
  Reaches c now.down.taken now.up.arrived now.client

def Connection.ServerUnfailed (s : Program δ β) (now : Connection ε α δ β) : Prop :=
  Reaches s now.up.taken now.down.arrived now.server

/-- On a connection that stands, calls fail only behind the end of the other program, so
the one that ends first has met no failure. -/
theorem unfailed_of_steps {c : Program ε α} {s : Program δ β} {now : Connection ε α δ β}
    (steps : Steps ⟨c, s, {}, {}, false⟩ now) (unbroken : now.broken = false) :
    (now.ClientUnfailed c ∧ now.ServerUnfailed s) ∨
      (now.ServerUnfailed s ∧ now.server.result?.isSome = true) ∨
      (now.ClientUnfailed c ∧ now.client.result?.isSome = true) := by
  induction steps with
  | refl => exact Or.inl ⟨.here, .here⟩
  | tail _ step ih =>
    cases step with
    | @client p q up down broken p' up' down' move =>
      obtain ⟨arrived, taken⟩ := wires_of_move move
      have other : ∀ h : Connection.ServerUnfailed s ⟨p, q, up, down, broken⟩,
          Connection.ServerUnfailed s ⟨p', q, up', down', broken⟩ := by
        intro h
        simpa only [Connection.ServerUnfailed, arrived, taken] using h
      rcases ih unbroken with ⟨mine, its⟩ | ⟨its, ended⟩ | ⟨_, ended⟩
      · by_cases ended : q.result?.isSome = true
        · exact Or.inr (Or.inl ⟨other its, ended⟩)
        · obtain ⟨i, o, reaches, took, put⟩ := reaches_of_move move ended unbroken
          refine Or.inl ⟨?_, other its⟩
          simpa only [Connection.ClientUnfailed, took, put] using mine.trans reaches
      · exact Or.inr (Or.inl ⟨other its, ended⟩)
      · exact (not_ended_of_move move ended).elim
    | @server p q up down broken q' up' down' move =>
      obtain ⟨arrived, taken⟩ := wires_of_move move
      have other : ∀ h : Connection.ClientUnfailed c ⟨p, q, up, down, broken⟩,
          Connection.ClientUnfailed c ⟨p, q', up', down', broken⟩ := by
        intro h
        simpa only [Connection.ClientUnfailed, arrived, taken] using h
      rcases ih unbroken with ⟨its, mine⟩ | ⟨_, ended⟩ | ⟨its, ended⟩
      · by_cases ended : p.result?.isSome = true
        · exact Or.inr (Or.inr ⟨other its, ended⟩)
        · obtain ⟨i, o, reaches, took, put⟩ := reaches_of_move move ended unbroken
          refine Or.inl ⟨other its, ?_⟩
          simpa only [Connection.ServerUnfailed, took, put] using mine.trans reaches
      · exact (not_ended_of_move move ended).elim
      · exact Or.inr (Or.inr ⟨other its, ended⟩)
    | cut => cases unbroken

/-- Once the server has ended, the client can go on to its end without sending more. -/
theorem exists_quiet_client_end (now : Connection ε α δ β)
    (finished : now.server.result?.isSome = true) :
    ∃ later, Steps now later ∧ later.client.result?.isSome = true ∧
      later.server = now.server ∧ later.up = now.up := by
  obtain ⟨p', inp', moves, ended⟩ :=
    exists_end (fun p inp out => Connection.mk p now.server out inp now.broken) finished
      (fun move => Step.client move) now.client now.down now.up
  exact ⟨_, moves, ended, rfl, rfl⟩

end ByteStream
