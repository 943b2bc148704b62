import FheSql.Lib.ByteStream
import Mathlib.Logic.Relation
import Mathlib.Order.GameAdd

/-!
# Two programs joined by a connection

A client and a server move in any order. Each of the two wires keeps the bytes
its reader has taken and those on their way to it; a broken connection loses any
end of what is on its way and carries nothing more. However the moves interleave,
each program runs on a beginning of what the other one sends.
-/

namespace ByteStream

open BinaryCodec Relation

variable {ε α δ β : Type}

/-- What a program that has ended gives back. -/
def Program.result? : Program ε α → Option (Except ε α)
  | .done a => some (.ok a)
  | .fail e => some (.error e)
  | .recv .. => none
  | .send .. => none

structure Wire where
  taken : Bytes := []
  flight : Bytes := []

namespace Wire

/-- All that has come or still comes out of the wire. -/
def arrived (w : Wire) : Bytes := w.taken ++ w.flight

/-- Between two moments with `broken` and `broken'`, the wire `w` becomes `w'`, its
writer sends `out` and what comes to its reader is `inp`. -/
structure Feeds (broken broken' : Bool) (w w' : Wire) (out inp : Bytes) : Prop where
  arrives : w'.arrived = w.taken ++ inp
  sent : inp <+: w.flight ++ out
  whole : broken' = false → inp = w.flight ++ out
  dead : broken = true → inp <+: w.flight
  stays : broken = true → broken' = true

variable {broken broken' : Bool} {w w' : Wire} {out inp : Bytes}

theorem feeds_end (broken : Bool) (w : Wire) : Feeds broken broken w w [] w.flight where
  arrives := rfl
  sent := List.prefix_append _ _
  whole _ := (List.append_nil _).symm
  dead _ := List.prefix_rfl
  stays h := h

theorem Feeds.take {t bytes rest : Bytes} (h : Feeds broken broken' ⟨t ++ bytes, rest⟩ w' out inp) :
    Feeds broken broken' ⟨t, bytes ++ rest⟩ w' out (bytes ++ inp) where
  arrives := by rw [h.arrives, List.append_assoc]
  sent := by
    rw [List.append_assoc]
    exact (List.prefix_append_right_inj bytes).mpr h.sent
  whole unbroken := by rw [h.whole unbroken, List.append_assoc]
  dead broken := (List.prefix_append_right_inj bytes).mpr (h.dead broken)
  stays := h.stays

theorem Feeds.put {t f bytes : Bytes} (unbroken : broken = false)
    (h : Feeds broken broken' ⟨t, f ++ bytes⟩ w' out inp) :
    Feeds broken broken' ⟨t, f⟩ w' (bytes ++ out) inp where
  arrives := h.arrives
  sent := by
    rw [← List.append_assoc]
    exact h.sent
  whole unbroken := by rw [h.whole unbroken, List.append_assoc]
  dead broken := by cases unbroken.symm.trans broken
  stays := h.stays

theorem Feeds.lose (down : broken = true) (bytes : Bytes)
    (h : Feeds broken broken' w w' out inp) : Feeds broken broken' w w' (bytes ++ out) inp where
  arrives := h.arrives
  sent := (h.dead down).trans (List.prefix_append _ _)
  whole unbroken := by cases (h.stays down).symm.trans unbroken
  dead := h.dead
  stays := h.stays

theorem Feeds.cut {t f kept : Bytes} (part : kept <+: f)
    (h : Feeds true broken' ⟨t, kept⟩ w' out inp) : Feeds false broken' ⟨t, f⟩ w' out inp where
  arrives := h.arrives
  sent := ((h.dead rfl).trans part).trans (List.prefix_append _ _)
  whole unbroken := by cases (h.stays rfl).symm.trans unbroken
  dead := nofun
  stays := nofun

end Wire

/-- One call of a program that reads from one wire and writes to the other. `gone`
says that the program at the other end has ended. -/
inductive Move (gone : Prop) (broken : Bool) :
    Program ε α → Wire → Wire → Program ε α → Wire → Wire → Prop where
  | recv {n asks next t bytes rest o} : bytes ≠ [] → bytes.length ≤ n →
      Move gone broken (.recv n asks next) ⟨t, bytes ++ rest⟩ o (next bytes) ⟨t ++ bytes, rest⟩ o
  | closed {n asks next t o} : gone ∨ broken = true →
      Move gone broken (.recv n asks next) ⟨t, []⟩ o (next []) ⟨t, []⟩ o
  | send {bytes holds next sent i t f} : broken = false → 0 < sent → sent ≤ bytes.length →
      Move gone broken (.send bytes holds next) i ⟨t, f⟩ (next sent) i ⟨t, f ++ bytes.take sent⟩
  | lost {bytes holds next sent i o} : broken = true → 0 < sent → sent ≤ bytes.length →
      Move gone broken (.send bytes holds next) i o (next sent) i o
  | refused {bytes holds next i o} : gone ∨ broken = true →
      Move gone broken (.send bytes holds next) i o (next 0) i o

structure Connection (ε α δ β : Type) where
  client : Program ε α
  server : Program δ β
  up : Wire := {}
  down : Wire := {}
  broken : Bool := false

inductive Step : Connection ε α δ β → Connection ε α δ β → Prop where
  | client {c s up down broken c' up' down'} :
      Move (s.result?.isSome = true) broken c down up c' down' up' →
      Step ⟨c, s, up, down, broken⟩ ⟨c', s, up', down', broken⟩
  | server {c s up down broken s' up' down'} :
      Move (c.result?.isSome = true) broken s up down s' up' down' →
      Step ⟨c, s, up, down, broken⟩ ⟨c, s', up', down', broken⟩
  | cut {c s t f t' f' kept kept'} : kept <+: f → kept' <+: f' →
      Step ⟨c, s, ⟨t, f⟩, ⟨t', f'⟩, false⟩ ⟨c, s, ⟨t, kept⟩, ⟨t', kept'⟩, true⟩

abbrev Steps : Connection ε α δ β → Connection ε α δ β → Prop := ReflTransGen Step

theorem runs_ended {p : Program ε α} {r : Except ε α} (h : p.result? = some r)
    (breaks : Prop) (i : Bytes) : Runs breaks p i [] i r := by
  cases p with
  | done a =>
    cases h
    exact .done
  | fail e =>
    cases h
    exact .fail
  | recv n asks next => cases h
  | send bytes holds next => cases h

theorem ended_silent {p : Program ε α} {breaks : Prop} {i out left : Bytes} {r : Except ε α}
    (ended : p.result?.isSome = true) (h : Runs breaks p i out left r) : out = [] := by
  cases h with
  | done => rfl
  | fail => rfl
  | recv => cases ended
  | closed => cases ended
  | send => cases ended
  | broken => cases ended

/-- A move in front of a run of the program that has moved. -/
theorem runs_of_move {p p' : Program ε α} {inp inp' out out' fin fin' : Wire} {gone : Prop}
    {broken broken' : Bool} {i left o sent taken : Bytes} {r : Except ε α}
    (move : Move gone broken p inp out p' inp' out') (run : Runs True p' i o left r)
    (reads : Wire.Feeds broken broken' inp' fin sent i)
    (writes : Wire.Feeds broken broken' out' fin' o taken) (silent : gone → sent = []) :
    ∃ i₀ o₀, Runs True p i₀ o₀ left r ∧ Wire.Feeds broken broken' inp fin sent i₀ ∧
      Wire.Feeds broken broken' out fin' o₀ taken := by
  cases move with
  | recv nonempty short => exact ⟨_, o, .recv nonempty short run, reads.take, writes⟩
  | closed finished =>
    have none : i = [] := by
      rcases finished with gone | broken
      · have part := reads.sent
        rw [silent gone] at part
        exact List.prefix_nil.mp part
      · exact List.prefix_nil.mp (reads.dead broken)
    subst none
    exact ⟨[], o, .closed run, reads, writes⟩
  | send unbroken positive short =>
    exact ⟨i, _, .send positive short run, reads, writes.put unbroken⟩
  | lost broken positive short =>
    exact ⟨i, _, .send positive short run, reads, writes.lose broken _⟩
  | refused => exact ⟨i, o, .broken trivial run, reads, writes⟩

/-- Two programs that have both ended have each run on what the other one sent. -/
theorem runs_of_steps {now later : Connection ε α δ β} {r : Except ε α} {r' : Except δ β}
    (steps : Steps now later) (client : later.client.result? = some r)
    (server : later.server.result? = some r') :
    ∃ i o i' o', Runs True now.client i o later.down.flight r ∧
      Runs True now.server i' o' later.up.flight r' ∧
      Wire.Feeds now.broken later.broken now.up later.up o i' ∧
      Wire.Feeds now.broken later.broken now.down later.down o' i := by
  induction steps using ReflTransGen.head_induction_on with
  | refl =>
    exact ⟨_, [], _, [], runs_ended client True _, runs_ended server True _,
      Wire.feeds_end _ _, Wire.feeds_end _ _⟩
  | head step _ ih =>
    obtain ⟨i, o, i', o', run, run', up, down⟩ := ih
    cases step with
    | client move =>
      obtain ⟨i₀, o₀, run, down, up⟩ :=
        runs_of_move move run down up fun ended => ended_silent ended run'
      exact ⟨i₀, o₀, i', o', run, run', up, down⟩
    | server move =>
      obtain ⟨i₀, o₀, run', up, down⟩ :=
        runs_of_move move run' up down fun ended => ended_silent ended run
      exact ⟨i, o, i₀, o₀, run, run', up, down⟩
    | cut part part' => exact ⟨i, o, i', o', run, run', up.cut part, down.cut part'⟩

/-- Once the other end has ended, a program can go on to its own end. `place` puts it
and its wires where they stand in a larger state. -/
theorem exists_end {σ : Type} {R : σ → σ → Prop} (place : Program ε α → Wire → Wire → σ)
    {gone : Prop} {broken : Bool} (finished : gone)
    (step : ∀ {p p' inp inp' out out'}, Move gone broken p inp out p' inp' out' →
      R (place p inp out) (place p' inp' out')) (p : Program ε α) (inp out : Wire) :
    ∃ p' inp', ReflTransGen R (place p inp out) (place p' inp' out) ∧
      p'.result?.isSome = true := by
  induction p generalizing inp with
  | done a => exact ⟨.done a, inp, .refl, rfl⟩
  | fail e => exact ⟨.fail e, inp, .refl, rfl⟩
  | recv n asks next ih =>
    obtain ⟨t, f⟩ := inp
    cases f with
    | nil =>
      obtain ⟨p', inp', moves, ended⟩ := ih [] ⟨t, []⟩
      exact ⟨p', inp', .head (step (.closed (Or.inl finished))) moves, ended⟩
    | cons b f =>
      obtain ⟨p', inp', moves, ended⟩ := ih [b] ⟨t ++ [b], f⟩
      have move : Move gone broken (.recv n asks next) ⟨t, [b] ++ f⟩ out (next [b])
          ⟨t ++ [b], f⟩ out := .recv (List.cons_ne_nil _ _) asks
      exact ⟨p', inp', .head (step move) moves, ended⟩
  | send bytes holds next ih =>
    obtain ⟨p', inp', moves, ended⟩ := ih 0 inp
    exact ⟨p', inp', .head (step (.refused (Or.inl finished))) moves, ended⟩

theorem exists_client_end (now : Connection ε α δ β) (finished : now.server.result?.isSome = true) :
    ∃ later, Steps now later ∧ later.client.result?.isSome = true ∧
      later.server = now.server ∧ later.broken = now.broken := by
  obtain ⟨p', inp', moves, ended⟩ :=
    exists_end (fun p inp out => Connection.mk p now.server out inp now.broken) finished
      (fun move => Step.client move) now.client now.down now.up
  exact ⟨_, moves, ended, rfl, rfl⟩

theorem exists_server_end (now : Connection ε α δ β) (finished : now.client.result?.isSome = true) :
    ∃ later, Steps now later ∧ later.server.result?.isSome = true ∧
      later.client = now.client ∧ later.broken = now.broken ∧ later.down = now.down := by
  obtain ⟨p', inp', moves, ended⟩ :=
    exists_end (fun p inp out => Connection.mk now.client p inp out now.broken) finished
      (fun move => Step.server move) now.server now.up now.down
  exact ⟨_, moves, ended, rfl, rfl, rfl⟩

/-- A program goes on with one of the programs behind its next call. -/
inductive Continues : Program ε α → Program ε α → Prop where
  | recv {n asks next bytes} : Continues (next bytes) (.recv n asks next)
  | send {bytes holds next sent} : Continues (next sent) (.send bytes holds next)

theorem wellFounded_continues : WellFounded (Continues (ε := ε) (α := α)) := by
  refine ⟨fun p => ?_⟩
  induction p with
  | done a => exact .intro _ nofun
  | fail e => exact .intro _ nofun
  | recv n asks next ih =>
    refine .intro _ fun q h => ?_
    cases h
    exact ih _
  | send bytes holds next ih =>
    refine .intro _ fun q h => ?_
    cases h
    exact ih _

theorem continues_of_move {gone : Prop} {broken : Bool} {p p' : Program ε α}
    {inp inp' out out' : Wire} (move : Move gone broken p inp out p' inp' out') :
    Continues p' p := by
  cases move with
  | recv => exact .recv
  | closed => exact .recv
  | send => exact .send
  | lost => exact .send
  | refused => exact .send

/-- Every run of a connection is finite. -/
theorem wellFounded_step :
    WellFounded fun later now : Connection ε α δ β => Step now later := by
  have order := ((wellFounded_continues (ε := ε) (α := α)).prod_gameAdd
    (wellFounded_continues (ε := δ) (α := β))).prod_gameAdd
    (measure fun broken : Bool => (!broken).toNat).wf
  refine Subrelation.wf (fun step => ?_) (InvImage.wf
    (fun now : Connection ε α δ β => ((now.client, now.server), now.broken)) order)
  cases step with
  | client move => exact .fst (.fst (continues_of_move move))
  | server move => exact .fst (.snd (continues_of_move move))
  | cut => exact .snd Nat.zero_lt_one

/-- The next call of a program in a schedule where every send is accepted whole and
every receive takes all it may. -/
def greedy? (gone : Bool) :
    Program ε α → Wire → Wire → Option (Program ε α × Wire × Wire)
  | .recv n _ next, inp, out =>
    if inp.flight = [] then
      if gone then some (next [], ⟨inp.taken, []⟩, out) else none
    else
      let bytes := inp.flight.take n
      some (next bytes, ⟨inp.taken ++ bytes, inp.flight.drop n⟩, out)
  | .send bytes _ next, inp, out =>
    some (next bytes.length, inp, ⟨out.taken, out.flight ++ bytes⟩)
  | _, _, _ => none

theorem move_of_greedy {gone : Bool} {p p' : Program ε α} {inp inp' out out' : Wire}
    (h : greedy? gone p inp out = some (p', inp', out')) :
    Move (gone = true) false p inp out p' inp' out' := by
  cases p with
  | done a => cases h
  | fail e => cases h
  | recv n asks next =>
    obtain ⟨t, f⟩ := inp
    simp only [greedy?] at h
    by_cases idle : f = []
    · subst idle
      cases gone with
      | false => cases h
      | true =>
        cases h
        exact .closed (Or.inl rfl)
    · rw [if_neg idle] at h
      cases h
      have nonempty : f.take n ≠ [] := by
        rw [ne_eq, List.take_eq_nil_iff]
        exact fun none => none.elim (Nat.pos_iff_ne_zero.mp asks) idle
      have move : Move (gone = true) false (.recv n asks next) ⟨t, f.take n ++ f.drop n⟩ out
          (next (f.take n)) ⟨t ++ f.take n, f.drop n⟩ out :=
        .recv nonempty (List.length_take_le n f)
      rwa [List.take_append_drop] at move
  | send bytes holds next =>
    obtain ⟨t, f⟩ := out
    cases h
    have move : Move (gone = true) false (.send bytes holds next) inp ⟨t, f⟩ (next bytes.length)
        inp ⟨t, f ++ bytes.take bytes.length⟩ :=
      .send rfl (List.length_pos_of_ne_nil holds) (Nat.le_refl bytes.length)
    rwa [List.take_length] at move

/-- One greedy call: the client's when it has one, else the server's. -/
def Connection.advance (now : Connection ε α δ β) : Connection ε α δ β :=
  match greedy? now.server.result?.isSome now.client now.down now.up with
  | some (c, down, up) => { now with client := c, up := up, down := down }
  | none =>
    match greedy? now.client.result?.isSome now.server now.up now.down with
    | some (s, up, down) => { now with server := s, up := up, down := down }
    | none => now

def Connection.after : Nat → Connection ε α δ β → Connection ε α δ β
  | 0, now => now
  | n + 1, now => after n now.advance

theorem steps_after (n : Nat) {now : Connection ε α δ β} (unbroken : now.broken = false) :
    Steps now (now.after n) := by
  induction n generalizing now with
  | zero => exact .refl
  | succ n ih =>
    obtain ⟨c, s, up, down, broken⟩ := now
    cases unbroken
    rw [Connection.after, Connection.advance]
    cases client : greedy? s.result?.isSome c down up with
    | some x => exact .head (.client (move_of_greedy client)) (ih rfl)
    | none =>
      cases server : greedy? c.result?.isSome s up down with
      | some x => exact .head (.server (move_of_greedy server)) (ih rfl)
      | none => exact ih rfl

end ByteStream
