import FheSql.Lib.Progress
import Mathlib.Data.DFinsupp.WellFounded
import Mathlib.Data.Fintype.Card
import Mathlib.SetTheory.Cardinal.Order

/-!
# A server that takes one connection after the other

Clients connect in any order and wait in a queue; the server accepts the first of
them, runs its program for it to the end, closes the connection and goes on with the
next. Between two such acts every client moves when it likes, and a connection may
break at any time. A process that writes to a connection which the other side has
left may be killed by it, and all that it holds breaks.
-/

namespace ByteStream

open BinaryCodec Relation

variable {ι ε α δ β : Type} [DecidableEq ι]

/-- `line i` is the connection of client `i` with the program that serves it, whether the
server has come to it or not. -/
structure Service (ι ε α δ β : Type) where
  line : ι → Connection ε α δ β
  queue : List ι := []
  current : Option ι := none
  closed : List ι := []
  unreached : List ι := []
  killed : List ι := []
  running : Bool := true

namespace Service

/-- Connections that the server has not closed. -/
def standing (s : Service ι ε α δ β) : List ι := s.current.toList ++ s.queue

/-- All connections, in the order in which they were made. -/
def order (s : Service ι ε α δ β) : List ι := s.closed ++ s.standing

def set (s : Service ι ε α δ β) (i : ι) (c : Connection ε α δ β) : Service ι ε α δ β :=
  { s with line := Function.update s.line i c }

def breaks (c : Connection ε α δ β) : Connection ε α δ β := { c with broken := true }

/-- What the server and the clients do. The queue holds at most `backlog` connections. -/
inductive Acts (backlog : Nat) : Service ι ε α δ β → Service ι ε α δ β → Prop where
  | connect {s i} : s.running = true → i ∉ s.order → i ∉ s.unreached →
      s.queue.length < backlog → Acts backlog s { s with queue := s.queue ++ [i] }
  | refused {s i} : s.running = false → i ∉ s.order → i ∉ s.unreached →
      Acts backlog s { s with unreached := i :: s.unreached }
  | accept {s i rest} : s.running = true → s.current = none → s.queue = i :: rest →
      Acts backlog s { s with current := some i, queue := rest }
  | client {s i c down up} : i ∈ s.order → i ∉ s.killed →
      Move (i ∈ s.closed) (s.line i).broken (s.line i).client (s.line i).down (s.line i).up
        c down up →
      Acts backlog s (s.set i { s.line i with client := c, down := down, up := up })
  | server {s i p up down} : s.running = true → s.current = some i →
      Move ((s.line i).client.result?.isSome = true) (s.line i).broken (s.line i).server
        (s.line i).up (s.line i).down p up down →
      Acts backlog s (s.set i { s.line i with server := p, up := up, down := down })
  | close {s i} : s.running = true → s.current = some i →
      (s.line i).server.result?.isSome = true →
      Acts backlog s { s with current := none, closed := s.closed ++ [i] }
  | serverKilled {s i} : s.running = true → s.current = some i → Writes (s.line i).server →
      (s.line i).client.result?.isSome = true ∨ (s.line i).broken = true →
      Acts backlog s { s with
        running := false
        line := fun j => if j ∈ s.standing then breaks (s.line j) else s.line j }
  | clientKilled {s i} : i ∈ s.order → i ∉ s.killed → Writes (s.line i).client →
      i ∈ s.closed ∨ (s.line i).broken = true →
      Acts backlog s { s.set i (breaks (s.line i)) with killed := i :: s.killed }

/-- What the network does. -/
inductive Fails : Service ι ε α δ β → Service ι ε α δ β → Prop where
  | missed {s i} : i ∉ s.order → i ∉ s.unreached →
      Fails s { s with unreached := i :: s.unreached }
  | cut {s i kept kept'} : i ∈ s.order → (s.line i).broken = false →
      kept <+: (s.line i).up.flight → kept' <+: (s.line i).down.flight →
      Fails s (s.set i { s.line i with
        up := { (s.line i).up with flight := kept }
        down := { (s.line i).down with flight := kept' }
        broken := true })

def Happens (backlog : Nat) (s s' : Service ι ε α δ β) : Prop := Acts backlog s s' ∨ Fails s s'

abbrev History (backlog : Nat) : Service ι ε α δ β → Service ι ε α δ β → Prop :=
  ReflTransGen (Happens backlog)

/-- No process can do anything more. -/
def Settled (backlog : Nat) (s : Service ι ε α δ β) : Prop := ∀ s', ¬ Acts backlog s s'

/-- Before the first client has connected. -/
def opened (client : ι → Program ε α) (server : Program δ β) : Service ι ε α δ β where
  line i := ⟨client i, server, {}, {}, false⟩

section Lines

variable {s s' : Service ι ε α δ β} {backlog : Nat}

@[simp] theorem set_line_self (i : ι) (c : Connection ε α δ β) : (s.set i c).line i = c := by
  simp only [set, Function.update_self]

theorem set_line_ne {i j : ι} (other : j ≠ i) (c : Connection ε α δ β) :
    (s.set i c).line j = s.line j := by
  simp only [set, Function.update_of_ne other]

@[simp] theorem set_order (i : ι) (c : Connection ε α δ β) : (s.set i c).order = s.order := rfl

@[simp] theorem set_closed (i : ι) (c : Connection ε α δ β) : (s.set i c).closed = s.closed := rfl

theorem steps_breaks (c : Connection ε α δ β) : Steps c (breaks c) := by
  obtain ⟨p, q, ⟨t, f⟩, ⟨t', f'⟩, broken⟩ := c
  cases broken with
  | true => exact .refl
  | false => exact .single (.cut List.prefix_rfl List.prefix_rfl)

theorem steps_set {i : ι} {c : Connection ε α δ β} (step : Step (s.line i) c) (j : ι) :
    Steps (s.line j) ((s.set i c).line j) := by
  by_cases same : j = i
  · subst same
    rw [set_line_self]
    exact .single step
  · rw [set_line_ne same]

/-- What happens to the service is, for each of its connections, a step of it or nothing. -/
theorem steps_of_happens (closed : ∀ i ∈ s.closed, (s.line i).server.result?.isSome = true)
    (happens : Happens backlog s s') (j : ι) : Steps (s.line j) (s'.line j) := by
  rcases happens with act | fails
  · cases act with
    | connect => exact .refl
    | refused => exact .refl
    | accept => exact .refl
    | @client i c down up _ _ move => exact steps_set (.client (move.mono (closed i))) j
    | @server i p up down _ _ move => exact steps_set (.server move) j
    | close => exact .refl
    | serverKilled =>
      dsimp only
      split
      · exact steps_breaks _
      · exact .refl
    | @clientKilled i =>
      change Steps (s.line j) ((s.set i (breaks (s.line i))).line j)
      by_cases same : j = i
      · subst same
        rw [set_line_self]
        exact steps_breaks _
      · rw [set_line_ne same]
  · cases fails with
    | missed => exact .refl
    | @cut i kept kept' _ unbroken part part' =>
      refine steps_set ?_ j
      generalize s.line i = line at unbroken part part'
      obtain ⟨p, q, ⟨t, f⟩, ⟨t', f'⟩, broken⟩ := line
      cases unbroken
      exact .cut part part'

end Lines

section Histories

variable {client : ι → Program ε α} {server : Program δ β} {s s' : Service ι ε α δ β}
  {backlog : Nat}

/-- The server has neither taken anything of a connection nor put anything into it. -/
structure Untouched (server : Program δ β) (c : Connection ε α δ β) : Prop where
  program : c.server = server
  taken : c.up.taken = []
  silent : c.down.arrived = []

/-- Each connection has gone its own way, only the server's own ones beyond the client's
first bytes; what has lost a process is broken. -/
structure Sound (client : ι → Program ε α) (server : Program δ β) (s : Service ι ε α δ β) :
    Prop where
  lines : ∀ i, Steps ⟨client i, server, {}, {}, false⟩ (s.line i)
  closed : ∀ i ∈ s.closed, (s.line i).server.result?.isSome = true
  untouched : ∀ i, i ∉ s.closed → s.current ≠ some i → Untouched server (s.line i)
  killed : ∀ i ∈ s.killed, (s.line i).broken = true
  stopped : s.running = false → ∀ i ∈ s.standing, (s.line i).broken = true

omit [DecidableEq ι] in
theorem sound_opened (client : ι → Program ε α) (server : Program δ β) :
    Sound client server (opened client server) where
  lines _ := .refl
  closed := nofun
  untouched _ _ _ := ⟨rfl, rfl, rfl⟩
  killed := nofun
  stopped := nofun

theorem Untouched.put {c : Connection ε α δ β} (h : Untouched server c) {gone : Prop}
    {p : Program ε α} {down up : Wire}
    (move : Move gone c.broken c.client c.down c.up p down up) :
    Untouched server { c with client := p, down := down, up := up } := by
  obtain ⟨arrived, taken⟩ := wires_of_move move
  exact ⟨h.program, taken.trans h.taken, arrived.trans h.silent⟩

theorem Untouched.cut {c : Connection ε α δ β} (h : Untouched server c) {kept kept' : Bytes}
    (part : kept' <+: c.down.flight) : Untouched server { c with
      up := { c.up with flight := kept }
      down := { c.down with flight := kept' }
      broken := true } := by
  obtain ⟨none, idle⟩ := List.append_eq_nil_iff.mp h.silent
  rw [idle] at part
  refine ⟨h.program, h.taken, ?_⟩
  rw [Wire.arrived, none, List.prefix_nil.mp part]
  rfl

theorem broken_of_steps {c c' : Connection ε α δ β} (steps : Steps c c')
    (broken : c.broken = true) : c'.broken = true := by
  induction steps with
  | refl => exact broken
  | tail _ step ih =>
    cases step with
    | client => exact ih
    | server => exact ih
    | cut => rfl

theorem ended_of_steps {c c' : Connection ε α δ β} (steps : Steps c c')
    (ended : c.server.result?.isSome = true) : c'.server = c.server := by
  induction steps with
  | refl => rfl
  | tail _ step ih =>
    cases step with
    | client => exact ih
    | server move =>
      rw [← ih] at ended
      exact (not_ended_of_move move ended).elim
    | cut => exact ih

theorem sound_of_happens (sound : Sound client server s) (happens : Happens backlog s s') :
    Sound client server s' := by
  have steps := steps_of_happens sound.closed happens
  have lines : ∀ i, Steps ⟨client i, server, {}, {}, false⟩ (s'.line i) := fun i =>
    (sound.lines i).trans (steps i)
  have broken : ∀ i, (s.line i).broken = true → (s'.line i).broken = true := fun i =>
    broken_of_steps (steps i)
  have ended : ∀ i ∈ s.closed, (s'.line i).server.result?.isSome = true := by
    intro i mem
    rw [ended_of_steps (steps i) (sound.closed i mem)]
    exact sound.closed i mem
  rcases happens with act | fails
  · cases act with
    | @connect i runs =>
      refine ⟨lines, ended, sound.untouched, sound.killed, fun down => ?_⟩
      cases runs.symm.trans down
    | refused => exact ⟨lines, ended, sound.untouched, sound.killed, sound.stopped⟩
    | @accept i rest runs idle waiting =>
      refine ⟨lines, ended, fun j other _ => ?_, sound.killed, fun down => ?_⟩
      · exact sound.untouched j other (by rw [idle]; exact nofun)
      · cases runs.symm.trans down
    | @client i c down up known alive move =>
      refine ⟨lines, ended, fun j other elsewhere => ?_, fun j mem => broken j (sound.killed j mem),
        fun stopped j mem => broken j (sound.stopped stopped j mem)⟩
      have before := sound.untouched j other elsewhere
      by_cases same : j = i
      · subst same
        rw [set_line_self]
        exact before.put move
      · rwa [set_line_ne same]
    | @server i p up down runs current move =>
      refine ⟨lines, ended, fun j other elsewhere => ?_, fun j mem => broken j (sound.killed j mem),
        fun stopped => ?_⟩
      · have away : j ≠ i := by
          rintro rfl
          exact elsewhere current
        rw [set_line_ne away]
        exact sound.untouched j other elsewhere
      · cases runs.symm.trans stopped
    | @close i runs current finished =>
      refine ⟨lines, fun j mem => ?_, fun j other _ => ?_, sound.killed, fun stopped => ?_⟩
      · rcases List.mem_append.mp mem with mem | mem
        · exact ended j mem
        · rw [List.mem_singleton.mp mem]
          exact finished
      · have away : j ∉ s.closed ∧ j ≠ i := by simpa using other
        refine sound.untouched j away.1 ?_
        rw [current]
        exact fun same => away.2 (Option.some.inj same).symm
      · cases runs.symm.trans stopped
    | @serverKilled i runs current =>
      refine ⟨lines, ended, fun j other elsewhere => ?_, fun j mem => broken j (sound.killed j mem),
        fun _ j mem => ?_⟩
      · have before := sound.untouched j other elsewhere
        dsimp only
        split
        · exact ⟨before.program, before.taken, before.silent⟩
        · exact before
      · exact (congrArg Connection.broken (if_pos mem)).trans rfl
    | @clientKilled i =>
      refine ⟨lines, ended, fun j other elsewhere => ?_, fun j mem => ?_,
        fun stopped j mem => broken j (sound.stopped stopped j mem)⟩
      · have before := sound.untouched j other elsewhere
        change Untouched server ((s.set i (breaks (s.line i))).line j)
        by_cases same : j = i
        · subst same
          rw [set_line_self]
          exact ⟨before.program, before.taken, before.silent⟩
        · rwa [set_line_ne same]
      · rcases List.mem_cons.mp mem with rfl | mem
        · exact congrArg Connection.broken (set_line_self j (breaks (s.line j)))
        · exact broken j (sound.killed j mem)
  · cases fails with
    | missed => exact ⟨lines, ended, sound.untouched, sound.killed, sound.stopped⟩
    | @cut i kept kept' known unbroken part part' =>
      refine ⟨lines, ended, fun j other elsewhere => ?_, fun j mem => broken j (sound.killed j mem),
        fun stopped j mem => broken j (sound.stopped stopped j mem)⟩
      have before := sound.untouched j other elsewhere
      by_cases same : j = i
      · subst same
        rw [set_line_self]
        exact before.cut part'
      · rwa [set_line_ne same]

theorem sound_later (sound : Sound client server s) (history : History backlog s s') :
    Sound client server s' := by
  induction history with
  | refl => exact sound
  | tail _ happens ih => exact sound_of_happens ih happens

theorem sound_of_history (history : History backlog (opened client server) s) :
    Sound client server s := sound_later (sound_opened client server) history

theorem nodup_of_happens (once : s.order.Nodup) (happens : Happens backlog s s') :
    s'.order.Nodup := by
  rcases happens with act | fails
  · cases act with
    | @connect i _ fresh =>
      have more : (s.order ++ [i]).Nodup := List.nodup_append.mpr
        ⟨once, List.nodup_singleton i, fun a mem b same => by
          rintro rfl
          exact fresh (List.mem_singleton.mp same ▸ mem)⟩
      simpa only [order, standing, List.append_assoc] using more
    | refused => exact once
    | accept runs idle waiting =>
      simpa only [order, standing, idle, waiting, Option.toList_some, Option.toList_none,
        List.nil_append, List.singleton_append] using once
    | client => exact once
    | server => exact once
    | close runs current finished =>
      simpa only [order, standing, current, Option.toList_some, Option.toList_none,
        List.append_assoc, List.nil_append] using once
    | serverKilled => exact once
    | clientKilled => exact once
  · cases fails with
    | missed => exact once
    | cut => exact once

theorem nodup_of_history (history : History backlog (opened client server) s) :
    s.order.Nodup := by
  induction history with
  | refl => exact List.nodup_nil
  | tail _ happens ih => exact nodup_of_happens ih happens

/-- First come, first served: the server has closed every connection made before one
that it has touched. -/
theorem closed_of_touched {i j : ι} (history : History backlog (opened client server) s)
    (before : s.order.idxOf i < s.order.idxOf j) (touched : ¬ Untouched server (s.line j)) :
    i ∈ s.closed := by
  by_contra waiting
  have own := (sound_of_history history).untouched j
  have late : s.closed.length ≤ s.order.idxOf i := by
    rw [order, List.idxOf_append_of_notMem waiting]
    exact Nat.le_add_right _ _
  have reached : s.order.idxOf j ≤ s.closed.length := by
    by_cases served : j ∈ s.closed
    · rw [order, List.idxOf_append_of_mem served]
      exact (List.idxOf_lt_length_of_mem served).le
    · have current : s.current = some j := not_not.mp fun other => touched (own served other)
      rw [order, List.idxOf_append_of_notMem served, standing, current]
      simp
  omega

end Histories

section Ends

variable {client : ι → Program ε α} {server : Program δ β} {s s' : Service ι ε α δ β}
  {backlog : Nat}

/-- The server and the client it serves wait for bytes of each other, and none is on its way. -/
structure Stalled (c : Connection ε α δ β) : Prop where
  client : Waits c.client
  server : Waits c.server
  up : c.up.flight = []
  down : c.down.flight = []
  stands : c.broken = false

/-- Every connection is over for both sides, and nobody waits for one. -/
structure Finished (s : Service ι ε α δ β) : Prop where
  known : ∀ i, i ∈ s.order ∨ i ∈ s.unreached
  clients : ∀ i ∈ s.order, i ∈ s.killed ∨ (s.line i).client.result?.isSome = true
  idle : s.running = true → s.standing = []

/-- A client on a broken or closed connection goes on until it has ended. -/
theorem client_ended (settled : Settled backlog s) {i : ι} (known : i ∈ s.order)
    (left : i ∈ s.closed ∨ (s.line i).broken = true) :
    i ∈ s.killed ∨ (s.line i).client.result?.isSome = true := by
  refine or_iff_not_imp_left.mpr fun alive => ?_
  rcases ended_or_calls (s.line i).client with ended | waits | writes
  · exact ended
  · obtain ⟨c, down, move⟩ := exists_move_of_waits waits (i ∈ s.closed) (s.line i).broken
      (s.line i).down (s.line i).up (Or.inr left)
    exact (settled _ (.client known alive move)).elim
  · exact (settled _ (.clientKilled known alive writes left)).elim

/-- When nothing more is done, all is over, or the server waits for a client that waits
for the server. -/
theorem settled_cases (positive : 0 < backlog) (sound : Sound client server s)
    (settled : Settled backlog s) :
    Finished s ∨ ∃ i, s.current = some i ∧ s.running = true ∧ Stalled (s.line i) := by
  cases runs : s.running with
  | false =>
    refine Or.inl ⟨fun i => ?_, fun i known => ?_, fun up => by cases runs.symm.trans up⟩
    · by_contra fresh
      rw [not_or] at fresh
      exact settled _ (.refused runs fresh.1 fresh.2)
    · refine client_ended settled known ?_
      rcases List.mem_append.mp known with closed | standing
      · exact Or.inl closed
      · exact Or.inr (sound.stopped runs i standing)
  | true =>
    cases current : s.current with
    | none =>
      have empty : s.queue = [] := by
        cases queue : s.queue with
        | nil => rfl
        | cons i rest => exact (settled _ (.accept runs current queue)).elim
      have idle : s.standing = [] := by rw [standing, current, empty]; rfl
      refine Or.inl ⟨fun i => ?_, fun i known => ?_, fun _ => idle⟩
      · by_contra fresh
        rw [not_or] at fresh
        exact settled _ (.connect runs fresh.1 fresh.2 (by rw [empty]; exact positive))
      · rw [order, idle, List.append_nil] at known
        refine client_ended settled ?_ (Or.inl known)
        rw [order, idle, List.append_nil]
        exact known
    | some i =>
      refine Or.inr ⟨i, rfl, rfl, ?_⟩
      have known : i ∈ s.order := by simp [order, standing, current]
      have stuck : ∀ {p up down}, ¬ Move ((s.line i).client.result?.isSome = true)
          (s.line i).broken (s.line i).server (s.line i).up (s.line i).down p up down :=
        fun move => settled _ (.server runs current move)
      rcases ended_or_calls (s.line i).server with ended | waits | writes
      · exact (settled _ (.close runs current ended)).elim
      · -- no byte of the client is on its way, it goes on, and no send of it is accepted
        have need : ¬ ((s.line i).up.flight ≠ [] ∨ (s.line i).client.result?.isSome = true ∨
            (s.line i).broken = true) := by
          intro ready
          obtain ⟨p, up, move⟩ := exists_move_of_waits waits _ _ (s.line i).up (s.line i).down ready
          exact stuck move
        rw [not_or, not_or, not_not, Bool.not_eq_true (s.line i).broken] at need
        obtain ⟨up, goes, stands⟩ := need
        have alive : i ∉ s.killed := by
          intro dead
          cases stands.symm.trans (sound.killed i dead)
        rcases ended_or_calls (s.line i).client with ended | waits' | writes
        · exact (goes ended).elim
        · refine ⟨waits', waits, up, not_not.mp fun some => ?_, stands⟩
          obtain ⟨c, down, move⟩ := exists_move_of_waits waits' (i ∈ s.closed)
            (s.line i).broken (s.line i).down (s.line i).up (Or.inl some)
          exact settled _ (.client known alive move)
        · obtain ⟨c, up', move⟩ := exists_move_of_writes writes (i ∈ s.closed)
            (s.line i).broken (s.line i).down (s.line i).up
          exact (settled _ (.client known alive move)).elim
      · obtain ⟨p, down, move⟩ := exists_move_of_writes writes
          ((s.line i).client.result?.isSome = true) (s.line i).broken (s.line i).up (s.line i).down
        exact (stuck move).elim

/-- A stalled connection keeps the server. -/
theorem stalled_of_acts (sound : Sound client server s) {i : ι} (current : s.current = some i)
    (stalled : Stalled (s.line i)) (act : Acts backlog s s') : s'.current = some i ∧
      s'.line i = s.line i ∧ s'.closed = s.closed ∧ s'.running = s.running := by
  obtain ⟨waits, waits', up, down, stands⟩ := stalled
  have waiting : i ∉ s.closed := fun closed =>
    not_ended_of_waits waits' (sound.closed i closed)
  cases act with
  | connect => exact ⟨current, rfl, rfl, rfl⟩
  | refused => exact ⟨current, rfl, rfl, rfl⟩
  | accept runs idle => cases current.symm.trans idle
  | @client j c down' up' known alive move =>
    by_cases same : i = j
    · subst same
      exact (no_move_of_idle waits down waiting stands move).elim
    · exact ⟨current, set_line_ne same _, rfl, rfl⟩
  | @server j p up' down' runs current' move =>
    cases current.symm.trans current'
    exact (no_move_of_idle waits' up (not_ended_of_waits waits) stands move).elim
  | close runs current' finished =>
    cases current.symm.trans current'
    exact (not_ended_of_waits waits' finished).elim
  | serverKilled runs current' writes =>
    cases current.symm.trans current'
    exact (not_waits_of_writes writes waits').elim
  | @clientKilled j known alive writes =>
    by_cases same : i = j
    · subst same
      exact (not_waits_of_writes writes waits).elim
    · exact ⟨current, set_line_ne same _, rfl, rfl⟩

/-- As long as it stands, the server closes no connection and touches no other one. -/
theorem stalled_blocks (sound : Sound client server s) {i : ι} (current : s.current = some i)
    (stalled : Stalled (s.line i)) (history : History backlog s s')
    (stands : (s'.line i).broken = false) : s'.current = some i ∧ s'.closed = s.closed ∧
      ∀ j, j ≠ i → j ∉ s.closed → Untouched server (s'.line j) := by
  have kept : Sound client server s' ∧ s'.current = some i ∧ s'.line i = s.line i ∧
      s'.closed = s.closed := by
    induction history with
    | refl => exact ⟨sound, current, rfl, rfl⟩
    | @tail s' s'' history happens ih =>
      have steps : Steps (s'.line i) (s''.line i) :=
        steps_of_happens (sound_later sound history).closed happens i
      have before : (s'.line i).broken = false := by
        cases broken : (s'.line i).broken with
        | false => rfl
        | true => cases stands.symm.trans (broken_of_steps steps broken)
      obtain ⟨sound', current', same, closed⟩ := ih before
      have sound'' := sound_of_happens sound' happens
      rcases happens with act | fails
      · obtain ⟨current'', same', closed', _⟩ :=
          stalled_of_acts sound' current' (same ▸ stalled) act
        exact ⟨sound'', current'', same'.trans same, closed'.trans closed⟩
      · cases fails with
        | missed => exact ⟨sound'', current', same, closed⟩
        | @cut j =>
          have other : i ≠ j := by
            rintro rfl
            rw [set_line_self] at stands
            cases stands
          exact ⟨sound'', current', (set_line_ne other _).trans same, closed⟩
  obtain ⟨sound', current', _, closed⟩ := kept
  refine ⟨current', closed, fun j other away => sound'.untouched j (closed ▸ away) ?_⟩
  rw [current']
  exact fun same => other (Option.some.inj same).symm

end Ends

section Bounds

variable [Fintype ι] {client : ι → Program ε α} {server : Program δ β}
  {s s' : Service ι ε α δ β} {backlog : Nat}

/-- Clients without a connection. -/
def fresh (s : Service ι ε α δ β) : Finset ι :=
  Finset.univ.filter fun i => i ∉ s.order ∧ i ∉ s.unreached

def alive (s : Service ι ε α δ β) : Finset ι := Finset.univ.filter fun i => i ∉ s.killed

/-- Connections to be made, accepted and closed, and clients that may be killed. -/
def remaining (s : Service ι ε α δ β) : Nat :=
  3 * s.fresh.card + 2 * s.queue.length + s.current.toList.length + s.alive.card

/-- The server process first, then `remaining`, then the connections. -/
def Later (s' s : Service ι ε α δ β) : Prop :=
  Prod.Lex (· < ·) (Prod.Lex (· < ·)
      (Pi.Lex WellOrderingRel fun {_ : ι} (later now : Connection ε α δ β) => Step now later))
    (s'.running.toNat, s'.remaining, s'.line) (s.running.toNat, s.remaining, s.line)

omit [Fintype ι] in
theorem pi_lex_update {line : ι → Connection ε α δ β} {i : ι}
    {c : Connection ε α δ β} (step : Step (line i) c) :
    Pi.Lex WellOrderingRel (fun {_ : ι} (later now : Connection ε α δ β) => Step now later)
      (Function.update line i c) line := by
  refine ⟨i, fun j before => ?_, ?_⟩
  · have other : j ≠ i := by
      rintro rfl
      exact irrefl_of WellOrderingRel j before
    simp only [Function.update_of_ne other]
  · simpa only [Function.update_self] using step

theorem later_of_step {i : ι} {c : Connection ε α δ β} (step : Step (s.line i) c) :
    Later (s.set i c) s := .right _ (.right _ (pi_lex_update step))

theorem later_of_remaining (same : s'.running = s.running) (less : s'.remaining < s.remaining) :
    Later s' s := by
  rw [Later, same]
  exact .right _ (.left _ _ less)

theorem fresh_lt {i : ι} (unknown : i ∉ s.order) (missing : i ∉ s.unreached)
    (gone : i ∉ s'.fresh) (others : s'.fresh ⊆ s.fresh) : s'.fresh.card < s.fresh.card := by
  refine Finset.card_lt_card ⟨others, fun all => gone (all ?_)⟩
  exact Finset.mem_filter.mpr ⟨Finset.mem_univ i, unknown, missing⟩

theorem later_of_missed {i : ι} (unknown : i ∉ s.order) (missing : i ∉ s.unreached) :
    Later { s with unreached := i :: s.unreached } s := by
  have less : Finset.card (fresh { s with unreached := i :: s.unreached }) < s.fresh.card := by
    refine fresh_lt unknown missing ?_ fun j mem => ?_
    · simp [fresh]
    · obtain ⟨_, out, away⟩ := Finset.mem_filter.mp mem
      exact Finset.mem_filter.mpr ⟨Finset.mem_univ j, out, fun old => away (.tail i old)⟩
  refine later_of_remaining rfl ?_
  simp only [remaining, alive] at less ⊢
  omega

/-- Whatever happens brings the end nearer. -/
theorem later_of_happens (sound : Sound client server s) (happens : Happens backlog s s') :
    Later s' s := by
  rcases happens with act | fails
  · cases act with
    | @connect i runs unknown missing =>
      have less : Finset.card (fresh { s with queue := s.queue ++ [i] }) < s.fresh.card := by
        refine fresh_lt unknown missing ?_ fun j mem => ?_
        · simp [fresh, order, standing]
        · simp only [fresh, order, standing, Finset.mem_filter, List.mem_append] at mem ⊢
          tauto
      refine later_of_remaining rfl ?_
      simp only [remaining, alive, List.length_append, List.length_singleton] at less ⊢
      omega
    | refused stopped unknown missing => exact later_of_missed unknown missing
    | @accept i rest runs idle waiting =>
      have same : order { s with current := some i, queue := rest } = s.order := by
        simp only [order, standing, idle, waiting, Option.toList_some, Option.toList_none,
          List.nil_append, List.singleton_append]
      refine later_of_remaining rfl ?_
      simp only [remaining, fresh, alive, same, idle, waiting, Option.toList_some,
        Option.toList_none, List.length_cons, List.length_nil]
      omega
    | @client i c down up known goes move =>
      exact later_of_step (.client (move.mono (sound.closed i)))
    | server runs current move => exact later_of_step (.server move)
    | @close i runs current finished =>
      have same : order { s with current := none, closed := s.closed ++ [i] } = s.order := by
        simp only [order, standing, current, Option.toList_some, Option.toList_none,
          List.append_assoc, List.nil_append]
      refine later_of_remaining rfl ?_
      simp only [remaining, fresh, alive, same, current, Option.toList_some, Option.toList_none,
        List.length_cons, List.length_nil]
      omega
    | serverKilled runs =>
      refine .left _ _ ?_
      rw [runs]
      exact Nat.zero_lt_one
    | @clientKilled i known goes =>
      have less : Finset.card (alive { s.set i (breaks (s.line i)) with killed := i :: s.killed }) <
          s.alive.card := by
        refine Finset.card_lt_card ⟨fun j mem => ?_, fun all => ?_⟩
        · have away := (Finset.mem_filter.mp mem).2
          exact Finset.mem_filter.mpr ⟨Finset.mem_univ j, fun old => away (.tail i old)⟩
        · have mem := all (Finset.mem_filter.mpr ⟨Finset.mem_univ i, goes⟩)
          exact (Finset.mem_filter.mp mem).2 List.mem_cons_self
      refine later_of_remaining rfl ?_
      change 3 * s.fresh.card + 2 * s.queue.length + s.current.toList.length + _ < s.remaining
      rw [remaining]
      omega
  · cases fails with
    | missed unknown missing => exact later_of_missed unknown missing
    | @cut i kept kept' known unbroken part part' =>
      refine later_of_step ?_
      generalize s.line i = line at unbroken part part'
      obtain ⟨p, q, ⟨t, f⟩, ⟨t', f'⟩, broken⟩ := line
      cases unbroken
      exact .cut part part'

theorem wellFounded_later :
    WellFounded fun s' s : Service ι ε α δ β => Later s' s :=
  InvImage.wf (fun s : Service ι ε α δ β => (s.running.toNat, s.remaining, s.line))
    (Nat.lt_wfRel.wf.prod_lex (Nat.lt_wfRel.wf.prod_lex
      (Pi.Lex.wellFounded WellOrderingRel fun _ => wellFounded_step)))

/-- No history goes on for ever. -/
theorem no_endless_history (backlog : Nat) (sound : Sound client server s)
    (history : Nat → Service ι ε α δ β) (start : history 0 = s) :
    ∃ n, ¬ Happens backlog (history n) (history (n + 1)) := by
  by_contra endless
  simp only [not_exists, not_not] at endless
  have sounds : ∀ n, Sound client server (history n) := by
    intro n
    induction n with
    | zero => rwa [start]
    | succ n ih => exact sound_of_happens ih (endless n)
  obtain ⟨n, same⟩ := wellFounded_later.has_min (Set.range history) ⟨_, 0, rfl⟩
  obtain ⟨⟨m, rfl⟩, least⟩ := same
  exact least (history (m + 1)) ⟨m + 1, rfl⟩ (later_of_happens (sounds m) (endless m))

/-- What the processes do comes to an end. -/
theorem exists_settled (backlog : Nat) (sound : Sound client server s) :
    ∃ s', ReflTransGen (Acts backlog) s s' ∧ Settled backlog s' := by
  have ends := wellFounded_later (ι := ι) (ε := ε) (α := α) (δ := δ) (β := β)
  induction s using ends.induction with
  | _ s ih =>
    by_cases settled : Settled backlog s
    · exact ⟨s, .refl, settled⟩
    · obtain ⟨next, act⟩ := not_forall.mp settled
      have act := not_not.mp act
      have happens : Happens backlog s next := Or.inl act
      obtain ⟨s', acts, settled⟩ :=
        ih next (later_of_happens sound happens) (sound_of_happens sound happens)
      exact ⟨s', .head act acts, settled⟩

end Bounds

end Service

end ByteStream
