import FheSql.Lib.Progress

/-!
# Connections that look alike

Who watches a connection sees how many bytes are on their way and how many have come,
when the connection breaks and when an end is closed, not what the bytes say. Programs
whose calls are of the same sizes, whatever they are fed of two inputs of one length,
make connections that cannot be told apart: each step of one is a step of the other that
is seen as the same.
-/

namespace ByteStream

open BinaryCodec Relation

variable {ε ε' α α' β β' δ δ' : Type}

/-- What a program may still read and still send. -/
structure Feed where
  inp : Bytes
  out : Bytes

/-- Fed with beginnings of their inputs, two programs make calls of the same sizes and send
along their outputs. Both fail, or both end with results and feeds in `Q`. -/
inductive Mirrors (Q : α → α' → Feed → Feed → Prop) :
    Program ε α → Feed → Program ε' α' → Feed → Prop where
  | done {a a' s s'} : Q a a' s s' → Mirrors Q (.done a) s (.done a') s'
  | fail {e e' s s'} : Mirrors Q (.fail e) s (.fail e') s'
  | recv {n asks asks' next next' s s'} : s.inp.length = s'.inp.length →
      (∀ k, 0 < k → k ≤ n → k ≤ s.inp.length →
        Mirrors Q (next (s.inp.take k)) ⟨s.inp.drop k, s.out⟩
          (next' (s'.inp.take k)) ⟨s'.inp.drop k, s'.out⟩) →
      Mirrors Q (next []) ⟨[], s.out⟩ (next' []) ⟨[], s'.out⟩ →
      Mirrors Q (.recv n asks next) s (.recv n asks' next') s'
  | send {bytes bytes' holds holds' next next' s s'} : bytes <+: s.out → bytes' <+: s'.out →
      bytes.length = bytes'.length →
      (∀ k, k ≤ bytes.length →
        Mirrors Q (next k) ⟨s.inp, s.out.drop k⟩ (next' k) ⟨s'.inp, s'.out.drop k⟩) →
      Mirrors Q (.send bytes holds next) s (.send bytes' holds' next') s'

section Rules

variable {Q : α → α' → Feed → Feed → Prop} {S : β → β' → Feed → Feed → Prop}
  {p : Program ε α} {p' : Program ε' α'} {s s' : Feed}

theorem mirrors_pure {a : α} {a' : α'} (ends : Q a a' s s') :
    Mirrors Q (pure a : Program ε α) s (pure a' : Program ε' α') s' := .done ends

theorem mirrors_bind {f : α → Program ε β} {f' : α' → Program ε' β'}
    (first : Mirrors Q p s p' s')
    (rest : ∀ a a' t t', Q a a' t t' → Mirrors S (f a) t (f' a') t') :
    Mirrors S (p >>= f) s (p' >>= f') s' := by
  induction first with
  | done ends => exact rest _ _ _ _ ends
  | fail => exact .fail
  | recv length _ _ ih closed => exact .recv length ih closed
  | send part part' length _ ih => exact .send part part' length ih

/-- Both end, with these results and feeds. -/
def Exactly (a : α) (a' : α') (t t' : Feed) : α → α' → Feed → Feed → Prop :=
  fun b b' u u' => b = a ∧ b' = a' ∧ u = t ∧ u' = t'

theorem exactly_self {a : α} {a' : α'} {t t' : Feed} : Exactly a a' t t' a a' t t' :=
  ⟨rfl, rfl, rfl, rfl⟩

theorem mirrors_seq {f : α → Program ε β} {f' : α' → Program ε' β'} {a : α} {a' : α'}
    {t t' : Feed} (first : Mirrors (Exactly a a' t t') p s p' s')
    (rest : Mirrors S (f a) t (f' a') t') : Mirrors S (p >>= f) s (p' >>= f') s' := by
  refine mirrors_bind first ?_
  rintro _ _ _ _ ⟨rfl, rfl, rfl, rfl⟩
  exact rest

theorem mirrors_handle {f : ε → Program ε α} {f' : ε' → Program ε' α'}
    (first : Mirrors Q p s p' s') (rest : ∀ e e' t t', Mirrors Q (f e) t (f' e') t') :
    Mirrors Q (tryCatch p f) s (tryCatch p' f') s' := by
  change Mirrors Q (p.handle f) s (p'.handle f') s'
  induction first with
  | done ends => exact .done ends
  | fail => exact rest _ _ _ _
  | recv length _ _ ih closed => exact .recv length ih closed
  | send part part' length _ ih => exact .send part part' length ih

theorem mirrors_symm (h : Mirrors Q p s p' s') :
    Mirrors (fun a' a t' t => Q a a' t t') p' s' p s := by
  induction h with
  | done ends => exact .done ends
  | fail => exact .fail
  | recv length _ _ ih closed =>
    exact .recv length.symm (fun k some short enough => ih k some short (length ▸ enough)) closed
  | send part part' length _ ih =>
    exact .send part' part length.symm fun k short => ih k (length ▸ short)

/-- Loops that read as many bytes end with all of them, or fail. -/
theorem mirrors_readLoop {Q : Bytes → Bytes → Feed → Feed → Prop} {closed : ε} {closed' : ε'}
    {got got' : Bytes} {n : Nat} (same : s.inp.length = s'.inp.length)
    (ends : n ≤ s.inp.length → Q (got ++ s.inp.take n) (got' ++ s'.inp.take n)
      ⟨s.inp.drop n, s.out⟩ ⟨s'.inp.drop n, s'.out⟩) :
    Mirrors Q (.readLoop closed got n) s (.readLoop closed' got' n) s' := by
  induction n using Nat.strongRecOn generalizing got got' s s' with
  | ind n ih =>
    rw [Program.readLoop, Program.readLoop]
    by_cases enough : n = 0
    · rw [dif_pos enough, dif_pos enough]
      subst enough
      refine .done ?_
      simpa only [List.take_zero, List.drop_zero, List.append_nil] using ends (Nat.zero_le _)
    · rw [dif_neg enough, dif_neg enough]
      refine .recv same (fun k some short has => ?_) ?_
      · have nonempty : s.inp.take k ≠ [] := by
          refine List.ne_nil_of_length_pos ?_
          rw [List.length_take]
          omega
        have nonempty' : s'.inp.take k ≠ [] := by
          refine List.ne_nil_of_length_pos ?_
          rw [List.length_take]
          omega
        have taken : (s.inp.take k).length = k := List.length_take_of_le has
        have taken' : (s'.inp.take k).length = k := List.length_take_of_le (same ▸ has)
        rw [if_neg nonempty, if_neg nonempty', taken, taken']
        refine ih (n - k) (by omega) ?_ fun fits => ?_
        · simp only [List.length_drop, same]
        · rw [List.length_drop] at fits
          have whole := ends (by omega)
          have split : n = k + (n - k) := by omega
          rw [split, List.take_add, List.take_add, ← List.append_assoc, ← List.append_assoc,
            ← List.drop_drop, ← List.drop_drop] at whole
          exact whole
      · rw [if_pos rfl, if_pos rfl]
        exact .fail

/-- Loops that send as many bytes end when all are sent, or fail. -/
theorem mirrors_writeLoop {Q : Unit → Unit → Feed → Feed → Prop} {failed : ε} {failed' : ε'}
    {bytes bytes' o o' : Bytes} (same : bytes.length = bytes'.length)
    (out : s.out = bytes ++ o) (out' : s'.out = bytes' ++ o')
    (ends : Q () () ⟨s.inp, o⟩ ⟨s'.inp, o'⟩) :
    Mirrors Q (.writeLoop failed bytes) s (.writeLoop failed' bytes') s' := by
  induction hn : bytes.length using Nat.strongRecOn generalizing bytes bytes' s s' with
  | ind n ih =>
    subst hn
    obtain ⟨i, _⟩ := s
    obtain ⟨i', _⟩ := s'
    cases out
    cases out'
    rw [Program.writeLoop, Program.writeLoop]
    by_cases none : bytes = []
    · subst none
      obtain rfl := List.length_eq_zero_iff.mp same.symm
      rw [dif_pos rfl, dif_pos rfl]
      exact .done ends
    · have none' : bytes' ≠ [] := by
        rintro rfl
        exact none (List.length_eq_zero_iff.mp same)
      have some := List.length_pos_of_ne_nil none
      rw [dif_neg none, dif_neg none']
      refine .send (List.prefix_append _ _) (List.prefix_append _ _) same fun k short => ?_
      by_cases refused : k = 0
      · rw [if_pos refused, if_pos refused]
        exact .fail
      · rw [if_neg refused, if_neg refused]
        have short' : k ≤ bytes'.length := same ▸ short
        refine ih (bytes.drop k).length ?_ ?_ ?_ ?_ ends rfl
        · rw [List.length_drop]
          omega
        · rw [List.length_drop, List.length_drop, same]
        · exact List.drop_append_of_le_length short
        · exact List.drop_append_of_le_length short'

end Rules

/-- The sizes that a moment of a connection shows. -/
structure View where
  upTaken : Nat
  upFlight : Nat
  downTaken : Nat
  downFlight : Nat
  broken : Bool
  clientEnded : Bool
  serverEnded : Bool
  deriving DecidableEq, Repr

def Connection.view (now : Connection ε α δ β) : View where
  upTaken := now.up.taken.length
  upFlight := now.up.flight.length
  downTaken := now.down.taken.length
  downFlight := now.down.flight.length
  broken := now.broken
  clientEnded := now.client.result?.isSome
  serverEnded := now.server.result?.isSome

/-- The views of a run, moment by moment. -/
inductive Seen : Connection ε α δ β → List View → Prop where
  | last {now} : Seen now [now.view]
  | step {now later views} : Step now later → Seen later views → Seen now (now.view :: views)

/-- Mirror images, of which nothing is asked when they end. -/
abbrev Images (p : Program ε α) (s : Feed) (p' : Program ε' α') (s' : Feed) : Prop :=
  Mirrors (fun _ _ _ _ => True) p s p' s'

theorem ended_eq_of_mirrors {Q : α → α' → Feed → Feed → Prop} {p : Program ε α}
    {p' : Program ε' α'} {s s' : Feed} (h : Mirrors Q p s p' s') :
    p.result?.isSome = p'.result?.isSome := by
  cases h with
  | done => rfl
  | fail => rfl
  | recv => rfl
  | send => rfl

/-- Wires with as many bytes. The reader of the first is to read `inp` and its writer to
send `out`, those of the second `inp'` and `out'`: what is on its way comes next, and while
the writer is heard, what it is to send comes behind that. -/
structure Wire.Alike (heard : Prop) (w w' : Wire) (inp out inp' out' : Bytes) : Prop where
  taken : w.taken.length = w'.taken.length
  flight : w.flight.length = w'.flight.length
  part : w.flight <+: inp
  part' : w'.flight <+: inp'
  whole : heard → w.flight ++ out = inp
  whole' : heard → w'.flight ++ out' = inp'

namespace Wire

variable {heard heard' : Prop} {w w' : Wire} {t t' f f' bytes bytes' rest : Bytes}
  {inp out inp' out' : Bytes}

theorem Alike.symm (h : Alike heard w w' inp out inp' out') :
    Alike heard w' w inp' out' inp out where
  taken := h.taken.symm
  flight := h.flight.symm
  part := h.part'
  part' := h.part
  whole := h.whole'
  whole' := h.whole

theorem Alike.mono (h : Alike heard w w' inp out inp' out') (still : heard' → heard) :
    Alike heard' w w' inp out inp' out' :=
  { h with whole := fun now => h.whole (still now), whole' := fun now => h.whole' (still now) }

/-- A reader takes the first bytes on their way; the other one can take as many. -/
theorem Alike.take (h : Alike heard ⟨t, bytes ++ rest⟩ ⟨t', f'⟩ inp out inp' out') :
    bytes.length ≤ inp.length ∧ bytes = inp.take bytes.length ∧
      ∃ rest', f' = inp'.take bytes.length ++ rest' ∧
        (inp'.take bytes.length).length = bytes.length ∧
        Alike heard ⟨t ++ bytes, rest⟩ ⟨t' ++ inp'.take bytes.length, rest'⟩
          (inp.drop bytes.length) out (inp'.drop bytes.length) out' := by
  obtain ⟨more, rfl⟩ : bytes ++ rest <+: inp := h.part
  obtain ⟨more', rfl⟩ : f' <+: inp' := h.part'
  have long : (bytes ++ rest).length = f'.length := h.flight
  have taken : t.length = t'.length := h.taken
  rw [List.length_append] at long
  have short : bytes.length ≤ f'.length := by omega
  have first : (f' ++ more').take bytes.length = f'.take bytes.length :=
    List.take_append_of_le_length short
  have behind : (f' ++ more').drop bytes.length = f'.drop bytes.length ++ more' :=
    List.drop_append_of_le_length short
  have own : (bytes ++ rest ++ more).drop bytes.length = rest ++ more := by
    rw [List.append_assoc, List.drop_left]
  rw [first, behind, own]
  refine ⟨?_, ?_, f'.drop bytes.length, (List.take_append_drop _ _).symm,
    List.length_take_of_le short, ?_⟩
  · simp only [List.length_append]
    omega
  · rw [List.append_assoc, List.take_left]
  · refine ⟨?_, ?_, List.prefix_append _ _, List.prefix_append _ _, fun now => ?_, fun now => ?_⟩
    · simp only [List.length_append, List.length_take_of_le short, taken]
    · change rest.length = (f'.drop bytes.length).length
      rw [List.length_drop]
      omega
    · have all := h.whole now
      rw [List.append_assoc, List.append_assoc] at all
      exact List.append_cancel_left all
    · have all : f' ++ out' = f' ++ more' := h.whole' now
      rw [List.append_cancel_left all]

/-- A writer that is heard sends the first bytes of what it is to send. -/
theorem Alike.put (h : Alike heard ⟨t, f⟩ ⟨t', f'⟩ inp out inp' out') (now : heard)
    (part : bytes <+: out) (part' : bytes' <+: out') (same : bytes.length = bytes'.length)
    {k : Nat} (short : k ≤ bytes.length) :
    Alike heard ⟨t, f ++ bytes.take k⟩ ⟨t', f' ++ bytes'.take k⟩ inp (out.drop k) inp'
      (out'.drop k) := by
  obtain ⟨more, rfl⟩ := part
  obtain ⟨more', rfl⟩ := part'
  have short' : k ≤ bytes'.length := same ▸ short
  have flight : f.length = f'.length := h.flight
  have all : f ++ (bytes ++ more) = inp := h.whole now
  have all' : f' ++ (bytes' ++ more') = inp' := h.whole' now
  have split : f ++ bytes.take k ++ (bytes ++ more).drop k = inp := by
    rw [List.drop_append_of_le_length short, List.append_assoc, ← List.append_assoc (bytes.take k),
      List.take_append_drop, all]
  have split' : f' ++ bytes'.take k ++ (bytes' ++ more').drop k = inp' := by
    rw [List.drop_append_of_le_length short', List.append_assoc,
      ← List.append_assoc (bytes'.take k), List.take_append_drop, all']
  refine ⟨h.taken, ?_, ⟨_, split⟩, ⟨_, split'⟩, fun _ => split, fun _ => split'⟩
  simp only [List.length_append, List.length_take_of_le short, List.length_take_of_le short',
    flight]

/-- What is sent unheard makes no difference. -/
theorem Alike.lose (h : Alike heard w w' inp out inp' out') (unheard : ¬ heard) (o o' : Bytes) :
    Alike heard w w' inp o inp' o' :=
  { h with whole := fun now => (unheard now).elim, whole' := fun now => (unheard now).elim }

/-- A reader with nothing on its way and an unheard writer has nothing more to read. -/
theorem Alike.dry (h : Alike heard ⟨t, []⟩ w' inp out inp' out') (unheard : ¬ heard) :
    w'.flight = [] ∧ Alike heard ⟨t, []⟩ w' [] out [] out' := by
  have none : w'.flight = [] := List.length_eq_zero_iff.mp h.flight.symm
  refine ⟨none, h.taken, h.flight, List.nil_prefix, ?_, ?_, ?_⟩
  · rw [none]
  · exact fun now => (unheard now).elim
  · exact fun now => (unheard now).elim

theorem Alike.cut (h : Alike heard ⟨t, f⟩ ⟨t', f'⟩ inp out inp' out') {kept : Bytes}
    (part : kept <+: f) (unheard : ¬ heard') :
    f'.take kept.length <+: f' ∧
      Alike heard' ⟨t, kept⟩ ⟨t', f'.take kept.length⟩ inp out inp' out' := by
  have flight : f.length = f'.length := h.flight
  have short : kept.length ≤ f'.length := flight ▸ part.length_le
  refine ⟨List.take_prefix _ _, h.taken, (List.length_take_of_le short).symm,
    part.trans h.part, (List.take_prefix _ _).trans h.part', ?_, ?_⟩
  · exact fun now => (unheard now).elim
  · exact fun now => (unheard now).elim

end Wire

/-- A call of one program is a call of its mirror image, of the same size. -/
theorem mirrors_move {p q : Program ε α} {p' : Program ε' α'} {s s' : Feed}
    {inp inp₁ inp' out out₁ out' : Wire} {gone gone' heard : Prop} {broken : Bool}
    {i i' o o' : Bytes} (move : Move gone broken p inp out q inp₁ out₁)
    (images : Images p s p' s') (same : gone → gone') (mute : gone ∨ broken = true → ¬ heard)
    (reads : Wire.Alike heard inp inp' s.inp o s'.inp o')
    (writes : Wire.Alike (broken = false) out out' i s.out i' s'.out) :
    ∃ q' inp₁' out₁' t t', Move gone' broken p' inp' out' q' inp₁' out₁' ∧ Images q t q' t' ∧
      Wire.Alike heard inp₁ inp₁' t.inp o t'.inp o' ∧
      Wire.Alike (broken = false) out₁ out₁' i t.out i' t'.out := by
  obtain ⟨taken', flight'⟩ := inp'
  cases move with
  | @recv n asks next t bytes rest _ nonempty short =>
    cases images with
    | recv _ later _ =>
      obtain ⟨enough, first, rest', rfl, size, reads⟩ := reads.take
      have some := List.length_pos_of_ne_nil nonempty
      have image := later bytes.length some short enough
      rw [← first] at image
      refine ⟨_, _, _, _, _, .recv (List.ne_nil_of_length_pos ?_) ?_, image, reads, writes⟩
      · omega
      · omega
  | closed finished =>
    cases images with
    | recv _ _ image =>
      obtain ⟨none, reads⟩ := reads.dry (mute finished)
      cases none
      exact ⟨_, _, _, _, _, .closed (finished.imp_left same), image, reads, writes⟩
  | send unbroken positive short =>
    cases images with
    | send part part' size later =>
      obtain ⟨_, _⟩ := out'
      exact ⟨_, _, _, _, _, .send unbroken positive (size ▸ short), later _ short, reads,
        writes.put unbroken part part' size short⟩
  | lost down positive short =>
    cases images with
    | send _ _ size later =>
      have unheard : ¬ broken = false := by rw [down]; exact Bool.noConfusion
      exact ⟨_, _, _, _, _, .lost down positive (size ▸ short), later _ short, reads,
        writes.lose unheard _ _⟩
  | refused finished =>
    cases images with
    | send _ _ _ later =>
      exact ⟨_, _, _, _, _, .refused (finished.imp_left same), later 0 (Nat.zero_le _), reads,
        writes⟩

/-- Connections of mirror images. -/
structure Connection.LooksLike (now : Connection ε α δ β) (now' : Connection ε' α' δ' β')
    (c c' s s' : Feed) : Prop where
  broken : now.broken = now'.broken
  client : Images now.client c now'.client c'
  server : Images now.server s now'.server s'
  up : Wire.Alike (now.broken = false ∧ ¬ now.client.result?.isSome = true) now.up now'.up
    s.inp c.out s'.inp c'.out
  down : Wire.Alike (now.broken = false ∧ ¬ now.server.result?.isSome = true) now.down now'.down
    c.inp s.out c'.inp s'.out

section LooksLike

variable {now later : Connection ε α δ β} {now' : Connection ε' α' δ' β'} {c c' s s' : Feed}

theorem Connection.LooksLike.symm (h : now.LooksLike now' c c' s s') :
    now'.LooksLike now c' c s' s where
  broken := h.broken.symm
  client := mirrors_symm h.client
  server := mirrors_symm h.server
  up := by
    rw [← h.broken, ← ended_eq_of_mirrors h.client]
    exact h.up.symm
  down := by
    rw [← h.broken, ← ended_eq_of_mirrors h.server]
    exact h.down.symm

theorem view_eq_of_looksLike (h : now.LooksLike now' c c' s s') : now.view = now'.view := by
  simp only [Connection.view, h.up.taken, h.up.flight, h.down.taken, h.down.flight, h.broken,
    ended_eq_of_mirrors h.client, ended_eq_of_mirrors h.server]

/-- Who looks the same goes on to look the same. -/
theorem looksLike_step (h : now.LooksLike now' c c' s s') (step : Step now later) :
    ∃ later' c₁ c₁' s₁ s₁', Step now' later' ∧ later.LooksLike later' c₁ c₁' s₁ s₁' := by
  obtain ⟨client', server', up', down', _⟩ := now'
  obtain ⟨same, client, server, up, down⟩ := h
  cases same
  have endsClient := ended_eq_of_mirrors client
  have endsServer := ended_eq_of_mirrors server
  have mute : ∀ {ended : Prop} {broken : Bool}, ended ∨ broken = true →
      ¬ (broken = false ∧ ¬ ended) := by
    rintro ended broken (gone | down) ⟨unbroken, going⟩
    · exact going gone
    · cases unbroken.symm.trans down
  cases step with
  | client move =>
    have heard := not_ended_of_move move
    obtain ⟨_, _, _, t, t', move', image, down, up⟩ := mirrors_move move client
      (fun ended => endsServer ▸ ended) mute down (up.mono fun now => ⟨now, heard⟩)
    exact ⟨_, t, t', s, s', .client move', rfl, image, server, up.mono And.left, down⟩
  | server move =>
    have heard := not_ended_of_move move
    obtain ⟨_, _, _, t, t', move', image, up, down⟩ := mirrors_move move server
      (fun ended => endsClient ▸ ended) mute up (down.mono fun now => ⟨now, heard⟩)
    exact ⟨_, c, c', t, t', .server move', rfl, client, image, up, down.mono And.left⟩
  | cut part part' =>
    obtain ⟨_, _⟩ := up'
    obtain ⟨_, _⟩ := down'
    have unheard : ∀ {going : Prop}, ¬ (true = false ∧ going) :=
      fun now => Bool.false_ne_true now.1.symm
    obtain ⟨kept, up⟩ := up.cut part unheard
    obtain ⟨kept', down⟩ := down.cut part' unheard
    exact ⟨_, c, c', s, s', .cut kept kept', rfl, client, server, up, down⟩

theorem seen_of_looksLike {views : List View} (h : now.LooksLike now' c c' s s')
    (seen : Seen now views) : Seen now' views := by
  induction seen generalizing now' c c' s s' with
  | last =>
    rw [view_eq_of_looksLike h]
    exact .last
  | step step _ ih =>
    obtain ⟨_, _, _, _, _, step', h'⟩ := looksLike_step h step
    rw [view_eq_of_looksLike h]
    exact .step step' (ih h')

/-- Of connections that look alike, the same runs are seen. -/
theorem seen_iff_of_looksLike {views : List View} (h : now.LooksLike now' c c' s s') :
    Seen now views ↔ Seen now' views :=
  ⟨seen_of_looksLike h, seen_of_looksLike h.symm⟩

/-- Two exchanges cannot be told apart where the clients are mirror images on the answers
that the servers are to send, and the servers on what the clients are to ask. -/
theorem seen_iff_of_images {client : Program ε α} {client' : Program ε' α'}
    {server : Program δ β} {server' : Program δ' β'} {asked asked' answered answered' : Bytes}
    (clients : Images client ⟨answered, asked⟩ client' ⟨answered', asked'⟩)
    (servers : Images server ⟨asked, answered⟩ server' ⟨asked', answered'⟩) {views : List View} :
    Seen (⟨client, server, {}, {}, false⟩ : Connection ε α δ β) views ↔
      Seen (⟨client', server', {}, {}, false⟩ : Connection ε' α' δ' β') views := by
  have empty : ∀ {heard : Prop} (bytes bytes' : Bytes),
      Wire.Alike heard {} {} bytes bytes bytes' bytes' := fun _ _ =>
    ⟨rfl, rfl, List.nil_prefix, List.nil_prefix, fun _ => rfl, fun _ => rfl⟩
  exact seen_iff_of_looksLike ⟨rfl, clients, servers, empty asked asked', empty answered answered'⟩

end LooksLike

end ByteStream
