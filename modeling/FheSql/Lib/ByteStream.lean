import FheSql.Lib.BinaryCodec

/-!
# Programs at one end of a byte stream

A program receives and sends through single calls that may be short: a receive
returns any number of the bytes that have arrived, a send accepts any number of
those it is given. `Runs` relates a program to all of its runs; what it reads is
a `Reader` and what it writes a fixed sequence, however the calls are split.
-/

namespace ByteStream

open BinaryCodec BinaryCodec.Codec

variable {ε α β : Type}

/-- `recv n` asks for at most `n` bytes and goes on with those received, `send`
with the number of bytes accepted; no byte is the answer of a connection that is
closed or fails. -/
inductive Program (ε α : Type) where
  | done (a : α)
  | fail (e : ε)
  | recv (n : Nat) (asks : 0 < n) (next : Bytes → Program ε α)
  | send (bytes : Bytes) (holds : bytes ≠ []) (next : Nat → Program ε α)

namespace Program

def bind : Program ε α → (α → Program ε β) → Program ε β
  | done a, f => f a
  | fail e, _ => fail e
  | recv n asks next, f => recv n asks fun bytes => (next bytes).bind f
  | send bytes holds next, f => send bytes holds fun sent => (next sent).bind f

def handle : Program ε α → (ε → Program ε α) → Program ε α
  | done a, _ => done a
  | fail e, f => f e
  | recv n asks next, f => recv n asks fun bytes => (next bytes).handle f
  | send bytes holds next, f => send bytes holds fun sent => (next sent).handle f

instance : Monad (Program ε) where
  pure := done
  bind := bind

instance : MonadExceptOf ε (Program ε) where
  throw := fail
  tryCatch := handle

/-- Receive until `remaining` more bytes have arrived behind `got`. -/
def readLoop (closed : ε) (got : Bytes) (remaining : Nat) : Program ε Bytes :=
  if enough : remaining = 0 then done got
  else recv remaining (Nat.pos_of_ne_zero enough) fun bytes =>
    if bytes = [] then fail closed
    else readLoop closed (got ++ bytes) (remaining - bytes.length)
termination_by remaining
decreasing_by
  rename_i nonempty
  have := List.length_pos_of_ne_nil nonempty
  omega

/-- Send until all bytes are accepted. -/
def writeLoop (failed : ε) (bytes : Bytes) : Program ε Unit :=
  if none : bytes = [] then done ()
  else send bytes none fun sent =>
    if sent = 0 then fail failed else writeLoop failed (bytes.drop sent)
termination_by bytes.length
decreasing_by
  have nonempty := none
  have := List.length_pos_of_ne_nil nonempty
  rw [List.length_drop]
  omega

end Program

open Program

/-- `Runs breaks p input out left r`: with `input` to arrive before the connection
is closed, `p` may send `out`, leave `left` unread and end with `r`. Sends fail
only if `breaks`. -/
inductive Runs (breaks : Prop) : Program ε α → Bytes → Bytes → Bytes → Except ε α → Prop where
  | done {a i} : Runs breaks (.done a) i [] i (.ok a)
  | fail {e i} : Runs breaks (.fail e) i [] i (.error e)
  | recv {n asks next bytes rest out left r} : bytes ≠ [] → bytes.length ≤ n →
      Runs breaks (next bytes) rest out left r →
      Runs breaks (.recv n asks next) (bytes ++ rest) out left r
  | closed {n asks next out left r} : Runs breaks (next []) [] out left r →
      Runs breaks (.recv n asks next) [] out left r
  | send {bytes holds next sent i out left r} : 0 < sent → sent ≤ bytes.length →
      Runs breaks (next sent) i out left r →
      Runs breaks (.send bytes holds next) i (bytes.take sent ++ out) left r
  | broken {bytes holds next i out left r} : breaks → Runs breaks (next 0) i out left r →
      Runs breaks (.send bytes holds next) i out left r

variable {breaks : Prop} {i out left : Bytes} {r : Except ε α}

theorem exists_runs (p : Program ε α) (breaks : Prop) (i : Bytes) :
    ∃ out left r, Runs breaks p i out left r := by
  induction p generalizing i with
  | done a => exact ⟨[], i, .ok a, .done⟩
  | fail e => exact ⟨[], i, .error e, .fail⟩
  | recv n asks next ih =>
    cases i with
    | nil =>
      obtain ⟨out, left, r, run⟩ := ih [] []
      exact ⟨out, left, r, .closed run⟩
    | cons b i =>
      obtain ⟨out, left, r, run⟩ := ih [b] i
      exact ⟨out, left, r, .recv (List.cons_ne_nil b []) asks run⟩
  | send bytes holds next ih =>
    obtain ⟨out, left, r, run⟩ := ih bytes.length i
    exact ⟨_, left, r, .send (List.length_pos_of_ne_nil holds) (Nat.le_refl _) run⟩

theorem runs_bind {x : Program ε α} {f : α → Program ε β} {r : Except ε β}
    (h : Runs breaks (x >>= f) i out left r) :
    (∃ e, Runs breaks x i out left (.error e) ∧ r = .error e) ∨
      ∃ a o middle o', Runs breaks x i o middle (.ok a) ∧ Runs breaks (f a) middle o' left r ∧
        out = o ++ o' := by
  induction x generalizing i out with
  | done a => exact Or.inr ⟨a, [], i, out, .done, h, rfl⟩
  | fail e =>
    cases h
    exact Or.inl ⟨e, .fail, rfl⟩
  | recv n asks next ih =>
    cases h with
    | recv nonempty short h =>
      rcases ih _ h with ⟨e, run, rfl⟩ | ⟨a, o, middle, o', run, run', rfl⟩
      · exact Or.inl ⟨e, .recv nonempty short run, rfl⟩
      · exact Or.inr ⟨a, o, middle, o', .recv nonempty short run, run', rfl⟩
    | closed h =>
      rcases ih _ h with ⟨e, run, rfl⟩ | ⟨a, o, middle, o', run, run', rfl⟩
      · exact Or.inl ⟨e, .closed run, rfl⟩
      · exact Or.inr ⟨a, o, middle, o', .closed run, run', rfl⟩
  | send bytes holds next ih =>
    cases h with
    | send positive short h =>
      rcases ih _ h with ⟨e, run, rfl⟩ | ⟨a, o, middle, o', run, run', rfl⟩
      · exact Or.inl ⟨e, .send positive short run, rfl⟩
      · exact Or.inr ⟨a, _, middle, o', .send positive short run, run',
          (List.append_assoc _ _ _).symm⟩
    | broken may h =>
      rcases ih _ h with ⟨e, run, rfl⟩ | ⟨a, o, middle, o', run, run', rfl⟩
      · exact Or.inl ⟨e, .broken may run, rfl⟩
      · exact Or.inr ⟨a, o, middle, o', .broken may run, run', rfl⟩

theorem runs_handle {x : Program ε α} {f : ε → Program ε α} {r : Except ε α}
    (h : Runs breaks (tryCatch x f) i out left r) :
    (∃ a, Runs breaks x i out left (.ok a) ∧ r = .ok a) ∨
      ∃ e o middle o', Runs breaks x i o middle (.error e) ∧ Runs breaks (f e) middle o' left r ∧
        out = o ++ o' := by
  change Runs breaks (x.handle f) i out left r at h
  induction x generalizing i out with
  | done a =>
    cases h
    exact Or.inl ⟨a, .done, rfl⟩
  | fail e => exact Or.inr ⟨e, [], i, out, .fail, h, rfl⟩
  | recv n asks next ih =>
    cases h with
    | recv nonempty short h =>
      rcases ih _ h with ⟨a, run, rfl⟩ | ⟨e, o, middle, o', run, run', rfl⟩
      · exact Or.inl ⟨a, .recv nonempty short run, rfl⟩
      · exact Or.inr ⟨e, o, middle, o', .recv nonempty short run, run', rfl⟩
    | closed h =>
      rcases ih _ h with ⟨a, run, rfl⟩ | ⟨e, o, middle, o', run, run', rfl⟩
      · exact Or.inl ⟨a, .closed run, rfl⟩
      · exact Or.inr ⟨e, o, middle, o', .closed run, run', rfl⟩
  | send bytes holds next ih =>
    cases h with
    | send positive short h =>
      rcases ih _ h with ⟨a, run, rfl⟩ | ⟨e, o, middle, o', run, run', rfl⟩
      · exact Or.inl ⟨a, .send positive short run, rfl⟩
      · exact Or.inr ⟨e, _, middle, o', .send positive short run, run',
          (List.append_assoc _ _ _).symm⟩
    | broken may h =>
      rcases ih _ h with ⟨a, run, rfl⟩ | ⟨e, o, middle, o', run, run', rfl⟩
      · exact Or.inl ⟨a, .broken may run, rfl⟩
      · exact Or.inr ⟨e, o, middle, o', .broken may run, run', rfl⟩

/-- A program that only receives, and ends as a reader does on what arrives. -/
def Reads (p : Program ε α) (get : Reader α) : Prop :=
  ∀ (breaks : Prop) i out left r, Runs breaks p i out left r → out = [] ∧
    ((∃ a, get i = some (a, left) ∧ r = .ok a) ∨ (get i = none ∧ ∃ e, r = .error e))

theorem reads_pure (a : α) : Reads (pure a : Program ε α) (Reader.pure a) := by
  intro breaks i out left r h
  cases h
  exact ⟨rfl, Or.inl ⟨a, rfl, rfl⟩⟩

theorem reads_fail (e : ε) : Reads (throw e : Program ε α) Reader.failed := by
  intro breaks i out left r h
  cases h
  exact ⟨rfl, Or.inr ⟨rfl, e, rfl⟩⟩

theorem reads_bind {p : Program ε α} {f : α → Program ε β} {get : Reader α}
    {next : α → Reader β} (first : Reads p get) (second : ∀ a, Reads (f a) (next a)) :
    Reads (p >>= f) (get.bind next) := by
  intro breaks i out left r h
  rcases runs_bind h with ⟨e, run, rfl⟩ | ⟨a, o, middle, o', run, run', rfl⟩
  · obtain ⟨silent, ⟨a, _, ok⟩ | ⟨none, _⟩⟩ := first breaks i out left _ run
    · cases ok
    · exact ⟨silent, Or.inr ⟨by rw [Reader.bind, none]; rfl, e, rfl⟩⟩
  · obtain ⟨rfl, ⟨a', found, ok⟩ | ⟨_, e, bad⟩⟩ := first breaks i o middle _ run
    · cases ok
      obtain ⟨rfl, rest⟩ := second a breaks middle o' left r run'
      refine ⟨rfl, ?_⟩
      rw [Reader.bind, found]
      exact rest
    · cases bad

theorem reads_readLoop (closed : ε) (got : Bytes) (n : Nat) :
    Reads (readLoop closed got n) fun i => (getExactly n i).map fun x => (got ++ x.1, x.2) := by
  induction n using Nat.strongRecOn generalizing got with
  | ind n ih =>
    intro breaks i out left r h
    rw [readLoop] at h
    by_cases enough : n = 0
    · rw [dif_pos enough] at h
      cases h
      refine ⟨rfl, Or.inl ⟨got, ?_, rfl⟩⟩
      simp [getExactly, enough]
    · rw [dif_neg enough] at h
      cases h with
      | closed h =>
        simp only [if_true] at h
        cases h
        refine ⟨rfl, Or.inr ⟨?_, closed, rfl⟩⟩
        simp [getExactly, enough]
      | @recv _ _ _ bytes rest _ _ _ nonempty short h =>
        simp only [if_neg nonempty] at h
        have progress := List.length_pos_of_ne_nil nonempty
        have tail := ih (n - bytes.length) (by omega) (got ++ bytes) breaks rest out left r h
        have same : (getExactly n (bytes ++ rest)).map (fun x => (got ++ x.1, x.2)) =
            (getExactly (n - bytes.length) rest).map fun x => (got ++ bytes ++ x.1, x.2) := by
          by_cases all : n ≤ (bytes ++ rest).length
          · have all' : n - bytes.length ≤ rest.length := by
              rw [List.length_append] at all
              omega
            simp only [getExactly, if_pos all, if_pos all', Option.map_some, List.append_assoc,
              List.take_append, List.drop_append, List.take_of_length_le short,
              List.drop_of_length_le short, List.nil_append]
          · have all' : ¬ n - bytes.length ≤ rest.length := by
              rw [List.length_append] at all
              omega
            simp only [getExactly, if_neg all, if_neg all', Option.map_none]
        simp only [same]
        exact tail

/-- A program that only sends: all of a sequence, to end with `a`, or when a send
fails a part. -/
def Emits (p : Program ε α) (bytes : Bytes) (a : α) : Prop :=
  ∀ (breaks : Prop) i out left r, Runs breaks p i out left r → left = i ∧
    ((r = .ok a ∧ out = bytes) ∨
      (breaks ∧ (∃ e, r = .error e) ∧ out <+: bytes ∧ out ≠ bytes))

theorem emits_pure (a : α) : Emits (pure a : Program ε α) [] a := by
  intro breaks i out left r h
  cases h
  exact ⟨rfl, Or.inl ⟨rfl, rfl⟩⟩

theorem emits_bind {p : Program ε α} {f : α → Program ε β} {x y : Bytes} {a : α} {b : β}
    (first : Emits p x a) (second : Emits (f a) y b) : Emits (p >>= f) (x ++ y) b := by
  intro breaks i out left r h
  rcases runs_bind h with ⟨e, run, rfl⟩ | ⟨a', o, middle, o', run, run', rfl⟩
  · obtain ⟨rfl, ⟨ok, _⟩ | ⟨may, _, part, proper⟩⟩ := first breaks i out left _ run
    · cases ok
    · refine ⟨rfl, Or.inr ⟨may, ⟨e, rfl⟩, part.trans (List.prefix_append x y), ?_⟩⟩
      rintro rfl
      have longer := part.length_le
      rw [List.length_append] at longer
      have none : y = [] := List.length_eq_zero_iff.mp (by omega)
      exact proper (by rw [none, List.append_nil])
  · obtain ⟨rfl, ⟨same, rfl⟩ | ⟨_, ⟨e, bad⟩, _⟩⟩ := first breaks i o middle _ run
    · cases same
      obtain ⟨rfl, ⟨rfl, rfl⟩ | ⟨may, failed, part, proper⟩⟩ := second breaks _ o' left r run'
      · exact ⟨rfl, Or.inl ⟨rfl, rfl⟩⟩
      · refine ⟨rfl, Or.inr ⟨may, failed, (List.prefix_append_right_inj o).mpr part, ?_⟩⟩
        exact fun same => proper (List.append_cancel_left same)
    · cases bad

/-- What a sending program has sent, whether a send has failed or not. -/
theorem Emits.sent {p : Program ε α} {bytes : Bytes} {a : α} (h : Emits p bytes a)
    (run : Runs breaks p i out left r) : out <+: bytes := by
  obtain ⟨_, ⟨_, rfl⟩ | ⟨_, _, part, _⟩⟩ := h breaks i out left r run
  · exact List.prefix_rfl
  · exact part

theorem Emits.whole {p : Program ε α} {bytes : Bytes} {a : α} (h : Emits p bytes a)
    (run : Runs False p i out left r) : out = bytes := by
  obtain ⟨_, ⟨_, whole⟩ | ⟨no, _⟩⟩ := h False i out left r run
  · exact whole
  · exact no.elim

theorem emits_writeLoop (failed : ε) (bytes : Bytes) : Emits (writeLoop failed bytes) bytes () := by
  induction hn : bytes.length using Nat.strongRecOn generalizing bytes with
  | ind n ih =>
    subst hn
    intro breaks i out left r h
    rw [writeLoop] at h
    by_cases none : bytes = []
    · rw [dif_pos none] at h
      cases h
      exact ⟨rfl, Or.inl ⟨rfl, none.symm⟩⟩
    · rw [dif_neg none] at h
      cases h with
      | broken may h =>
        simp only [if_true] at h
        cases h
        exact ⟨rfl, Or.inr ⟨may, ⟨failed, rfl⟩, List.nil_prefix, fun same => none same.symm⟩⟩
      | @send _ _ _ sent _ out _ _ positive short h =>
        simp only [if_neg (Nat.pos_iff_ne_zero.mp positive)] at h
        have smaller : (bytes.drop sent).length < bytes.length := by
          rw [List.length_drop]
          omega
        have split := List.take_append_drop sent bytes
        obtain ⟨rfl, ⟨rfl, rfl⟩ | ⟨may, failed, part, proper⟩⟩ :=
          ih _ smaller (bytes.drop sent) rfl breaks i out left r h
        · exact ⟨rfl, Or.inl ⟨rfl, split⟩⟩
        · refine ⟨rfl, Or.inr ⟨may, failed, ?_, fun same => proper ?_⟩⟩
          · have longer := (List.prefix_append_right_inj (bytes.take sent)).mpr part
            rwa [split] at longer
          · exact List.append_cancel_left (same.trans split.symm)

end ByteStream
