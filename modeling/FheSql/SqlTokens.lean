import FheSql.Parser
import Mathlib.Data.List.TakeWhile

/-!
# Tokens of a statement and their layout in a text

The parser has no tokenizer. Tokens are a reading of a text: words, numbers,
string literals and symbols with any white space between them, and some where
two of them would run together. A token does not say how its keyword is spelled;
a layout does.
-/

namespace FheSql.SqlTokens

open ByteText SQLParser

/-- The keywords the parser knows. -/
def keywords : List Str :=
  [str "SELECT", str "FROM", str "AS", str "INNER", str "JOIN", str "ON", str "WHERE", str "AND",
    str "OR", str "NOT", str "ORDER", str "BY", str "ASC", str "DESC", str "LIMIT"]

def symbols : List Str :=
  [str "*", str ",", str ".", str "(", str ")", str ";", str "=", str "!=", str ">", str "<",
    str ">=", str "<="]

/-- `table` is a table name written without an alias. -/
inductive Token where
  | keyword (kw : Str)
  | ident (name : Str)
  | table (name : Str)
  | int (neg : Bool) (digits : Str)
  | string (value : Str)
  | symbol (s : Str)
  deriving DecidableEq, Repr

def Identifier (name : Str) : Prop :=
  ∃ c tail, name = c :: tail ∧ (isAlpha c || c == 95) = true ∧ ∀ d ∈ tail, isIdentChar d = true

instance : DecidablePred Identifier
  | [] => isFalse nofun
  | c :: tail =>
    have : Decidable (∀ d ∈ tail, isIdentChar d = true) := List.decidableBAll _ tail
    decidable_of_iff ((isAlpha c || c == 95) = true ∧ ∀ d ∈ tail, isIdentChar d = true)
      ⟨fun h => ⟨c, tail, rfl, h⟩, fun ⟨_, _, same, h⟩ => by cases same; exact h⟩

/-- A value with its quotes doubled. -/
def doubled (value : Str) : Str := value.flatMap fun c => if c = 39 then [39, 39] else [c]

/-- Which spellings of a keyword a text may use. -/
abbrev Spelling := Str → Str → Prop

def exactly : Spelling := fun kw w => w = kw

def anyCase : Spelling := fun kw w => toUpper w = kw

variable {spell : Spelling}

/-- The texts of a token. -/
inductive Token.Writes (spell : Spelling) : Token → Str → Prop where
  | keyword {kw w} : kw ∈ keywords → spell kw w → Writes spell (.keyword kw) w
  | ident {name} : Identifier name → Writes spell (.ident name) name
  | table {name} : Identifier name → Writes spell (.table name) name
  | int {neg digits} : digits ≠ [] → (∀ c ∈ digits, isDigit c = true) →
      Writes spell (.int neg digits) ((if neg then [45] else []) ++ digits)
  | string {value : Str} : (∀ c ∈ value, ¬ 127 < c) →
      Writes spell (.string value) (39 :: (doubled value ++ [39]))
  | symbol {s} : s ∈ symbols → Writes spell (.symbol s) s

/-- The characters that would be read as a part of the token. -/
def Token.glues : Token → UInt8 → Bool
  | .keyword _, c => isIdentChar c
  | .ident _, c => isIdentChar c
  | .table _, c => isIdentChar c
  | .int _ _, c => isDigit c
  | .string _, c => c == 39
  | .symbol s, c => (s == str "<" || s == str ">") && c == 61

def Token.EndsBefore (t : Token) (rest : Str) : Prop := ∀ c ∈ rest.head?, t.glues c = false

/-- The text from `rest` to `stop` is laid out as tokens. -/
inductive Spans (spell : Spelling) : List Token → Str → Str → Prop where
  | nil {ws stop} : (∀ c ∈ ws, isSpace c = true) → Spans spell [] (ws ++ stop) stop
  | cons {ws t w ts rest stop} : (∀ c ∈ ws, isSpace c = true) → Token.Writes spell t w →
      t.EndsBefore rest → Spans spell ts rest stop → Spans spell (t :: ts) (ws ++ (w ++ rest)) stop

/-- A whole text is laid out as tokens. -/
def Lays (spell : Spelling) (ts : List Token) (text : Str) : Prop := Spans spell ts text []

/-- Spellings that differ from the keyword in letter case only. -/
def Spells (spell : Spelling) : Prop := ∀ kw ∈ keywords, ∀ w, spell kw w → toUpper w = kw

theorem spells_exactly : Spells exactly := by
  rintro kw known w rfl
  revert known
  exact (by decide : ∀ kw ∈ keywords, toUpper kw = kw) w

theorem spells_anyCase : Spells anyCase := fun _ _ _ same => same

theorem forall_byte {p : UInt8 → Prop} (h : ∀ n < 256, p (UInt8.ofNat n)) (c : UInt8) : p c := by
  have hc := h c.toNat c.toNat_lt
  rwa [UInt8.ofNat_toNat] at hc

theorem isAlpha_toUpperChar (c : UInt8) : isAlpha (toUpperChar c) = isAlpha c :=
  forall_byte (p := fun c => isAlpha (toUpperChar c) = isAlpha c) (by decide +kernel) c

theorem isIdentChar_toUpperChar (c : UInt8) : isIdentChar (toUpperChar c) = isIdentChar c :=
  forall_byte (p := fun c => isIdentChar (toUpperChar c) = isIdentChar c) (by decide +kernel) c

theorem not_isSpace_of_isIdentChar {c : UInt8} : isIdentChar c = true → isSpace c = false :=
  forall_byte (p := fun c => isIdentChar c = true → isSpace c = false) (by decide +kernel) c

theorem isIdentChar_of_start {c : UInt8} : (isAlpha c || c == 95) = true → isIdentChar c = true :=
  forall_byte (p := fun c => (isAlpha c || c == 95) = true → isIdentChar c = true)
    (by decide +kernel) c

theorem isIdentChar_of_isDigit {c : UInt8} : isDigit c = true → isIdentChar c = true :=
  forall_byte (p := fun c => isDigit c = true → isIdentChar c = true) (by decide +kernel) c

theorem not_start_of_isDigit {c : UInt8} : isDigit c = true → (isAlpha c || c == 95) = false :=
  forall_byte (p := fun c => isDigit c = true → (isAlpha c || c == 95) = false)
    (by decide +kernel) c

/-- A keyword begins with a letter in every letter case. -/
theorem keyword_identifier {kw w : Str} (known : kw ∈ keywords) (same : toUpper w = kw) :
    Identifier w := by
  have shape : ∀ kw ∈ keywords, ∀ c ∈ kw, isAlpha c = true := by decide +kernel
  have nonempty : ∀ kw ∈ keywords, kw ≠ [] := by decide
  have alpha : ∀ c ∈ w, isAlpha c = true := by
    intro c mem
    have h := shape kw known (toUpperChar c) (same ▸ List.mem_map_of_mem mem)
    rwa [isAlpha_toUpperChar] at h
  cases w with
  | nil => exact (nonempty kw known same.symm).elim
  | cons c tail =>
    refine ⟨c, tail, rfl, ?_, fun d mem => isIdentChar_of_start ?_⟩
    · rw [alpha c List.mem_cons_self]
      rfl
    · rw [alpha d (List.mem_cons_of_mem c mem)]
      rfl

theorem Identifier.all {name : Str} (h : Identifier name) : ∀ c ∈ name, isIdentChar c = true := by
  obtain ⟨c, tail, rfl, start, more⟩ := h
  intro d mem
  rcases List.mem_cons.mp mem with rfl | mem
  · exact isIdentChar_of_start start
  · exact more d mem

/-- A run of characters in front of one that is not of their kind. -/
theorem span_run {p : UInt8 → Bool} {run rest : Str} (all : ∀ c ∈ run, p c = true)
    (stops : ∀ c ∈ rest.head?, p c = false) :
    (run ++ rest).takeWhile p = run ∧ (run ++ rest).dropWhile p = rest := by
  have none : rest.takeWhile p = [] ∧ rest.dropWhile p = rest := by
    cases rest with
    | nil => exact ⟨rfl, rfl⟩
    | cons c rest =>
      have h := stops c rfl
      rw [List.takeWhile_cons, List.dropWhile_cons, h]
      exact ⟨rfl, rfl⟩
  rw [List.takeWhile_append_of_pos all, List.dropWhile_append_of_pos all, none.1, none.2]
  exact ⟨List.append_nil run, rfl⟩

/-- The character a token begins with is no white space. -/
theorem writes_head {t : Token} {w : Str} (spells : Spells spell) (h : t.Writes spell w) :
    ∃ c tail, w = c :: tail ∧ isSpace c = false := by
  have word : ∀ {name : Str}, Identifier name → ∃ c tail, name = c :: tail ∧ isSpace c = false := by
    rintro name ⟨c, tail, rfl, start, _⟩
    exact ⟨c, tail, rfl, not_isSpace_of_isIdentChar (isIdentChar_of_start start)⟩
  cases h with
  | keyword known spelled => exact word (keyword_identifier known (spells _ known _ spelled))
  | ident identifier => exact word identifier
  | table identifier => exact word identifier
  | @int neg digits nonempty all =>
    cases neg with
    | true => exact ⟨45, digits, rfl, rfl⟩
    | false =>
      obtain ⟨c, tail, rfl⟩ := List.exists_cons_of_ne_nil nonempty
      exact ⟨c, tail, rfl, not_isSpace_of_isIdentChar
        (isIdentChar_of_isDigit (all c List.mem_cons_self))⟩
  | string => exact ⟨39, _, rfl, rfl⟩
  | symbol known =>
    have shape := (by decide : ∀ s ∈ symbols, s.head?.map isSpace = some false) w known
    obtain ⟨c, head, solid⟩ := Option.map_eq_some_iff.mp shape
    obtain ⟨tail, rfl⟩ := List.head?_eq_some_iff.mp head
    exact ⟨c, tail, rfl, solid⟩

/-- Nothing runs into a symbol but an equality sign into one of order. -/
theorem symbol_endsBefore {c : UInt8} (plain : c ≠ 60 ∧ c ≠ 62) (rest : Str) :
    (Token.symbol [c]).EndsBefore rest := by
  intro d _
  have first : ([c] == str "<") = false ∧ ([c] == str ">") = false := by
    rw [beq_eq_false_iff_ne, beq_eq_false_iff_ne]
    exact ⟨fun same => plain.1 (List.cons.inj same).1, fun same => plain.2 (List.cons.inj same).1⟩
  rw [Token.glues, first.1, first.2]
  rfl

/-- A layout of tokens in a text of bounded length. -/
structure At (spell : Spelling) (ts : List Token) (n : Nat) (rest : Str) : Prop where
  lays : Lays spell ts rest
  short : rest.length ≤ n

variable {ts : List Token} {n : Nat} {rest stop : Str} (size : Nat)

theorem At.mono {m : Nat} (h : At spell ts n rest) (le : n ≤ m) : At spell ts m rest :=
  ⟨h.lays, le_trans h.short le⟩

theorem skipWS_append {ws : Str} (space : ∀ c ∈ ws, isSpace c = true) (rest : Str) :
    skipWS (ws ++ rest) = skipWS rest := List.dropWhile_append_of_pos space

theorem skipWS_solid {c : UInt8} (solid : isSpace c = false) (rest : Str) :
    skipWS (c :: rest) = c :: rest := by
  rw [skipWS, List.dropWhile_cons, solid]
  rfl

/-- The first token of a layout behind its white space. -/
theorem spans_cons {t : Token} (spells : Spells spell) (h : Spans spell (t :: ts) rest stop) :
    ∃ w next, skipWS rest = w ++ next ∧ t.Writes spell w ∧ t.EndsBefore next ∧
      Spans spell ts next stop ∧ next.length < rest.length := by
  cases h with
  | @cons ws _ w _ next _ space writes ends spans =>
    obtain ⟨c, tail, rfl, solid⟩ := writes_head spells writes
    refine ⟨c :: tail, next, ?_, writes, ends, spans, ?_⟩
    · rw [skipWS_append space]
      exact skipWS_solid solid _
    · simp only [List.length_append, List.length_cons]
      omega

theorem at_cons {t : Token} (spells : Spells spell) (h : At spell (t :: ts) (n + 1) rest) :
    ∃ w next, skipWS rest = w ++ next ∧ t.Writes spell w ∧ t.EndsBefore next ∧
      At spell ts n next := by
  obtain ⟨w, next, text, writes, ends, spans, shorter⟩ := spans_cons spells h.lays
  have short := h.short
  exact ⟨w, next, text, writes, ends, spans, by omega⟩

theorem at_pos {t : Token} (spells : Spells spell) (h : At spell (t :: ts) n rest) :
    ∃ m, n = m + 1 := by
  obtain ⟨_, next, _, _, _, _, shorter⟩ := spans_cons spells h.lays
  have short := h.short
  exact ⟨n - 1, by omega⟩

theorem lays_nil (h : Lays spell [] rest) : skipWS rest = [] := by
  cases h with
  | nil space => exact (skipWS_append space []).trans rfl

theorem spans_spaced {ws : Str} (space : ∀ c ∈ ws, isSpace c = true)
    (h : Spans spell ts rest stop) : Spans spell ts (ws ++ rest) stop := by
  cases h with
  | nil space' =>
    rw [← List.append_assoc]
    exact .nil (List.forall_mem_append.mpr ⟨space, space'⟩)
  | cons space' writes ends spans =>
    rw [← List.append_assoc]
    exact .cons (List.forall_mem_append.mpr ⟨space, space'⟩) writes ends spans

theorem spans_skipWS (h : Spans spell ts (skipWS rest) stop) : Spans spell ts rest stop := by
  have split : rest = rest.takeWhile isSpace ++ skipWS rest :=
    (List.takeWhile_append_dropWhile ..).symm
  rw [split]
  exact spans_spaced (fun c mem => List.mem_takeWhile_imp mem) h

theorem at_skipWS (spells : Spells spell) (h : At spell ts n rest) :
    At spell ts n (skipWS rest) := by
  have shorter : (skipWS rest).length ≤ rest.length := (List.dropWhile_sublist _).length_le
  refine ⟨?_, le_trans shorter h.short⟩
  cases h.lays with
  | nil space =>
    rw [skipWS_append space]
    exact @Spans.nil spell [] [] nofun
  | @cons ws _ w _ next _ space writes ends spans =>
    obtain ⟨c, tail, rfl, solid⟩ := writes_head spells writes
    rw [skipWS_append space, List.cons_append, skipWS_solid solid]
    exact @Spans.cons spell [] _ _ _ _ _ nofun writes ends spans

theorem spans_append {us : List Token} {middle : Str} (front : Spans spell ts rest middle)
    (back : Spans spell us middle stop) : Spans spell (ts ++ us) rest stop := by
  induction front with
  | nil space => exact spans_spaced space back
  | cons space writes ends _ ih => exact .cons space writes ends (ih back)

/-- A token whose text is not the keyword in any letter case. -/
def Misses (kw : Str) : Token → Prop
  | .keyword kw' => kw' ≠ kw
  | .ident name => toUpper name ≠ kw
  | .table name => toUpper name ≠ kw
  | _ => True

theorem tryKeyword_word {kw w next : Str} (identifier : Identifier w)
    (text : skipWS rest = w ++ next) (ends : ∀ c ∈ next.head?, isIdentChar c = false) :
    tryKeyword kw rest = if toUpper w = kw then (true, next) else (false, skipWS rest) := by
  obtain ⟨taken, left⟩ := span_run identifier.all ends
  rw [tryKeyword]
  rw [text, taken, left]

theorem tryKeyword_keyword {kw : Str} (spells : Spells spell)
    (h : At spell (.keyword kw :: ts) (n + 1) rest) :
    ∃ next, tryKeyword kw rest = (true, next) ∧ At spell ts n next := by
  obtain ⟨w, next, text, writes, ends, h⟩ := at_cons spells h
  cases writes with
  | keyword known spelled =>
    have same := spells _ known _ spelled
    refine ⟨next, ?_, h⟩
    rw [tryKeyword_word (keyword_identifier known same) text ends, if_pos same]

/-- Where no keyword or identifier stands, no keyword is found. -/
theorem tryKeyword_none {kw : Str} (known : kw ∈ keywords)
    (h : ∀ c ∈ (skipWS rest).head?, (isAlpha c || c == 95) = false) :
    tryKeyword kw rest = (false, skipWS rest) := by
  rw [tryKeyword]
  refine if_neg fun same => ?_
  obtain ⟨c, tail, word, start, _⟩ := keyword_identifier known same
  have head : (skipWS rest).head? = some c := by
    cases text : skipWS rest with
    | nil =>
      rw [text] at word
      cases word
    | cons d rest' =>
      rw [text, List.takeWhile_cons] at word
      cases hd : isIdentChar d with
      | false =>
        rw [hd] at word
        cases word
      | true =>
        rw [hd] at word
        cases word
        rfl
  rw [h c head] at start
  cases start

theorem tryKeyword_other (kw : Str) (spells : Spells spell) (known : kw ∈ keywords)
    (h : At spell ts n rest) (misses : ∀ t ∈ ts.head?, Misses kw t) :
    tryKeyword kw rest = (false, skipWS rest) := by
  cases ts with
  | nil =>
    refine tryKeyword_none known ?_
    rw [lays_nil h.lays]
    nofun
  | cons t ts =>
    obtain ⟨w, next, text, writes, ends, _, _⟩ := spans_cons spells h.lays
    have misses := misses t rfl
    cases writes with
    | @keyword kw' _ known' spelled =>
      have same := spells _ known' _ spelled
      rw [tryKeyword_word (keyword_identifier known' same) text ends, same, if_neg misses]
    | ident identifier => rw [tryKeyword_word identifier text ends, if_neg misses]
    | table identifier => rw [tryKeyword_word identifier text ends, if_neg misses]
    | @int neg digits nonempty all =>
      refine tryKeyword_none known ?_
      rw [text]
      cases neg with
      | true => exact fun c head => Option.some.inj head ▸ rfl
      | false =>
        obtain ⟨c, tail, rfl⟩ := List.exists_cons_of_ne_nil nonempty
        exact fun d head => Option.some.inj head ▸ not_start_of_isDigit (all c List.mem_cons_self)
    | string =>
      refine tryKeyword_none known ?_
      rw [text]
      exact fun c head => Option.some.inj head ▸ rfl
    | symbol listed =>
      refine tryKeyword_none known ?_
      rw [text]
      have shape := (by decide : ∀ s ∈ symbols,
        s.head?.map (fun c => isAlpha c || c == 95) = some false) w listed
      obtain ⟨c, head, solid⟩ := Option.map_eq_some_iff.mp shape
      obtain ⟨tail, rfl⟩ := List.head?_eq_some_iff.mp head
      exact fun d head => Option.some.inj head ▸ solid

theorem consumeIdent_identifier {w next : Str} (identifier : Identifier w)
    (text : skipWS rest = w ++ next) (ends : ∀ c ∈ next.head?, isIdentChar c = false) :
    consumeIdent size rest = .ok (w, next) := by
  obtain ⟨taken, left⟩ := span_run identifier.all ends
  obtain ⟨c, tail, rfl, start, _⟩ := identifier
  rw [List.cons_append] at text taken left
  simp only [consumeIdent, text, start, if_true, taken, left]
  rfl

theorem consumeIdent_ident {name : Str} (spells : Spells spell)
    (h : At spell (.ident name :: ts) (n + 1) rest) :
    ∃ next, consumeIdent size rest = .ok (name, next) ∧ At spell ts n next := by
  obtain ⟨w, next, text, writes, ends, h⟩ := at_cons spells h
  cases writes with
  | ident identifier => exact ⟨next, consumeIdent_identifier size identifier text ends, h⟩

theorem consumeIdent_table {name : Str} (spells : Spells spell)
    (h : At spell (.table name :: ts) (n + 1) rest) :
    ∃ next, consumeIdent size rest = .ok (name, next) ∧ At spell ts n next := by
  obtain ⟨w, next, text, writes, ends, h⟩ := at_cons spells h
  cases writes with
  | table identifier => exact ⟨next, consumeIdent_identifier size identifier text ends, h⟩

theorem consumeIdent_keyword {kw : Str} (spells : Spells spell)
    (h : At spell (.keyword kw :: ts) n rest) :
    ∃ w next, consumeIdent size rest = .ok (w, next) ∧ spell kw w := by
  obtain ⟨w, next, text, writes, ends, _, _⟩ := spans_cons spells h.lays
  cases writes with
  | keyword known spelled =>
    exact ⟨w, next, consumeIdent_identifier size
      (keyword_identifier known (spells _ known _ spelled)) text ends, spelled⟩

/-- Where no word stands, no identifier is found. -/
theorem consumeIdent_none (h : ∀ c ∈ (skipWS rest).head?, (isAlpha c || c == 95) = false) :
    ∃ e, consumeIdent size rest = .error e := by
  cases text : skipWS rest with
  | nil =>
    simp only [consumeIdent, text]
    exact ⟨_, rfl⟩
  | cons c tail =>
    rw [text] at h
    simp only [consumeIdent, text, h c rfl]
    exact ⟨_, rfl⟩

theorem at_symbol {s : Str} (spells : Spells spell)
    (h : At spell (.symbol s :: ts) (n + 1) rest) :
    ∃ next, skipWS rest = s ++ next ∧ (Token.symbol s).EndsBefore next ∧ At spell ts n next := by
  obtain ⟨w, next, text, writes, ends, h⟩ := at_cons spells h
  cases writes with
  | symbol => exact ⟨next, text, ends, h⟩

theorem skipWS_symbol {c : UInt8} (spells : Spells spell)
    (h : At spell (.symbol [c] :: ts) (n + 1) rest) :
    ∃ next, skipWS rest = c :: next ∧ At spell ts n next := by
  obtain ⟨next, text, _, h⟩ := at_symbol spells h
  exact ⟨next, text, h⟩

/-- The tokens that do not begin with a character. -/
def BeginsNot (c : UInt8) : Token → Prop
  | .symbol s => s.head? ≠ some c
  | .int _ _ => c ≠ 45 ∧ isDigit c = false
  | .string _ => c ≠ 39
  | _ => (isAlpha c || c == 95) = false

theorem head_ne {c : UInt8} (spells : Spells spell) (h : Lays spell ts rest)
    (begins : ∀ t ∈ ts.head?, BeginsNot c t) : (skipWS rest).head? ≠ some c := by
  cases ts with
  | nil =>
    rw [lays_nil h]
    nofun
  | cons t ts =>
    obtain ⟨w, next, text, writes, _, _, _⟩ := spans_cons spells h
    have begins := begins t rfl
    have word : ∀ {w : Str}, Identifier w → (isAlpha c || c == 95) = false →
        (w ++ next).head? ≠ some c := by
      rintro w ⟨d, tail, rfl, start, _⟩ other head
      cases head
      rw [start] at other
      cases other
    rw [text]
    cases writes with
    | keyword known spelled =>
      exact word (keyword_identifier known (spells _ known _ spelled)) begins
    | ident identifier => exact word identifier begins
    | table identifier => exact word identifier begins
    | @int neg digits nonempty all =>
      intro head
      cases neg with
      | true =>
        cases head
        exact begins.1 rfl
      | false =>
        obtain ⟨d, tail, rfl⟩ := List.exists_cons_of_ne_nil nonempty
        cases head
        cases (all c List.mem_cons_self).symm.trans begins.2
    | string =>
      intro head
      cases head
      exact begins rfl
    | symbol listed =>
      have nonempty := (by decide : ∀ s ∈ symbols, s ≠ []) _ listed
      obtain ⟨d, tail, rfl⟩ := List.exists_cons_of_ne_nil nonempty
      exact begins

/-- The number that the source reads from digits behind an optional minus sign. -/
def readInt (neg : Bool) (digits : Str) : Int :=
  if neg then toInt64 (-digitsValue digits) else digitsValue digits

theorem consumeInt_int {neg : Bool} {digits : Str} (spells : Spells spell)
    (h : At spell (.int neg digits :: ts) (n + 1) rest) :
    ∃ next, consumeInt size rest = .ok (readInt neg digits, next) ∧ At spell ts n next := by
  obtain ⟨w, next, text, writes, ends, h⟩ := at_cons spells h
  cases writes with
  | int nonempty all =>
    refine ⟨next, ?_, h⟩
    obtain ⟨taken, left⟩ := span_run all ends
    have digitsRead : consumeDigits size neg (digits ++ next) = .ok (readInt neg digits, next) := by
      rw [consumeDigits, taken, left, if_neg nonempty]
      rfl
    cases neg with
    | true =>
      simp only [consumeInt, text]
      exact digitsRead
    | false =>
      obtain ⟨d, tail, rfl⟩ := List.exists_cons_of_ne_nil nonempty
      have other : d ≠ 45 := by
        rintro rfl
        cases all 45 List.mem_cons_self
      have text : skipWS rest = d :: (tail ++ next) := text
      rw [consumeInt, text]
      split
      · next same =>
        cases same
        exact (other rfl).elim
      · exact digitsRead

theorem stringChars_doubled {value next : Str} (ascii : ∀ c ∈ value, ¬ 127 < c)
    (ends : ∀ c ∈ next.head?, (c == 39) = false) (front : Str) :
    stringChars (doubled value ++ 39 :: next) front = .ok (front ++ value, next) := by
  induction value generalizing front with
  | nil =>
    rw [List.append_nil]
    cases next with
    | nil => rfl
    | cons d next =>
      have other : ¬ d = 39 := by
        have h := ends d rfl
        rwa [beq_eq_false_iff_ne] at h
      simp only [doubled, List.flatMap_nil, List.nil_append, stringChars, if_true, if_neg other]
      rfl
  | cons c value ih =>
    have ih := fun front => ih (fun d mem => ascii d (List.mem_cons_of_mem c mem)) front
    have ascii := ascii c List.mem_cons_self
    have joined : ∀ front : Str, front ++ [c] ++ value = front ++ c :: value := fun front => by
      rw [List.append_assoc]
      rfl
    by_cases quote : c = 39
    · subst quote
      have text : doubled (39 :: value) ++ 39 :: next =
          39 :: 39 :: (doubled value ++ 39 :: next) := rfl
      rw [text, stringChars, if_pos rfl, if_pos rfl, ih, joined]
    · have text : doubled (c :: value) ++ 39 :: next = c :: (doubled value ++ 39 :: next) := by
        simp [doubled, quote]
      obtain ⟨d, tail, more⟩ : ∃ d tail, doubled value ++ 39 :: next = d :: tail :=
        List.exists_cons_of_ne_nil (List.append_ne_nil_of_right_ne_nil _ (List.cons_ne_nil _ _))
      rw [text, more, stringChars, if_neg quote, if_neg ascii, ← more, ih, joined]

theorem consumeString_string {value : Str} (spells : Spells spell)
    (h : At spell (.string value :: ts) (n + 1) rest) :
    ∃ next, consumeString size rest = .ok (value, next) ∧ At spell ts n next := by
  obtain ⟨w, next, text, writes, ends, h⟩ := at_cons spells h
  cases writes with
  | string ascii =>
    refine ⟨next, ?_, h⟩
    have text : skipWS rest = 39 :: (doubled value ++ 39 :: next) := by
      rw [text, List.cons_append, List.append_assoc]
      rfl
    simp only [consumeString, text, if_true]
    exact stringChars_doubled ascii ends []

theorem expectKeyword_keyword {kw : Str} (spells : Spells spell)
    (h : At spell (.keyword kw :: ts) (n + 1) rest) :
    ∃ next, expectKeyword size kw rest = .ok ((), next) ∧ At spell ts n next := by
  obtain ⟨next, found, h⟩ := tryKeyword_keyword spells h
  refine ⟨next, ?_, h⟩
  rw [expectKeyword, found]
  rfl

theorem expectChar_symbol {c : UInt8} (spells : Spells spell)
    (h : At spell (.symbol [c] :: ts) (n + 1) rest) :
    ∃ next, expectChar size c rest = .ok ((), next) ∧ At spell ts n next := by
  obtain ⟨next, text, h⟩ := skipWS_symbol spells h
  refine ⟨next, ?_, h⟩
  simp only [expectChar, text, if_true]
  rfl

end FheSql.SqlTokens
