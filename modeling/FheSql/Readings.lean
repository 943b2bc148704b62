import FheSql.SqlWords
import Mathlib.Data.List.Chain

/-!
# How the parser reads a text

Among the layouts of a text, a reading is one that the look-ahead of `parseTableRef`
agrees with: a table name without alias has no word behind it but one that the
function does not take for an alias.
-/

namespace FheSql.Readings

open ByteText SQLParser SqlTokens SqlGrammar SqlWords

/-- The next word, if there is one, is no alias to `parseTableRef`. -/
def ClauseNext (rest : Str) : Prop :=
  Identifier (firstWord (skipWS rest)) → firstWord (skipWS rest) ∈ clauseWords

inductive Reading : List Token → Str → Str → Prop where
  | nil {ws stop} : (∀ c ∈ ws, isSpace c = true) → Reading [] (ws ++ stop) stop
  | cons {ws t w ts rest stop} : (∀ c ∈ ws, isSpace c = true) → Token.Writes anyCase t w →
      t.EndsBefore rest → (∀ name, t = .table name → ClauseNext rest) → Reading ts rest stop →
      Reading (t :: ts) (ws ++ (w ++ rest)) stop

variable {ts us : List Token} {rest middle next stop : Str}

theorem Reading.spans (h : Reading ts rest stop) : Spans anyCase ts rest stop := by
  induction h with
  | nil space => exact .nil space
  | cons space writes ends _ _ ih => exact .cons space writes ends ih

/-- Where no table name stands alone, the look-ahead has no say. -/
theorem reading_of_spans (h : Spans anyCase ts rest stop) (plain : ∀ name, .table name ∉ ts) :
    Reading ts rest stop := by
  induction h with
  | nil space => exact .nil space
  | cons space writes ends _ ih =>
    refine .cons space writes ends ?_ (ih fun name mem => plain name (List.mem_cons_of_mem _ mem))
    rintro name rfl
    exact (plain name List.mem_cons_self).elim

theorem reading_of_clausal (h : Spans anyCase ts rest stop) (clausal : ∀ t ∈ ts, ClauseToken t) :
    Reading ts rest stop := reading_of_spans h fun _ mem => clausal _ mem

theorem reading_spaced {ws : Str} (space : ∀ c ∈ ws, isSpace c = true)
    (h : Reading ts rest stop) : Reading ts (ws ++ rest) stop := by
  cases h with
  | nil space' =>
    rw [← List.append_assoc]
    exact .nil (List.forall_mem_append.mpr ⟨space, space'⟩)
  | cons space' writes ends looks behind =>
    rw [← List.append_assoc]
    exact .cons (List.forall_mem_append.mpr ⟨space, space'⟩) writes ends looks behind

theorem reading_append (front : Reading ts rest middle) (back : Reading us middle stop) :
    Reading (ts ++ us) rest stop := by
  induction front with
  | nil space => exact reading_spaced space back
  | cons space writes ends looks _ ih => exact .cons space writes ends looks (ih back)

theorem reading_table {name : Str} (text : skipWS rest = name ++ next)
    (identifier : Identifier name) (ends : ∀ c ∈ next.head?, isIdentChar c = false)
    (looks : ClauseNext next) : Reading [.table name] rest next := by
  have split : rest = rest.takeWhile isSpace ++ (name ++ next) := by
    rw [← text]
    exact (List.takeWhile_append_dropWhile ..).symm
  have space : ∀ c ∈ rest.takeWhile isSpace, isSpace c = true := fun c mem =>
    List.mem_takeWhile_imp mem
  rw [split]
  exact .cons space (.table identifier) ends (fun _ _ => looks) (@Reading.nil [] _ nofun)

/-- No word but a clause word stands behind a table name without alias. -/
def LooksAhead (ts : List Token) (ws : List Str) : Prop :=
  (ts.zip ws).IsChain fun a b =>
    (∃ name, a.1 = .table name) → Identifier b.2 → b.2 ∈ clauseWords

theorem reading_words {text : Str} (h : Reading ts text []) :
    ∃ ws, CutInto text ws ∧ Wrote anyCase ts ws ∧ LooksAhead ts ws := by
  generalize last : [] = stop at h
  induction h with
  | nil space =>
    subst last
    refine ⟨[], .nil ?_, .nil, .nil⟩
    rw [skipWS_append space]
    rfl
  | @cons ws t w ts rest stop space writes ends looks behind ih =>
    obtain ⟨ws, cut, wrote, ahead⟩ := ih last
    obtain ⟨c, tail, same, solid⟩ := writes_head spells_anyCase writes
    have skipped : skipWS (w ++ rest) = w ++ rest := by
      rw [same]
      exact skipWS_solid solid _
    refine ⟨w :: ws, .cons ?_ (firstWord_writes spells_anyCase writes ends)
      (writes_nonempty spells_anyCase writes) cut, .cons writes wrote, ?_⟩
    · rw [skipWS_append space, skipped]
    · cases cut with
      | nil =>
        cases wrote
        exact List.isChain_singleton _
      | cons text first _ _ =>
        cases wrote with
        | cons =>
          refine List.isChain_cons_cons.mpr ⟨?_, ahead⟩
          rintro ⟨name, named⟩ identifier
          have clause := looks name named
          rw [ClauseNext, text, first] at clause
          exact clause identifier

theorem looksAhead_next {front back : List Token} {t : Token} {vs vs' : List Str}
    {name w w' : Str} (h : LooksAhead (front ++ .table name :: t :: back) (vs ++ w :: w' :: vs'))
    (length : front.length = vs.length) (identifier : Identifier w') : w' ∈ clauseWords := by
  rw [LooksAhead, List.zip_append length] at h
  have pair := (List.isChain_append.mp h).2.1
  exact (List.isChain_cons_cons.mp pair).1 ⟨name, rfl⟩ identifier

end FheSql.Readings
