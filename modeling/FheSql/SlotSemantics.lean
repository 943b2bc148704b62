import FheSql.Lib.IndicatorPoly
import FheSql.Proto1
import Mathlib.Tactic.NormNum.Prime

/-!
# Slot semantics of proto1

What `docs/architecture.md` says of the encrypted operations, slot by slot over
the integers modulo 257: EQ, GT, LT, AND, OR and NOT are polynomials in the
slots. `SlotSemantics` is a reading of ciphertexts under which the operations
of a `Proto1` compute just that.
-/

namespace FheSql

open ByteText IndicatorPoly

/-- A slot: a residue modulo the plaintext modulus. -/
abbrev Slot := ZMod 257

instance prime257 : Fact (Nat.Prime 257) := ⟨by norm_num⟩

namespace Expression

variable {CT : Type}

def isLeaf : Expression CT → Bool
  | columnRef _ => true
  | encLiteral _ => true
  | _ => false

/-- The expressions `ExpressionExecutor` evaluates to a mask: connectives over
comparisons of leaves. -/
def isMask : Expression CT → Bool
  | equal l r => l.isLeaf && r.isLeaf
  | gt l r => l.isLeaf && r.isLeaf
  | lt l r => l.isLeaf && r.isLeaf
  | andExpr l r => l.isMask && r.isMask
  | orExpr l r => l.isMask && r.isMask
  | notExpr e => e.isMask
  | _ => false

/-- The columns an expression reads. -/
def columns : Expression CT → List Str
  | columnRef name => [name]
  | encLiteral _ => []
  | equal l r => l.columns ++ r.columns
  | gt l r => l.columns ++ r.columns
  | lt l r => l.columns ++ r.columns
  | andExpr l r => l.columns ++ r.columns
  | orExpr l r => l.columns ++ r.columns
  | notExpr e => e.columns

/-- The literals of an expression. -/
def literals : Expression CT → List CT
  | columnRef _ => []
  | encLiteral ct => [ct]
  | equal l r => l.literals ++ r.literals
  | gt l r => l.literals ++ r.literals
  | lt l r => l.literals ++ r.literals
  | andExpr l r => l.literals ++ r.literals
  | orExpr l r => l.literals ++ r.literals
  | notExpr e => e.literals

/-- The value of an expression in one slot, from the slot's columns and
literals. -/
def value (column : Str → Slot) (literal : CT → Slot) : Expression CT → Slot
  | columnRef name => column name
  | encLiteral ct => literal ct
  | equal l r => eqPoly (l.value column literal) (r.value column literal)
  | gt l r => gtPoly (l.value column literal) (r.value column literal)
  | lt l r => ltPoly (l.value column literal) (r.value column literal)
  | andExpr l r => l.value column literal * r.value column literal
  | orExpr l r => l.value column literal + r.value column literal -
      l.value column literal * r.value column literal
  | notExpr e => 1 - e.value column literal

/-- A mask is a truth value in every slot, whatever the slot holds. -/
theorem isBit_value {e : Expression CT} (h : e.isMask = true) (column : Str → Slot)
    (literal : CT → Slot) : IsBit (e.value column literal) := by
  induction e with
  | columnRef | encLiteral => cases h
  | equal l r => exact isBit_eqPoly _ _
  | gt l r => exact isBit_gtPoly _ _
  | lt l r => exact isBit_gtPoly _ _
  | andExpr l r ihl ihr =>
    simp only [isMask, Bool.and_eq_true] at h
    exact isBit_mul (ihl h.1) (ihr h.2)
  | orExpr l r ihl ihr =>
    simp only [isMask, Bool.and_eq_true] at h
    exact isBit_or (ihl h.1) (ihr h.2)
  | notExpr e ih => exact isBit_not (ih h)

theorem value_congr {e : Expression CT} {column column' : Str → Slot} {literal : CT → Slot}
    (h : ∀ name ∈ e.columns, column name = column' name) :
    e.value column literal = e.value column' literal := by
  induction e with
  | columnRef name => exact h name (List.mem_singleton.mpr rfl)
  | encLiteral => rfl
  | equal l r ihl ihr | gt l r ihl ihr | lt l r ihl ihr | andExpr l r ihl ihr
  | orExpr l r ihl ihr =>
    simp only [columns, List.mem_append] at h
    simp only [value, ihl fun name hn => h name (Or.inl hn), ihr fun name hn => h name (Or.inr hn)]
  | notExpr e ih => simp only [value, ih h]

end Expression

/-- The ciphertext of a column of a batch. -/
def EncryptedBatch.first? {CT : Type} (batch : EncryptedBatch CT) (name : Str) : Option CT :=
  (batch.columns.lookup name).bind fun chunk => chunk.ciphertexts.head?

/-- `ProjectExec` moves the requested chunks over one by one. It throws at a name that
the batch lacks, and a name that is requested again finds the chunk emptied. -/
structure ProjectsColumns (P : Proto1) : Prop where
  missing : ∀ names batch, (∃ name ∈ names, batch.columns.lookup name = none) →
    ∃ what, P.projectExec names batch = .error what
  found : ∀ names batch, (∀ name ∈ names, ∃ chunk, batch.columns.lookup name = some chunk) →
    ∃ batch', P.projectExec names batch = .ok batch' ∧
      batch'.logicalRowCount = batch.logicalRowCount ∧
      batch'.selectionMask = batch.selectionMask ∧
      ∀ name ∈ names, batch'.columns.lookup name =
        if names.count name = 1 then batch.columns.lookup name
        else (batch.columns.lookup name).map EncryptedColumnChunk.emptied

/-- What the operators above a table scan do to its columns. -/
structure KeepsColumns (P : Proto1) : Prop where
  filter : ∀ e batch batch', P.filterExec e batch = .ok batch' →
    batch'.logicalRowCount = batch.logicalRowCount ∧
    ∀ name, batch'.columns.lookup name = batch.columns.lookup name
  project : ProjectsColumns P

theorem ProjectsColumns.of_ok {P : Proto1} (projects : ProjectsColumns P) {names : List Str}
    {batch batch' : EncryptedBatch P.EncryptedVector}
    (ok : P.projectExec names batch = .ok batch') :
    (∀ name ∈ names, ∃ chunk, batch.columns.lookup name = some chunk) ∧
      batch'.logicalRowCount = batch.logicalRowCount ∧
      batch'.selectionMask = batch.selectionMask ∧
      ∀ name ∈ names, batch'.columns.lookup name =
        if names.count name = 1 then batch.columns.lookup name
        else (batch.columns.lookup name).map EncryptedColumnChunk.emptied := by
  have present : ∀ name ∈ names, ∃ chunk, batch.columns.lookup name = some chunk := by
    intro name mem
    by_contra absent
    have none : batch.columns.lookup name = none :=
      Option.eq_none_iff_forall_ne_some.mpr fun chunk same => absent ⟨chunk, same⟩
    obtain ⟨what, thrown⟩ := projects.missing names batch ⟨name, mem, none⟩
    cases ok.symm.trans thrown
  obtain ⟨next, run, kept⟩ := projects.found names batch present
  cases ok.symm.trans run
  exact ⟨present, kept⟩

/-- Distinct columns come out as they are. -/
theorem ProjectsColumns.of_nodup {P : Proto1} (projects : ProjectsColumns P) {names : List Str}
    (distinct : names.Nodup) {batch : EncryptedBatch P.EncryptedVector}
    (present : ∀ name ∈ names, ∃ chunk, batch.columns.lookup name = some chunk) :
    ∃ batch', P.projectExec names batch = .ok batch' ∧
      batch'.logicalRowCount = batch.logicalRowCount ∧
      batch'.selectionMask = batch.selectionMask ∧
      ∀ name ∈ names, batch'.columns.lookup name = batch.columns.lookup name := by
  obtain ⟨batch', run, count, mask, lookups⟩ := projects.found names batch present
  refine ⟨batch', run, count, mask, fun name mem => ?_⟩
  rw [lookups name mem, if_pos (List.count_eq_one_of_mem distinct mem)]

section Moving

variable {CT : Type}

/-- One request: what a batch has left, and the columns moved out of it. -/
def takeColumn (state : StringMap (EncryptedColumnChunk CT) × StringMap (EncryptedColumnChunk CT))
    (name : Str) :
    Except Str (StringMap (EncryptedColumnChunk CT) × StringMap (EncryptedColumnChunk CT)) :=
  match state.1.lookup name with
  | none => .error (str "ProjectExec: column not found: " ++ name)
  | some chunk => .ok (state.1.insert name chunk.emptied, state.2.insert name chunk)

/-- A `ProjectExec` that moves the requested chunks into a new batch. -/
def projectColumns (names : List Str) (batch : EncryptedBatch CT) :
    Except Str (EncryptedBatch CT) := do
  let (_, columns) ← names.foldlM takeColumn (batch.columns, ∅)
  pure { batch with columns := columns }

/-- The requests of some names: each finds its chunk, the first one with the ciphertexts. -/
theorem takeColumns_ok {names : List Str} {left : StringMap (EncryptedColumnChunk CT)}
    (taken : StringMap (EncryptedColumnChunk CT)) (present :
      ∀ name ∈ names, ∃ chunk, left.lookup name = some chunk) :
    ∃ left' taken', names.foldlM takeColumn (left, taken) = .ok (left', taken') ∧
      ∀ name, taken'.lookup name =
        if name ∉ names then taken.lookup name
        else if names.count name = 1 then left.lookup name
        else (left.lookup name).map EncryptedColumnChunk.emptied := by
  induction names generalizing left taken with
  | nil => exact ⟨left, taken, rfl, fun name => by rw [if_pos List.not_mem_nil]⟩
  | cons own names ih =>
    obtain ⟨chunk, found⟩ := present own List.mem_cons_self
    have step : takeColumn (left, taken) own =
        .ok (left.insert own chunk.emptied, taken.insert own chunk) := by
      simp only [takeColumn, found]
    have still : ∀ name ∈ names, ∃ chunk', (left.insert own chunk.emptied).lookup name =
        some chunk' := by
      intro name mem
      by_cases same : name = own
      · exact ⟨chunk.emptied, by rw [same, AList.lookup_insert]⟩
      · rw [AList.lookup_insert_ne same]
        exact present name (List.mem_cons_of_mem own mem)
    obtain ⟨left', taken', rest, lookups⟩ := ih (taken.insert own chunk) still
    refine ⟨left', taken', by rw [List.foldlM_cons, step]; exact rest, fun name => ?_⟩
    rw [lookups name]
    by_cases same : name = own
    · subst same
      simp only [AList.lookup_insert, found, List.mem_cons_self, not_true_eq_false, if_false,
        List.count_cons_self]
      by_cases again : name ∈ names
      · have more := List.count_pos_iff.mpr again
        rw [if_neg (not_not_intro again), if_neg (by omega : ¬ names.count name + 1 = 1)]
        split <;> rfl
      · rw [if_pos again, if_pos (by rw [List.count_eq_zero_of_not_mem again])]
    · have mem : name ∈ own :: names ↔ name ∈ names := by
        rw [List.mem_cons, or_iff_right same]
      simp only [AList.lookup_insert_ne same, mem, List.count_cons_of_ne (Ne.symm same)]

theorem takeColumns_missing {names : List Str}
    (state : StringMap (EncryptedColumnChunk CT) ×
      StringMap (EncryptedColumnChunk CT))
    (absent : ∃ name ∈ names, state.1.lookup name = none) :
    ∃ what, names.foldlM takeColumn state = .error what := by
  induction names generalizing state with
  | nil =>
    obtain ⟨name, mem, _⟩ := absent
    cases mem
  | cons own names ih =>
    rw [List.foldlM_cons]
    cases found : state.1.lookup own with
    | none => exact ⟨_, by simp only [takeColumn, found]; rfl⟩
    | some chunk =>
      have later : ∃ name ∈ names, (state.1.insert own chunk.emptied).lookup name = none := by
        obtain ⟨name, mem, none⟩ := absent
        have other : name ≠ own := by
          rintro rfl
          cases found.symm.trans none
        exact ⟨name, (List.mem_cons.mp mem).resolve_left other,
          by rw [AList.lookup_insert_ne other, none]⟩
      obtain ⟨what, thrown⟩ := ih (state.1.insert own chunk.emptied,
        state.2.insert own chunk) later
      exact ⟨what, by simp only [takeColumn, found]; exact thrown⟩

theorem projectsColumns_of_eq {P : Proto1}
    (moves : ∀ names batch, P.projectExec names batch = projectColumns names batch) :
    ProjectsColumns P where
  missing names batch absent := by
    obtain ⟨what, thrown⟩ := takeColumns_missing (batch.columns, ∅) absent
    exact ⟨what, by rw [moves, projectColumns, thrown]; rfl⟩
  found names batch present := by
    obtain ⟨left, taken, run, lookups⟩ := takeColumns_ok ∅ present
    refine ⟨{ batch with columns := taken }, by rw [moves, projectColumns, run]; rfl, rfl, rfl, ?_⟩
    intro name mem
    have kept := lookups name
    rwa [if_neg (not_not_intro mem)] at kept

end Moving

/-- The slots of ciphertexts, and the operations of a `Proto1` on them. -/
structure SlotSemantics (P : Proto1) where
  slot : P.EncryptedVector → Nat → Slot
  /-- Values below the modulus that fit the slots are encrypted into them. -/
  encrypt : ∀ values rng, values.length ≤ P.slotCount → (∀ v ∈ values, 0 ≤ v ∧ v < 257) →
    ∃ ct rng', P.encrypt values rng = .ok (ct, rng') ∧
      ∀ (i : Nat) (v : Int), values[i]? = some v → slot ct i = (v : Slot)
  logicalSize : ∀ values rng ct rng', P.encrypt values rng = .ok (ct, rng') →
    P.logicalSize ct = values.length
  /-- Decryption gives the representatives between -128 and 128. -/
  decrypt : ∀ ct n, n ≤ P.slotCount → ∃ values, P.decrypt ct n = .ok values ∧
    values.length = n ∧
    ∀ (i : Nat) (v : Int), values[i]? = some v → (v : Slot) = slot ct i ∧ -128 ≤ v ∧ v ≤ 128
  deserialize : ∀ ct n, n ≤ P.slotCount → ∃ ct',
    P.deserializeWithSize (P.serialize ct) n = .ok ct' ∧
    ∀ i, i < P.slotCount → slot ct' i = slot ct i
  evalMult : ∀ a b, ∃ c, P.evalMult a b = .ok c ∧
    ∀ i, i < P.slotCount → slot c i = slot a i * slot b i
  evaluate : ∀ e batch, e.isMask = true → (∀ name ∈ e.columns, ∃ ct, batch.first? name = some ct) →
    ∃ c, P.evaluate e batch = .ok c ∧ ∀ i, i < P.slotCount →
      slot c i = e.value (fun name => ((batch.first? name).map (slot · i)).getD 0) (slot · i)
  filterExec : ∀ e batch c, batch.selectionMask = none → P.evaluate e batch = .ok c →
    P.filterExec e batch = .ok { batch with selectionMask := some c }
  projectExec : ProjectsColumns P

end FheSql
