import FheSql.QueryEncryptor
import FheSql.QueryExecutor
import FheSql.SlotSemantics
import FheSql.SqlSemantics

/-!
# Rows in ciphertext slots

How a plaintext row is stored: an integer as itself, a string as one character
code for each position of its column, padded with zeros.
-/

namespace FheSql.StoredRows

open ByteText QueryEncryptor QueryExecutor SqlSemantics

/-- The number of physical columns of a column. -/
def width (c : ColumnSchema) : Nat := if c.type = .STRING then c.maxLength else 1

/-- The number that is stored for a value at a position of its column. -/
def code (v : Value) (position : Nat) : Int :=
  match v with
  | .int n => n
  | .string s => characterCode s position

/-- The physical name of a position of a column. -/
def physicalName (P : Proto1) (c : ColumnSchema) (name : Str) (position : Nat) : Str :=
  if c.type = .STRING then P.stringPhysicalColumn name position else name

/-- The values a column may hold. -/
inductive Fits (c : ColumnSchema) : Value → Prop where
  | int {n} : c.type = .INT64 → 0 ≤ n → n ≤ 128 → Fits c (.int n)
  | string {s} : c.type = .STRING → s.length ≤ c.maxLength → (∀ b ∈ s, 1 ≤ b ∧ b ≤ 127) →
      Fits c (.string s)

instance (c : ColumnSchema) : (v : Value) → Decidable (Fits c v)
  | .int n => decidable_of_iff (c.type = .INT64 ∧ 0 ≤ n ∧ n ≤ 128)
      ⟨fun h => .int h.1 h.2.1 h.2.2, fun | .int type low high => ⟨type, low, high⟩⟩
  | .string s =>
    have : Decidable (∀ b ∈ s, 1 ≤ b ∧ b ≤ 127) := List.decidableBAll _ s
    decidable_of_iff (c.type = .STRING ∧ s.length ≤ c.maxLength ∧ ∀ b ∈ s, 1 ≤ b ∧ b ≤ 127)
      ⟨fun h => .string h.1 h.2.1 h.2.2, fun | .string type short ascii => ⟨type, short, ascii⟩⟩

theorem Fits.int_of_type {c : ColumnSchema} {v : Value} (fits : Fits c v) (type : c.type = .INT64) :
    ∃ n, v = .int n ∧ 0 ≤ n ∧ n ≤ 128 := by
  cases fits with
  | int _ low high => exact ⟨_, rfl, low, high⟩
  | string string =>
    rw [type] at string
    cases string

theorem Fits.string_of_type {c : ColumnSchema} {v : Value} (fits : Fits c v)
    (type : c.type = .STRING) :
    ∃ s, v = .string s ∧ s.length ≤ c.maxLength ∧ ∀ b ∈ s, 1 ≤ b ∧ b ≤ 127 := by
  cases fits with
  | int int =>
    rw [type] at int
    cases int
  | string _ short ascii => exact ⟨_, rfl, short, ascii⟩

/-- A row that fits a table. -/
def RowFits (t : TableSchema) (row : Row) : Prop := ∀ c ∈ t.columns, Fits c (row c.name)

instance (t : TableSchema) (row : Row) : Decidable (RowFits t row) :=
  inferInstanceAs (Decidable (∀ c ∈ t.columns, Fits c (row c.name)))

theorem physicalColumns_eq (P : Proto1) (c : ColumnSchema) (name : Str) :
    physicalColumns P c name = (List.range (width c)).map (physicalName P c name) := by
  by_cases string : c.type = .STRING
  · simp only [physicalColumns, width, if_pos string]
    refine List.map_congr_left fun position _ => ?_
    rw [physicalName, if_pos string]
  · simp [physicalColumns, width, physicalName, string]

theorem characterCode_bounds (s : Str) (position : Nat) :
    0 ≤ characterCode s position ∧ characterCode s position < 256 := by
  unfold characterCode
  cases s[position]? with
  | none => exact ⟨le_refl 0, by decide⟩
  | some b =>
    have := b.toNat_lt
    simp only
    omega

/-- A stored number is one that decryption gives back. -/
theorem code_bounds {c : ColumnSchema} {v : Value} (h : Fits c v) (position : Nat) :
    0 ≤ code v position ∧ code v position ≤ 128 := by
  cases h with
  | int _ low high => exact ⟨low, high⟩
  | @string s _ _ ascii =>
    refine ⟨(characterCode_bounds s position).1, ?_⟩
    simp only [code, characterCode]
    cases hb : s[position]? with
    | none => decide
    | some b =>
      have small := (ascii b (List.mem_of_getElem? hb)).2
      have := UInt8.le_iff_toNat_le.mp small
      have bound : (127 : UInt8).toNat = 127 := rfl
      simp only
      omega

/-- Numbers less than the modulus apart are equal when their residues are. -/
theorem intCast_inj {a b : Int} (above : -257 < a - b) (below : a - b < 257) :
    (a : Slot) = (b : Slot) ↔ a = b := by
  refine ⟨fun h => ?_, fun h => by rw [h]⟩
  rw [ZMod.intCast_eq_intCast_iff] at h
  obtain ⟨k, hk⟩ := h.dvd
  push_cast at hk
  omega

/-- Padded to a common width, strings without zeros are told apart by their codes. -/
theorem characterCode_inj {s t : Str} {m : Nat} (hs : s.length ≤ m) (ht : t.length ≤ m)
    (nulS : (0 : UInt8) ∉ s) (nulT : (0 : UInt8) ∉ t) :
    (∀ position < m, characterCode s position = characterCode t position) ↔ s = t := by
  refine ⟨fun same => List.ext_getElem? fun i => ?_, fun h => by simp [h]⟩
  by_cases inside : i < m
  · have codes := same i inside
    simp only [characterCode] at codes
    have nonzero : ∀ {u : Str} {b : UInt8}, (0 : UInt8) ∉ u → u[i]? = some b → b.toNat ≠ 0 := by
      intro u b nul hb zero
      have : b = 0 := UInt8.toNat.inj zero
      exact nul (this ▸ List.mem_of_getElem? hb)
    cases hsi : s[i]? with
    | none =>
      cases hti : t[i]? with
      | none => rfl
      | some b =>
        rw [hsi, hti] at codes
        exact (nonzero nulT hti (by simp only at codes; omega)).elim
    | some a =>
      cases hti : t[i]? with
      | none =>
        rw [hsi, hti] at codes
        exact (nonzero nulS hsi (by simp only at codes; omega)).elim
      | some b =>
        rw [hsi, hti] at codes
        simp only [Nat.cast_inj] at codes
        rw [UInt8.toNat.inj codes]
  · rw [List.getElem?_eq_none (by omega), List.getElem?_eq_none (by omega)]

end FheSql.StoredRows
