import Mathlib.Data.List.Basic
import Mathlib.Tactic.Common

/-!
# Byte strings and names qualified by a dot

A `std::string` is the list of its bytes. A qualified name is split at its
first dot only; the part before it is the qualifier and the part after it,
further dots included, is the bare name.
-/

namespace ByteText

/-- A `std::string`: its bytes. -/
abbrev Str := List UInt8

instance lawfulBEqStr : LawfulBEq Str := inferInstance

/-- The bytes of an ASCII text. -/
def str (s : String) : Str := s.toList.map fun c => c.toUInt8

/-- The byte of `'.'`. -/
def dot : UInt8 := 46

/-- `s.find('.')`, with `none` for `npos`. -/
def findDot (s : Str) : Option Nat := s.findIdx? (· == dot)

/-- `dot == npos ? s : s.substr(dot + 1)`. -/
def bareName (s : Str) : Str :=
  match findDot s with
  | none => s
  | some d => s.drop (d + 1)

/-- `dot == npos ? dflt : s.substr(0, dot)`. -/
def qualifierOr (dflt s : Str) : Str :=
  match findDot s with
  | none => dflt
  | some d => s.take d

/-- The name `a.b`. -/
def qualified (a b : Str) : Str := a ++ dot :: b

/-- `std::to_string` of a non-negative number. -/
def decimal (n : Nat) : Str := (Nat.toDigits 10 n).map fun c => c.toUInt8

/-- `std::to_string` of a signed number. -/
def decimalInt (n : Int) : Str :=
  if n < 0 then str "-" ++ decimal n.natAbs else decimal n.natAbs

theorem toUInt8_of_mem_toDigits {n : Nat} {d : Char} (mem : d ∈ Nat.toDigits 10 n) :
    d.toUInt8.toNat = d.toNat ∧ 48 ≤ d.toNat ∧ d.toNat ≤ 57 := by
  have digit := Nat.isDigit_of_mem_toDigits (by decide) (by decide) mem
  have range : 48 ≤ d.toNat ∧ d.toNat ≤ 57 := by
    simpa [Char.isDigit, Char.le_def, UInt32.le_iff_toNat_le] using digit
  refine ⟨?_, range⟩
  simp only [Char.toUInt8, Char.toNat] at range ⊢
  rw [UInt32.toNat_toUInt8]
  omega

theorem digit_of_mem_decimal {n : Nat} {c : UInt8} (mem : c ∈ decimal n) :
    48 ≤ c.toNat ∧ c.toNat ≤ 57 := by
  obtain ⟨d, digits, rfl⟩ := List.mem_map.mp mem
  obtain ⟨value, range⟩ := toUInt8_of_mem_toDigits digits
  rwa [value]

/-- A number is told from its digits. -/
theorem decimal_injective {n m : Nat} (same : decimal n = decimal m) : n = m := by
  have digits : ∀ n, (decimal n).map (fun c => Char.ofNat c.toNat) = Nat.toDigits 10 n := by
    intro n
    rw [decimal, List.map_map]
    refine (List.map_congr_left fun d mem => ?_).trans (List.map_id _)
    simp only [Function.comp, (toUInt8_of_mem_toDigits mem).1, Char.ofNat_toNat, id]
  have values := congrArg (fun s => Nat.ofDigitChars 10 (s.map fun c => Char.ofNat c.toNat) 0) same
  simpa only [digits, Nat.ofDigitChars_ten_toDigits] using values

/-- A text is told from its last separator on. -/
theorem append_separator_inj {a b c d : Str} {separator : UInt8} (last : separator ∉ b)
    (last' : separator ∉ d) (same : a ++ separator :: b = c ++ separator :: d) :
    a = c ∧ b = d := by
  rcases List.append_eq_append_iff.mp same with ⟨rest, rfl, tail⟩ | ⟨rest, rfl, tail⟩
  · cases rest with
    | nil => exact ⟨(List.append_nil a).symm, (List.cons.inj tail).2⟩
    | cons first rest =>
      refine (last ?_).elim
      rw [(List.cons.inj tail).2]
      exact List.mem_append_right rest List.mem_cons_self
  · cases rest with
    | nil => exact ⟨List.append_nil c, (List.cons.inj tail).2.symm⟩
    | cons first rest =>
      refine (last' ?_).elim
      rw [(List.cons.inj tail).2]
      exact List.mem_append_right rest List.mem_cons_self

theorem findDot_eq_none_iff {s : Str} : findDot s = none ↔ dot ∉ s := by
  simp only [findDot, List.findIdx?_eq_none_iff, beq_eq_false_iff_ne, ne_eq]
  constructor
  · intro h hs
    exact h dot hs rfl
  · intro h x hx hxd
    exact h (hxd ▸ hx)

theorem findDot_qualified {a : Str} (ha : dot ∉ a) (b : Str) :
    findDot (qualified a b) = some a.length := by
  induction a with
  | nil => simp [findDot, qualified, List.findIdx?_cons]
  | cons x a ih =>
    have hx : (x == dot) = false := by
      rw [beq_eq_false_iff_ne]
      rintro rfl
      exact ha List.mem_cons_self
    have hrec := ih fun h => ha (List.mem_cons_of_mem x h)
    simp only [findDot, qualified] at hrec
    simp [findDot, qualified, List.findIdx?_cons, hx, hrec]

@[simp] theorem bareName_plain {s : Str} (h : dot ∉ s) : bareName s = s := by
  simp [bareName, findDot_eq_none_iff.mpr h]

@[simp] theorem bareName_qualified {a : Str} (ha : dot ∉ a) (b : Str) :
    bareName (qualified a b) = b := by
  simp only [bareName, findDot_qualified ha]
  simp [qualified]

@[simp] theorem qualifierOr_plain {s : Str} (h : dot ∉ s) (dflt : Str) :
    qualifierOr dflt s = dflt := by
  simp [qualifierOr, findDot_eq_none_iff.mpr h]

@[simp] theorem qualifierOr_qualified {a : Str} (ha : dot ∉ a) (dflt b : Str) :
    qualifierOr dflt (qualified a b) = a := by
  simp only [qualifierOr, findDot_qualified ha]
  simp [qualified]

theorem qualified_inj {a a' : Str} (ha : dot ∉ a) (ha' : dot ∉ a') {b b' : Str}
    (h : qualified a b = qualified a' b') : a = a' ∧ b = b' := by
  have hq := congrArg (qualifierOr []) h
  have hb := congrArg bareName h
  simp only [qualifierOr_qualified ha, qualifierOr_qualified ha'] at hq
  simp only [bareName_qualified ha, bareName_qualified ha'] at hb
  exact ⟨hq, hb⟩

example : bareName (str "e.id") = str "id" ∧ qualifierOr [] (str "e.id") = str "e" := by
  decide

end ByteText
