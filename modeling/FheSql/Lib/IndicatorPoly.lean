import Mathlib.FieldTheory.Finite.Basic
import Mathlib.Tactic.LinearCombination

/-!
# Comparisons as polynomials over a prime field

By Fermat's little theorem `1 - (a - b) ^ (p - 1)` is the indicator of `a = b`,
and a sum of such indicators over the lower half of the field orders the
numbers of that half. Sums and products of indicators are Boolean connectives.
-/

namespace IndicatorPoly

variable {p : ℕ} [prime : Fact p.Prime]

def eqPoly (a b : ZMod p) : ZMod p := 1 - (a - b) ^ (p - 1)

def gtPoly (a b : ZMod p) : ZMod p :=
  ∑ k ∈ Finset.range ((p - 1) / 2), eqPoly (a - b) ((k + 1 : ℕ) : ZMod p)

def ltPoly (a b : ZMod p) : ZMod p := gtPoly b a

/-- The truth value of a proposition in the field. -/
def bit (c : Prop) [Decidable c] : ZMod p := if c then 1 else 0

theorem bit_congr {c d : Prop} [Decidable c] [Decidable d] (h : c ↔ d) :
    (bit c : ZMod p) = bit d := by
  simp only [bit, h]

theorem bit_eq_iff {c d : Prop} [Decidable c] [Decidable d] :
    (bit c : ZMod p) = bit d ↔ (c ↔ d) := by
  by_cases hc : c <;> by_cases hd : d <;> simp [bit, hc, hd]

theorem bit_and {c d : Prop} [Decidable c] [Decidable d] :
    (bit c * bit d : ZMod p) = bit (c ∧ d) := by
  by_cases hc : c <;> by_cases hd : d <;> simp [bit, hc, hd]

theorem bit_or {c d : Prop} [Decidable c] [Decidable d] :
    (bit c + bit d - bit c * bit d : ZMod p) = bit (c ∨ d) := by
  by_cases hc : c <;> by_cases hd : d <;> simp [bit, hc, hd]

theorem bit_not {c : Prop} [Decidable c] : (1 - bit c : ZMod p) = bit ¬ c := by
  by_cases h : c <;> simp [bit, h]

/-- A product of truth values is the truth of all of them. -/
theorem bit_prod {α : Type*} (l : List α) (c : α → Prop) [DecidablePred c] :
    (l.map fun a => (bit (c a) : ZMod p)).prod = bit (∀ a ∈ l, c a) := by
  induction l with
  | nil => simp [bit]
  | cons a l ih =>
    rw [List.map_cons, List.prod_cons, ih, bit_and]
    exact bit_congr List.forall_mem_cons.symm

theorem eqPoly_eq_bit (a b : ZMod p) : eqPoly a b = bit (a = b) := by
  by_cases h : a = b
  · have pos : p - 1 ≠ 0 := by
      have := prime.out.two_le
      omega
    simp [eqPoly, bit, h, zero_pow pos]
  · simp [eqPoly, bit, h, ZMod.pow_card_sub_one_eq_one (sub_ne_zero.mpr h)]

/-- The representatives of the lower half are told apart by the field. -/
theorem natCast_inj_of_half {i j : ℕ} (hi : i < p) (hj : j < p)
    (h : (i : ZMod p) = j) : i = j := by
  rw [ZMod.natCast_eq_natCast_iff'] at h
  rwa [Nat.mod_eq_of_lt hi, Nat.mod_eq_of_lt hj] at h

/-- At most one summand of `gtPoly` is not zero. -/
theorem gtPoly_eq_bit (a b : ZMod p) :
    gtPoly a b = bit (∃ k < (p - 1) / 2, a - b = ((k + 1 : ℕ) : ZMod p)) := by
  have small : ∀ k < (p - 1) / 2, k + 1 < p := by
    intro k hk
    have := prime.out.two_le
    omega
  simp only [gtPoly, eqPoly_eq_bit]
  by_cases h : ∃ k < (p - 1) / 2, a - b = ((k + 1 : ℕ) : ZMod p)
  · obtain ⟨k, hk, same⟩ := id h
    rw [Finset.sum_eq_single k]
    · simp only [bit, if_pos same, if_pos h]
    · intro j hj differ
      have hj := Finset.mem_range.mp hj
      refine if_neg fun other => differ ?_
      have := natCast_inj_of_half (small j hj) (small k hk) (other.symm.trans same)
      omega
    · intro absent
      exact False.elim (absent (Finset.mem_range.mpr hk))
  · rw [bit, if_neg h]
    refine Finset.sum_eq_zero fun k hk => if_neg fun same => h ?_
    exact ⟨k, Finset.mem_range.mp hk, same⟩

/-- On the lower half of the field `gtPoly` is the order of the integers. -/
theorem gtPoly_natCast {a b : ℕ} (ha : a ≤ (p - 1) / 2) (hb : b ≤ (p - 1) / 2) :
    gtPoly (a : ZMod p) b = bit (b < a) := by
  rw [gtPoly_eq_bit]
  refine bit_congr ⟨?_, fun lt => ?_⟩
  · rintro ⟨k, hk, same⟩
    have shifted : ((b + (k + 1) : ℕ) : ZMod p) = (a : ZMod p) := by
      push_cast at same ⊢
      linear_combination -same
    have := prime.out.two_le
    have := natCast_inj_of_half (by omega) (by omega) shifted
    omega
  · refine ⟨a - b - 1, by omega, ?_⟩
    have whole : a - b - 1 + 1 + b = a := by omega
    have cast := congrArg (Nat.cast (R := ZMod p)) whole
    push_cast at cast ⊢
    linear_combination -cast

theorem ltPoly_natCast {a b : ℕ} (ha : a ≤ (p - 1) / 2) (hb : b ≤ (p - 1) / 2) :
    ltPoly (a : ZMod p) b = bit (a < b) := gtPoly_natCast hb ha

/-- The field elements that stand for a truth value. -/
def IsBit (x : ZMod p) : Prop := x = 0 ∨ x = 1

theorem isBit_bit (c : Prop) [Decidable c] : IsBit (bit c : ZMod p) := by
  by_cases h : c <;> simp [bit, IsBit, h]

theorem isBit_eqPoly (a b : ZMod p) : IsBit (eqPoly a b) := eqPoly_eq_bit a b ▸ isBit_bit _

theorem isBit_gtPoly (a b : ZMod p) : IsBit (gtPoly a b) := by
  rw [gtPoly_eq_bit]
  exact isBit_bit _

theorem isBit_mul {x y : ZMod p} (hx : IsBit x) (hy : IsBit y) : IsBit (x * y) := by
  rcases hx with rfl | rfl <;> rcases hy with rfl | rfl <;> simp [IsBit]

/-- A product of truth values is 1 just where each of them is. -/
theorem prod_eq_one_iff {l : List (ZMod p)} (bits : ∀ x ∈ l, IsBit x) :
    l.prod = 1 ↔ ∀ x ∈ l, x = 1 := by
  induction l with
  | nil => simp
  | cons x l ih =>
    have rest := ih fun y mem => bits y (List.mem_cons_of_mem _ mem)
    rw [List.prod_cons, List.forall_mem_cons, ← rest]
    rcases bits x List.mem_cons_self with rfl | rfl
    · simp
    · simp

theorem isBit_or {x y : ZMod p} (hx : IsBit x) (hy : IsBit y) : IsBit (x + y - x * y) := by
  rcases hx with rfl | rfl <;> rcases hy with rfl | rfl <;> simp [IsBit]

theorem isBit_not {x : ZMod p} (hx : IsBit x) : IsBit (1 - x) := by
  rcases hx with rfl | rfl <;> simp [IsBit]

end IndicatorPoly
