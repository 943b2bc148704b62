import Mathlib.Algebra.BigOperators.Group.List.Basic
import Mathlib.Data.Nat.Log

/-!
# Balanced folds

A non-empty list folded by halving it, as a reduction of small depth does. What
a balanced fold means depends on the elements only, not on where it is cut.
-/

namespace BalancedFold

universe u v
variable {α : Type u} {β : Type v}

/-- `op` over a list cut in halves; `dflt` stands for the empty list. -/
def balanced (op : α → α → α) (dflt : α) : List α → α
  | [] => dflt
  | [a] => a
  | a :: b :: l =>
    op (balanced op dflt ((a :: b :: l).take ((l.length + 2) / 2)))
      (balanced op dflt ((a :: b :: l).drop ((l.length + 2) / 2)))
termination_by l => l.length
decreasing_by
  · simp only [List.length_take, List.length_cons]
    omega
  · simp only [List.length_drop, List.length_cons]
    omega

theorem balanced_singleton (op : α → α → α) (dflt a : α) : balanced op dflt [a] = a := by
  simp only [balanced]

theorem balanced_halves (op : α → α → α) (dflt : α) {l : List α} (h : 2 ≤ l.length) :
    balanced op dflt l =
      op (balanced op dflt (l.take (l.length / 2))) (balanced op dflt (l.drop (l.length / 2))) := by
  match l, h with
  | a :: b :: l, _ =>
    rw [balanced]
    rfl

/-- Induction on a non-empty list by halving it. -/
theorem halving_induction {motive : List α → Prop} (singleton : ∀ a, motive [a])
    (halves : ∀ l : List α, 2 ≤ l.length → motive (l.take (l.length / 2)) →
      motive (l.drop (l.length / 2)) → motive l)
    (l : List α) (nonempty : l ≠ []) : motive l := by
  induction hn : l.length using Nat.strongRecOn generalizing l with
  | ind n ih =>
    subst hn
    match l, nonempty with
    | [a], _ => exact singleton a
    | a :: b :: l, _ =>
      have two : 2 ≤ (a :: b :: l).length := by simp
      generalize hl : a :: b :: l = whole at two ih ⊢
      have left : (whole.take (whole.length / 2)).length = whole.length / 2 := by
        rw [List.length_take]
        omega
      have right : (whole.drop (whole.length / 2)).length = whole.length - whole.length / 2 :=
        List.length_drop
      refine halves whole two (ih _ ?_ _ ?_ rfl) (ih _ ?_ _ ?_ rfl)
      · omega
      · exact List.ne_nil_of_length_pos (by omega)
      · omega
      · exact List.ne_nil_of_length_pos (by omega)

/-- A homomorphism turns a balanced fold into the product of the elements. -/
theorem map_balanced {M : Type v} [Monoid M] {op : α → α → α} (f : α → M)
    (hom : ∀ a b, f (op a b) = f a * f b) (dflt : α) {l : List α} (nonempty : l ≠ []) :
    f (balanced op dflt l) = (l.map f).prod := by
  refine halving_induction (motive := fun l => f (balanced op dflt l) = (l.map f).prod)
    (fun a => ?_) (fun l two ihl ihr => ?_) l nonempty
  · simp [balanced_singleton]
  · rw [balanced_halves op dflt two, hom, ihl, ihr, ← List.prod_append, ← List.map_append,
      List.take_append_drop]

/-- A property that `op` keeps passes from the elements to their balanced fold. -/
theorem balanced_forall {p : α → Prop} {op : α → α → α} (hom : ∀ a b, p a → p b → p (op a b))
    {dflt : α} {l : List α} (nonempty : l ≠ []) (h : ∀ a ∈ l, p a) : p (balanced op dflt l) := by
  refine halving_induction (motive := fun l => (∀ a ∈ l, p a) → p (balanced op dflt l))
    (fun a => ?_) (fun l two ihl ihr => ?_) l nonempty h
  · intro h
    rw [balanced_singleton]
    exact h a (List.mem_singleton.mpr rfl)
  · intro h
    rw [balanced_halves op dflt two]
    exact hom _ _ (ihl fun a ha => h a (List.mem_of_mem_take ha))
      (ihr fun a ha => h a (List.mem_of_mem_drop ha))

/-- Balanced folds of related lists are related. -/
theorem balanced_rel {R : α → β → Prop} {op : α → α → α} {op' : β → β → β}
    (hom : ∀ a a' b b', R a b → R a' b' → R (op a a') (op' b b')) {dflt : α} {dflt' : β}
    {l : List α} {l' : List β} (nonempty : l ≠ []) (h : List.Forall₂ R l l') :
    R (balanced op dflt l) (balanced op' dflt' l') := by
  refine halving_induction
    (motive := fun l => ∀ l', List.Forall₂ R l l' →
      R (balanced op dflt l) (balanced op' dflt' l'))
    (fun a => ?_) (fun l two ihl ihr => ?_) l nonempty l' h
  · intro l' h
    obtain ⟨b, _, hab, hnil, rfl⟩ := List.forall₂_cons_left_iff.mp h
    cases hnil
    rwa [balanced_singleton, balanced_singleton]
  · intro l' h
    have same := h.length_eq
    rw [balanced_halves op dflt two, balanced_halves op' dflt' (same ▸ two), ← same]
    exact hom _ _ _ _ (ihl _ (List.forall₂_take _ h)) (ihr _ (List.forall₂_drop _ h))

/-- Over leaves of one height a balanced fold adds the logarithm of their number. -/
theorem balanced_height {h : α → Nat} {k : Nat} {op : α → α → α}
    (hom : ∀ a b, h (op a b) = max (h a) (h b) + 1) (dflt : α) {l : List α}
    (nonempty : l ≠ []) (leaves : ∀ a ∈ l, h a = k) :
    h (balanced op dflt l) = k + Nat.clog 2 l.length := by
  refine halving_induction (motive := fun l => (∀ a ∈ l, h a = k) →
    h (balanced op dflt l) = k + Nat.clog 2 l.length) (fun a => ?_)
    (fun l two ihl ihr => ?_) l nonempty leaves
  · intro leaf
    rw [balanced_singleton, leaf a (List.mem_singleton.mpr rfl), List.length_singleton,
      Nat.clog_one_right, Nat.add_zero]
  · intro leaves
    have left := ihl fun a ha => leaves a (List.mem_of_mem_take ha)
    have right := ihr fun a ha => leaves a (List.mem_of_mem_drop ha)
    have ceiling : (l.length + 2 - 1) / 2 = l.length - l.length / 2 := by omega
    have less : Nat.clog 2 (l.length / 2) ≤ Nat.clog 2 (l.length - l.length / 2) :=
      Nat.clog_mono_right 2 (by omega)
    rw [List.length_take_of_le (Nat.div_le_self _ _)] at left
    rw [List.length_drop] at right
    rw [balanced_halves op dflt two, hom, left, right, Nat.clog_of_two_le (by decide) two, ceiling]
    omega

/-- Over leaves of one size a balanced fold has one operation less than leaves. -/
theorem balanced_size {s : α → Nat} {k : Nat} {op : α → α → α}
    (hom : ∀ a b, s (op a b) = s a + s b + 1) (dflt : α) {l : List α} (nonempty : l ≠ [])
    (leaves : ∀ a ∈ l, s a = k) : s (balanced op dflt l) + 1 = (k + 1) * l.length := by
  refine halving_induction (motive := fun l => (∀ a ∈ l, s a = k) →
    s (balanced op dflt l) + 1 = (k + 1) * l.length) (fun a => ?_)
    (fun l two ihl ihr => ?_) l nonempty leaves
  · intro leaf
    rw [balanced_singleton, leaf a (List.mem_singleton.mpr rfl), List.length_singleton, Nat.mul_one]
  · intro leaves
    have left := ihl fun a ha => leaves a (List.mem_of_mem_take ha)
    have right := ihr fun a ha => leaves a (List.mem_of_mem_drop ha)
    have whole : (l.take (l.length / 2)).length + (l.drop (l.length / 2)).length = l.length := by
      rw [← List.length_append, List.take_append_drop]
    have product : (k + 1) * l.length = (k + 1) * (l.take (l.length / 2)).length +
        (k + 1) * (l.drop (l.length / 2)).length := by rw [← Nat.mul_add, whole]
    rw [balanced_halves op dflt two, hom, product, ← left, ← right]
    omega

/-- A value put together with `op` from the elements of a list in their order, each used
once, with a number of levels of `op`. -/
inductive Tree (op : α → α → α) : List α → Nat → α → Prop
  | leaf (a : α) : Tree op [a] 0 a
  | node {l r : List α} {d e : Nat} {a b : α} : Tree op l d a → Tree op r e b →
      Tree op (l ++ r) (max d e + 1) (op a b)

/-- Each level at most doubles the number of leaves. -/
theorem Tree.length_le {op : α → α → α} {l : List α} {d : Nat} {a : α} (tree : Tree op l d a) :
    l.length ≤ 2 ^ d := by
  induction tree with
  | leaf => simp
  | @node l r d e a b _ _ ihl ihr =>
    have left : 2 ^ d ≤ 2 ^ max d e := Nat.pow_le_pow_right (by decide) (le_max_left d e)
    have right : 2 ^ e ≤ 2 ^ max d e := Nat.pow_le_pow_right (by decide) (le_max_right d e)
    rw [List.length_append, Nat.pow_succ]
    omega

/-- No tree over a list has fewer levels than the logarithm of its length. -/
theorem Tree.clog_le {op : α → α → α} {l : List α} {d : Nat} {a : α} (tree : Tree op l d a) :
    Nat.clog 2 l.length ≤ d := by
  apply Nat.clog_le_of_le_pow
  exact tree.length_le

/-- The balanced fold is a tree with that least number of levels. -/
theorem tree_balanced {op : α → α → α} (dflt : α) {l : List α} (nonempty : l ≠ []) :
    Tree op l (Nat.clog 2 l.length) (balanced op dflt l) := by
  refine halving_induction (motive := fun l => Tree op l (Nat.clog 2 l.length)
    (balanced op dflt l)) (fun a => ?_) (fun l two ihl ihr => ?_) l nonempty
  · rw [balanced_singleton, List.length_singleton, Nat.clog_one_right]
    exact .leaf a
  · have ceiling : (l.length + 2 - 1) / 2 = l.length - l.length / 2 := by omega
    have less : Nat.clog 2 (l.length / 2) ≤ Nat.clog 2 (l.length - l.length / 2) :=
      Nat.clog_mono_right 2 (by omega)
    have whole := Tree.node ihl ihr
    rw [List.take_append_drop, List.length_take_of_le (Nat.div_le_self _ _), List.length_drop,
      max_eq_right less, ← balanced_halves op dflt two] at whole
    rwa [Nat.clog_of_two_le (by decide) two, ceiling]

end BalancedFold
