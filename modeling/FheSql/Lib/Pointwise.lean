import Mathlib.Data.List.Forall2
import Mathlib.Data.List.ProdSigma
import Mathlib.Data.List.ReduceOption
import Mathlib.Tactic.Common

/-!
# Lists related element by element

List operations that keep two lists related: positions, selection by a test,
stable sorting.
-/

namespace Pointwise

variable {α β : Type*} {R : α → β → Prop}

/-- Every position of a list is related to the element it holds. -/
theorem forall₂_range (l : List α) :
    List.Forall₂ (fun i a => l[i]? = some a) (List.range l.length) l := by
  refine List.forall₂_iff_get.mpr ⟨List.length_range, fun i _ inside => ?_⟩
  simp only [List.get_eq_getElem, List.getElem_range]
  exact List.getElem?_eq_getElem inside

/-- The optional results of a test leave the results of the elements that pass. -/
theorem forall₂_reduceOption {chosen : β → Bool} {l : List (Option α)} {l' : List β}
    (h : List.Forall₂ (fun a? b => if chosen b then ∃ a, a? = some a ∧ R a b else a? = none) l l') :
    List.Forall₂ R l.reduceOption (l'.filter chosen) := by
  induction h with
  | nil => exact .nil
  | @cons a? b l l' head _ ih =>
    by_cases pass : chosen b = true
    · rw [if_pos pass] at head
      obtain ⟨a, rfl, related⟩ := head
      rw [List.reduceOption_cons_of_some, List.filter_cons_of_pos pass]
      exact .cons related ih
    · rw [if_neg pass] at head
      rw [head, List.reduceOption_cons_of_none, List.filter_cons_of_neg pass]
      exact ih

/-- What holds of all elements of the second list may join the relation. -/
theorem forall₂_and_mem {p : β → Prop} {l : List α} {l' : List β} (h : List.Forall₂ R l l')
    (all : ∀ b ∈ l', p b) : List.Forall₂ (fun a b => R a b ∧ p b) l l' := by
  induction h with
  | nil => exact .nil
  | cons head _ ih =>
    exact .cons ⟨head, all _ List.mem_cons_self⟩
      (ih fun b mem => all b (List.mem_cons_of_mem _ mem))

/-- Related lists are the two sides of one list of related pairs. -/
theorem exists_pairs {l : List α} {l' : List β} (h : List.Forall₂ R l l') :
    ∃ pairs : List (α × β), l = pairs.map Prod.fst ∧ l' = pairs.map Prod.snd ∧
      ∀ x ∈ pairs, R x.1 x.2 := by
  obtain ⟨same, related⟩ := List.forall₂_iff_zip.mp h
  refine ⟨l.zip l', ?_, ?_, fun x mem => related mem⟩
  · exact (List.map_fst_zip (by omega)).symm
  · exact (List.map_snd_zip (by omega)).symm

theorem forall₂_of_pairs {pairs : List (α × β)} (h : ∀ x ∈ pairs, R x.1 x.2) :
    List.Forall₂ R (pairs.map Prod.fst) (pairs.map Prod.snd) := by
  rw [List.forall₂_map_left_iff, List.forall₂_map_right_iff, List.forall₂_same]
  exact h

/-- Sorted by orders that agree, related lists stay related. -/
theorem forall₂_mergeSort {le : α → α → Bool} {le' : β → β → Bool} {l : List α} {l' : List β}
    (h : List.Forall₂ R l l') (agree : ∀ a b a' b', R a b → R a' b' → le a a' = le' b b') :
    List.Forall₂ R (l.mergeSort le) (l'.mergeSort le') := by
  obtain ⟨pairs, rfl, rfl, related⟩ := exists_pairs h
  have left : (pairs.mergeSort fun x y => le x.1 y.1).map Prod.fst =
      (pairs.map Prod.fst).mergeSort le := List.map_mergeSort fun _ _ _ _ => rfl
  have right : (pairs.mergeSort fun x y => le x.1 y.1).map Prod.snd =
      (pairs.map Prod.snd).mergeSort le' :=
    List.map_mergeSort fun x hx y hy => agree _ _ _ _ (related x hx) (related y hy)
  rw [← left, ← right]
  exact forall₂_of_pairs fun x mem => related x (List.mem_mergeSort.mp mem)

/-- Pieces of one element each are related as their concatenation is. -/
theorem forall₂_singletons {l : List α} {pieces : List (List β)}
    (h : List.Forall₂ (fun a bs => ∃ b, bs = [b] ∧ R a b) l pieces) :
    List.Forall₂ R l pieces.flatten := by
  induction h with
  | nil => exact .nil
  | cons head _ ih =>
    obtain ⟨b, rfl, related⟩ := head
    exact .cons related ih

/-- Pieces that each belong to one element of the left list, and run through the
right list, make up a list for the product. -/
theorem forall₂_product {γ : Type*} {S : α × γ → β → Prop} {l : List α} {m : List γ}
    {pieces : List (List β)}
    (h : List.Forall₂ (fun a bs => List.Forall₂ (fun c b => S (a, c) b) m bs) l pieces) :
    List.Forall₂ S (l ×ˢ m) pieces.flatten := by
  induction h with
  | nil => exact .nil
  | @cons a bs l pieces head _ ih =>
    rw [List.product_cons, List.flatten_cons]
    exact List.rel_append (List.forall₂_map_left_iff.mpr head) ih

/-- Related lists have related products. -/
theorem forall₂_prod {γ δ : Type*} {S : γ → δ → Prop} {l : List α} {l' : List β} {m : List γ}
    {m' : List δ} (h : List.Forall₂ R l l') (h' : List.Forall₂ S m m') :
    List.Forall₂ (fun x y => R x.1 y.1 ∧ S x.2 y.2) (l ×ˢ m) (l' ×ˢ m') := by
  induction h with
  | nil => exact .nil
  | cons head _ ih =>
    rw [List.product_cons, List.product_cons]
    refine List.rel_append ?_ ih
    rw [List.forall₂_map_left_iff, List.forall₂_map_right_iff]
    exact h'.imp fun c d related => ⟨head, related⟩

/-- Two relations to one list meet in its elements. -/
theorem forall₂_meet {S : α → β → Prop} {l : List α} {l' : List β} (h : List.Forall₂ R l l')
    (h' : List.Forall₂ S l l') {a : α} (mem : a ∈ l) : ∃ b, R a b ∧ S a b := by
  induction h with
  | nil => cases mem
  | @cons c b l l' head rest ih =>
    cases h' with
    | cons head' rest' =>
      rcases List.mem_cons.mp mem with rfl | mem
      · exact ⟨b, head, head'⟩
      · exact ih rest' mem

/-- Elements for the numbers below a bound, as one function. -/
theorem exists_below {Q : Nat → α → Prop} {n : Nat} (some_below : 0 < n)
    (h : ∀ i < n, ∃ a, Q i a) : ∃ f : Nat → α, ∀ i < n, Q i (f i) := by
  obtain ⟨default, _⟩ := h 0 some_below
  have total : ∀ i, ∃ a, i < n → Q i a := by
    intro i
    by_cases inside : i < n
    · obtain ⟨a, found⟩ := h i inside
      exact ⟨a, fun _ => found⟩
    · exact ⟨default, fun below => (inside below).elim⟩
  exact Classical.axiom_of_choice total

theorem zipIdx_map_range (f : Nat → α) (n : Nat) :
    ((List.range n).map f).zipIdx = (List.range n).map fun i => (f i, i) :=
  List.ext_getElem (by simp) fun i _ _ => by simp

/-- Lists related to one list are related to each other. -/
theorem forall₂_span {γ : Type*} {S : α → γ → Prop} {T : β → γ → Prop} {l : List α} {l' : List β}
    {m : List γ} (h : List.Forall₂ R l l') (h' : List.Forall₂ S l m)
    (both : ∀ a b c, R a b → S a c → T b c) : List.Forall₂ T l' m := by
  induction h generalizing m with
  | nil =>
    cases h'
    exact .nil
  | cons head _ ih =>
    cases h' with
    | cons head' rest' => exact .cons (both _ _ _ head head') (ih rest')

/-- A relation to the positions of a list, as one to its elements. -/
theorem forall₂_of_zipIdx {S : α × Nat → β → Prop} {l : List α} {l' : List β}
    (h : List.Forall₂ S l.zipIdx l') : List.Forall₂ (fun a b => ∃ i, S (a, i) b) l l' := by
  rw [← List.zipIdx_map_fst 0 l, List.forall₂_map_left_iff]
  exact h.imp fun x b hx => ⟨x.2, hx⟩

/-- Related lists stay related when both are numbered. -/
theorem forall₂_zipIdx {l : List α} {l' : List β} (h : List.Forall₂ R l l') (n : Nat) :
    List.Forall₂ (fun a b => R a.1 b.1 ∧ a.2 = b.2) (l.zipIdx n) (l'.zipIdx n) := by
  induction h generalizing n with
  | nil => exact .nil
  | cons head _ ih => exact .cons ⟨head, rfl⟩ (ih (n + 1))

/-- Where related elements meet a condition just when the first one is of some
kind, the lists do when the whole first list is of that kind. -/
theorem forall₂_iff_forall_mem {C : α → β → Prop} {p : α → Prop} {l : List α} {l' : List β}
    (h : List.Forall₂ R l l') (same : ∀ a b, R a b → (C a b ↔ p a)) :
    List.Forall₂ C l l' ↔ ∀ a ∈ l, p a := by
  induction h with
  | nil => simp
  | cons head _ ih => rw [List.forall₂_cons, List.forall_mem_cons, same _ _ head, ih]

end Pointwise
