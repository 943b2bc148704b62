import Mathlib.Data.List.Basic
import Mathlib.Tactic.Common

/-!
# Stable sorting

A stable sort of a list by a strict weak order is determined by its order and by the
order of ties; `List.mergeSort` computes it. The comparator need be an order on the
elements of the list only.
-/

namespace StableSort

variable {α : Type*} {p : α → Prop} {lt : α → α → Bool}

/-- Neither of two elements comes first. -/
def tied (lt : α → α → Bool) (a b : α) : Bool := !lt a b && !lt b a

/-- A comparator that orders the elements of a kind, up to ties. -/
structure StrictWeakOrder (p : α → Prop) (lt : α → α → Bool) : Prop where
  irrefl : ∀ a, p a → lt a a = false
  trans : ∀ a b c, p a → p b → p c → lt a b = true → lt b c = true → lt a c = true
  ties : ∀ a b c, p a → p b → p c → tied lt a b = true → tied lt b c = true →
    tied lt a c = true

/-- A permutation in which nothing comes before its predecessors, ties standing as
they did. -/
structure IsStableSort (lt : α → α → Bool) (l sorted : List α) : Prop where
  perm : sorted.Perm l
  ordered : sorted.Pairwise fun a b => lt b a = false
  stable : ∀ a ∈ l, sorted.filter (tied lt a) = l.filter (tied lt a)

theorem tied_iff {a b : α} : tied lt a b = true ↔ lt a b = false ∧ lt b a = false := by
  simp [tied]

theorem tied_comm {a b : α} : tied lt a b = tied lt b a := Bool.and_comm _ _

namespace StrictWeakOrder

theorem mono {q : α → Prop} (order : StrictWeakOrder p lt) (h : ∀ a, q a → p a) :
    StrictWeakOrder q lt where
  irrefl a ha := order.irrefl a (h a ha)
  trans a b c ha hb hc := order.trans a b c (h a ha) (h b hb) (h c hc)
  ties a b c ha hb hc := order.ties a b c (h a ha) (h b hb) (h c hc)

theorem asymm (order : StrictWeakOrder p lt) {a b : α} (ha : p a) (hb : p b)
    (h : lt a b = true) : lt b a = false := by
  cases back : lt b a with
  | false => rfl
  | true =>
    have loop := order.trans a b a ha hb ha h back
    rw [order.irrefl a ha] at loop
    cases loop

/-- Not coming first is transitive. -/
theorem notLt_trans (order : StrictWeakOrder p lt) {a b c : α} (ha : p a) (hb : p b) (hc : p c)
    (hab : lt b a = false) (hbc : lt c b = false) : lt c a = false := by
  cases first : lt c a with
  | false => rfl
  | true =>
    cases below : lt a b with
    | true =>
      rw [order.trans c a b hc ha hb first below] at hbc
      cases hbc
    | false =>
      cases above : lt b c with
      | true =>
        rw [order.trans b c a hb hc ha above first] at hab
        cases hab
      | false =>
        have tie := order.ties a b c ha hb hc (tied_iff.mpr ⟨below, hab⟩)
          (tied_iff.mpr ⟨above, hbc⟩)
        rw [(tied_iff.mp tie).2] at first
        cases first

end StrictWeakOrder

/-- A merge sort by an order of the whole type is stable. -/
theorem isStableSort_of_order (order : StrictWeakOrder (fun _ => True) lt) (l : List α) :
    IsStableSort lt l (l.mergeSort fun a b => !lt b a) := by
  have le_trans : ∀ a b c : α, (!lt b a) = true → (!lt c b) = true → (!lt c a) = true := by
    intro a b c hab hbc
    simp only [Bool.not_eq_true'] at hab hbc ⊢
    exact order.notLt_trans trivial trivial trivial hab hbc
  have le_total : ∀ a b : α, (!lt b a || !lt a b) = true := by
    intro a b
    cases h : lt b a with
    | false => rfl
    | true => rw [order.asymm trivial trivial h]; rfl
  have perm := List.mergeSort_perm l fun a b => !lt b a
  refine ⟨perm, ?_, fun a _ => ?_⟩
  · refine (List.pairwise_mergeSort le_trans le_total l).imp fun h => ?_
    simpa using h
  · have ties : (l.filter (tied lt a)).Pairwise fun b c => (!lt c b) = true := by
      refine List.pairwise_of_forall_mem_list fun b hb c hc => ?_
      have tie := order.ties b a c trivial trivial trivial
        (tied_comm.trans (List.mem_filter.mp hb).2) (List.mem_filter.mp hc).2
      rw [(tied_iff.mp tie).2]
      rfl
    -- the ties form a sorted sublist of the input, which a merge sort leaves as it is
    have kept := (List.sublist_mergeSort le_trans le_total ties List.filter_sublist).filter
      (tied lt a)
    simp only [List.filter_filter, Bool.and_self] at kept
    exact (kept.eq_of_length (perm.filter _).length_eq.symm).symm

/-- A stable sort of elements of a subtype is one of the elements. -/
theorem isStableSort_map {q : α → Prop} {l sorted : List {a // q a}}
    (h : IsStableSort (fun a b => lt a.val b.val) l sorted) :
    IsStableSort lt (l.map Subtype.val) (sorted.map Subtype.val) where
  perm := h.perm.map _
  ordered := List.pairwise_map.mpr h.ordered
  stable a mem := by
    obtain ⟨b, hb, rfl⟩ := List.mem_map.mp mem
    have same := congrArg (List.map Subtype.val) (h.stable b hb)
    rw [List.filter_map, List.filter_map]
    exact same

/-- So is a merge sort of elements that are ordered among each other. -/
theorem isStableSort_mergeSort (order : StrictWeakOrder p lt) {l : List α} (all : ∀ a ∈ l, p a) :
    IsStableSort lt l (l.mergeSort fun a b => !lt b a) := by
  obtain ⟨l, rfl⟩ : ∃ l' : List {a // p a}, l'.map Subtype.val = l :=
    ⟨l.attachWith p all, List.attachWith_map_subtype_val all⟩
  have sub : StrictWeakOrder (fun _ : {a // p a} => True) fun a b => lt a.val b.val :=
    ⟨fun a _ => order.irrefl a.val a.property,
      fun a b c _ _ _ => order.trans a.val b.val c.val a.property b.property c.property,
      fun a b c _ _ _ => order.ties a.val b.val c.val a.property b.property c.property⟩
  have sorted : (l.mergeSort fun a b => !lt b.val a.val).map Subtype.val =
      (l.map Subtype.val).mergeSort fun a b => !lt b a := List.map_mergeSort fun _ _ _ _ => rfl
  rw [← sorted]
  exact isStableSort_map (isStableSort_of_order sub l)

/-- There is one stable sort of a list. -/
theorem isStableSort_unique {l s t : List α} (irrefl : ∀ a ∈ l, lt a a = false)
    (hs : IsStableSort lt l s) (ht : IsStableSort lt l t) : s = t := by
  have same : ∀ a ∈ s, s.filter (tied lt a) = t.filter (tied lt a) := fun a mem =>
    (hs.stable a (hs.perm.mem_iff.mp mem)).trans (ht.stable a (hs.perm.mem_iff.mp mem)).symm
  have perm := hs.perm.trans ht.perm.symm
  have self : ∀ a ∈ s, lt a a = false := fun a mem => irrefl a (hs.perm.mem_iff.mp mem)
  have ordered := hs.ordered
  have ordered' := ht.ordered
  clear hs ht
  induction s generalizing t with
  | nil => exact (List.nil_perm.mp perm).symm
  | cons a s ih =>
    cases t with
    | nil => exact (List.cons_ne_nil a s (List.perm_nil.mp perm)).elim
    | cons b t =>
      obtain ⟨first, tail⟩ := List.pairwise_cons.mp ordered
      obtain ⟨first', tail'⟩ := List.pairwise_cons.mp ordered'
      -- each head stands before the other in one of the lists, so they are tied
      have tie : tied lt a b = true := by
        have ha := self a List.mem_cons_self
        rcases List.mem_cons.mp (perm.mem_iff.mp List.mem_cons_self) with rfl | later
        · exact tied_iff.mpr ⟨ha, ha⟩
        rcases List.mem_cons.mp (perm.symm.mem_iff.mp List.mem_cons_self) with rfl | later'
        · exact tied_iff.mpr ⟨ha, ha⟩
        exact tied_iff.mpr ⟨first' a later, first b later'⟩
      have heads := same a List.mem_cons_self
      have own : tied lt a a = true := tied_iff.mpr ⟨self a List.mem_cons_self,
        self a List.mem_cons_self⟩
      rw [List.filter_cons_of_pos own, List.filter_cons_of_pos tie] at heads
      obtain ⟨rfl, _⟩ := List.cons.inj heads
      have rest : ∀ c ∈ s, s.filter (tied lt c) = t.filter (tied lt c) := by
        intro c mem
        have whole := same c (List.mem_cons_of_mem a mem)
        by_cases here : tied lt c a = true
        · rw [List.filter_cons_of_pos here, List.filter_cons_of_pos here] at whole
          exact (List.cons.inj whole).2
        · rwa [List.filter_cons_of_neg here, List.filter_cons_of_neg here] at whole
      rw [ih rest perm.cons_inv (fun c mem => self c (List.mem_cons_of_mem a mem)) tail tail']

/-- Nothing comes before anything else: the list stays as it is. -/
theorem isStableSort_self {l : List α} (h : ∀ a b, lt a b = false) : IsStableSort lt l l :=
  ⟨.refl l, List.pairwise_of_forall fun a b => h b a, fun _ _ => rfl⟩

end StableSort
