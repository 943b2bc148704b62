import FheSql.Lib.Throwing
import Mathlib.Data.Fintype.Card
import Mathlib.Data.Finite.Prod
import Mathlib.Logic.Relation

/-!
# Walking a tree that is stored in a flat array

A node names its children by index, so nothing forces the indices to form a
tree. `walk` is the left-to-right recursion over such an array with an explicit
bound on the depth of calls; `Evaluates` is the same recursion as a relation
without a bound. The walk halts exactly when no index it calls is called again
below itself.
-/

namespace FlatTree

universe u v w
variable {ι : Type u} {E : Type v} {α : Type w}

/-- What a visit of one index does: finish, or recurse and combine. -/
inductive Visit (ι : Type u) (E : Type v) (α : Type w) where
  | done (result : Except E α)
  | unary (child : ι) (combine : α → α)
  | binary (left right : ι) (combine : α → α → α)

def walk (timeout : E) (visit : ι → Visit ι E α) : Nat → ι → Except E α
  | 0, _ => .error timeout
  | fuel + 1, i =>
    match visit i with
    | .done result => result
    | .unary child combine => do
      let a ← walk timeout visit fuel child
      pure (combine a)
    | .binary left right combine => do
      let a ← walk timeout visit fuel left
      let b ← walk timeout visit fuel right
      pure (combine a b)

/-- The recursion without a bound, error outcomes included. -/
inductive Evaluates (visit : ι → Visit ι E α) : ι → Except E α → Prop where
  | done {i result} : visit i = .done result → Evaluates visit i result
  | unary {i child combine a} : visit i = .unary child combine →
      Evaluates visit child (.ok a) → Evaluates visit i (.ok (combine a))
  | unaryError {i child combine e} : visit i = .unary child combine →
      Evaluates visit child (.error e) → Evaluates visit i (.error e)
  | binary {i left right combine a b} : visit i = .binary left right combine →
      Evaluates visit left (.ok a) → Evaluates visit right (.ok b) →
      Evaluates visit i (.ok (combine a b))
  | leftError {i left right combine e} : visit i = .binary left right combine →
      Evaluates visit left (.error e) → Evaluates visit i (.error e)
  | rightError {i left right combine a e} : visit i = .binary left right combine →
      Evaluates visit left (.ok a) → Evaluates visit right (.error e) →
      Evaluates visit i (.error e)

def Accepted (visit : ι → Visit ι E α) (i : ι) : Prop := ∃ a, Evaluates visit i (.ok a)

/-- The recursive calls made from an index. The right child is called only
when the left one has been accepted. -/
def Calls (visit : ι → Visit ι E α) (i j : ι) : Prop :=
  (∃ combine, visit i = .unary j combine) ∨
  (∃ right combine, visit i = .binary j right combine) ∨
  ∃ left combine, visit i = .binary left j combine ∧ Accepted visit left

variable {timeout : E} {visit : ι → Visit ι E α}

theorem walk_evaluates {fuel : Nat} {i : ι}
    (h : walk timeout visit fuel i ≠ .error timeout) :
    Evaluates visit i (walk timeout visit fuel i) := by
  induction fuel generalizing i with
  | zero => exact False.elim (h rfl)
  | succ fuel ih =>
    cases hv : visit i with
    | done result => simpa only [walk, hv] using Evaluates.done hv
    | unary child combine =>
      simp only [walk, hv] at h ⊢
      have hc := ih (i := child) fun hc => h (by simp [hc])
      cases hw : walk timeout visit fuel child with
      | error e => exact .unaryError hv (hw ▸ hc)
      | ok a => exact .unary hv (hw ▸ hc)
    | binary left right combine =>
      simp only [walk, hv] at h ⊢
      have hl := ih (i := left) fun hl => h (by simp [hl])
      cases hw : walk timeout visit fuel left with
      | error e => exact .leftError hv (hw ▸ hl)
      | ok a =>
        have hr := ih (i := right) fun hr => h (by simp [hw, hr])
        cases hx : walk timeout visit fuel right with
        | error e => exact .rightError hv (hw ▸ hl) (hx ▸ hr)
        | ok b => exact .binary hv (hw ▸ hl) (hx ▸ hr)

variable (timeout) in
/-- Enough fuel reproduces every outcome of the unbounded recursion. -/
theorem evaluates_walk {i : ι} {r : Except E α} (h : Evaluates visit i r) :
    ∃ fuel, ∀ more, fuel ≤ more → walk timeout visit more i = r := by
  induction h with
  | done hv =>
    refine ⟨1, fun more le => ?_⟩
    obtain ⟨m, rfl⟩ : ∃ m, more = m + 1 := ⟨more - 1, by omega⟩
    simp only [walk, hv]
  | unary hv _ ih =>
    obtain ⟨n, hn⟩ := ih
    refine ⟨n + 1, fun more le => ?_⟩
    obtain ⟨m, rfl⟩ : ∃ m, more = m + 1 := ⟨more - 1, by omega⟩
    simp [walk, hv, hn m (by omega)]
  | unaryError hv _ ih =>
    obtain ⟨n, hn⟩ := ih
    refine ⟨n + 1, fun more le => ?_⟩
    obtain ⟨m, rfl⟩ : ∃ m, more = m + 1 := ⟨more - 1, by omega⟩
    simp [walk, hv, hn m (by omega)]
  | binary hv _ _ ihl ihr =>
    obtain ⟨n, hn⟩ := ihl
    obtain ⟨k, hk⟩ := ihr
    refine ⟨max n k + 1, fun more le => ?_⟩
    obtain ⟨m, rfl⟩ : ∃ m, more = m + 1 := ⟨more - 1, by omega⟩
    simp [walk, hv, hn m (by omega), hk m (by omega)]
  | leftError hv _ ih =>
    obtain ⟨n, hn⟩ := ih
    refine ⟨n + 1, fun more le => ?_⟩
    obtain ⟨m, rfl⟩ : ∃ m, more = m + 1 := ⟨more - 1, by omega⟩
    simp [walk, hv, hn m (by omega)]
  | rightError hv _ _ ihl ihr =>
    obtain ⟨n, hn⟩ := ihl
    obtain ⟨k, hk⟩ := ihr
    refine ⟨max n k + 1, fun more le => ?_⟩
    obtain ⟨m, rfl⟩ : ∃ m, more = m + 1 := ⟨more - 1, by omega⟩
    simp [walk, hv, hn m (by omega), hk m (by omega)]

theorem evaluates_unique (timeout : E) {i : ι} {r s : Except E α}
    (hr : Evaluates visit i r) (hs : Evaluates visit i s) : r = s := by
  obtain ⟨n, hn⟩ := evaluates_walk timeout hr
  obtain ⟨m, hm⟩ := evaluates_walk timeout hs
  exact (hn (max n m) (by omega)).symm.trans (hm (max n m) (by omega))

/-- No visit reports the exhausted bound as its own failure. -/
def NoTimeout (timeout : E) (visit : ι → Visit ι E α) : Prop :=
  ∀ i result, visit i = .done result → result ≠ .error timeout

theorem evaluates_ne_timeout (clean : NoTimeout timeout visit) {i : ι} {r : Except E α}
    (h : Evaluates visit i r) : r ≠ .error timeout := by
  induction h with
  | done hv => exact clean _ _ hv
  | unary => simp
  | unaryError _ _ ih => simpa using ih
  | binary => simp
  | leftError _ _ ih => simpa using ih
  | rightError _ _ _ _ ih => simpa using ih

def Halts (timeout : E) (visit : ι → Visit ι E α) (i : ι) : Prop :=
  ∃ fuel, walk timeout visit fuel i ≠ .error timeout

theorem halts_iff_evaluates (clean : NoTimeout timeout visit) (i : ι) :
    Halts timeout visit i ↔ ∃ r, Evaluates visit i r := by
  constructor
  · rintro ⟨fuel, h⟩
    exact ⟨_, walk_evaluates h⟩
  · rintro ⟨r, h⟩
    obtain ⟨n, hn⟩ := evaluates_walk timeout h
    exact ⟨n, by rw [hn n (Nat.le_refl n)]; exact evaluates_ne_timeout clean h⟩

theorem accepted_iff_walk {i : ι} {a : α} :
    Evaluates visit i (.ok a) ↔ ∃ fuel, walk timeout visit fuel i = .ok a := by
  constructor
  · intro h
    obtain ⟨n, hn⟩ := evaluates_walk timeout h
    exact ⟨n, hn n (Nat.le_refl n)⟩
  · rintro ⟨fuel, h⟩
    have returns : walk timeout visit fuel i ≠ .error timeout := by simp [h]
    have he := walk_evaluates returns
    rwa [h] at he

theorem evaluates_of_acc {i : ι} (acc : Acc (fun j i => Calls visit i j) i) :
    ∃ r, Evaluates visit i r := by
  induction acc with
  | intro i _ ih =>
    cases hv : visit i with
    | done result => exact ⟨result, .done hv⟩
    | unary child combine =>
      obtain ⟨r, hr⟩ := ih child (Or.inl ⟨combine, hv⟩)
      cases r with
      | error e => exact ⟨_, .unaryError hv hr⟩
      | ok a => exact ⟨_, .unary hv hr⟩
    | binary left right combine =>
      obtain ⟨r, hr⟩ := ih left (Or.inr (Or.inl ⟨right, combine, hv⟩))
      cases r with
      | error e => exact ⟨_, .leftError hv hr⟩
      | ok a =>
        obtain ⟨s, hs⟩ := ih right (Or.inr (Or.inr ⟨left, combine, hv, a, hr⟩))
        cases s with
        | error e => exact ⟨_, .rightError hv hr hs⟩
        | ok b => exact ⟨_, .binary hv hr hs⟩

/-- An evaluation is a finite derivation, so no called index calls itself again. -/
theorem acc_of_evaluates (timeout : E) {i : ι} {r : Except E α}
    (h : Evaluates visit i r) : Acc (fun j i => Calls visit i j) i := by
  induction h with
  | done hv =>
    refine Acc.intro _ fun j hj => ?_
    rcases hj with ⟨f, hc⟩ | ⟨k, f, hc⟩ | ⟨l, f, hc, _⟩ <;> rw [hv] at hc <;> cases hc
  | unary hv _ ih | unaryError hv _ ih =>
    refine Acc.intro _ fun j hj => ?_
    rcases hj with ⟨f, hc⟩ | ⟨k, f, hc⟩ | ⟨l, f, hc, _⟩ <;> rw [hv] at hc <;> cases hc
    exact ih
  | binary hv _ _ ihl ihr | rightError hv _ _ ihl ihr =>
    refine Acc.intro _ fun j hj => ?_
    rcases hj with ⟨f, hc⟩ | ⟨k, f, hc⟩ | ⟨l, f, hc, _⟩ <;> rw [hv] at hc <;> cases hc
    · exact ihl
    · exact ihr
  | leftError hv he ih =>
    refine Acc.intro _ fun j hj => ?_
    rcases hj with ⟨f, hc⟩ | ⟨k, f, hc⟩ | ⟨l, f, hc, a, hl⟩ <;> rw [hv] at hc <;> cases hc
    · exact ih
    · cases evaluates_unique timeout hl he

theorem acc_not_cyclic {r : ι → ι → Prop} {i : ι} (acc : Acc r i) :
    ¬ Relation.TransGen r i i := by
  have acc' := acc.transGen
  clear acc
  induction acc' with
  | intro i _ ih => exact fun cycle => ih i cycle cycle

/-- Over finitely many indices, accessibility is the absence of a reachable cycle. -/
theorem acc_iff_no_cycle [Finite ι] {r : ι → ι → Prop} {i : ι} :
    Acc (fun k j => r j k) i ↔
      ∀ j, Relation.ReflTransGen r i j → ¬ Relation.TransGen r j j := by
  constructor
  · intro acc j path cycle
    have accj : Acc (fun k j => r j k) j := by
      clear cycle
      induction path with
      | refl => exact acc
      | tail _ step ih => exact ih.inv step
    exact acc_not_cyclic accj (Relation.transGen_swap.mp cycle)
  · intro noCycle
    let S := {j // Relation.ReflTransGen r i j}
    let R : S → S → Prop := fun k j => Relation.TransGen r j.1 k.1
    have : IsTrans S R := ⟨fun _ _ _ hab hbc => hbc.trans hab⟩
    have : Std.Irrefl R := ⟨fun j => noCycle j.1 j.2⟩
    have : Finite S := Subtype.finite
    have wf : WellFounded R := Finite.wellFounded_of_trans_of_irrefl R
    have all : ∀ s : S, Acc (fun k j => r j k) s.1 := by
      intro s
      induction s using wf.induction with
      | h s ih =>
        refine Acc.intro _ fun k hk => ?_
        exact ih ⟨k, s.2.tail hk⟩ (Relation.TransGen.single hk)
    exact all ⟨i, .refl⟩

/-- The walk halts exactly when no index it calls is called again below itself. -/
theorem halts_iff_no_cycle [Finite ι] (clean : NoTimeout timeout visit) (i : ι) :
    Halts timeout visit i ↔
      ∀ j, Relation.ReflTransGen (Calls visit) i j →
        ¬ Relation.TransGen (Calls visit) j j := by
  rw [← acc_iff_no_cycle, halts_iff_evaluates clean]
  constructor
  · rintro ⟨r, h⟩
    exact acc_of_evaluates timeout h
  · exact evaluates_of_acc

section Paths

variable {child : ι → Bool → Option ι}

variable (child) in
/-- The index at the end of a path of left (`false`) and right (`true`) turns. -/
def follow : ι → List Bool → Option ι
  | i, [] => some i
  | i, side :: sides => (child i side).bind fun j => follow j sides

variable (child) in
/-- No index is reached from the root along two paths. -/
def SinglePaths (root : ι) : Prop :=
  ∀ path path' j, follow child root path = some j → follow child root path' = some j → path = path'

variable (child) in
/-- No two links of reached indices lead to the same index. -/
def Unshared (root : ι) : Prop :=
  ∀ path path' i i' side side' j, follow child root path = some i →
    follow child root path' = some i' → child i side = some j → child i' side' = some j →
      i = i' ∧ side = side'

theorem follow_append (i : ι) (path rest : List Bool) :
    follow child i (path ++ rest) = (follow child i path).bind fun j => follow child j rest := by
  induction path generalizing i with
  | nil => rfl
  | cons side path ih =>
    simp only [List.cons_append, follow, Option.bind_assoc]
    exact Option.bind_congr fun j _ => ih j

theorem follow_snoc {i j : ι} {path : List Bool} {side : Bool} :
    follow child i (path ++ [side]) = some j ↔
      ∃ k, follow child i path = some k ∧ child k side = some j := by
  rw [follow_append, Option.bind_eq_some_iff]
  simp only [follow, Option.bind_fun_some]

theorem singlePaths_child {i j : ι} {side : Bool} (single : SinglePaths child i)
    (link : child i side = some j) : SinglePaths child j := by
  intro path path' k h h'
  have longer : ∀ path, follow child j path = some k →
      follow child i (side :: path) = some k := fun path h => by
    rw [follow, link]
    exact h
  exact (List.cons.inj (single _ _ k (longer path h) (longer path' h'))).2

/-- Below a root that no path leads back to, single paths are unshared links. -/
theorem singlePaths_iff_unshared {root : ι}
    (acyclic : ∀ path, follow child root path = some root → path = []) :
    SinglePaths child root ↔ Unshared child root := by
  constructor
  · intro single path path' i i' side side' j hi hi' hj hj'
    have same := single (path ++ [side]) (path' ++ [side']) j (follow_snoc.mpr ⟨i, hi, hj⟩)
      (follow_snoc.mpr ⟨i', hi', hj'⟩)
    obtain ⟨rfl, last⟩ := List.append_inj' same rfl
    rw [hi] at hi'
    exact ⟨Option.some.inj hi', (List.cons.inj last).1⟩
  · intro unshared path
    induction path using List.reverseRecOn with
    | nil =>
      intro path' j h h'
      cases h
      exact (acyclic path' h').symm
    | append_singleton path side ih =>
      intro path' j h h'
      rcases List.eq_nil_or_concat path' with rfl | ⟨front, side', rfl⟩
      · cases h'
        exact absurd (acyclic _ h) (by simp)
      · rw [List.concat_eq_append] at h' ⊢
        obtain ⟨i, hi, hj⟩ := follow_snoc.mp h
        obtain ⟨i', hi', hj'⟩ := follow_snoc.mp h'
        obtain ⟨rfl, rfl⟩ := unshared _ _ i i' side side' j hi hi' hj hj'
        rw [ih front i hi hi']

variable (timeout visit) in
/-- The indices a walk is called on, in the order of the calls. -/
def walkCalls : Nat → ι → List ι
  | 0, i => [i]
  | fuel + 1, i =>
    i :: match visit i with
      | .done _ => []
      | .unary child _ => walkCalls fuel child
      | .binary left right _ => walkCalls fuel left ++
          match walk timeout visit fuel left with
          | .ok _ => walkCalls fuel right
          | .error _ => []

/-- A visit that recurses into the children only. -/
structure Conforms (visit : ι → Visit ι E α) (child : ι → Bool → Option ι) : Prop where
  unary : ∀ {i c combine}, visit i = .unary c combine → child i false = some c
  binary : ∀ {i left right combine}, visit i = .binary left right combine →
    child i false = some left ∧ child i true = some right

theorem mem_walkCalls (conforms : Conforms visit child) {fuel : Nat} {i j : ι}
    (mem : j ∈ walkCalls timeout visit fuel i) : ∃ path, follow child i path = some j := by
  induction fuel generalizing i with
  | zero =>
    rw [List.mem_singleton.mp mem]
    exact ⟨[], rfl⟩
  | succ fuel ih =>
    have below : ∀ {side : Bool} {c : ι}, child i side = some c →
        j ∈ walkCalls timeout visit fuel c → ∃ path, follow child i path = some j := by
      intro side c link mem
      obtain ⟨path, h⟩ := ih mem
      exact ⟨side :: path, by rw [follow, link]; exact h⟩
    rw [walkCalls, List.mem_cons] at mem
    rcases mem with rfl | mem
    · exact ⟨[], rfl⟩
    · cases hv : visit i with
      | done result => simp [hv] at mem
      | unary c combine =>
        rw [hv] at mem
        exact below (conforms.unary hv) mem
      | binary left right combine =>
        obtain ⟨hl, hr⟩ := conforms.binary hv
        rw [hv] at mem
        rcases List.mem_append.mp mem with mem | mem
        · exact below hl mem
        · cases hw : walk timeout visit fuel left with
          | error e => simp [hw] at mem
          | ok a =>
            rw [hw] at mem
            exact below hr mem

theorem follow_of_mem_walkCalls (conforms : Conforms visit child) {fuel : Nat} {i c j : ι}
    {side : Bool} (link : child i side = some c) (mem : j ∈ walkCalls timeout visit fuel c) :
    ∃ path, follow child i (side :: path) = some j := by
  obtain ⟨path, h⟩ := mem_walkCalls conforms mem
  exact ⟨path, by rw [follow, link]; exact h⟩

/-- Where every index has a single path, the walk calls none twice. -/
theorem walkCalls_nodup (conforms : Conforms visit child) {fuel : Nat} {i : ι}
    (single : SinglePaths child i) : (walkCalls timeout visit fuel i).Nodup := by
  induction fuel generalizing i with
  | zero => exact List.nodup_singleton i
  | succ fuel ih =>
    have fresh : ∀ {side : Bool} {c : ι}, child i side = some c →
        i ∉ walkCalls timeout visit fuel c := by
      intro side c link mem
      obtain ⟨path, h⟩ := follow_of_mem_walkCalls conforms link mem
      cases single _ _ i h (rfl : follow child i [] = some i)
    rw [walkCalls, List.nodup_cons]
    cases hv : visit i with
    | done result => exact ⟨List.not_mem_nil, List.nodup_nil⟩
    | unary c combine =>
      have link := conforms.unary hv
      exact ⟨fresh link, ih (singlePaths_child single link)⟩
    | binary left right combine =>
      obtain ⟨hl, hr⟩ := conforms.binary hv
      have leftCalls := ih (singlePaths_child single hl)
      cases hw : walk timeout visit fuel left with
      | error e =>
        simp only [hw, List.append_nil]
        exact ⟨fresh hl, leftCalls⟩
      | ok a =>
        simp only [hw, List.mem_append, not_or, List.nodup_append]
        refine ⟨⟨fresh hl, fresh hr⟩, leftCalls, ih (singlePaths_child single hr), ?_⟩
        rintro j inLeft _ inRight rfl
        obtain ⟨path, h⟩ := follow_of_mem_walkCalls conforms hl inLeft
        obtain ⟨path', h'⟩ := follow_of_mem_walkCalls conforms hr inRight
        cases single _ _ j h h'

end Paths

end FlatTree
