import FheSql.Lib.Traced
import Mathlib.Data.List.Forall2

/-!
# Two runs side by side

Two computations that end alike: both throw the same exception, or both return, and the
results are related. `Alike` adds that they make the same requests in the same order.
Both are closed under the ways computations are put together.
-/

namespace Tracing

universe u v

variable {ρ : Type u} {ε α α' β β' γ : Type v}

/-- The same exception, or related results. -/
inductive Ends (R : α → α' → Prop) : Except ε α → Except ε α' → Prop where
  | ok {a b} : R a b → Ends R (.ok a) (.ok b)
  | error (e : ε) : Ends R (.error e) (.error e)

variable {R : α → α' → Prop} {S : β → β' → Prop}

theorem ends_bind {x : Except ε α} {y : Except ε α'} {f : α → Except ε β} {g : α' → Except ε β'}
    (first : Ends R x y) (rest : ∀ a b, R a b → Ends S (f a) (g b)) :
    Ends S (x >>= f) (y >>= g) := by
  cases first with
  | ok related => exact rest _ _ related
  | error e => exact .error e

theorem ends_mono {R' : α → α' → Prop} (weaker : ∀ a b, R a b → R' a b) {x : Except ε α}
    {y : Except ε α'} (h : Ends R x y) : Ends R' x y := by
  cases h with
  | ok related => exact .ok (weaker _ _ related)
  | error e => exact .error e

theorem ends_refl (x : Except ε α) : Ends Eq x x := by
  cases x with
  | ok a => exact .ok rfl
  | error e => exact .error e

theorem ends_mapError {ε' : Type v} {x : Except ε α} {y : Except ε α'} (h : Ends R x y)
    (f : ε → ε') : Ends R (x.mapError f) (y.mapError f) := by
  cases h with
  | ok related => exact .ok related
  | error e => exact .error (f e)

theorem ends_mapM {f : β → Except ε α} {g : β' → Except ε α'} {l : List β} {l' : List β'}
    (each : List.Forall₂ (fun b b' => Ends R (f b) (g b')) l l') :
    Ends (List.Forall₂ R) (l.mapM f) (l'.mapM g) := by
  induction each with
  | nil => exact .ok .nil
  | cons head _ ih =>
    rw [List.mapM_cons, List.mapM_cons]
    refine ends_bind head fun a b related => ends_bind ih fun as bs all => ?_
    exact .ok (.cons related all)

theorem ends_foldlM {γ : Type*} {f : α → γ → Except ε α} {g : α' → γ → Except ε α'} {l : List γ}
    (each : ∀ a b, R a b → ∀ c ∈ l, Ends R (f a c) (g b c)) {a : α} {b : α'} (start : R a b) :
    Ends R (l.foldlM f a) (l.foldlM g b) := by
  induction l generalizing a b with
  | nil => exact .ok start
  | cons c l ih =>
    rw [List.foldlM_cons, List.foldlM_cons]
    refine ends_bind (each a b start c List.mem_cons_self) fun a' b' related => ?_
    exact ih (fun a b same d mem => each a b same d (List.mem_cons_of_mem c mem)) related

/-- The same requests, and then alike. -/
structure Alike (R : α → α' → Prop) (x : Traced ρ ε α) (y : Traced ρ ε α') : Prop where
  log : x.log = y.log
  ends : Ends R x.outcome y.outcome

theorem alike_pure {a : α} {b : α'} (related : R a b) :
    Alike R (pure a : Traced ρ ε α) (pure b) := ⟨rfl, .ok related⟩

theorem alike_throw (e : ε) : Alike R (throw e : Traced ρ ε α) (throw e) := ⟨rfl, .error e⟩

/-- What stands behind a throw is not run. -/
theorem alike_throw_bind (e : ε) (f : α → Traced ρ ε β) (g : α' → Traced ρ ε β') :
    Alike S (throw e >>= f) (throw e >>= g) := ⟨rfl, .error e⟩

theorem alike_ask {requests : List ρ} {x : Except ε α} {y : Except ε α'} (ends : Ends R x y) :
    Alike R (Traced.ask requests x) (Traced.ask requests y) := ⟨rfl, ends⟩

theorem alike_ofExcept {x : Except ε α} {y : Except ε α'} (ends : Ends R x y) :
    Alike R (MonadExcept.ofExcept x : Traced ρ ε α) (MonadExcept.ofExcept y) := by
  cases ends with
  | ok related => exact alike_pure related
  | error e => exact alike_throw e

theorem alike_bind {x : Traced ρ ε α} {y : Traced ρ ε α'} {f : α → Traced ρ ε β}
    {g : α' → Traced ρ ε β'} (first : Alike R x y) (rest : ∀ a b, R a b → Alike S (f a) (g b)) :
    Alike S (x >>= f) (y >>= g) := by
  obtain ⟨outcome, log⟩ := x
  obtain ⟨outcome', log'⟩ := y
  obtain ⟨same, ends⟩ := first
  cases same
  cases ends with
  | ok related =>
    obtain ⟨log, ends⟩ := rest _ _ related
    rw [bind_ok rfl, bind_ok rfl]
    exact ⟨congrArg _ log, ends⟩
  | error e =>
    rw [bind_error rfl, bind_error rfl]
    exact ⟨rfl, .error e⟩

theorem alike_mapM {f : β → Traced ρ ε α} {g : β' → Traced ρ ε α'} {l : List β} {l' : List β'}
    (each : List.Forall₂ (fun b b' => Alike R (f b) (g b')) l l') :
    Alike (List.Forall₂ R) (l.mapM f) (l'.mapM g) := by
  induction each with
  | nil => exact alike_pure .nil
  | cons head _ ih =>
    rw [List.mapM_cons, List.mapM_cons]
    refine alike_bind head fun a b related => alike_bind ih fun as bs all => ?_
    exact alike_pure (.cons related all)

/-- Loops over one list keep a relation that every turn keeps. -/
theorem alike_foldlM {f : α → γ → Traced ρ ε α} {g : α' → γ → Traced ρ ε α'} {l : List γ}
    (each : ∀ a b, R a b → ∀ c ∈ l, Alike R (f a c) (g b c)) {a : α} {b : α'} (start : R a b) :
    Alike R (l.foldlM f a) (l.foldlM g b) := by
  induction l generalizing a b with
  | nil => exact alike_pure start
  | cons c l ih =>
    rw [List.foldlM_cons, List.foldlM_cons]
    refine alike_bind (each a b start c List.mem_cons_self) fun a' b' related => ?_
    exact ih (fun a b same d mem => each a b same d (List.mem_cons_of_mem c mem)) related

end Tracing
