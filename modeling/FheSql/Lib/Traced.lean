import FheSql.Lib.Throwing

/-!
# Computations that log their requests

A computation over an outside service, which may throw: its outcome together
with the requests it has made by then. `Within` says that all of them are of a
given kind; it is closed under the ways computations are put together.
-/

namespace Tracing

universe u v

/-- The outcome of a computation and the requests made on the way to it. -/
structure Traced (ρ : Type u) (ε : Type v) (α : Type v) where
  outcome : Except ε α
  log : List ρ

variable {ρ : Type u} {ε α β γ : Type v}

namespace Traced

def bind (x : Traced ρ ε α) (f : α → Traced ρ ε β) : Traced ρ ε β :=
  match x.outcome with
  | .ok a => ⟨(f a).outcome, x.log ++ (f a).log⟩
  | .error e => ⟨.error e, x.log⟩

def handle (x : Traced ρ ε α) (f : ε → Traced ρ ε α) : Traced ρ ε α :=
  match x.outcome with
  | .ok a => ⟨.ok a, x.log⟩
  | .error e => ⟨(f e).outcome, x.log ++ (f e).log⟩

instance : Monad (Traced ρ ε) where
  pure a := ⟨.ok a, []⟩
  bind := bind

instance : MonadExceptOf ε (Traced ρ ε) where
  throw e := ⟨.error e, []⟩
  tryCatch := handle

/-- Requests made at once, and the answer to them. -/
def ask (requests : List ρ) (answer : Except ε α) : Traced ρ ε α := ⟨answer, requests⟩

end Traced

open Traced Throwing

theorem bind_ok {x : Traced ρ ε α} {a : α} (h : x.outcome = .ok a) (f : α → Traced ρ ε β) :
    x >>= f = ⟨(f a).outcome, x.log ++ (f a).log⟩ := by
  change Traced.bind x f = _
  simp only [Traced.bind, h]

theorem bind_error {x : Traced ρ ε α} {e : ε} (h : x.outcome = .error e)
    (f : α → Traced ρ ε β) : x >>= f = ⟨.error e, x.log⟩ := by
  change Traced.bind x f = _
  simp only [Traced.bind, h]

theorem traced_id_map (x : Traced ρ ε α) : id <$> x = x := by
  obtain ⟨outcome, log⟩ := x
  cases outcome with
  | error e => rfl
  | ok a => exact congrArg (Traced.mk (.ok a)) (List.append_nil log)

theorem traced_bind_assoc (x : Traced ρ ε α) (f : α → Traced ρ ε β) (g : β → Traced ρ ε γ) :
    x >>= f >>= g = x >>= fun a => f a >>= g := by
  obtain ⟨outcome, log⟩ := x
  cases outcome with
  | error e => rfl
  | ok a =>
    rw [bind_ok (a := a) rfl, bind_ok (a := a) rfl]
    cases h : (f a).outcome with
    | error e => rw [bind_error h, bind_error rfl]
    | ok b => rw [bind_ok h, bind_ok rfl, List.append_assoc]

instance : LawfulMonad (Traced ρ ε) :=
  LawfulMonad.mk' (Traced ρ ε) traced_id_map (fun _ _ => rfl) traced_bind_assoc

/-- Every request is of one kind. -/
structure Within (kind : ρ → Prop) (x : Traced ρ ε α) : Prop where
  requests : ∀ r ∈ x.log, kind r

variable {kind : ρ → Prop}

theorem within_pure (a : α) : Within kind (pure a : Traced ρ ε α) := ⟨nofun⟩

theorem within_throw (e : ε) : Within kind (throw e : Traced ρ ε α) := ⟨nofun⟩

/-- What stands behind a throw is not run. -/
theorem within_throw_bind (e : ε) (f : α → Traced ρ ε β) : Within kind (throw e >>= f) := ⟨nofun⟩

theorem within_ofExcept (x : Except ε α) :
    Within kind (MonadExcept.ofExcept x : Traced ρ ε α) := by
  cases x with
  | ok a => exact within_pure a
  | error e => exact within_throw e

@[simp] theorem outcome_ofExcept (x : Except ε α) :
    (MonadExcept.ofExcept x : Traced ρ ε α).outcome = x := by
  cases x <;> rfl

@[simp] theorem outcome_pure (a : α) : (pure a : Traced ρ ε α).outcome = pure a := rfl

@[simp] theorem outcome_throw (e : ε) : (throw e : Traced ρ ε α).outcome = throw e := rfl

@[simp] theorem outcome_bind (x : Traced ρ ε α) (f : α → Traced ρ ε β) :
    (x >>= f).outcome = x.outcome >>= fun a => (f a).outcome := by
  cases h : x.outcome with
  | ok a => rw [bind_ok h, ok_bind]
  | error e => rw [bind_error h, error_bind]

@[simp] theorem outcome_mapM (f : α → Traced ρ ε β) (l : List α) :
    (l.mapM f).outcome = l.mapM fun a => (f a).outcome := by
  induction l with
  | nil => rfl
  | cons a l ih => simp only [List.mapM_cons, outcome_bind, outcome_pure, ih]

@[simp] theorem outcome_foldlM (f : β → α → Traced ρ ε β) (b : β) (l : List α) :
    (l.foldlM f b).outcome = l.foldlM (fun b a => (f b a).outcome) b := by
  induction l generalizing b with
  | nil => rfl
  | cons a l ih => simp only [List.foldlM_cons, outcome_bind, ih]

theorem ofExcept_ok_bind (a : α) (f : α → Traced ρ ε β) :
    (MonadExcept.ofExcept (.ok a : Except ε α) : Traced ρ ε α) >>= f = f a := rfl

theorem ask_ok_bind (requests : List ρ) (a : α) (f : α → Traced ρ ε β) :
    ask requests (.ok a) >>= f = ⟨(f a).outcome, requests ++ (f a).log⟩ := rfl

theorem within_ask {requests : List ρ} {answer : Except ε α} (h : ∀ r ∈ requests, kind r) :
    Within kind (ask requests answer) := ⟨h⟩

theorem within_bind {x : Traced ρ ε α} {f : α → Traced ρ ε β} (hx : Within kind x)
    (hf : ∀ a, x.outcome = .ok a → Within kind (f a)) : Within kind (x >>= f) := by
  cases h : x.outcome with
  | error e =>
    rw [bind_error h]
    exact ⟨hx.requests⟩
  | ok a =>
    rw [bind_ok h]
    refine ⟨fun r hr => ?_⟩
    rcases List.mem_append.mp hr with hr | hr
    · exact hx.requests r hr
    · exact (hf a h).requests r hr

theorem within_mapM {f : α → Traced ρ ε β} {l : List α} (h : ∀ a ∈ l, Within kind (f a)) :
    Within kind (l.mapM f) := by
  induction l with
  | nil => exact within_pure []
  | cons a l ih =>
    rw [List.mapM_cons]
    apply within_bind (h a List.mem_cons_self)
    intro b _
    apply within_bind (ih fun c hc => h c (List.mem_cons_of_mem a hc))
    intro bs _
    exact within_pure _

theorem within_foldlM {f : β → α → Traced ρ ε β} {l : List α}
    (h : ∀ b, ∀ a ∈ l, Within kind (f b a)) (init : β) : Within kind (l.foldlM f init) := by
  induction l generalizing init with
  | nil => exact within_pure init
  | cons a l ih =>
    rw [List.foldlM_cons]
    apply within_bind (h init a List.mem_cons_self)
    intro b _
    exact ih (fun b' c hc => h b' c (List.mem_cons_of_mem a hc)) b

/-- The requests of the first step are requests of the whole. -/
theorem mem_log_bind {x : Traced ρ ε α} {f : α → Traced ρ ε β} {r : ρ} (h : r ∈ x.log) :
    r ∈ (x >>= f).log := by
  cases hx : x.outcome with
  | error e =>
    rw [bind_error hx]
    exact h
  | ok a =>
    rw [bind_ok hx]
    exact List.mem_append_left _ h

/-- So are the requests of the rest, once the first step has succeeded. -/
theorem mem_log_bind_ok {x : Traced ρ ε α} {f : α → Traced ρ ε β} {r : ρ} {a : α}
    (hx : x.outcome = .ok a) (h : r ∈ (f a).log) : r ∈ (x >>= f).log := by
  rw [bind_ok hx]
  exact List.mem_append_right _ h

end Tracing
