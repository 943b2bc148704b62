import Mathlib.Data.List.Forall2
import Mathlib.Tactic.Common

/-!
# Computations that may throw

Inversion lemmas for `Except`: what a successful sequence, guard or loop says
about its steps.
-/

namespace Throwing

universe u v
variable {ε : Type u} {α β γ : Type v}

@[simp] theorem pure_eq_ok (a : α) : (pure a : Except ε α) = .ok a := rfl

@[simp] theorem throw_eq_error (e : ε) : (throw e : Except ε α) = .error e := rfl

@[simp] theorem ok_bind (a : α) (f : α → Except ε β) : (Except.ok a >>= f) = f a := rfl

@[simp] theorem error_bind (e : ε) (f : α → Except ε β) :
    ((Except.error e : Except ε α) >>= f) = .error e := rfl

@[simp] theorem ofExcept_eq (x : Except ε α) : (MonadExcept.ofExcept x : Except ε α) = x := by
  cases x <;> rfl

theorem bind_ok_iff {x : Except ε α} {f : α → Except ε β} {b : β} :
    (x >>= f) = .ok b ↔ ∃ a, x = .ok a ∧ f a = .ok b := by
  cases x with
  | error e => simp
  | ok a => simp

theorem bind_error_iff {x : Except ε α} {f : α → Except ε β} {e : ε} :
    (x >>= f) = .error e ↔ x = .error e ∨ ∃ a, x = .ok a ∧ f a = .error e := by
  cases x with
  | error e' => simp
  | ok a => simp

theorem discard_ok_iff {x : Except ε α} {u : PUnit} :
    discard x = .ok u ↔ ∃ a, x = .ok a := by
  cases x with
  | error e => simp [discard, Functor.discard, Functor.mapConst, Except.map]
  | ok a => simp [discard, Functor.discard, Functor.mapConst, Except.map]

/-- A guard that throws before the rest of the computation. -/
theorem guard_ok_iff {c : Prop} [Decidable c] {e : ε} {x : Except ε α} {a : α} :
    (if c then .error e else x) = .ok a ↔ ¬ c ∧ x = .ok a := by
  by_cases h : c <;> simp [h]

theorem forM_ok_iff {f : α → Except ε PUnit} {l : List α} {u : PUnit} :
    l.forM f = .ok u ↔ ∀ a ∈ l, f a = .ok PUnit.unit := by
  induction l with
  | nil => simp
  | cons a l ih =>
    simp only [List.forM_eq_forM] at ih
    simp only [List.forM_eq_forM, List.forM_cons, bind_ok_iff, ih, List.mem_cons,
      forall_eq_or_imp]
    constructor
    · rintro ⟨_, ha, hl⟩
      exact ⟨ha, hl⟩
    · rintro ⟨ha, hl⟩
      exact ⟨_, ha, hl⟩

/-- A loop that one turn would end is ended by one. -/
theorem forM_error_of_mem {f : α → Except ε PUnit} {l : List α} {a : α} (mem : a ∈ l)
    (ends : f a ≠ .ok PUnit.unit) : ∃ b ∈ l, ∃ e, f b = .error e ∧ l.forM f = .error e := by
  induction l with
  | nil => cases mem
  | cons b l ih =>
    rw [List.forM_eq_forM, List.forM_cons]
    cases first : f b with
    | error e => exact ⟨b, List.mem_cons_self, e, first, rfl⟩
    | ok _ =>
      have later : a ∈ l := by
        rcases List.mem_cons.mp mem with rfl | later
        · exact (ends first).elim
        · exact later
      obtain ⟨c, listed, e, throws, rest⟩ := ih later
      exact ⟨c, List.mem_cons_of_mem b listed, e, throws, rest⟩

theorem mapM_ok_iff {f : α → Except ε β} {l : List α} {r : List β} :
    l.mapM f = .ok r ↔ List.Forall₂ (fun a b => f a = .ok b) l r := by
  induction l generalizing r with
  | nil => cases r <;> simp
  | cons a l ih =>
    simp only [List.mapM_cons, bind_ok_iff, ih]
    constructor
    · rintro ⟨b, hb, bs, hbs, h⟩
      obtain rfl : b :: bs = r := by simpa using h
      exact .cons hb hbs
    · rintro (_ | ⟨hb, hbs⟩)
      exact ⟨_, hb, _, hbs, rfl⟩

/-- Every result of a loop is the result of one of its turns. -/
theorem mapM_ok_mem {f : α → Except ε β} {l : List α} {r : List β} (h : l.mapM f = .ok r)
    {b : β} (mem : b ∈ r) : ∃ a ∈ l, f a = .ok b := by
  have all := mapM_ok_iff.mp h
  clear h
  induction all with
  | nil => cases mem
  | @cons a _ _ _ hab _ ih =>
    rcases List.mem_cons.mp mem with rfl | mem
    · exact ⟨a, List.mem_cons_self, hab⟩
    · obtain ⟨a', ha', hb⟩ := ih mem
      exact ⟨a', List.mem_cons_of_mem a ha', hb⟩

/-- A loop throws just when one of its turns does. -/
theorem mapM_isOk_iff {f : α → Except ε β} {l : List α} :
    (∃ r, l.mapM f = .ok r) ↔ ∀ a ∈ l, ∃ b, f a = .ok b := by
  induction l with
  | nil => exact ⟨fun _ => nofun, fun _ => ⟨[], rfl⟩⟩
  | cons a l ih =>
    simp only [List.mapM_cons, bind_ok_iff, List.mem_cons, forall_eq_or_imp, ← ih, pure_eq_ok]
    constructor
    · rintro ⟨_, b, hb, bs, hbs, _⟩
      exact ⟨⟨b, hb⟩, bs, hbs⟩
    · rintro ⟨⟨b, hb⟩, bs, hbs⟩
      exact ⟨_, b, hb, bs, hbs, rfl⟩

/-- A loop depends on what its body does with the elements. -/
theorem mapM_congr {f g : α → Except ε β} {l : List α} (same : ∀ a ∈ l, f a = g a) :
    l.mapM f = l.mapM g := by
  induction l with
  | nil => rfl
  | cons a l ih =>
    obtain ⟨head, tail⟩ := List.forall_mem_cons.mp same
    rw [List.mapM_cons, List.mapM_cons, head, ih tail]

/-- A loop whose turns succeed on related elements succeeds on related lists. -/
theorem mapM_forall₂ {f : α → Except ε β} {R : α → γ → Prop} {S : β → γ → Prop}
    (step : ∀ a c, R a c → ∃ b, f a = .ok b ∧ S b c) {l : List α} {cs : List γ}
    (related : List.Forall₂ R l cs) : ∃ bs, l.mapM f = .ok bs ∧ List.Forall₂ S bs cs := by
  induction related with
  | nil => exact ⟨[], rfl, .nil⟩
  | @cons a c l cs head _ ih =>
    obtain ⟨b, hb, same⟩ := step a c head
    obtain ⟨bs, hbs, rest⟩ := ih
    exact ⟨b :: bs, by simp [List.mapM_cons, hb, hbs], .cons same rest⟩

/-- A loop whose turns each add a piece to what has been collected. -/
theorem foldlM_append_ok {step : List β → α → Except ε (List β)} {R : α → List β → Prop}
    (appends : ∀ acc a r, step acc a = .ok r → ∃ bs, r = acc ++ bs ∧ R a bs) {l : List α}
    {acc r : List β} (h : l.foldlM step acc = .ok r) :
    ∃ pieces, r = acc ++ pieces.flatten ∧ List.Forall₂ R l pieces := by
  induction l generalizing acc with
  | nil =>
    cases h
    exact ⟨[], (List.append_nil _).symm, .nil⟩
  | cons a l ih =>
    rw [List.foldlM_cons] at h
    obtain ⟨next, head, rest⟩ := bind_ok_iff.mp h
    obtain ⟨bs, rfl, related⟩ := appends acc a next head
    obtain ⟨pieces, rfl, all⟩ := ih rest
    exact ⟨bs :: pieces, by rw [List.flatten_cons, List.append_assoc], .cons related all⟩

/-- It succeeds when every turn does, whatever has been collected by then. -/
theorem foldlM_append_exists {step : List β → α → Except ε (List β)} {l : List α}
    (total : ∀ a ∈ l, ∀ acc, ∃ bs, step acc a = .ok (acc ++ bs)) (acc : List β) :
    ∃ bs, l.foldlM step acc = .ok (acc ++ bs) := by
  induction l generalizing acc with
  | nil => exact ⟨[], congrArg Except.ok (List.append_nil acc).symm⟩
  | cons a l ih =>
    obtain ⟨head, hhead⟩ := total a List.mem_cons_self acc
    obtain ⟨rest, hrest⟩ := ih (fun b mem => total b (List.mem_cons_of_mem a mem)) (acc ++ head)
    exact ⟨head ++ rest, by rw [List.foldlM_cons, hhead, ok_bind, hrest, List.append_assoc]⟩

/-- A loop gets as far as another one when each of its turns does. -/
theorem foldlM_follows {σ τ : Type*} {f : σ → α → Except ε σ} {g : τ → α → Except ε τ}
    {R : σ → τ → Prop} {l : List α} (follows : ∀ s t, R s t → ∀ a ∈ l, ∀ s', f s a = .ok s' →
      ∃ t', g t a = .ok t' ∧ R s' t') {s s' : σ} {t : τ} (start : R s t)
    (run : l.foldlM f s = .ok s') : ∃ t', l.foldlM g t = .ok t' ∧ R s' t' := by
  induction l generalizing s t with
  | nil =>
    cases run
    exact ⟨t, rfl, start⟩
  | cons a l ih =>
    rw [List.foldlM_cons] at run
    obtain ⟨next, head, rest⟩ := bind_ok_iff.mp run
    obtain ⟨next', head', related⟩ := follows s t start a List.mem_cons_self next head
    obtain ⟨t', tail, last⟩ := ih (fun s t related b mem => follows s t related b
      (List.mem_cons_of_mem a mem)) related rest
    exact ⟨t', by rw [List.foldlM_cons, head', ok_bind, tail], last⟩

/-- A computation whose exceptions are all of one kind. -/
def ThrowsOnly (p : ε → Prop) (x : Except ε α) : Prop := ∀ e, x = .error e → p e

section ThrowsOnly

variable {p : ε → Prop}

theorem throwsOnly_ok (a : α) : ThrowsOnly p (.ok a : Except ε α) := fun _ h => nomatch h

theorem throwsOnly_error_iff {e : ε} : ThrowsOnly p (.error e : Except ε α) ↔ p e := by
  constructor
  · exact fun h => h e rfl
  · intro h e' same
    cases same
    exact h

theorem throwsOnly_bind_iff {x : Except ε α} {f : α → Except ε β} :
    ThrowsOnly p (x >>= f) ↔ ThrowsOnly p x ∧ ∀ a, x = .ok a → ThrowsOnly p (f a) := by
  cases x with
  | error e => simp [throwsOnly_error_iff]
  | ok a => simp [throwsOnly_ok]

theorem throwsOnly_discard_iff {x : Except ε α} :
    ThrowsOnly p (discard x : Except ε PUnit) ↔ ThrowsOnly p x := by
  cases x with
  | error e => exact throwsOnly_error_iff.trans throwsOnly_error_iff.symm
  | ok a => exact iff_of_true (throwsOnly_ok _) (throwsOnly_ok a)

theorem throwsOnly_guard_iff {e : ε} (he : p e) {c : Prop} [Decidable c] {x : Except ε α} :
    ThrowsOnly p (if c then .error e else x) ↔ (¬ c → ThrowsOnly p x) := by
  by_cases h : c
  · simp [h, throwsOnly_error_iff, he]
  · simp [h]

theorem throwsOnly_forM {f : α → Except ε PUnit} {l : List α}
    (each : ∀ a ∈ l, ThrowsOnly p (f a)) : ThrowsOnly p (l.forM f) := by
  induction l with
  | nil => exact throwsOnly_ok _
  | cons a l ih =>
    rw [List.forM_eq_forM, List.forM_cons]
    refine throwsOnly_bind_iff.mpr ⟨each a List.mem_cons_self, fun _ _ => ?_⟩
    exact ih fun b mem => each b (List.mem_cons_of_mem a mem)

theorem throwsOnly_foldlM {f : β → α → Except ε β} {l : List α}
    (each : ∀ b, ∀ a ∈ l, ThrowsOnly p (f b a)) (b : β) : ThrowsOnly p (l.foldlM f b) := by
  induction l generalizing b with
  | nil => exact throwsOnly_ok b
  | cons a l ih =>
    rw [List.foldlM_cons]
    refine throwsOnly_bind_iff.mpr ⟨each b a List.mem_cons_self, fun next _ => ?_⟩
    exact ih (fun b' a' mem => each b' a' (List.mem_cons_of_mem a mem)) next

end ThrowsOnly

/-- A computation that may throw, but never this one exception. -/
def Avoids (bad : ε) (x : Except ε α) : Prop := x ≠ .error bad

theorem avoids_iff {bad : ε} {x : Except ε α} : Avoids bad x ↔ ThrowsOnly (· ≠ bad) x := by
  constructor
  · rintro h e he rfl
    exact h he
  · exact fun h he => h bad he rfl

theorem avoids_ok {bad : ε} (a : α) : Avoids bad (.ok a : Except ε α) := nofun

theorem avoids_error {bad e : ε} (h : e ≠ bad) : Avoids bad (.error e : Except ε α) :=
  fun h' => h (Except.error.inj h')

theorem avoids_bind {bad : ε} {x : Except ε α} {f : α → Except ε β} (hx : Avoids bad x)
    (hf : ∀ a, x = .ok a → Avoids bad (f a)) : Avoids bad (x >>= f) :=
  avoids_iff.mpr (throwsOnly_bind_iff.mpr
    ⟨avoids_iff.mp hx, fun a ha => avoids_iff.mp (hf a ha)⟩)

theorem avoids_guard {bad e : ε} {c : Prop} [Decidable c] {x : Except ε α} (he : e ≠ bad)
    (hx : Avoids bad x) : Avoids bad (if c then .error e else x) :=
  avoids_iff.mpr ((throwsOnly_guard_iff (p := (· ≠ bad)) he).mpr fun _ => avoids_iff.mp hx)

theorem avoids_forM {bad : ε} {f : α → Except ε PUnit} {l : List α}
    (h : ∀ a ∈ l, Avoids bad (f a)) : Avoids bad (l.forM f) :=
  avoids_iff.mpr (throwsOnly_forM fun a mem => avoids_iff.mp (h a mem))

theorem avoids_map {bad : ε} {x : Except ε α} (f : α → β) (hx : Avoids bad x) :
    Avoids bad (f <$> x) := by
  cases x with
  | error e => exact avoids_error fun h => hx (congrArg _ h)
  | ok a => exact avoids_ok _

theorem avoids_mapM {bad : ε} {f : α → Except ε β} {l : List α}
    (h : ∀ a ∈ l, Avoids bad (f a)) : Avoids bad (l.mapM f) := by
  induction l with
  | nil => exact avoids_ok []
  | cons a l ih =>
    rw [List.mapM_cons]
    refine avoids_bind (h a List.mem_cons_self) fun b _ => avoids_bind ?_ fun bs _ => avoids_ok _
    exact ih fun c hc => h c (List.mem_cons_of_mem a hc)

end Throwing
