import Mathlib.Data.List.Basic
import Mathlib.Data.List.Forall2
import Mathlib.Tactic.Common
import Mathlib.Tactic.Ring

/-!
# Binary formats

A reader takes a value from the front of a byte sequence and gives back what it
leaves; `none` is a read past the end. A reader is local when it depends on the
bytes it consumes only, and a codec is a local reader with a writer it undoes.
Together they make every proper beginning of an encoding unreadable.
-/

namespace BinaryCodec

abbrev Bytes := List UInt8

abbrev Reader (α : Type) := Bytes → Option (α × Bytes)

variable {α β γ : Type}

/-- A reader whose result depends on the bytes it consumes only. -/
def Local (get : Reader α) : Prop :=
  ∀ bytes a rest, get bytes = some (a, rest) →
    ∃ used, bytes = used ++ rest ∧ ∀ more, get (used ++ more) = some (a, more)

namespace Reader

def pure (a : α) : Reader α := fun bytes => some (a, bytes)

def bind (get : Reader α) (next : α → Reader β) : Reader β := fun bytes =>
  (get bytes).bind fun x => next x.1 x.2

def failed : Reader α := fun _ => none

theorem pure_bind (a : α) (next : α → Reader β) : (pure a).bind next = next a := rfl

theorem bind_assoc (get : Reader α) (next : α → Reader β) (last : β → Reader γ) :
    (get.bind next).bind last = get.bind fun a => (next a).bind last := by
  funext bytes
  exact Option.bind_assoc _ _ _

end Reader

open Reader

theorem local_pure (a : α) : Local (Reader.pure a) := by
  intro bytes b rest h
  cases h
  exact ⟨[], rfl, fun _ => rfl⟩

theorem local_failed : Local (failed : Reader α) := nofun

theorem local_bind {get : Reader α} {next : α → Reader β} (first : Local get)
    (second : ∀ a, Local (next a)) : Local (get.bind next) := by
  intro bytes b rest h
  obtain ⟨⟨a, middle⟩, ha, hb⟩ := Option.bind_eq_some_iff.mp h
  obtain ⟨used, rfl, again⟩ := first bytes a middle ha
  obtain ⟨used', rfl, again'⟩ := second a middle b rest hb
  refine ⟨used ++ used', (List.append_assoc _ _ _).symm, fun more => ?_⟩
  rw [List.append_assoc, Reader.bind, again, Option.bind_some]
  exact again' more

/-- A local reader that takes a whole sequence finds nothing in a beginning of it. -/
theorem local_cut {get : Reader α} (reads : Local get) {bytes cut : Bytes} {a : α}
    (whole : get bytes = some (a, [])) (beginning : cut <+: bytes) (proper : cut ≠ bytes) :
    get cut = none := by
  cases h : get cut with
  | none => rfl
  | some x =>
    obtain ⟨b, rest⟩ := x
    obtain ⟨used, rfl, again⟩ := reads cut b rest h
    obtain ⟨tail, rfl⟩ := beginning
    rw [List.append_assoc] at whole
    have left := congrArg Prod.snd (Option.some.inj ((again (rest ++ tail)).symm.trans whole))
    obtain ⟨_, rfl⟩ := List.append_eq_nil_iff.mp left
    exact (proper (List.append_nil _).symm).elim

/-- A reader that takes at least so many bytes for each value. -/
def Consumes (get : Reader α) (size : α → Nat) : Prop :=
  ∀ bytes a rest, get bytes = some (a, rest) → size a + rest.length ≤ bytes.length

theorem consumes_none {get : Reader α} (reads : Local get) : Consumes get fun _ => 0 := by
  intro bytes a rest h
  obtain ⟨used, rfl, _⟩ := reads bytes a rest h
  rw [List.length_append, Nat.zero_add]
  exact Nat.le_add_left _ _

theorem bind_eq_some_iff {get : Reader α} {next : α → Reader β} {bytes rest : Bytes} {b : β} :
    get.bind next bytes = some (b, rest) ↔
      ∃ a middle, get bytes = some (a, middle) ∧ next a middle = some (b, rest) := by
  constructor
  · intro h
    obtain ⟨⟨a, middle⟩, first, second⟩ := Option.bind_eq_some_iff.mp h
    exact ⟨a, middle, first, second⟩
  · rintro ⟨a, middle, first, second⟩
    exact Option.bind_eq_some_iff.mpr ⟨(a, middle), first, second⟩

/-- A local reader with a writer that it undoes on the values that fit. -/
structure Codec (α : Type) where
  put : α → Bytes
  get : Reader α
  Fits : α → Prop
  get_put : ∀ a rest, Fits a → get (put a ++ rest) = some (a, rest)
  reads : Local get

namespace Codec

theorem get_whole (c : Codec α) {a : α} (fits : c.Fits a) : c.get (c.put a) = some (a, []) := by
  have h := c.get_put a [] fits
  rwa [List.append_nil] at h

/-- An encoding cut short cannot be read. -/
theorem get_cut (c : Codec α) {a : α} (fits : c.Fits a) {cut : Bytes} (beginning : cut <+: c.put a)
    (proper : cut ≠ c.put a) : c.get cut = none :=
  local_cut c.reads (c.get_whole fits) beginning proper

/-- Two values in sequence. -/
def pair (c : Codec α) (d : Codec β) : Codec (α × β) where
  put x := c.put x.1 ++ d.put x.2
  get := c.get.bind fun a => d.get.bind fun b => Reader.pure (a, b)
  Fits x := c.Fits x.1 ∧ d.Fits x.2
  get_put x rest fits := by
    simp only [List.append_assoc, Reader.bind, c.get_put x.1 _ fits.1, Option.bind_some,
      d.get_put x.2 _ fits.2]
    rfl
  reads := local_bind c.reads fun _ => local_bind d.reads fun _ => local_pure _

/-- The same bytes, read as values of another type. -/
def view (c : Codec α) (into : α → β) (out : β → α) (ok : β → Prop)
    (inv : ∀ b, ok b → into (out b) = b) : Codec β where
  put b := c.put (out b)
  get := c.get.bind fun a => Reader.pure (into a)
  Fits b := ok b ∧ c.Fits (out b)
  get_put b rest fits := by
    simp only [Reader.bind, c.get_put (out b) rest fits.2, Option.bind_some, inv b fits.1]
    rfl
  reads := local_bind c.reads fun _ => local_pure _

def byte : Codec UInt8 where
  put b := [b]
  get
    | [] => none
    | b :: rest => some (b, rest)
  Fits _ := True
  get_put _ _ _ := rfl
  reads bytes a rest h := by
    cases bytes with
    | nil => cases h
    | cons b bytes =>
      cases h
      exact ⟨[_], rfl, fun _ => rfl⟩

/-- `n` values in sequence. -/
def getMany (get : Reader α) : Nat → Reader (List α)
  | 0 => Reader.pure []
  | n + 1 => get.bind fun a => (getMany get n).bind fun l => Reader.pure (a :: l)

theorem local_getMany {get : Reader α} (reads : Local get) (n : Nat) : Local (getMany get n) := by
  induction n with
  | zero => exact local_pure []
  | succ n ih => exact local_bind reads fun _ => local_bind ih fun _ => local_pure _

theorem getMany_put (c : Codec α) (l : List α) (rest : Bytes) (fits : ∀ a ∈ l, c.Fits a) :
    getMany c.get l.length (l.flatMap c.put ++ rest) = some (l, rest) := by
  induction l with
  | nil => rfl
  | cons a l ih =>
    have tail := ih fun b mem => fits b (List.mem_cons_of_mem a mem)
    simp only [List.flatMap_cons, List.length_cons, List.append_assoc, getMany, Reader.bind,
      c.get_put a _ (fits a List.mem_cons_self), Option.bind_some, tail]
    rfl

/-- A list behind its length. -/
def counted (size : Codec Nat) (c : Codec α) : Codec (List α) where
  put l := size.put l.length ++ l.flatMap c.put
  get := size.get.bind fun n => getMany c.get n
  Fits l := size.Fits l.length ∧ ∀ a ∈ l, c.Fits a
  get_put l rest fits := by
    simp only [List.append_assoc, Reader.bind, size.get_put _ _ fits.1, Option.bind_some,
      getMany_put c l rest fits.2]
  reads := local_bind size.reads fun n => local_getMany c.reads n

/-- Lists of values that are written at the same lengths, one by one. -/
theorem length_put_counted {size : Codec Nat} {c : Codec α} {l l' : List α}
    (same : List.Forall₂ (fun a b => (c.put a).length = (c.put b).length) l l') :
    ((counted size c).put l).length = ((counted size c).put l').length := by
  have elements : (l.flatMap c.put).length = (l'.flatMap c.put).length := by
    induction same with
    | nil => rfl
    | cons head _ ih => simp only [List.flatMap_cons, List.length_append, head, ih]
  simp only [counted, List.length_append, same.length_eq, elements]

/-- The number a sequence of bytes writes, the first byte counting least. -/
def littleEndian : Bytes → Nat
  | [] => 0
  | b :: bytes => b.toNat + 256 * littleEndian bytes

/-- The lowest `n` bytes of a number, the lowest first. -/
def lowBytes : Nat → Nat → Bytes
  | 0, _ => []
  | n + 1, v => UInt8.ofNat (v % 256) :: lowBytes n (v / 256)

@[simp] theorem length_lowBytes (n v : Nat) : (lowBytes n v).length = n := by
  induction n generalizing v with
  | zero => rfl
  | succ n ih => rw [lowBytes, List.length_cons, ih]

theorem littleEndian_lowBytes (n v : Nat) : littleEndian (lowBytes n v) = v % 256 ^ n := by
  induction n generalizing v with
  | zero => rw [pow_zero, Nat.mod_one]; rfl
  | succ n ih =>
    have low : (UInt8.ofNat (v % 256)).toNat = v % 256 :=
      UInt8.toNat_ofNat_of_lt' (show v % 256 < 256 by omega)
    rw [lowBytes, littleEndian, ih, low, pow_succ', Nat.mod_mul]

/-- Exactly `n` bytes. -/
def getExactly (n : Nat) : Reader Bytes := fun bytes =>
  if n ≤ bytes.length then some (bytes.take n, bytes.drop n) else none

theorem getExactly_append (bytes rest : Bytes) :
    getExactly bytes.length (bytes ++ rest) = some (bytes, rest) := by
  simp [getExactly]

theorem local_getExactly (n : Nat) : Local (getExactly n) := by
  intro bytes a rest h
  unfold getExactly at h
  by_cases enough : n ≤ bytes.length
  · rw [if_pos enough] at h
    cases h
    refine ⟨bytes.take n, (List.take_append_drop n bytes).symm, fun more => ?_⟩
    have length : (bytes.take n).length = n := List.length_take_of_le enough
    have h := getExactly_append (bytes.take n) more
    rwa [length] at h
  · rw [if_neg enough] at h
    cases h

/-- Bytes behind their number. -/
def sized (size : Codec Nat) : Codec Bytes where
  put bytes := size.put bytes.length ++ bytes
  get := size.get.bind getExactly
  Fits bytes := size.Fits bytes.length
  get_put bytes rest fits := by
    simp only [List.append_assoc, Reader.bind, size.get_put _ _ fits, Option.bind_some,
      getExactly_append]
  reads := local_bind size.reads local_getExactly

/-- A number in `n` bytes, the lowest first; only its lowest `n` bytes are written. -/
def wordLE (n : Nat) : Codec Nat where
  put v := lowBytes n v
  get := (getExactly n).bind fun bytes => Reader.pure (littleEndian bytes)
  Fits v := v < 256 ^ n
  get_put v rest fits := by
    have h := getExactly_append (lowBytes n v) rest
    rw [length_lowBytes] at h
    simp only [Reader.bind, h, Option.bind_some, littleEndian_lowBytes, Nat.mod_eq_of_lt fits]
    rfl
  reads := local_bind (local_getExactly n) fun _ => local_pure _

/-- A number in `n` bytes, the highest first. -/
def wordBE (n : Nat) : Codec Nat where
  put v := (lowBytes n v).reverse
  get := (getExactly n).bind fun bytes => Reader.pure (littleEndian bytes.reverse)
  Fits v := v < 256 ^ n
  get_put v rest fits := by
    have h := getExactly_append (lowBytes n v).reverse rest
    rw [List.length_reverse, length_lowBytes] at h
    simp only [Reader.bind, h, Option.bind_some, List.reverse_reverse, littleEndian_lowBytes,
      Nat.mod_eq_of_lt fits]
    rfl
  reads := local_bind (local_getExactly n) fun _ => local_pure _

@[simp] theorem fits_pair {c : Codec α} {d : Codec β} {x : α × β} :
    (c.pair d).Fits x ↔ c.Fits x.1 ∧ d.Fits x.2 := Iff.rfl

@[simp] theorem fits_view {c : Codec α} {into : α → β} {out : β → α} {ok : β → Prop}
    {inv : ∀ b, ok b → into (out b) = b} {b : β} :
    (c.view into out ok inv).Fits b ↔ ok b ∧ c.Fits (out b) := Iff.rfl

@[simp] theorem fits_counted {size : Codec Nat} {c : Codec α} {l : List α} :
    (counted size c).Fits l ↔ size.Fits l.length ∧ ∀ a ∈ l, c.Fits a := Iff.rfl

@[simp] theorem fits_sized {size : Codec Nat} {bytes : Bytes} :
    (sized size).Fits bytes ↔ size.Fits bytes.length := Iff.rfl

theorem consumes_view {c : Codec α} {into : α → β} {out : β → α} {ok : β → Prop}
    {inv : ∀ b, ok b → into (out b) = b} {s : α → Nat} {t : β → Nat} (h : Consumes c.get s)
    (size : ∀ a, t (into a) ≤ s a) : Consumes (c.view into out ok inv).get t := by
  intro bytes b rest found
  change c.get.bind (fun a => Reader.pure (into a)) bytes = some (b, rest) at found
  obtain ⟨a, middle, first, second⟩ := bind_eq_some_iff.mp found
  cases second
  exact le_trans (Nat.add_le_add_right (size a) _) (h bytes a _ first)

theorem consumes_pair {c : Codec α} {d : Codec β} {s : α → Nat} {t : β → Nat}
    (first : Consumes c.get s) (second : Consumes d.get t) :
    Consumes (c.pair d).get fun x => s x.1 + t x.2 := by
  intro bytes x rest found
  change c.get.bind (fun a => d.get.bind fun b => Reader.pure (a, b)) bytes = some (x, rest)
    at found
  obtain ⟨a, middle, here, found⟩ := bind_eq_some_iff.mp found
  obtain ⟨b, middle', there, found⟩ := bind_eq_some_iff.mp found
  cases found
  have taken := first bytes a middle here
  have taken' := second middle b _ there
  dsimp only
  omega

theorem length_getExactly {n : Nat} {bytes a rest : Bytes}
    (h : getExactly n bytes = some (a, rest)) :
    a.length = n ∧ n + rest.length = bytes.length := by
  unfold getExactly at h
  by_cases enough : n ≤ bytes.length
  · rw [if_pos enough] at h
    cases h
    rw [List.length_drop]
    exact ⟨List.length_take_of_le enough, Nat.add_sub_cancel' enough⟩
  · rw [if_neg enough] at h
    cases h

theorem consumes_wordLE (n : Nat) : Consumes (wordLE n).get fun _ => n := by
  intro bytes v rest found
  change (getExactly n).bind (fun bytes => Reader.pure (littleEndian bytes)) bytes =
    some (v, rest) at found
  obtain ⟨a, middle, first, second⟩ := bind_eq_some_iff.mp found
  cases second
  exact Nat.le_of_eq (length_getExactly first).2

theorem consumes_sized {size : Codec Nat} {m : Nat} (first : Consumes size.get fun _ => m) :
    Consumes (sized size).get fun bytes => m + bytes.length := by
  intro bytes a rest found
  change size.get.bind getExactly bytes = some (a, rest) at found
  obtain ⟨n, middle, here, there⟩ := bind_eq_some_iff.mp found
  have taken := first bytes n middle here
  obtain ⟨rfl, taken'⟩ := length_getExactly there
  dsimp only at taken ⊢
  omega

end Codec

end BinaryCodec
