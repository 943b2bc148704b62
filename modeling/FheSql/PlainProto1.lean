import FheSql.SlotSemantics

/-!
# A plaintext proto1

The slots in the clear: a `Proto1` whose operations compute exactly the slot
semantics, so that the assumptions of the development are met by a program.
-/

namespace FheSql.PlainProto1

open ByteText

/-- Residues in slots, and the logical size. -/
structure PlainVector where
  residues : List Nat
  size : Nat
  deriving DecidableEq, Repr

/-- The residue in a slot, 0 past the last one. -/
def PlainVector.residue (v : PlainVector) (i : Nat) : Nat := (v.residues[i]?).getD 0

def PlainVector.slot (v : PlainVector) (i : Nat) : Slot := (v.residue i : Slot)

/-- Two bytes for each residue, behind a header byte. -/
def serialize (v : PlainVector) : List UInt8 :=
  1 :: v.residues.flatMap fun r => [UInt8.ofNat (r % 257 % 256), UInt8.ofNat (r % 257 / 256)]

def parseResidues : List UInt8 → List Nat
  | low :: high :: rest => (low.toNat + 256 * high.toNat) :: parseResidues rest
  | _ => []

def deserializeWithSize (bytes : List UInt8) (size : Nat) : Except Str PlainVector :=
  .ok ⟨parseResidues bytes.tail, size⟩

/-- The representative of a residue between -128 and 128. -/
def centered (r : Nat) : Int := if r % 257 ≤ 128 then (r % 257 : Nat) else (r % 257 : Nat) - 257

def fromSlots (slotCount : Nat) (f : Nat → Slot) : PlainVector :=
  ⟨(List.range slotCount).map fun i => (f i).val, slotCount⟩

def hasColumns (batch : EncryptedBatch PlainVector) (names : List Str) : Bool :=
  names.all fun name => (batch.first? name).isSome

def evaluate (slotCount : Nat) (e : Expression PlainVector) (batch : EncryptedBatch PlainVector) :
    Except Str PlainVector :=
  if !e.isMask then .error (str "Cannot evaluate a leaf expression as a mask")
  else if !hasColumns batch e.columns then .error (str "Column not found in batch")
  else
    .ok (fromSlots slotCount fun i =>
      e.value (fun name => ((batch.first? name).map (·.slot i)).getD 0) (·.slot i))

def filterExec (slotCount : Nat) (e : Expression PlainVector)
    (batch : EncryptedBatch PlainVector) : Except Str (EncryptedBatch PlainVector) := do
  let mask ← evaluate slotCount e batch
  pure { batch with selectionMask := some mask }

end FheSql.PlainProto1

namespace FheSql

open ByteText PlainProto1

def plainProto1 (slotCount : Nat) : Proto1 where
  EncryptedVector := PlainVector
  Rng := Unit
  slotCount := slotCount
  serialize := PlainProto1.serialize
  logicalSize v := v.size
  deserializeWithSize := PlainProto1.deserializeWithSize
  encrypt values rng := .ok (⟨values.map fun v => (v % 257).toNat, values.length⟩, rng)
  decrypt v n := .ok ((List.range n).map fun i => centered (v.residue i))
  evalMult a b := .ok (fromSlots slotCount fun i => a.slot i * b.slot i)
  evaluate := PlainProto1.evaluate slotCount
  filterExec := PlainProto1.filterExec slotCount
  projectExec := projectColumns
  stringPhysicalColumn name position := name ++ str "#" ++ decimal position

namespace PlainProto1

theorem slot_fromSlots {slotCount i : Nat} (f : Nat → Slot) (h : i < slotCount) :
    (fromSlots slotCount f).slot i = f i := by
  simp only [fromSlots, PlainVector.slot, PlainVector.residue, List.getElem?_map,
    List.getElem?_range h, Option.map_some, Option.getD_some, ZMod.natCast_zmod_val]

theorem intCast_centered (r : Nat) : ((centered r : Int) : Slot) = (r : Slot) := by
  have reduce : ((r % 257 : Nat) : Slot) = (r : Slot) := ZMod.natCast_mod r 257
  unfold centered
  split
  · rw [Int.cast_natCast, reduce]
  · rw [Int.cast_sub, Int.cast_natCast, reduce]
    have zero : ((257 : Int) : Slot) = 0 := by decide
    rw [zero, sub_zero]

theorem centered_bounds (r : Nat) : -128 ≤ centered r ∧ centered r ≤ 128 := by
  unfold centered
  split <;> omega

theorem parseResidues_serialized (residues : List Nat) :
    parseResidues (residues.flatMap fun r =>
      [UInt8.ofNat (r % 257 % 256), UInt8.ofNat (r % 257 / 256)]) =
      residues.map (· % 257) := by
  induction residues with
  | nil => rfl
  | cons r residues ih =>
    have low : (UInt8.ofNat (r % 257 % 256)).toNat = r % 257 % 256 :=
      UInt8.toNat_ofNat_of_lt' (show r % 257 % 256 < 256 by omega)
    have high : (UInt8.ofNat (r % 257 / 256)).toNat = r % 257 / 256 :=
      UInt8.toNat_ofNat_of_lt' (show r % 257 / 256 < 256 by omega)
    simp only [List.flatMap_cons, List.cons_append, List.nil_append, parseResidues, low, high,
      ih, List.map_cons]
    congr 1
    omega

theorem slot_deserialized (v : PlainVector) (size i : Nat) :
    (PlainVector.mk (parseResidues (serialize v).tail) size).slot i = v.slot i := by
  simp only [serialize, List.tail_cons, parseResidues_serialized, PlainVector.slot,
    PlainVector.residue, List.getElem?_map]
  cases v.residues[i]? with
  | none => rfl
  | some r => exact ZMod.natCast_mod r 257

theorem slot_encrypted {values : List Int} {i : Nat} {v : Int} (h : values[i]? = some v)
    (size : Nat) :
    (PlainVector.mk (values.map fun v => (v % 257).toNat) size).slot i = (v : Slot) := by
  simp only [PlainVector.slot, PlainVector.residue, List.getElem?_map, h, Option.map_some,
    Option.getD_some]
  have nonneg : 0 ≤ v % 257 := Int.emod_nonneg v (by decide)
  have whole : (((v % 257).toNat : Int) : Slot) = ((v % 257 : Int) : Slot) := by
    rw [Int.toNat_of_nonneg nonneg]
  rw [Int.cast_natCast] at whole
  rw [whole]
  exact ZMod.intCast_mod v 257

theorem evaluate_ok {slotCount : Nat} {e : Expression PlainVector}
    {batch : EncryptedBatch PlainVector} (mask : e.isMask = true)
    (present : ∀ name ∈ e.columns, ∃ ct, batch.first? name = some ct) :
    PlainProto1.evaluate slotCount e batch = .ok (fromSlots slotCount fun i =>
      e.value (fun name => ((batch.first? name).map (·.slot i)).getD 0) (·.slot i)) := by
  have columns : hasColumns batch e.columns = true := by
    simp only [hasColumns, List.all_eq_true, Option.isSome_iff_exists]
    exact present
  simp [PlainProto1.evaluate, mask, columns]

/-- Batches that agree on the columns of an expression give it one mask. -/
theorem evaluate_congr (slotCount : Nat) (e : Expression PlainVector)
    {batch batch' : EncryptedBatch PlainVector}
    (same : ∀ name ∈ e.columns, batch.columns.lookup name = batch'.columns.lookup name) :
    PlainProto1.evaluate slotCount e batch = PlainProto1.evaluate slotCount e batch' := by
  have first : ∀ name ∈ e.columns, batch.first? name = batch'.first? name := by
    intro name mem
    simp only [EncryptedBatch.first?, same name mem]
  have columns : hasColumns batch e.columns = hasColumns batch' e.columns := by
    rw [Bool.eq_iff_iff]
    simp only [hasColumns, List.all_eq_true]
    exact forall₂_congr fun name mem => by rw [first name mem]
  have values : ∀ i, e.value (fun name => ((batch.first? name).map (·.slot i)).getD 0) (·.slot i) =
      e.value (fun name => ((batch'.first? name).map (·.slot i)).getD 0) (·.slot i) :=
    fun i => Expression.value_congr fun name mem => by rw [first name mem]
  simp only [PlainProto1.evaluate, columns, values]

end PlainProto1

theorem plain_projectsColumns (slotCount : Nat) : ProjectsColumns (plainProto1 slotCount) :=
  projectsColumns_of_eq fun _ _ => rfl

theorem plain_keepsColumns (slotCount : Nat) : KeepsColumns (plainProto1 slotCount) where
  filter e batch batch' ok := by
    change PlainProto1.filterExec slotCount e batch = .ok batch' at ok
    unfold PlainProto1.filterExec at ok
    cases evaluated : PlainProto1.evaluate slotCount e batch with
    | error what =>
      rw [evaluated] at ok
      cases ok
    | ok mask =>
      rw [evaluated] at ok
      cases ok
      exact ⟨rfl, fun _ => rfl⟩
  project := plain_projectsColumns slotCount

/-- The plaintext proto1 computes the slot semantics. -/
def plainSlotSemantics (slotCount : Nat) : SlotSemantics (plainProto1 slotCount) where
  slot v i := PlainVector.slot v i
  encrypt values rng _ _ :=
    ⟨_, rng, rfl, fun _ _ h => slot_encrypted h values.length⟩
  logicalSize values rng ct rng' h := by
    cases h
    rfl
  decrypt v n _ := by
    refine ⟨_, rfl, by simp, ?_⟩
    intro i x hx
    rw [List.getElem?_map] at hx
    obtain ⟨j, hj, rfl⟩ := Option.map_eq_some_iff.mp hx
    obtain ⟨hlt, rfl⟩ := List.getElem?_eq_some_iff.mp hj
    rw [List.getElem_range]
    exact ⟨intCast_centered _, centered_bounds _⟩
  deserialize v n _ := ⟨_, rfl, fun i _ => slot_deserialized v n i⟩
  evalMult a b := ⟨_, rfl, fun i h => slot_fromSlots _ h⟩
  evaluate e batch mask present :=
    ⟨_, evaluate_ok mask present, fun i h => slot_fromSlots _ h⟩
  filterExec e batch c _ h := by
    have evaluated : PlainProto1.evaluate slotCount e batch = .ok c := h
    simp only [plainProto1, PlainProto1.filterExec, evaluated]
    rfl
  projectExec := plain_projectsColumns slotCount

end FheSql
