import Msm.Api.Typed

/-! # The layout of records

The sizes and offsets that the templates compute, against the same sums in
unbounded arithmetic. The four walks of a field list (by offset, by name, for
deallocation, for `emplace_back`) agree exactly as long as the record is smaller
than 4 GiB: `get` and the item size of an array are 32-bit. -/
namespace Msm.Api
open Msm.CMem

/-! ## Unbounded sizes -/

def Prim.size : Prim → Nat
  | .boolean => 8
  | .int32 => 8
  | .float32 => 8
  | .int64 => 16
  | .float64 => 16

mutual

/-- The bytes a slot of the type needs. -/
def Ty.size : Ty → Nat
  | .prim p => p.size
  | .string => 16
  | .object => 16
  | .array _ => 16
  | .record fields => 8 + fields.size

def Fields.size : Fields → Nat
  | .nil => 0
  | .cons _ type rest => type.size + rest.size

end

namespace Fields

/-- The bytes of the fields before field `i`. -/
def before : Nat → Fields → Nat
  | _, .nil => 0
  | 0, .cons _ _ _ => 0
  | i + 1, .cons _ type rest => type.size + rest.before i

def memberAt : Nat → Fields → Option (FixedString × Ty)
  | _, .nil => none
  | 0, .cons name type _ => some (name, type)
  | i + 1, .cons _ _ rest => rest.memberAt i

end Fields

mutual

theorem Ty.slotSize_eq : ∀ t : Ty, t.slotSize = UInt64.ofNat t.size
  | .prim p => by cases p <;> rfl
  | .string => rfl
  | .object => rfl
  | .array _ => rfl
  | .record fields => by
    rw [Ty.slotSize, Ty.size, UInt64.ofNat_add, fields.slotSizes_eq]
    rfl

theorem Fields.slotSizes_eq : ∀ fs : Fields, fs.slotSizes = UInt64.ofNat fs.size
  | .nil => rfl
  | .cons _ type rest => by
    rw [Fields.slotSizes, Fields.size, UInt64.ofNat_add, type.slotSize_eq, rest.slotSizes_eq]

end

theorem Ty.toNat_slotSize {t : Ty} (h : t.size < 2 ^ 64) : t.slotSize.toNat = t.size := by
  rw [t.slotSize_eq, UInt64.toNat_ofNat', Nat.mod_eq_of_lt h]

namespace Fields
variable {fs : Fields} {i : Nat} {name : FixedString} {t : Ty}

theorem computeOffset_eq (i : Nat) (acc : UInt64) (fs : Fields) :
    fs.computeOffset i acc = acc + UInt64.ofNat (fs.before i) := by
  induction i generalizing fs acc with
  | zero =>
    cases fs with
    | nil => simp [computeOffset, before]
    | cons name type rest => simp [computeOffset, before]
  | succ i ih =>
    cases fs with
    | nil => simp [computeOffset, before]
    | cons name type rest =>
      rw [computeOffset, if_neg (Nat.succ_ne_zero i), Nat.add_sub_cancel, ih, before,
        type.slotSize_eq, UInt64.ofNat_add, UInt64.add_assoc]

theorem fieldOffset_eq (i : Nat) (fs : Fields) :
    fs.fieldOffset i = UInt64.ofNat (8 + fs.before i) := by
  rw [fieldOffset, computeOffset_eq, UInt64.ofNat_add]
  simp [headerSize]

theorem typeAt_of_memberAt (h : fs.memberAt i = some (name, t)) : fs.typeAt i = some t := by
  induction i generalizing fs with
  | zero =>
    cases fs with
    | nil => cases h
    | cons => cases h; rfl
  | succ i ih =>
    cases fs with
    | nil => cases h
    | cons _ _ rest => exact ih h

theorem memberAt_of_typeAt (h : fs.typeAt i = some t) : ∃ name, fs.memberAt i = some (name, t) := by
  induction i generalizing fs with
  | zero =>
    cases fs with
    | nil => cases h
    | cons name => cases h; exact ⟨name, rfl⟩
  | succ i ih =>
    cases fs with
    | nil => cases h
    | cons _ _ rest => exact ih h

theorem before_succ (h : fs.typeAt i = some t) : fs.before (i + 1) = fs.before i + t.size := by
  induction i generalizing fs with
  | zero =>
    cases fs with
    | nil => cases h
    | cons _ _ rest =>
      cases h
      cases rest <;> simp [before]
  | succ i ih =>
    cases fs with
    | nil => cases h
    | cons _ type rest =>
      rw [before, ih h, before, Nat.add_assoc]

theorem before_le (i : Nat) (fs : Fields) : fs.before i ≤ fs.size := by
  induction i generalizing fs with
  | zero => cases fs <;> simp [before]
  | succ i ih =>
    cases fs with
    | nil => simp [before]
    | cons _ type rest =>
      rw [before, size]
      exact Nat.add_le_add_left (ih rest) _

theorem before_length (fs : Fields) : fs.before fs.length = fs.size := by
  cases fs with
  | nil => rfl
  | cons _ type rest => rw [length, before, size, before_length rest]

theorem before_mono {j : Nat} (h : i ≤ j) : fs.before i ≤ fs.before j := by
  induction j generalizing fs i with
  | zero =>
    obtain rfl := Nat.le_zero.mp h
    exact Nat.le_refl _
  | succ j ih =>
    cases fs with
    | nil => simp [before]
    | cons _ type rest =>
      cases i with
      | zero => simp [before]
      | succ i =>
        rw [before, before]
        exact Nat.add_le_add_left (ih (Nat.le_of_succ_le_succ h)) _

/-- The bytes of field `i` lie before those of every later field, and inside the record. -/
theorem before_add_le {j : Nat} (h : fs.typeAt i = some t) (hij : i < j) :
    fs.before i + t.size ≤ fs.before j := by
  rw [← before_succ h]
  exact before_mono hij

theorem size_le (h : fs.typeAt i = some t) : fs.before i + t.size ≤ fs.size := by
  rw [← before_succ h]
  exact before_le _ fs

/-! ## Names -/

theorem countName_pos (h : fs.memberAt i = some (name, t)) : 0 < fs.countName name := by
  induction i generalizing fs with
  | zero =>
    cases fs with
    | nil => cases h
    | cons =>
      cases h
      simp only [countName, if_true]
      omega
  | succ i ih =>
    cases fs with
    | nil => cases h
    | cons _ _ rest => exact Nat.lt_of_lt_of_le (ih h) (Nat.le_add_left _ _)

/-- The index of a name is that of the one field that has it. -/
theorem findFieldIndex_eq (hu : fs.allNamesUnique = true) (h : fs.memberAt i = some (name, t))
    (k : Nat) : fs.findFieldIndex name k = some (k + i) := by
  induction i generalizing fs k with
  | zero =>
    cases fs with
    | nil => cases h
    | cons => cases h; simp [findFieldIndex]
  | succ i ih =>
    cases fs with
    | nil => cases h
    | cons first type rest =>
      simp only [allNamesUnique, countName, Bool.and_eq_true, beq_iff_eq, if_true] at hu
      have hne : name ≠ first := by
        rintro rfl
        have := countName_pos (i := i) (t := t) h
        omega
      rw [findFieldIndex, if_neg hne, ih hu.2 h, Nat.add_assoc, Nat.add_comm 1]

theorem memberAt_of_findFieldIndex {k j : Nat} (h : fs.findFieldIndex name k = some j) :
    ∃ i t, j = k + i ∧ fs.memberAt i = some (name, t) := by
  induction fs using Fields.rec (motive_1 := fun _ => True) generalizing k with
  | nil => cases h
  | cons first type rest _ ih =>
    rw [findFieldIndex] at h
    split at h
    · rename_i hn
      cases h
      exact ⟨0, type, rfl, by rw [hn]; rfl⟩
    · obtain ⟨i, t, hj, hm⟩ := ih h
      exact ⟨i + 1, t, by omega, hm⟩
  | _ => trivial

/-! ## The four walks agree -/

/-- The walk of `deallocate_fields` visits field `i` at `field_offset<i>`. -/
theorem deallocateFields_eq (fs : Fields) (offset : UInt64) (ptr : Ptr) :
    fs.deallocateFields offset ptr = (List.range fs.length).forM fun i =>
      match fs.typeAt i with
      | none => pure ()
      | some t => t.deallocate (ptr + (fs.computeOffset i offset).toNat) := by
  induction fs using Fields.rec (motive_1 := fun _ => True) generalizing offset with
  | nil => rfl
  | cons first type rest _ ih =>
    rw [deallocateFields, ih, length, List.range_succ_eq_map, List.forM_eq_forM, List.forM_cons,
      List.forM_map]
    rfl
  | _ => trivial

/-- The deallocation of field `i`, at its offset. -/
def deallocateField (fs : Fields) (ptr : Ptr) (i : Nat) : CProg Unit :=
  match fs.typeAt i with
  | none => pure ()
  | some t => t.deallocate (ptr + (fs.fieldOffset i).toNat)

theorem deallocateFields_header (fs : Fields) (ptr : Ptr) : fs.deallocateFields headerSize ptr =
    (List.range fs.length).forM (fs.deallocateField ptr) := by
  have hoff (i : Nat) : fs.computeOffset i headerSize = fs.fieldOffset i := by
    rw [fieldOffset, computeOffset_eq, computeOffset_eq, UInt64.zero_add]
  rw [deallocateFields_eq]
  refine congrArg (List.range fs.length).forM (funext fun i => ?_)
  rw [hoff]
  rfl

/-- What the layout of a record is to be: the fields tile `[8, slot_size)` in
order, `get` gives the one field of a name at its offset and with its type, and
an array of such records strides by `slot_size`. -/
structure LayoutOk (fs : Fields) : Prop where
  first : fs.fieldOffset 0 = headerSize
  next : ∀ i t, fs.typeAt i = some t →
    (fs.fieldOffset i).toNat + t.slotSize.toNat = (fs.fieldOffset (i + 1)).toNat
  last : fs.fieldOffset fs.length = (Ty.record fs).slotSize
  disjoint : ∀ i j t, fs.typeAt i = some t → i < j → j < fs.length →
    (fs.fieldOffset i).toNat + t.slotSize.toNat ≤ (fs.fieldOffset j).toNat
  get : ∀ i name t a, fs.memberAt i = some (name, t) →
    fs.get name (some a) = some (some (a + (fs.fieldOffset i).toNat), t)
  stride : (Ty.record fs).itemSize.toNat = (Ty.record fs).slotSize.toNat

end Fields

/-! ## At every level -/

mutual

/-- `P` holds of every record in the slot. -/
def Ty.Every (P : Fields → Prop) : Ty → Prop
  | .record fields => P fields ∧ fields.Every P
  | _ => True

def Fields.Every (P : Fields → Prop) : Fields → Prop
  | .nil => True
  | .cons _ type rest => type.Every P ∧ rest.Every P

end

theorem Fields.Every.typeAt {P : Fields → Prop} {fs : Fields} {i : Nat} {t : Ty}
    (h : fs.Every P) (ht : fs.typeAt i = some t) : t.Every P := by
  induction i generalizing fs with
  | zero =>
    cases fs with
    | nil => cases ht
    | cons => cases ht; exact h.1
  | succ i ih =>
    cases fs with
    | nil => cases ht
    | cons _ _ rest => exact ih h.2 ht

/-- The names of every record are pairwise distinct, as its `static_assert` demands. -/
abbrev Ty.Unique (t : Ty) : Prop := t.Every fun fs => fs.allNamesUnique = true

namespace Fields
variable {fs : Fields}

theorem fieldOffset_exact (h : (Ty.record fs).size < 2 ^ 64) (i : Nat) :
    (fs.fieldOffset i).toNat = 8 + fs.before i := by
  have := before_le i fs
  rw [Ty.size] at h
  rw [fieldOffset_eq, UInt64.toNat_ofNat', Nat.mod_eq_of_lt (by omega)]

theorem toNat_fieldOffset (h : (Ty.record fs).size < 2 ^ 32) (i : Nat) :
    (fs.fieldOffset i).toNat = 8 + fs.before i :=
  fieldOffset_exact (Nat.lt_trans h (by decide)) i

theorem get_eq (hu : fs.allNamesUnique = true) {i : Nat} {name : FixedString} {t : Ty} {a : Addr}
    (hm : fs.memberAt i = some (name, t)) (h : (fs.fieldOffset i).toNat < 2 ^ 32) :
    fs.get name (some a) = some (some (a + (fs.fieldOffset i).toNat), t) := by
  rw [get, findFieldIndex_eq hu hm 0, Option.bind_some, Nat.zero_add, typeAt_of_memberAt hm,
    Option.map_some, msmRecordGetField, if_neg (Option.some_ne_none a), UInt64.toNat_toUInt32,
    Nat.mod_eq_of_lt h, Ptr.some_add]

theorem layoutOk (hu : fs.allNamesUnique = true) (h : (Ty.record fs).size < 2 ^ 32) :
    fs.LayoutOk := by
  have hoff := toNat_fieldOffset h
  have hsize : (Ty.record fs).size = 8 + fs.size := rfl
  have hslot : (Ty.record fs).slotSize.toNat = 8 + fs.size :=
    Ty.toNat_slotSize (Nat.lt_trans h (by decide))
  have hfield {i : Nat} {t : Ty} (ht : fs.typeAt i = some t) : t.slotSize.toNat = t.size := by
    have := size_le ht
    exact Ty.toNat_slotSize (by omega)
  refine ⟨?_, fun i t ht => ?_, ?_, fun i j t ht hij _ => ?_, fun i name t a hm => ?_, ?_⟩
  · rw [fieldOffset_eq]
    cases fs <;> rfl
  · rw [hoff, hoff, hfield ht, before_succ ht]
    omega
  · rw [← UInt64.toNat_inj, hoff, hslot, before_length]
  · have := before_add_le ht hij
    rw [hoff, hoff, hfield ht]
    omega
  · refine get_eq hu hm ?_
    have := before_le i fs
    rw [hoff]
    omega
  · rw [Ty.itemSize, UInt64.toNat_toUInt32, hslot, Nat.mod_eq_of_lt (by omega)]

/-- When the fields tile the record, its offsets are those of unbounded arithmetic. -/
theorem LayoutOk.toNat_fieldOffset (h : fs.LayoutOk)
    (hfield : ∀ i t, fs.typeAt i = some t → t.slotSize.toNat = t.size) {i : Nat}
    (hi : i ≤ fs.length) : (fs.fieldOffset i).toNat = 8 + fs.before i := by
  induction i with
  | zero =>
    rw [h.first]
    cases fs <;> rfl
  | succ i ih =>
    obtain ⟨t, ht⟩ : ∃ t, fs.typeAt i = some t := by
      clear ih h hfield
      induction i generalizing fs with
      | zero =>
        cases fs with
        | nil => exact absurd hi (Nat.not_succ_le_zero _)
        | cons _ type _ => exact ⟨type, rfl⟩
      | succ i ih =>
        cases fs with
        | nil => exact absurd hi (Nat.not_succ_le_zero _)
        | cons _ _ rest => exact ih (Nat.le_of_succ_le_succ hi)
    rw [← h.next i t ht, ih (Nat.le_of_succ_le hi), hfield i t ht, before_succ ht, Nat.add_assoc]

end Fields

mutual

theorem Ty.toNat_slotSize_of_every : ∀ t : Ty, t.Every Fields.LayoutOk → t.slotSize.toNat = t.size
  | .prim p, _ => by cases p <;> rfl
  | .string, _ => rfl
  | .object, _ => rfl
  | .array _, _ => rfl
  | .record fields, h => by
    obtain ⟨hok, hev⟩ := h
    have hfield := fields.toNat_slotSize_of_every hev
    rw [← hok.last, hok.toNat_fieldOffset hfield (Nat.le_refl _), Fields.before_length, Ty.size]

theorem Fields.toNat_slotSize_of_every : ∀ fs : Fields, fs.Every Fields.LayoutOk →
    ∀ i t, fs.typeAt i = some t → t.slotSize.toNat = t.size
  | .nil, _, i, _, ht => by cases i <;> cases ht
  | .cons _ type _, h, 0, t, ht => by
    cases ht
    exact type.toNat_slotSize_of_every h.1
  | .cons _ _ rest, h, i + 1, t, ht => rest.toNat_slotSize_of_every h.2 i t ht

end

mutual

theorem Ty.every_layoutOk : ∀ t : Ty, t.Unique → t.size < 2 ^ 32 → t.Every Fields.LayoutOk
  | .prim _, _, _ => trivial
  | .string, _, _ => trivial
  | .object, _, _ => trivial
  | .array _, _, _ => trivial
  | .record fields, hu, h => ⟨Fields.layoutOk hu.1 h, fields.every_layoutOk hu.2 (by
      rw [Ty.size] at h
      omega)⟩

theorem Fields.every_layoutOk : ∀ fs : Fields, (fs.Every fun fs => fs.allNamesUnique = true) →
    fs.size < 2 ^ 32 → fs.Every Fields.LayoutOk
  | .nil, _, _ => trivial
  | .cons _ type rest, hu, h => by
    rw [Fields.size] at h
    exact ⟨type.every_layoutOk hu.1 (by omega), rest.every_layoutOk hu.2 (by omega)⟩

end

/-- The layout of a record is as it is to be, at every level, exactly when the
record needs less than 2^32 bytes. -/
theorem layoutOk_iff {fs : Fields} (hu : (Ty.record fs).Unique) :
    (Ty.record fs).Every Fields.LayoutOk ↔ (Ty.record fs).size < 2 ^ 32 := by
  refine ⟨fun h => ?_, (Ty.record fs).every_layoutOk hu⟩
  rw [← (Ty.record fs).toNat_slotSize_of_every h, ← h.1.stride]
  exact UInt32.toNat_lt _

end Msm.Api
