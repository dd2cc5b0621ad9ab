import Msm.Api.Capi
import Msm.Api.Object

/-! # The typed views (types.hpp, string.hpp, array.hpp, record.hpp)

A view is a type and a pointer to its slot. What the templates compute at
compile time, from the type, are functions of it here; sizes and offsets are
`std::size_t` and wrap as it does. -/
namespace Msm.Api
open Msm.CMem

/-- The characters of a `fixed_string`. -/
abbrev FixedString := List UInt8

inductive Prim where
  | boolean | int32 | float32 | int64 | float64
deriving DecidableEq, Repr

mutual

inductive Ty where
  | prim (p : Prim)
  | string
  | object
  | array (item : Ty)
  | record (fields : Fields)

/-- The parameter pack of a record: `member<Name, Type>`s. -/
inductive Fields where
  | nil
  | cons (name : FixedString) (type : Ty) (rest : Fields)

end

/-! ## Sizes and offsets -/

def Prim.slotSize : Prim → UInt64
  | .boolean => 8
  | .int32 => 8
  | .float32 => 8
  | .int64 => 16
  | .float64 => 16

def headerSize : UInt64 := 8

mutual

def Ty.slotSize : Ty → UInt64
  | .prim p => p.slotSize
  | .string => 16
  | .object => 16
  | .array _ => 16
  | .record fields => headerSize + fields.slotSizes

/-- `(Fields::type::slot_size + ... + 0)` -/
def Fields.slotSizes : Fields → UInt64
  | .nil => 0
  | .cons _ type rest => type.slotSize + rest.slotSizes

end

/-- `array<ItemType>::item_size` -/
def Ty.itemSize (item : Ty) : UInt32 := item.slotSize.toUInt32

namespace Fields

/-- `field_count` -/
def length : Fields → Nat
  | .nil => 0
  | .cons _ _ rest => rest.length + 1

def computeOffset : Nat → UInt64 → Fields → UInt64
  | _, acc, .nil => acc
  | i, acc, .cons _ first rest =>
    if i = 0 then acc else rest.computeOffset (i - 1) (acc + first.slotSize)

/-- `none` is `static_cast<std::size_t>(-1)`. -/
def findFieldIndex (name : FixedString) : Nat → Fields → Option Nat
  | _, .nil => none
  | i, .cons first _ rest => if name = first then some i else rest.findFieldIndex name (i + 1)

def typeAt : Nat → Fields → Option Ty
  | _, .nil => none
  | 0, .cons _ first _ => some first
  | i + 1, .cons _ _ rest => rest.typeAt i

def countName (name : FixedString) : Fields → Nat
  | .nil => 0
  | .cons first _ rest => (if name = first then 1 else 0) + rest.countName name

def allNamesUnique : Fields → Bool
  | .nil => true
  | .cons first type rest =>
    (cons first type rest).countName first == 1 && rest.allNamesUnique

def fieldOffset (i : Nat) (fields : Fields) : UInt64 := headerSize + fields.computeOffset i 0

end Fields

/-! ## Access -/

def msmRecordGetField (recordPtr : Ptr) (offset : UInt32) : Ptr :=
  if recordPtr = none then none else recordPtr + offset.toNat

/-- `record::get<Name>()`: the view of the field; there is none when the name is
not found, which a `static_assert` excludes. -/
def Fields.get (fields : Fields) (name : FixedString) (ptr : Ptr) : Option (Ptr × Ty) :=
  (fields.findFieldIndex name 0).bind fun idx =>
    (fields.typeAt idx).map fun type =>
      (msmRecordGetField ptr (fields.fieldOffset idx).toUInt32, type)

/-- `view.get<n₁>().get<n₂>()...` -/
def Ty.get : Ty → Ptr → List FixedString → Option (Ptr × Ty)
  | type, ptr, [] => some (ptr, type)
  | .record fields, ptr, name :: names => (fields.get name ptr).bind fun v => v.2.get v.1 names
  | _, _, _ :: _ => none

/-- A value of a primitive type; a number is given as its bits. -/
inductive Scalar where
  | boolean (v : Bool)
  | int32 (v : UInt32)
  | float32 (v : UInt32)
  | int64 (v : UInt64)
  | float64 (v : UInt64)
deriving DecidableEq, Repr

def Scalar.prim : Scalar → Prim
  | .boolean _ => .boolean
  | .int32 _ => .int32
  | .float32 _ => .float32
  | .int64 _ => .int64
  | .float64 _ => .float64

/-- `operator=` of the five primitive types -/
def Scalar.assign (ptr : Ptr) : Scalar → CProg Unit
  | .boolean v => store .plain .u32 (ptr + 4) (if v then 1 else 0)
  | .int32 v => int32Store ptr v
  | .float32 v => store .plain .u32 (ptr + 4) v
  | .int64 v => store .plain .u64 (ptr + 8) v
  | .float64 v => store .plain .u64 (ptr + 8) v

/-- The conversion operator of the five primitive types -/
def Prim.read (ptr : Ptr) : Prim → CProg Scalar
  | .boolean => do
    let val ← loadU32 .plain (ptr + 4)
    pure (.boolean (val ≠ 0))
  | .int32 => do
    let val ← int32Load ptr
    pure (.int32 val)
  | .float32 => do
    let val ← loadU32 .plain (ptr + 4)
    pure (.float32 val)
  | .int64 => do
    let val ← loadU64 .plain (ptr + 8)
    pure (.int64 val)
  | .float64 => do
    let val ← loadU64 .plain (ptr + 8)
    pure (.float64 val)

/-! ## `string` -/

/-- `operator=(const char*)` -/
def stringAssign (ptr : Ptr) : Option CStr → CProg Unit
  | none => msmStringSet ptr .null 0
  | some str => msmStringSet ptr (.own str.bytes) (UInt32.ofNat (strlen str))

/-- `empty()` -/
def stringEmpty (ptr : Ptr) : CProg Bool := do
  let len ← msmStringLength ptr
  pure (len = 0)

/-! ## `array` -/

/-- `empty()` -/
def arrayEmpty (ptr : Ptr) : CProg Bool := do
  let size ← msmArraySize ptr
  pure (size = 0)

/-- `operator[]` -/
def arrayAt (item : Ty) (slot : Ptr) (i : UInt64) : CProg Ptr :=
  msmArrayGet slot i.toUInt32 item.itemSize

/-- `emplace_back()` -/
def emplaceBack (item : Ty) (slot : Ptr) : CProg Ptr := msmArrayPushBack slot item.itemSize

/-- `push_back(value)`, for items whose `operator=` with that value is `assign` -/
def pushBack (item : Ty) (ptr : Ptr) (assign : Ptr → CProg Unit) : CProg Unit := do
  let slot ← msmArrayPushBack ptr item.itemSize
  assign slot

/-- `write_fields`, from field `i` on -/
def writeFields (fields : Fields) (rec : Ptr) : Nat → List Scalar → CProg Unit
  | _, [] => pure ()
  | i, value :: args => do
    value.assign (rec + (fields.fieldOffset i).toNat)
    writeFields fields rec (i + 1) args

/-- `emplace_back(args...)`, with the arguments already converted to the native
types of their fields -/
def emplaceBackWith (fields : Fields) (slot : Ptr) (args : List Scalar) : CProg Unit := do
  let item ← emplaceBack (.record fields) slot
  writeFields fields item 0 args

/-- `destroy()` -/
def arrayDestroy (ptr : Ptr) : CProg Unit := do
  let buf ← loadPtr .plain (ptr + 8)
  if buf = none then pure ()
  else
    free buf
    store .plain .ptr (ptr + 8) none

/-! ## `deallocate` -/

def stringDeallocate (slot : Ptr) : CProg Unit :=
  if slot = none then pure ()
  else do
    let data ← loadPtr .plain (slot + 8)
    if data = none then pure ()
    else
      free data
      store .plain .ptr (slot + 8) none

/-- The loop of `object::deallocate`, from entry `i` with `n` entries left. -/
def deallocateEntries (entries : Ptr) : Nat → UInt32 → CProg Unit
  | 0, _ => pure ()
  | n + 1, i => do
    -- `i * 24` is 32-bit here
    let e := entries + (i * 24).toNat
    let type ← loadU16 .plain (e + 8)
    let val ← loadPtr .plain (e + 16)
    if val ≠ none then
      if type = 0x06 then
        let strData ← loadPtr .plain (val + 8)
        if strData ≠ none then free strData
      free val
    deallocateEntries entries n (i + 1)

def objectDeallocate (slot : Ptr) : CProg Unit :=
  if slot = none then pure ()
  else do
    let buf ← loadPtr .plain (slot + 8)
    if buf = none then pure ()
    else
      let count ← loadU32 .plain buf
      deallocateEntries (buf + 8) count.toNat 0
      free buf
      store .plain .ptr (slot + 8) none

/-- The loop of `array::deallocate`, from element `i` with `n` elements left. -/
def deallocateItems (dealloc : Ptr → CProg Unit) (elements : Ptr) (itemSize : UInt32) :
    Nat → UInt32 → CProg Unit
  | 0, _ => pure ()
  | n + 1, i => do
    -- `i * item_size` is 32-bit
    dealloc (elements + (i * itemSize).toNat)
    deallocateItems dealloc elements itemSize n (i + 1)

def arrayDeallocate (dealloc : Ptr → CProg Unit) (itemSize : UInt32) (slot : Ptr) : CProg Unit :=
  if slot = none then pure ()
  else do
    let buf ← loadPtr .plain (slot + 8)
    if buf = none then pure ()
    else
      let sz ← loadU32 .plain buf
      deallocateItems dealloc (buf + 8) itemSize sz.toNat 0
      free buf
      store .plain .ptr (slot + 8) none

mutual

def Ty.deallocate : Ty → Ptr → CProg Unit
  | .prim _, _ => pure ()
  | .string, slot => stringDeallocate slot
  | .object, slot => objectDeallocate slot
  | .array item, slot => arrayDeallocate (fun p => item.deallocate p) item.itemSize slot
  | .record fields, ptr =>
    if ptr = none then pure () else fields.deallocateFields headerSize ptr

def Fields.deallocateFields : Fields → UInt64 → Ptr → CProg Unit
  | .nil, _, _ => pure ()
  | .cons _ first rest, offset, ptr => do
    first.deallocate (ptr + offset.toNat)
    rest.deallocateFields (offset + first.slotSize) ptr

end

end Msm.Api
