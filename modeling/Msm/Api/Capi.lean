import Msm.Api.Array

/-! # The flat C functions of capi.cpp, and the typed view under them

A primitive slot of 8 bytes has its 4-byte payload at offset 4; it is given as
its bits. -/
namespace Msm.Api
open Msm.CMem

abbrev int32SlotSize : UInt32 := 8

/-- `int32::operator=` -/
def int32Store (ptr : Ptr) (v : UInt32) : CProg Unit := store .plain .u32 (ptr + 4) v

/-- `int32::operator std::int32_t` -/
def int32Load (ptr : Ptr) : CProg UInt32 := loadU32 .plain (ptr + 4)

/-- `array<int32>::push_back` -/
def arrayPushBack (ptr : Ptr) (value : UInt32) : CProg Unit := do
  let slot ← msmArrayPushBack ptr int32SlotSize
  int32Store slot value

def msmArrayPushInt32 (arraySlot : Ptr) (value : UInt32) : CProg Unit :=
  if arraySlot = none then pure () else arrayPushBack arraySlot value

def msmArrayGetInt32 (arraySlot : Ptr) (index : UInt32) : CProg UInt32 :=
  if arraySlot = none then pure 0
  else do
    let item ← msmArrayGet arraySlot index int32SlotSize
    int32Load item

def msmWriteInt32 (slotPtr : Ptr) (value : UInt32) : CProg Unit :=
  if slotPtr = none then pure () else store .plain .u32 (slotPtr + 4) value

def msmReadInt32 (slotPtr : Ptr) : CProg UInt32 :=
  if slotPtr = none then pure 0 else loadU32 .plain (slotPtr + 4)

end Msm.Api
