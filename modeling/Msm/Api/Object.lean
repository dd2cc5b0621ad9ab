import Msm.Api.Hash
import Msm.Api.Strings

/-! # The object C API (`msm_object_*`)

Slot `[header:8 | entries_ptr:8]`, buffer `[count:4 | capacity:4 | entries...]`,
entry `[name_hash:8 | type_id:2 | unused:2 | size:4 | value_ptr:8]`. The six
functions that create a field differ only in its type, the size of its value
block and how the value is written (`objectSetField`); the typed getters only in
type, default and how it is read (`objectGetField`). Byte counts of the form
`8 + n * 24` for a 32-bit `n` are `size_t` in the source and never wrap. -/
namespace Msm.Api
open Msm.CMem

def typeBool : UInt16 := 0x01
def typeInt32 : UInt16 := 0x02
def typeInt64 : UInt16 := 0x04
def typeFloat64 : UInt16 := 0x05
def typeString : UInt16 := 0x06
def typeObject : UInt16 := 0x08

def entrySize : Nat := 24
def objBufHeader : Nat := 8

def objBufCount (buf : Ptr) (o : Order) : CProg UInt32 := atomicLoadU32 buf o
def objBufCapacity (buf : Ptr) : CProg UInt32 := atomicLoadU32 (buf + 4) .relaxed
def objBufEntries (buf : Ptr) : Ptr := buf + objBufHeader
def objBufSetCount (buf : Ptr) (v : UInt32) (o : Order) : CProg Unit := atomicStoreU32 buf v o
def objBufSetCapacity (buf : Ptr) (v : UInt32) : CProg Unit := atomicStoreU32 (buf + 4) v .relaxed

def entryNameHash (e : Ptr) : CProg UInt64 := loadU64 .plain e
def entryTypeId (e : Ptr) : CProg UInt16 := loadU16 .plain (e + 8)
def entryValuePtr (e : Ptr) : CProg Ptr := loadPtr .plain (e + 16)
def entrySetNameHash (e : Ptr) (v : UInt64) : CProg Unit := store .plain .u64 e v
def entrySetTypeId (e : Ptr) (v : UInt16) : CProg Unit := store .plain .u16 (e + 8) v
def entrySetSize (e : Ptr) (v : UInt32) : CProg Unit := store .plain .u32 (e + 12) v
def entrySetValuePtr (e p : Ptr) : CProg Unit := store .plain .ptr (e + 16) p

/-- The loop of both lookups, from entry `i` with `n` entries left: the index of
the first entry whose name hash is `h`. -/
def scanEntries (entries : Ptr) (h : UInt64) : Nat → Nat → CProg (Option Nat)
  | 0, _ => pure none
  | n + 1, i => do
    let nameHash ← entryNameHash (entries + i * entrySize)
    if nameHash = h then pure (some i) else scanEntries entries h n (i + 1)

def objectFindEntryByHash (slot : Ptr) (nameHash : UInt64) : CProg Ptr := do
  let buf ← atomicLoadPtr (slot + 8) .acquire
  if buf = none then pure none
  else
    let count ← objBufCount buf .acquire
    if count = 0 then pure none
    else
      let entries := objBufEntries buf
      let found ← scanEntries entries nameHash count.toNat 0
      match found with
      | some i => pure (entries + i * entrySize)
      | none => pure none

def objectFindEntry (slot : Ptr) (name : CStr) (nameLen : Nat) : CProg Ptr :=
  objectFindEntryByHash slot (hashName name nameLen)

/-- The new buffer of `object_add_entry`, with the entries of the current one, is
built privately and published; the address of its entry `count`. -/
def objectGrow (slot buf : Ptr) (count newCap : UInt32) : CProg Ptr := do
  let newSize := objBufHeader + newCap.toNat * entrySize
  let newBuf ← malloc newSize
  if newBuf = none then pure none
  else
    memset0 newBuf newSize
    objBufSetCount newBuf count .relaxed
    objBufSetCapacity newBuf newCap
    if buf ≠ none ∧ 0 < count then
      memcpy (objBufEntries newBuf) (objBufEntries buf) (count.toNat * entrySize)
    atomicStorePtr (slot + 8) newBuf .release
    pure (objBufEntries newBuf + count.toNat * entrySize)

/-- Room for one more entry: the address of entry `count`, in a new and larger
buffer when the current one is null or full. -/
def objectAddEntry (slot : Ptr) : CProg Ptr := do
  let buf ← atomicLoadPtr (slot + 8) .relaxed
  let count ← if buf = none then pure 0 else objBufCount buf .relaxed
  let cap ← if buf = none then pure 0 else objBufCapacity buf
  if buf = none ∨ cap ≤ count then
    -- 32-bit: doubling a capacity of 2^31 or more wraps
    objectGrow slot buf count (if cap = 0 then 4 else cap * 2)
  else pure (objBufEntries buf + count.toNat * entrySize)

def objectCommitAdd (slot : Ptr) : CProg Unit := do
  let buf ← atomicLoadPtr (slot + 8) .relaxed
  if buf = none then pure ()
  else
    let cur ← objBufCount buf .relaxed
    objBufSetCount buf (cur + 1) .release

/-- `static_cast<uint16_t>(strlen(name))`: the length every entry point but
`remove` looks a name up with. -/
def nlen (name : CStr) : UInt16 := UInt16.ofNat (strlen name)

/-! ## Setters -/

/-- A field setter: the type and the size of its value block, how it writes the
value into the block, what it reports when there is no room and on success, and
the diagnostic of a type mismatch. -/
structure Setter (β : Type) where
  type : UInt16
  size : UInt32
  write : Ptr → CProg Unit
  failed : β
  done : Ptr → β
  mismatch : String

def objectSetField {β : Type} (st : Setter β) (slot : Ptr) (name : Option CStr) : CProg β :=
  match name with
  | none => pure st.failed
  | some name =>
    if slot = none then pure st.failed
    else do
      let e ← objectFindEntry slot name (nlen name).toNat
      if e ≠ none then
        let type ← entryTypeId e
        if type ≠ st.type then abort st.mismatch name.bytes
        else
          let val ← entryValuePtr e
          st.write val
          pure (st.done val)
      else
        let e ← objectAddEntry slot
        if e = none then pure st.failed
        else
          entrySetNameHash e (hashName name (nlen name).toNat)
          entrySetTypeId e st.type
          entrySetSize e st.size
          let val ← malloc st.size.toNat
          memset0 val st.size.toNat
          st.write val
          entrySetValuePtr e val
          objectCommitAdd slot
          pure (st.done val)

/-- The result of the `msm_object_set_*`: 0, or -1 for a null argument or no memory. -/
def statusSetter (type : UInt16) (size : UInt32) (write : Ptr → CProg Unit) : Setter Int32 where
  type := type
  size := size
  write := write
  failed := -1
  done _ := 0
  mismatch := "[msm_object] FATAL: type mismatch for '%s'\n"

def int32Setter (value : Int32) : Setter Int32 :=
  statusSetter typeInt32 8 fun val => store .plain .u32 (val + 4) value.toUInt32
def int64Setter (value : Int64) : Setter Int32 :=
  statusSetter typeInt64 16 fun val => store .plain .u64 (val + 8) value.toUInt64
/-- A `double` is its 8-byte pattern. -/
def float64Setter (value : UInt64) : Setter Int32 :=
  statusSetter typeFloat64 16 fun val => store .plain .u64 (val + 8) value
def boolSetter (value : Int32) : Setter Int32 :=
  statusSetter typeBool 8 fun val => store .plain .u32 (val + 4) (if value ≠ 0 then 1 else 0)
def stringSetter (str : CharPtr) (len : UInt32) : Setter Int32 :=
  statusSetter typeString 24 fun val => msmStringSet val str len
def objectSetter : Setter Ptr where
  type := typeObject
  size := 24
  write _ := pure ()
  failed := none
  done val := val
  mismatch := "[msm_object] FATAL: type mismatch for '%s' (expected OBJECT)\n"

def msmObjectSetInt32 (slot : Ptr) (name : Option CStr) (value : Int32) : CProg Int32 :=
  objectSetField (int32Setter value) slot name
def msmObjectSetInt64 (slot : Ptr) (name : Option CStr) (value : Int64) : CProg Int32 :=
  objectSetField (int64Setter value) slot name
def msmObjectSetFloat64 (slot : Ptr) (name : Option CStr) (value : UInt64) : CProg Int32 :=
  objectSetField (float64Setter value) slot name
def msmObjectSetBool (slot : Ptr) (name : Option CStr) (value : Int32) : CProg Int32 :=
  objectSetField (boolSetter value) slot name
def msmObjectSetString (slot : Ptr) (name : Option CStr) (str : CharPtr) (len : UInt32) :
    CProg Int32 :=
  objectSetField (stringSetter str len) slot name
def msmObjectEnsureObject (slot : Ptr) (name : Option CStr) : CProg Ptr :=
  objectSetField objectSetter slot name

/-! ## Getters -/

def objectGetField {β : Type} (type : UInt16) (dflt : β) (read : Ptr → CProg β) (slot : Ptr)
    (name : Option CStr) : CProg β :=
  match name with
  | none => pure dflt
  | some name =>
    if slot = none then pure dflt
    else do
      let e ← objectFindEntry slot name (nlen name).toNat
      if e = none then pure dflt
      else
        let t ← entryTypeId e
        if t ≠ type then pure dflt
        else
          let val ← entryValuePtr e
          read val

def msmObjectGetInt32 : Ptr → Option CStr → CProg Int32 :=
  objectGetField typeInt32 0 fun val => do
    let v ← loadU32 .plain (val + 4)
    pure v.toInt32
def msmObjectGetInt64 : Ptr → Option CStr → CProg Int64 :=
  objectGetField typeInt64 0 fun val => do
    let v ← loadU64 .plain (val + 8)
    pure v.toInt64
def msmObjectGetFloat64 : Ptr → Option CStr → CProg UInt64 :=
  objectGetField typeFloat64 0 fun val => loadU64 .plain (val + 8)
def msmObjectGetBool : Ptr → Option CStr → CProg Int32 :=
  objectGetField typeBool 0 fun val => do
    let v ← loadU32 .plain (val + 4)
    pure v.toInt32
def msmObjectGetString : Ptr → Option CStr → CProg CharPtr :=
  objectGetField typeString (.own []) msmStringGet

/-- A query of the entry of a name: `dflt` when there is none. -/
def objectQuery {β : Type} (dflt : β) (read : Ptr → CProg β) (slot : Ptr) (name : Option CStr) :
    CProg β :=
  match name with
  | none => pure dflt
  | some name =>
    if slot = none then pure dflt
    else do
      let e ← objectFindEntry slot name (nlen name).toNat
      if e = none then pure dflt else read e

def msmObjectGetSlot : Ptr → Option CStr → CProg Ptr := objectQuery none entryValuePtr
def msmObjectHasField : Ptr → Option CStr → CProg Int32 := objectQuery 0 fun _ => pure 1
def msmObjectGetType : Ptr → Option CStr → CProg UInt16 := objectQuery 0 entryTypeId

def msmObjectFieldCount (slot : Ptr) : CProg UInt32 :=
  if slot = none then pure 0
  else do
    let buf ← atomicLoadPtr (slot + 8) .acquire
    if buf = none then pure 0 else objBufCount buf .acquire

/-! ## Remove -/

/-- Unlike the other entry points, the name is looked up with its full length. -/
def msmObjectRemove (slot : Ptr) (name : Option CStr) : CProg Int32 :=
  match name with
  | none => pure (-1)
  | some name =>
    if slot = none then pure (-1)
    else do
      let h := hashName name (strlen name)
      let buf ← atomicLoadPtr (slot + 8) .relaxed
      if buf = none then pure (-1)
      else
        let count ← objBufCount buf .relaxed
        if count = 0 then pure (-1)
        else
          let entries := objBufEntries buf
          let found ← scanEntries entries h count.toNat 0
          match found with
          | none => pure (-1)
          | some removeIdx =>
            let newCount := count - 1
            if newCount = 0 then
              atomicStorePtr (slot + 8) none .release
              pure 0
            else
              let newCap := newCount
              let newBuf ← malloc (objBufHeader + newCap.toNat * entrySize)
              if newBuf = none then pure (-1)
              else
                objBufSetCount newBuf newCount .relaxed
                objBufSetCapacity newBuf newCap
                let newEntries := objBufEntries newBuf
                let beforeBytes := removeIdx * entrySize
                if 0 < beforeBytes then memcpy newEntries entries beforeBytes
                let afterCount := count.toNat - removeIdx - 1
                if 0 < afterCount then
                  memcpy (newEntries + beforeBytes) (entries + (removeIdx + 1) * entrySize)
                    (afterCount * entrySize)
                atomicStorePtr (slot + 8) newBuf .release
                pure 0

/-! ## Teardown -/

/-- A loop over the entries from `i` on, with `n` left; `i * ENTRY_SIZE` is `size_t`. -/
def forEntries (body : Ptr → CProg Unit) (entries : Ptr) : Nat → Nat → CProg Unit
  | 0, _ => pure ()
  | n + 1, i => do
    body (entries + i * entrySize)
    forEntries body entries n (i + 1)

/-- Frees what the value of the entry at `e` owns, and its block; `depth` bounds
the recursion into nested objects. -/
def objectDeallocateEntryValue : Nat → Ptr → CProg Unit
  | 0, _ => abort "recursion too deep" []
  | depth + 1, e => do
    let val ← entryValuePtr e
    if val = none then pure ()
    else
      let type ← entryTypeId e
      if type = typeString then
        let strData ← loadPtr .plain (val + 8)
        if strData ≠ none then free strData
      else if type = typeObject then
        let nestedBuf ← loadPtr .plain (val + 8)
        if nestedBuf ≠ none then
          let nestedCount ← objBufCount nestedBuf .relaxed
          forEntries (objectDeallocateEntryValue depth) (objBufEntries nestedBuf) nestedCount.toNat 0
          free nestedBuf
      free val

end Msm.Api
