import Msm.Api.Object

/-! # Bracket access (`msm::object_proxy`, object.hpp)

`obj[n1][n2]...[nk]` is a proxy: the slot of an object and the name of a field,
found only when the proxy is read or written. Each bracket after the first
looks the field of the one before it up. -/
namespace Msm.Api
open Msm.CMem

structure ObjectProxy where
  objPtr : Ptr
  name : Option CStr

/-- `object::operator[]` -/
def objectIndex (ptr : Ptr) (name : CStr) : ObjectProxy := ⟨ptr, some name⟩

namespace ObjectProxy

/-- `object_proxy::operator[]` -/
def index (p : ObjectProxy) (nestedName : CStr) : CProg ObjectProxy := do
  let nestedSlot ← msmObjectEnsureObject p.objPtr p.name
  pure ⟨nestedSlot, some nestedName⟩

def asInt32 (p : ObjectProxy) : CProg Int32 := msmObjectGetInt32 p.objPtr p.name
def asInt64 (p : ObjectProxy) : CProg Int64 := msmObjectGetInt64 p.objPtr p.name
def asFloat64 (p : ObjectProxy) : CProg UInt64 := msmObjectGetFloat64 p.objPtr p.name
def asBool (p : ObjectProxy) : CProg Bool := do
  let v ← msmObjectGetBool p.objPtr p.name
  pure (v ≠ 0)
def asString (p : ObjectProxy) : CProg CharPtr := msmObjectGetString p.objPtr p.name
def typeId (p : ObjectProxy) : CProg UInt16 := msmObjectGetType p.objPtr p.name
/-- `exists()` -/
def hasField (p : ObjectProxy) : CProg Bool := do
  let v ← msmObjectHasField p.objPtr p.name
  pure (v ≠ 0)

end ObjectProxy

/-- The arguments of the assignment operators; a `double` is its 8-byte pattern. -/
inductive ProxyArg where
  | int32 (v : Int32)
  | int64 (v : Int64)
  | float64 (v : UInt64)
  | bool (v : Bool)
  | string (v : Option CStr)

/-- The loop of `operator=(const char*)`: `while (*p) { ++p; ++len; }`, in 32 bits. -/
def countChars : List UInt8 → UInt32 → UInt32
  | [], len => len
  | _ :: bs, len => countChars bs (len + 1)

namespace ObjectProxy

/-- `object_proxy::operator=`. The status of the setter is dropped. -/
def assign (p : ObjectProxy) : ProxyArg → CProg Unit
  | .int32 v => do
    let _ ← msmObjectSetInt32 p.objPtr p.name v
    pure ()
  | .int64 v => do
    let _ ← msmObjectSetInt64 p.objPtr p.name v
    pure ()
  | .float64 v => do
    let _ ← msmObjectSetFloat64 p.objPtr p.name v
    pure ()
  | .bool v => do
    let _ ← msmObjectSetBool p.objPtr p.name (if v then 1 else 0)
    pure ()
  | .string none => do
    let _ ← msmObjectSetString p.objPtr p.name .null 0
    pure ()
  | .string (some v) => do
    let _ ← msmObjectSetString p.objPtr p.name (.own v.bytes) (countChars v.bytes 0)
    pure ()

end ObjectProxy

/-- `object::remove` -/
def objectRemove (ptr : Ptr) (name : Option CStr) : CProg Bool := do
  let r ← msmObjectRemove ptr name
  pure (r = 0)

/-- `object::field_count` -/
def objectFieldCount (ptr : Ptr) : CProg UInt32 := msmObjectFieldCount ptr

/-- The reads of a proxy. Each conversion operator has the body of the getter of
its type. -/
inductive ProxyRead where
  | asInt32 | asInt64 | asFloat64 | asBool | asString | typeId | hasField

inductive ProxyVal where
  | int32 (v : Int32)
  | int64 (v : Int64)
  | float64 (v : UInt64)
  | bool (v : Bool)
  | string (p : CharPtr)
  | type (t : UInt16)

def ProxyRead.code (p : ObjectProxy) : ProxyRead → CProg ProxyVal
  | .asInt32 => do
    let v ← p.asInt32
    pure (.int32 v)
  | .asInt64 => do
    let v ← p.asInt64
    pure (.int64 v)
  | .asFloat64 => do
    let v ← p.asFloat64
    pure (.float64 v)
  | .asBool => do
    let v ← p.asBool
    pure (.bool v)
  | .asString => do
    let v ← p.asString
    pure (.string v)
  | .typeId => do
    let t ← p.typeId
    pure (.type t)
  | .hasField => do
    let v ← p.hasField
    pure (.bool v)

/-- The brackets after the first. -/
def brackets (p : ObjectProxy) : List CStr → CProg ObjectProxy
  | [] => pure p
  | n :: names => do
    let q ← p.index n
    brackets q names

/-- `obj[name][names...]` for the object at `ptr`, and a read of it. -/
def readBrackets (ptr : Ptr) (name : CStr) (names : List CStr) (read : ProxyRead) :
    CProg ProxyVal := do
  let p ← brackets (objectIndex ptr name) names
  read.code p

/-- `obj[name][names...] = v` -/
def writeBrackets (ptr : Ptr) (name : CStr) (names : List CStr) (v : ProxyArg) : CProg Unit := do
  let p ← brackets (objectIndex ptr name) names
  p.assign v

/-- `object{p.obj_ptr_}.remove(p.name_)` for the proxy `p` of the brackets. -/
def removeBrackets (ptr : Ptr) (name : CStr) (names : List CStr) : CProg Bool := do
  let p ← brackets (objectIndex ptr name) names
  objectRemove p.objPtr p.name

/-- `object{p.obj_ptr_}.field_count()` for the proxy `p` of the brackets. -/
def countBrackets (ptr : Ptr) (name : CStr) (names : List CStr) : CProg UInt32 := do
  let p ← brackets (objectIndex ptr name) names
  objectFieldCount p.objPtr

end Msm.Api
