import Msm.Api.Registry
import Msm.Api.Typed

/-! # Segments (segment.hpp)

The wrappers of the registry that throw where it returns null. -/
namespace Msm.Api
open Msm.CMem

/-- A `std::runtime_error`: its text, with the name at `%s`. -/
structure RuntimeError where
  format : String
  name : CStr
deriving DecidableEq

/-- `std::string(...) + name + "'"`: a null name is read through. -/
def runtimeError (format : String) (name : Option CStr) : Except Stop RuntimeError :=
  match name with
  | none => .error (.fault .nullDeref)
  | some n => .ok ⟨format, n⟩

/-- `segment::create<T>` -/
def segmentCreate (T : Ty) (name : Option CStr) (s : Process) :
    Except Stop (Except RuntimeError Ptr × Process) := do
  let (base, s) ← msmAlloc name T.slotSize (some fun ptr => T.deallocate ptr) s
  if base = none then
    let e ← runtimeError "msm::segment::create failed for '%s'" name
    pure (.error e, s)
  else pure (.ok base, s)

/-- `segment::open<T>`: the type is that of the view. -/
def segmentOpen (name : Option CStr) (s : Process) :
    Except Stop (Except RuntimeError Ptr × Process) := do
  let (base, s) ← msmGet name s
  if base = none then
    let e ← runtimeError "msm::segment::open failed for '%s'" name
    pure (.error e, s)
  else pure (.ok base, s)

/-- `segment::close` -/
def segmentClose (name : Option CStr) (s : Process) : Except Stop (Unit × Process) := msmFree name s

/-- `segment::get_base` -/
def segmentGetBase (name : Option CStr) (s : Process) : Except Stop (Ptr × Process) := msmGet name s

end Msm.Api
