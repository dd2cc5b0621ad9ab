import Msm.Api.Hash
import Msm.CMem.Machine
import Msm.Data.Keyed

/-! # The named-segment registry (msm_allocator.cpp)

Every function holds the registry's mutex from its first access to its last, so
each is one step of the process. -/
namespace Msm.Api
open Msm.Exec Msm.CMem

/-- `msm_destructor_fn`: code that runs on the heap and does not come back to
the registry. -/
abbrev DestructorFn := Ptr → CProg Unit

structure Entry where
  ptr : Ptr
  size : UInt64
  destructor : Option DestructorFn
  schemaHash : UInt64

/-- The registry and the heap of the process. -/
structure Process where
  registry : List (CStr × Entry)
  mem : Mem

/-- An argument of a diagnostic line. -/
inductive FormatArg where
  | str (s : List UInt8)
  | hex (x : UInt64)
deriving DecidableEq

/-- How a process ends in the middle of a call. -/
inductive Stop where
  | fault (f : Fault)
  | aborted (format : String) (args : List FormatArg)
deriving DecidableEq

def onHeap {α : Type} (p : CProg α) (m : Mem) : Except Stop (α × Mem) :=
  (p.run m).mapError .fault

/-- The body that `msm_alloc` and `msm_alloc_with_schema` share. -/
def allocEntry (name : Option CStr) (size schemaHash : UInt64) (destructor : Option DestructorFn)
    (s : Process) : Except Stop (Ptr × Process) :=
  match name with
  | none => .ok (none, s)
  | some name =>
    if size = 0 then .ok (none, s)
    else match Keyed.find s.registry name with
      | some _ =>
        .error (.aborted "[msm_allocator] FATAL: duplicate name '%s'\n" [.str name.bytes])
      | none => do
        let (ptr, m) ← onHeap (malloc size.toNat) s.mem
        if ptr = none then .ok (none, { s with mem := m })
        else
          let (_, m) ← onHeap (memset0 ptr size.toNat) m
          .ok (ptr, ⟨Keyed.set s.registry name ⟨ptr, size, destructor, schemaHash⟩, m⟩)

def msmAlloc (name : Option CStr) (size : UInt64) (destructor : Option DestructorFn) :
    Process → Except Stop (Ptr × Process) :=
  allocEntry name size 0 destructor

def msmAllocWithSchema (name : Option CStr) (size schemaHash : UInt64)
    (destructor : Option DestructorFn) : Process → Except Stop (Ptr × Process) :=
  allocEntry name size schemaHash destructor

def msmGetWithSchema (name : Option CStr) (schemaHash : UInt64) (s : Process) :
    Except Stop (Ptr × Process) :=
  match name with
  | none => .ok (none, s)
  | some name => match Keyed.find s.registry name with
    | none => .ok (none, s)
    | some it =>
      if it.schemaHash ≠ schemaHash then
        .error (.aborted ("[msm_allocator] FATAL: schema hash mismatch for '%s'\n" ++
          "  expected (caller): 0x%016llx\n" ++
          "  stored (segment):  0x%016llx\n" ++
          "  Caller and segment owner agreed on different layouts.\n" ++
          "  This would have caused silent corruption — aborting.\n")
          [.str name.bytes, .hex schemaHash, .hex it.schemaHash])
      else .ok (it.ptr, s)

def msmGetSchemaHash (name : Option CStr) (s : Process) : Except Stop (UInt64 × Process) :=
  match name with
  | none => .ok (0, s)
  | some name => match Keyed.find s.registry name with
    | none => .ok (0, s)
    | some it => .ok (it.schemaHash, s)

def msmGet (name : Option CStr) (s : Process) : Except Stop (Ptr × Process) :=
  match name with
  | none => .ok (none, s)
  | some name => match Keyed.find s.registry name with
    | none => .ok (none, s)
    | some it => .ok (it.ptr, s)

/-- What `msm_free` does to the heap: the destructor, if there is one, and the
free of the root block. -/
def destroyEntry (it : Entry) : CProg Unit := do
  match it.destructor with
  | some d => d it.ptr
  | none => pure ()
  free it.ptr

def msmFree (name : Option CStr) (s : Process) : Except Stop (Unit × Process) :=
  match name with
  | none => .ok ((), s)
  | some name => match Keyed.find s.registry name with
    | none => .ok ((), s)
    | some it => do
      let (_, m) ← onHeap (destroyEntry it) s.mem
      .ok ((), ⟨Keyed.remove s.registry name, m⟩)

end Msm.Api
