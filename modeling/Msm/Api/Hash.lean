import Mathlib.Data.List.Basic

/-! # C strings and the two FNV-1a hashes -/
namespace Msm.Api

/-- The bytes of a null-terminated string, before the terminator. -/
structure CStr where
  bytes : List UInt8
  nul_free : 0 ∉ bytes
deriving DecidableEq

def strlen (s : CStr) : Nat := s.bytes.length

def fnvOffsetBasis : UInt64 := 14695981039346656037
def fnvPrime : UInt64 := 1099511628211

/-- One round: `hash ^= byte; hash *= prime`. -/
def fnvStep (hash : UInt64) (c : UInt8) : UInt64 := (hash ^^^ c.toUInt64) * fnvPrime

def msmSchemaHashFnv1a (schemaStr : Option CStr) : UInt64 :=
  match schemaStr with
  | none => 0
  | some s => s.bytes.foldl fnvStep fnvOffsetBasis

/-- FNV-1a over the first `len` bytes of the name. -/
def hashName (name : CStr) (len : Nat) : UInt64 :=
  (name.bytes.take len).foldl fnvStep fnvOffsetBasis

/-- The same over a buffer whose bytes may be NUL. -/
def hashNameBytes (name : List UInt8) (len : Nat) : UInt64 :=
  (name.take len).foldl fnvStep fnvOffsetBasis

end Msm.Api
