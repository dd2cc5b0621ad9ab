import Msm.Obj.Heap

/-! # The property bag: what the object API is for

An object is a finite map from keys to typed fields. The queries of the API are
functions of the field found under a key; a set replaces the value of a field of
the same type or adds a field in a block of its own; a remove deletes. The keys
are any type: names, for a caller, or the name hashes the code keys by. -/
namespace Msm.Obj
open Msm.CMem Msm.Api

abbrev Bag (K : Type) := List (K × Field)

inductive Query where
  | int32 | int64 | float64 | bool | string | slot | has | type
deriving DecidableEq

/-- What a query returns, with strings of type `S`. -/
inductive Answer (S : Type) where
  | int32 (v : Int32)
  | int64 (v : Int64)
  | float64 (v : UInt64)
  | bool (v : Int32)
  | string (s : S)
  | slot (p : Ptr)
  | has (v : Int32)
  | type (t : UInt16)
  | count (n : UInt32)
deriving DecidableEq

/-- The answer to a query of the field under a name: a typed get gives the value
of a field of its type, and zero or the empty string otherwise. -/
def Query.answer : Query → Option Field → Answer (List UInt8)
  | .int32, some ⟨_, .scalar (.int32 b)⟩ => .int32 b.toInt32
  | .int32, _ => .int32 0
  | .int64, some ⟨_, .scalar (.int64 b)⟩ => .int64 b.toInt64
  | .int64, _ => .int64 0
  | .float64, some ⟨_, .scalar (.float64 b)⟩ => .float64 b
  | .float64, _ => .float64 0
  | .bool, some ⟨_, .scalar (.bool b)⟩ => .bool b.toInt32
  | .bool, _ => .bool 0
  | .string, some ⟨_, .string bs⟩ => .string bs
  | .string, _ => .string []
  | .slot, f => .slot (f.map fun f => ⟨f.slot, 0⟩)
  | .has, f => .has (if f.isSome then 1 else 0)
  | .type, f => .type (f.elim 0 fun f => f.value.type)

/-- The type of field a typed get is for. -/
def Query.typed : Query → Option UInt16
  | .int32 => some typeInt32
  | .int64 => some typeInt64
  | .float64 => some typeFloat64
  | .bool => some typeBool
  | .string => some typeString
  | _ => none

/-- A field of another type is like none to a typed get. -/
theorem Query.answer_other {q : Query} {t : UInt16} (hq : q.typed = some t) {f : Field}
    (hf : f.value.type ≠ t) : q.answer (some f) = q.answer none := by
  obtain ⟨v, x⟩ := f
  cases q with
  | slot => cases hq
  | has => cases hq
  | type => cases hq
  | string =>
    cases hq
    cases x with
    | string bs => exact absurd rfl hf
    | _ => rfl
  | _ =>
    cases hq
    cases x with
    | scalar s => cases s <;> first | rfl | exact absurd rfl hf
    | _ => rfl

section bag
variable {K : Type} [DecidableEq K]

/-- `x` has been set under `k`, in value block `v`. -/
structure SetTo (B : Bag K) (k : K) (x : Value) (v : Nat) (B' : Bag K) : Prop where
  typed : ∀ f, Keyed.find B k = some f → f.value.type = x.type
  kept : ∀ f, Keyed.find B k = some f → f.slot = v
  fresh : Keyed.find B k = none → ∀ y ∈ B, y.2.slot ≠ v
  eq : B' = Keyed.set B k ⟨v, x⟩

/-- `k` has been removed with status `r`. -/
def RemovedTo (B : Bag K) (k : K) (r : Int32) (B' : Bag K) : Prop :=
  if k ∈ Keyed.keys B then r = 0 ∧ B' = Keyed.remove B k else r = -1 ∧ B' = B

/-- The field under `k` is of a type other than that of `x`. -/
def Mismatch (B : Bag K) (k : K) (x : Value) : Prop :=
  ∃ f, Keyed.find B k = some f ∧ f.value.type ≠ x.type

end bag
end Msm.Obj
