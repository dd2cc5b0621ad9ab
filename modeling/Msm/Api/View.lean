import Msm.Api.Array

/-! # The iterator of `msm::array` (array.hpp) -/
namespace Msm.Api
open Msm.CMem

/-- `array::iterator`; the index is a `size_t`. -/
structure Iterator where
  base : Ptr
  index : UInt64

namespace Iterator

/-- `operator*`, as the address of the view it returns -/
def deref (itemSize : UInt32) (it : Iterator) : Ptr :=
  it.base + it.index.toNat * itemSize.toNat

/-- `operator++` -/
def next (it : Iterator) : Iterator := { it with index := it.index + 1 }

/-- `for (; it != e; ++it)`: the iterators that are dereferenced, with a bound
on the number of rounds. -/
def visit (e : Iterator) : Nat → Iterator → Option (List Iterator)
  | 0, _ => none
  | n + 1, it => if it.index ≠ e.index then (visit e n it.next).map (it :: ·) else some []

end Iterator

def arrayBegin (ptr : Ptr) : CProg Iterator := do
  let buf ← loadPtr .plain (ptr + 8)
  pure ⟨if buf ≠ none then buf + 8 else none, 0⟩

def arrayEnd (ptr : Ptr) : CProg Iterator := do
  let buf ← loadPtr .plain (ptr + 8)
  let n ← msmArraySize ptr
  pure ⟨if buf ≠ none then buf + 8 else none, n.toUInt64⟩

end Msm.Api
