import Msm.Api.Strings

/-! # The array C API (`msm_array_*`)

Slot `[header:8 | data_ptr:8]`, buffer `[size:4 | cap:4 | elements...]`. Byte
counts and element offsets are `size_t` in the source: `8 + n * item_size` for
two 32-bit factors never wraps in 64 bits, so they are natural numbers here. -/
namespace Msm.Api
open Msm.CMem

def arrBufHeader : Nat := 8

def arrBufSize (buf : Ptr) (o : Order) : CProg UInt32 := atomicLoadU32 buf o
def arrBufCap (buf : Ptr) : CProg UInt32 := atomicLoadU32 (buf + 4) .relaxed
def arrBufData (buf : Ptr) : Ptr := buf + arrBufHeader
def arrBufSetSize (buf : Ptr) (v : UInt32) (o : Order) : CProg Unit := atomicStoreU32 buf v o
def arrBufSetCap (buf : Ptr) (v : UInt32) : CProg Unit := atomicStoreU32 (buf + 4) v .relaxed

def msmArraySize (slot : Ptr) : CProg UInt32 :=
  if slot = none then pure 0
  else do
    let buf ← atomicLoadPtr (slot + 8) .acquire
    if buf = none then pure 0 else arrBufSize buf .acquire

def msmArrayCapacity (slot : Ptr) : CProg UInt32 :=
  if slot = none then pure 0
  else do
    let buf ← atomicLoadPtr (slot + 8) .relaxed
    if buf = none then pure 0 else arrBufCap buf

def msmArrayReserve (slot : Ptr) (newCap itemSize : UInt32) : CProg Unit :=
  if slot = none ∨ itemSize = 0 then pure ()
  else do
    let oldBuf ← atomicLoadPtr (slot + 8) .relaxed
    let oldCap ← if oldBuf = none then pure 0 else arrBufCap oldBuf
    if newCap ≤ oldCap then pure ()
    else
      let oldSize ← if oldBuf = none then pure 0 else arrBufSize oldBuf .relaxed
      let newBytes := arrBufHeader + newCap.toNat * itemSize.toNat
      let newBuf ← malloc newBytes
      if newBuf = none then pure ()
      else
        memset0 newBuf newBytes
        arrBufSetSize newBuf oldSize .relaxed
        arrBufSetCap newBuf newCap
        if oldBuf ≠ none ∧ 0 < oldSize then
          memcpy (arrBufData newBuf) (arrBufData oldBuf) (oldSize.toNat * itemSize.toNat)
        atomicStorePtr (slot + 8) newBuf .release

def msmArrayPreparePush (slot : Ptr) (itemSize : UInt32) : CProg Ptr :=
  if slot = none ∨ itemSize = 0 then pure none
  else do
    let buf ← atomicLoadPtr (slot + 8) .relaxed
    let sz ← if buf = none then pure 0 else arrBufSize buf .relaxed
    let cap ← if buf = none then pure 0 else arrBufCap buf
    let buf ← if buf = none ∨ cap ≤ sz then do
        let newCap : UInt32 := if cap = 0 then 8 else cap * 2
        msmArrayReserve slot newCap itemSize
        atomicLoadPtr (slot + 8) .relaxed
      else pure buf
    if buf = none then pure none
    else
      let elem := arrBufData buf + sz.toNat * itemSize.toNat
      memset0 elem itemSize.toNat
      pure elem

def msmArrayCommitPush (slot : Ptr) : CProg Unit :=
  if slot = none then pure ()
  else do
    let buf ← atomicLoadPtr (slot + 8) .relaxed
    if buf = none then pure ()
    else
      let sz ← arrBufSize buf .relaxed
      arrBufSetSize buf (sz + 1) .release

def msmArrayPushBack (slot : Ptr) (itemSize : UInt32) : CProg Ptr := do
  let elem ← msmArrayPreparePush slot itemSize
  if elem ≠ none then msmArrayCommitPush slot
  pure elem

def msmArrayGet (slot : Ptr) (index itemSize : UInt32) : CProg Ptr :=
  if slot = none ∨ itemSize = 0 then pure none
  else do
    let buf ← atomicLoadPtr (slot + 8) .acquire
    if buf = none then pure none
    else
      let sz ← arrBufSize buf .acquire
      if sz ≤ index then pure none
      else pure (arrBufData buf + index.toNat * itemSize.toNat)

def msmArrayClear (slot : Ptr) : CProg Unit :=
  if slot = none then pure ()
  else do
    let buf ← atomicLoadPtr (slot + 8) .relaxed
    if buf = none then pure () else arrBufSetSize buf 0 .release

end Msm.Api
