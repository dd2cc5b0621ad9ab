import Msm.CMem.Machine

/-! # The string C API (`msm_string_*`)

Slot `[header:8 | data_ptr:8]`, buffer `[len:4 | cap:4 | data: cap bytes]`. -/
namespace Msm.Api
open Msm.CMem

def atomicLoadU32 (p : Ptr) (o : Order) : CProg UInt32 := loadU32 o p
def atomicStoreU32 (p : Ptr) (v : UInt32) (o : Order) : CProg Unit := store o .u32 p v
def atomicLoadPtr (p : Ptr) (o : Order) : CProg Ptr := loadPtr o p
def atomicStorePtr (p v : Ptr) (o : Order) : CProg Unit := store o .ptr p v

/-- A `const char*`: null, bytes outside the shared memory (a literal or a
buffer of the caller's), or an address in it. -/
inductive CharPtr where
  | null
  | own (bs : List UInt8)
  | shared (a : Addr)
deriving DecidableEq

/-- `memcpy(dst, str, n)`. Bytes past the end of the caller's own are indeterminate. -/
def copyChars (dst : Ptr) (str : CharPtr) (n : Nat) : CProg Unit :=
  match str with
  | .null => memcpy dst none n
  | .own bs => copyIn dst ((bs.map Cell.byte).takeD n .indet)
  | .shared a => memcpy dst (some a) n

def strBufHeader : Nat := 8

def strBufLen (buf : Ptr) (o : Order) : CProg UInt32 := atomicLoadU32 buf o
def strBufSetLen (buf : Ptr) (v : UInt32) (o : Order) : CProg Unit := atomicStoreU32 buf v o
def strBufSetCap (buf : Ptr) (v : UInt32) : CProg Unit := atomicStoreU32 (buf + 4) v .relaxed
def strBufData (buf : Ptr) : Ptr := buf + strBufHeader

/-- The new buffer of a set, built privately: header, data and terminator. -/
def strBufNew (str : CharPtr) (len : UInt32) : CProg Ptr := do
  -- 32-bit: the capacity of a string of length 2^32 - 1 wraps to 0
  let newCap := len + 1
  let bufSize := strBufHeader + newCap.toNat
  let newBuf ← malloc bufSize
  if newBuf = none then pure none
  else
    strBufSetLen newBuf len .relaxed
    strBufSetCap newBuf newCap
    let data := strBufData newBuf
    copyChars data str len.toNat
    store .plain .u8 (data + len.toNat) 0
    pure newBuf

def msmStringSet (slot : Ptr) (str : CharPtr) (len : UInt32) : CProg Unit :=
  if slot = none then pure ()
  else
    let len := if str = .null then 0 else len
    if len = 0 then atomicStorePtr (slot + 8) none .release
    else do
      let newBuf ← strBufNew str len
      if newBuf = none then pure () else atomicStorePtr (slot + 8) newBuf .release

def msmStringGet (slot : Ptr) : CProg CharPtr :=
  if slot = none then pure (.own [])
  else do
    let buf ← atomicLoadPtr (slot + 8) .acquire
    match buf with
    | none => pure (.own [])
    | some b =>
      let len ← strBufLen buf .acquire
      if len = 0 then pure (.own []) else pure (.shared (b + strBufHeader))

def msmStringLength (slot : Ptr) : CProg UInt32 :=
  if slot = none then pure 0
  else do
    let buf ← atomicLoadPtr (slot + 8) .acquire
    if buf = none then pure 0 else strBufLen buf .acquire

def msmStringClear (slot : Ptr) : CProg Unit :=
  if slot = none then pure () else atomicStorePtr (slot + 8) none .release

end Msm.Api
