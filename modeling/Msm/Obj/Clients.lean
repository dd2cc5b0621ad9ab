import Msm.Obj.Bag

/-! # The calls of a writer and of a reader

One constructor per function of the object API, with the arguments a caller can
give it, and the program each call runs. -/
namespace Msm.Obj
open Msm.Exec Msm.CMem Msm.Api

/-- What a field is set to: one constructor per `msm_object_set_*`, and
`msm_object_ensure_object`. A string comes with its bytes, or is null. -/
inductive Arg where
  | int32 (v : Int32)
  | int64 (v : Int64)
  | float64 (v : UInt64)
  | bool (v : Int32)
  | string (bs : List UInt8) (fits : bs.length < 2 ^ 32)
  | nullString (len : UInt32)
  | object

inductive WCall where
  | set (name : CStr) (x : Arg)
  | remove (name : CStr)

inductive WVal where
  | status (r : Int32)
  | slot (p : Ptr)
deriving DecidableEq

def Arg.code (slot : Addr) (name : CStr) : Arg → CProg WVal
  | .int32 v => do
    let r ← msmObjectSetInt32 (some slot) (some name) v
    pure (.status r)
  | .int64 v => do
    let r ← msmObjectSetInt64 (some slot) (some name) v
    pure (.status r)
  | .float64 v => do
    let r ← msmObjectSetFloat64 (some slot) (some name) v
    pure (.status r)
  | .bool v => do
    let r ← msmObjectSetBool (some slot) (some name) v
    pure (.status r)
  | .string bs _ => do
    let r ← msmObjectSetString (some slot) (some name) (.own bs) (UInt32.ofNat bs.length)
    pure (.status r)
  | .nullString len => do
    let r ← msmObjectSetString (some slot) (some name) .null len
    pure (.status r)
  | .object => do
    let p ← msmObjectEnsureObject (some slot) (some name)
    pure (.slot p)

def WCall.code (slot : Addr) : WCall → CProg WVal
  | .set name x => x.code slot name
  | .remove name => do
    let r ← msmObjectRemove (some slot) (some name)
    pure (.status r)

/-- The value a successful set leaves in the field. -/
def Arg.value : Arg → Value
  | .int32 v => .scalar (.int32 v.toUInt32)
  | .int64 v => .scalar (.int64 v.toUInt64)
  | .float64 v => .scalar (.float64 v)
  | .bool v => .scalar (.bool (if v ≠ 0 then 1 else 0))
  | .string bs _ => .string bs
  | .nullString _ => .string []
  | .object => .object

/-- What a set reports when the value is in block `v`. -/
def Arg.done (x : Arg) (v : Nat) : WVal :=
  match x with
  | .object => .slot (some ⟨v, 0⟩)
  | _ => .status 0

/-- What a set reports when there is no room. -/
def Arg.failed : Arg → WVal
  | .object => .slot none
  | _ => .status (-1)

/-- The diagnostic of a type mismatch. -/
def Arg.mismatch (x : Arg) (name : CStr) : Fault :=
  match x with
  | .object => .aborted "[msm_object] FATAL: type mismatch for '%s' (expected OBJECT)\n" name.bytes
  | _ => .aborted "[msm_object] FATAL: type mismatch for '%s'\n" name.bytes

inductive RCall where
  | get (q : Query) (name : CStr)
  | count
deriving DecidableEq

def Query.code (slot : Addr) (name : CStr) : Query → CProg (Answer CharPtr)
  | .int32 => do
    let v ← msmObjectGetInt32 (some slot) (some name)
    pure (.int32 v)
  | .int64 => do
    let v ← msmObjectGetInt64 (some slot) (some name)
    pure (.int64 v)
  | .float64 => do
    let v ← msmObjectGetFloat64 (some slot) (some name)
    pure (.float64 v)
  | .bool => do
    let v ← msmObjectGetBool (some slot) (some name)
    pure (.bool v)
  | .string => do
    let p ← msmObjectGetString (some slot) (some name)
    pure (.string p)
  | .slot => do
    let p ← msmObjectGetSlot (some slot) (some name)
    pure (.slot p)
  | .has => do
    let v ← msmObjectHasField (some slot) (some name)
    pure (.has v)
  | .type => do
    let t ← msmObjectGetType (some slot) (some name)
    pure (.type t)

def RCall.code (slot : Addr) : RCall → CProg (Answer CharPtr)
  | .get q name => q.code slot name
  | .count => do
    let n ← msmObjectFieldCount (some slot)
    pure (.count n)

/-! ## Keys -/

/-- FNV-1a over all bytes of the name: the key `remove` looks a name up with. -/
def key (name : CStr) : UInt64 := hashName name (strlen name)

/-- The key of the other calls: over as many bytes as the 16-bit length says. -/
def key16 (name : CStr) : UInt64 := hashName name (nlen name).toNat

theorem key16_eq {name : CStr} (h : name.bytes.length < 65536) : key16 name = key name := by
  have hn : (nlen name).toNat = strlen name := by
    simp only [nlen, strlen, UInt16.toNat_ofNat']
    omega
  rw [key16, hn, key]

/-! ## What the calls do to a bag and say about it -/

section spec
variable {K : Type} [DecidableEq K]

/-- The answer to a reader's call on a bag whose keys are given by `k`. -/
def RCall.answer (k : CStr → K) (B : Bag K) : RCall → Answer (List UInt8)
  | .get q name => q.answer (Keyed.find B (k name))
  | .count => .count (UInt32.ofNat B.length)

/-- The call takes the bag from `B` to `B'` and returns `r`. -/
def WCall.Takes (k : CStr → K) (c : WCall) (B : Bag K) (r : WVal) (B' : Bag K) : Prop :=
  match c with
  | .set name x => ∃ v, SetTo B (k name) x.value v B' ∧ r = x.done v
  | .remove name => ∃ s, RemovedTo B (k name) s B' ∧ r = .status s

/-- The call sets a field that has another type. -/
def WCall.Mismatch (k : CStr → K) (c : WCall) (B : Bag K) : Prop :=
  match c with
  | .set name x => Obj.Mismatch B (k name) x.value
  | .remove _ => False

end spec

/-- A pointer to the string `bs`: a literal, or shared bytes that end in NUL. -/
def Points (m : Mem) (p : CharPtr) (bs : List UInt8) : Prop :=
  match p with
  | .null => False
  | .own cs => cs = bs
  | .shared a => m.Valid a (bs.length + 1) ∧ m.read a (bs.length + 1) = (bs ++ [0]).map .byte

/-- The code's answer is the expected one; a string, when the pointer shows it. -/
def Answer.Shows (m : Mem) : Answer CharPtr → Answer (List UInt8) → Prop
  | .int32 v, .int32 w => v = w
  | .int64 v, .int64 w => v = w
  | .float64 v, .float64 w => v = w
  | .bool v, .bool w => v = w
  | .string p, .string bs => Points m p bs
  | .slot p, .slot q => p = q
  | .has v, .has w => v = w
  | .type t, .type u => t = u
  | .count n, .count k => n = k
  | _, _ => False

/-! ## The calls only read -/

section only
variable {β : Type}

theorem only_scan (entries : Ptr) (k : UInt64) (n i : Nat) :
    (scanEntries entries k n i).Only Act.IsRead := by
  induction n generalizing i with
  | zero => trivial
  | succ n ih =>
    refine ⟨trivial, fun h => ?_⟩
    show Prog.Only _ (if h = k then pure (some i) else scanEntries entries k n (i + 1))
    split
    · trivial
    · exact ih (i + 1)

theorem only_find (slot : Addr) (k : UInt64) :
    (objectFindEntryByHash (some slot) k).Only Act.IsRead := by
  refine ⟨trivial, fun buf => ?_⟩
  show Prog.Only _ (if buf = none then _ else _)
  split
  · trivial
  · refine ⟨trivial, fun count => ?_⟩
    show Prog.Only _ (if count = 0 then _ else _)
    split
    · trivial
    · refine Prog.only_bind (only_scan ..) fun found => ?_
      cases found <;> trivial

theorem only_objectQuery (dflt : β) (read : Ptr → CProg β) (hr : ∀ e, (read e).Only Act.IsRead)
    (slot : Addr) (name : CStr) :
    (objectQuery dflt read (some slot) (some name)).Only Act.IsRead := by
  simp only [objectQuery, reduceCtorEq, if_false]
  refine Prog.only_bind (only_find ..) fun e => ?_
  split
  · trivial
  · exact hr e

theorem only_objectGetField (type : UInt16) (dflt : β) {read : Ptr → CProg β}
    (hr : ∀ e, (read e).Only Act.IsRead) (slot : Addr) (name : CStr) :
    (objectGetField type dflt read (some slot) (some name)).Only Act.IsRead := by
  simp only [objectGetField, reduceCtorEq, if_false]
  refine Prog.only_bind (only_find ..) fun e => ?_
  split
  · trivial
  · refine ⟨trivial, fun t => ?_⟩
    show Prog.Only _ (if t ≠ type then _ else _)
    split
    · trivial
    · exact ⟨trivial, hr⟩

theorem only_number (type : UInt16) (dflt : β) {k : Kind} (off : Nat) (conv : k.Val → β)
    (slot : Addr) (name : CStr) : (objectGetField type dflt (fun val =>
      Prog.act (M := cmachine) (.load .plain k (val + off)) fun v => .ret (conv v))
        (some slot) (some name)).Only Act.IsRead := by
  refine only_objectGetField type dflt ?_ slot name
  exact fun _ => ⟨trivial, fun _ => trivial⟩

theorem only_msmStringGet (p : Ptr) : (msmStringGet p).Only Act.IsRead := by
  simp only [msmStringGet, atomicLoadPtr, strBufLen, atomicLoadU32]
  split
  · trivial
  · refine ⟨trivial, fun q => ?_⟩
    cases q with
    | none => trivial
    | some b =>
      refine ⟨trivial, fun len => ?_⟩
      by_cases h : len = 0
      · simp only [Prog.bind, h, if_true]; trivial
      · simp only [Prog.bind, h, if_false]; trivial

theorem RCall.only_code (slot : Addr) (c : RCall) : (c.code slot).Only Act.IsRead := by
  cases c with
  | count =>
    refine Prog.only_bind ?_ fun _ => trivial
    simp only [msmObjectFieldCount, reduceCtorEq, if_false]
    refine ⟨trivial, fun q => ?_⟩
    cases q with
    | none => trivial
    | some b => exact ⟨trivial, fun _ => trivial⟩
  | get q name =>
    cases q with
    | int32 => exact Prog.only_bind (only_number (k := .u32) ..) fun _ => trivial
    | int64 => exact Prog.only_bind (only_number (k := .u64) ..) fun _ => trivial
    | float64 =>
      refine Prog.only_bind (only_number typeFloat64 (0 : UInt64) (k := .u64) 8 id slot name) ?_
      exact fun _ => trivial
    | bool => exact Prog.only_bind (only_number (k := .u32) ..) fun _ => trivial
    | string =>
      exact Prog.only_bind (only_objectGetField _ _ only_msmStringGet ..) fun _ => trivial
    | slot =>
      refine Prog.only_bind (only_objectQuery none entryValuePtr ?_ ..) fun _ => trivial
      exact fun _ => ⟨trivial, fun _ => trivial⟩
    | has =>
      refine Prog.only_bind (only_objectQuery 0 (fun _ => pure 1) ?_ ..) fun _ => trivial
      exact fun _ => trivial
    | type =>
      refine Prog.only_bind (only_objectQuery 0 entryTypeId ?_ ..) fun _ => trivial
      exact fun _ => ⟨trivial, fun _ => trivial⟩

end only
end Msm.Obj
