import Msm.Rec.Layout

/-! # Paths of a record as lenses

A path of names that ends at a primitive field stands for a range of the bytes
of the record. Two different paths stand for disjoint ranges, so what is written
through one is read back through it and through no other. -/
namespace Msm.Api
open Msm.CMem Msm.Exec

/-! ## Paths -/

abbrev Path := List FixedString

/-- The offset of the view that a path gives, and its type. -/
def Ty.resolve : Path → Ty → Option (Nat × Ty)
  | [], t => some (0, t)
  | name :: path, .record fields => (fields.findFieldIndex name 0).bind fun i =>
      (fields.typeAt i).bind fun t =>
        (t.resolve path).map fun x => (8 + fields.before i + x.1, x.2)
  | _ :: _, _ => none

/-- The path compiles, and the view it gives is of the primitive type `k`. -/
def Ty.Names (t : Ty) (path : Path) (k : Prim) : Prop := ∃ p, t.get none path = some (p, .prim k)

/-- The pointer of the view that a path gives. -/
def Ty.fieldAt (t : Ty) (ptr : Ptr) (path : Path) : Ptr := (t.get ptr path).elim none Prod.fst

section paths
variable {t t₁ t₂ : Ty} {path : Path} {o o₁ o₂ : Nat}

/-- A step of a path into a record. -/
theorem resolve_cons {fs : Fields} {name : FixedString} {ty : Ty}
    (h : (Ty.record fs).resolve (name :: path) = some (o, ty)) :
    ∃ i t o', fs.memberAt i = some (name, t) ∧ t.resolve path = some (o', ty) ∧
      o = 8 + fs.before i + o' := by
  obtain ⟨i, hi, h⟩ := Option.bind_eq_some_iff.mp h
  obtain ⟨t, ht, h⟩ := Option.bind_eq_some_iff.mp h
  obtain ⟨x, hx, he⟩ := Option.map_eq_some_iff.mp h
  obtain ⟨j, t', hj, hm⟩ := Fields.memberAt_of_findFieldIndex hi
  rw [Nat.zero_add] at hj
  subst hj
  rw [Fields.typeAt_of_memberAt hm] at ht
  cases ht
  cases he
  exact ⟨_, _, _, hm, hx, rfl⟩

theorem resolve_le (h : t.resolve path = some (o, t₁)) : o + t₁.size ≤ t.size := by
  induction path generalizing t o with
  | nil => cases h; simp
  | cons name path ih =>
    cases t with
    | record fs =>
      obtain ⟨i, t', o', hm, hr, rfl⟩ := resolve_cons h
      have h1 := ih hr
      have h2 := Fields.size_le (Fields.typeAt_of_memberAt hm)
      rw [Ty.size]
      omega
    | _ => cases h

/-- Different paths to primitive fields give disjoint slots. -/
theorem resolve_disjoint {p q : Path} {k₁ k₂ : Prim} (h₁ : t.resolve p = some (o₁, .prim k₁))
    (h₂ : t.resolve q = some (o₂, .prim k₂)) (hne : p ≠ q) :
    o₁ + k₁.size ≤ o₂ ∨ o₂ + k₂.size ≤ o₁ := by
  induction p generalizing t o₁ o₂ q with
  | nil =>
    cases h₁
    cases q with
    | nil => exact absurd rfl hne
    | cons name q => cases h₂
  | cons n₁ p ih =>
    cases t with
    | record fs =>
      cases q with
      | nil => cases h₂
      | cons n₂ q =>
        obtain ⟨i, t₁, a, hm₁, hr₁, rfl⟩ := resolve_cons h₁
        obtain ⟨j, t₂, b, hm₂, hr₂, rfl⟩ := resolve_cons h₂
        have hl₁ : a + k₁.size ≤ t₁.size := resolve_le hr₁
        have hl₂ : b + k₂.size ≤ t₂.size := resolve_le hr₂
        rcases Nat.lt_trichotomy i j with hij | rfl | hij
        · have := Fields.before_add_le (Fields.typeAt_of_memberAt hm₁) hij
          omega
        · rw [hm₁] at hm₂
          cases hm₂
          have := ih hr₁ hr₂ fun he => hne (by rw [he])
          omega
        · have := Fields.before_add_le (Fields.typeAt_of_memberAt hm₂) hij
          omega
    | _ => cases h₁

/-- The views that the paths of the code give. -/
theorem get_eq_resolve (hu : t.Unique) (hsize : t.size < 2 ^ 32) (a : Addr) :
    t.get (some a) path = (t.resolve path).map fun x => (some (a + x.1), x.2) := by
  induction path generalizing t a with
  | nil => cases t <;> simp [Ty.get, Ty.resolve]
  | cons name path ih =>
    cases t with
    | record fs =>
      simp only [Ty.get, Ty.resolve, Fields.get]
      cases hi : fs.findFieldIndex name 0 with
      | none => rfl
      | some i =>
        obtain ⟨j, ty, hj, hm⟩ := Fields.memberAt_of_findFieldIndex hi
        rw [Nat.zero_add] at hj
        subst hj
        have hty := Fields.typeAt_of_memberAt hm
        have hle := Fields.size_le hty
        have hoff := Fields.toNat_fieldOffset hsize i
        rw [Ty.size] at hsize
        simp only [Option.bind_some, hty, Option.map_some, msmRecordGetField, reduceCtorEq, if_false,
          UInt64.toNat_toUInt32, hoff, Nat.mod_eq_of_lt (show 8 + fs.before i < 2 ^ 32 by omega),
          Ptr.some_add]
        rw [ih (hu.2.typeAt hty) (by omega), Option.map_map]
        refine congrArg (Option.map · _) (funext fun x => ?_)
        simp [Addr.add_add]
    | _ => rfl

theorem get_null (path : Path) (t : Ty) :
    t.get none path = (t.resolve path).map fun x => (none, x.2) := by
  induction path generalizing t with
  | nil => cases t <;> rfl
  | cons name path ih =>
    cases t with
    | record fs =>
      simp only [Ty.get, Ty.resolve, Fields.get]
      cases fs.findFieldIndex name 0 with
      | none => rfl
      | some i =>
        cases hty : fs.typeAt i with
        | none => simp [hty]
        | some ty =>
          simp only [Option.bind_some, hty, Option.map_some, msmRecordGetField, if_true, ih,
            Option.map_map]
          rfl
    | _ => rfl

theorem Ty.Names.resolve {k : Prim} (h : t.Names path k) :
    ∃ o, t.resolve path = some (o, .prim k) := by
  obtain ⟨p, hp⟩ := h
  rw [get_null] at hp
  obtain ⟨x, hx, he⟩ := Option.map_eq_some_iff.mp hp
  obtain ⟨o, ty⟩ := x
  cases he
  exact ⟨o, hx⟩

theorem fieldAt_eq (hu : t.Unique) (hsize : t.size < 2 ^ 32) (h : t.resolve path = some (o, t₁))
    (a : Addr) : t.fieldAt (some a) path = some (a + o) := by
  rw [Ty.fieldAt, get_eq_resolve hu hsize, h]
  rfl

end paths

/-! ## Primitive slots -/

def Prim.kind : Prim → Kind
  | .boolean => .u32
  | .int32 => .u32
  | .float32 => .u32
  | .int64 => .u64
  | .float64 => .u64

/-- Where the value stands in its slot. -/
def Prim.payload : Prim → Nat
  | .boolean => 4
  | .int32 => 4
  | .float32 => 4
  | .int64 => 8
  | .float64 => 8

theorem Prim.payload_add (k : Prim) : k.payload + k.kind.size = k.size := by cases k <;> rfl

/-- The bits a value is stored as. -/
def Scalar.toVal : (v : Scalar) → v.prim.kind.Val
  | .boolean v => (if v then 1 else 0 : UInt32)
  | .int32 v => v
  | .float32 v => v
  | .int64 v => v
  | .float64 v => v

def Prim.ofVal : (k : Prim) → k.kind.Val → Scalar
  | .boolean, (v : UInt32) => .boolean (v ≠ 0)
  | .int32, v => .int32 v
  | .float32, v => .float32 v
  | .int64, v => .int64 v
  | .float64, v => .float64 v

theorem Prim.ofVal_toVal (v : Scalar) : v.prim.ofVal v.toVal = v := by
  cases v with
  | boolean v => cases v <;> rfl
  | _ => rfl

/-- What a zeroed slot holds. -/
def Prim.zero (k : Prim) : Scalar := k.ofVal k.kind.zero

theorem assign_eq (v : Scalar) (ptr : Ptr) :
    v.assign ptr = store .plain v.prim.kind (ptr + v.prim.payload) v.toVal := by
  cases v <;> rfl

theorem read_eq (k : Prim) (ptr : Ptr) :
    k.read ptr = .act (.load .plain k.kind (ptr + k.payload)) fun v => .ret (k.ofVal v) := by
  cases k <;> rfl

/-- The bytes a value is stored as. -/
def Scalar.encode (v : Scalar) : List Cell := v.prim.kind.encode v.toVal

@[simp] theorem Scalar.length_encode (v : Scalar) : v.encode.length = v.prim.kind.size :=
  Kind.length_encode ..

theorem assign_run {m : Mem} {a : Addr} {v : Scalar}
    (h : m.Valid (a + v.prim.payload) v.prim.kind.size) :
    (v.assign (some a)).run m = .ok ((), m.write (a + v.prim.payload) v.encode) := by
  simp only [assign_eq, store, Prog.run, Ptr.some_add, Mem.exec_store h, Scalar.encode]

/-! ## The lens of a slot in the bytes of a record -/

/-- The value of the primitive slot at offset `o`. -/
def peek (cs : List Cell) (o : Nat) (k : Prim) : Option Scalar :=
  (k.kind.decode ((cs.drop (o + k.payload)).take k.kind.size)).map k.ofVal

/-- The bytes after a value has been written into the slot at offset `o`. -/
def poke (cs : List Cell) (o : Nat) (v : Scalar) : List Cell :=
  Mem.splice cs (o + v.prim.payload) v.encode

section lens
variable {cs : List Cell} {o o' : Nat} {k : Prim} {v : Scalar}

theorem peek_poke_same (h : o + v.prim.size ≤ cs.length) : peek (poke cs o v) o v.prim = some v := by
  have hp := v.prim.payload_add
  have hlen : (cs.take (o + v.prim.payload)).length = o + v.prim.payload :=
    List.length_take_of_le (by omega)
  rw [peek, poke, Mem.splice, List.append_assoc, List.drop_left' hlen,
    List.take_left' v.length_encode, Scalar.encode, Kind.decode_encode, Option.map_some,
    Prim.ofVal_toVal]

theorem peek_poke_other (h : o + v.prim.size ≤ cs.length)
    (hd : o + v.prim.size ≤ o' ∨ o' + k.size ≤ o) : peek (poke cs o v) o' k = peek cs o' k := by
  have hp := v.prim.payload_add
  have hk := k.payload_add
  rw [peek, peek]
  congr 2
  refine List.ext_getElem? fun i => ?_
  by_cases hi : i < k.kind.size
  · rw [List.getElem?_take_of_lt hi, List.getElem?_take_of_lt hi, List.getElem?_drop,
      List.getElem?_drop, poke, Mem.getElem?_splice (by rw [v.length_encode]; omega), if_neg]
    rw [v.length_encode]
    omega
  · rw [List.getElem?_eq_none (by simp; omega), List.getElem?_eq_none (by simp; omega)]

theorem length_poke (h : o + v.prim.size ≤ cs.length) : (poke cs o v).length = cs.length := by
  have hp := v.prim.payload_add
  have he := v.length_encode
  simp only [poke, Mem.splice, List.length_append, List.length_take, List.length_drop]
  omega

theorem peek_zeros {n : Nat} (h : o + k.size ≤ n) :
    peek (List.replicate n (.byte 0)) o k = some k.zero := by
  have hk := k.payload_add
  rw [peek, List.drop_replicate, List.take_replicate, Nat.min_eq_left (by omega), Kind.decode_zero]
  rfl

/-- Reading a slot of a record in memory. -/
theorem returned_read {m : Mem} {a : Addr} {n : Nat} (hv : m.Valid a n) (h : o + k.size ≤ n) :
    returned (k.read (some (a + o))) m =
      match peek (m.read a n) o k with
      | some v => .ok v
      | none => .error .indeterminate := by
  have hk := k.payload_add
  have hp : m.Valid (a + o + k.payload) k.kind.size := by
    rw [Addr.add_add]
    exact hv.mono (by omega)
  rw [peek, Mem.read_part _ _ (by omega), ← Addr.add_add, returned, read_eq]
  simp only [Prog.run, Ptr.some_add, Mem.exec, Mem.access_ok hp, bind, Except.bind, Mem.load,
    if_pos hp]
  cases k.kind.decode (m.read (a + o + k.payload) k.kind.size) <;> rfl

end lens
end Msm.Api
