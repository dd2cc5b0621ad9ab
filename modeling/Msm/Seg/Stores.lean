import Msm.Api.Registry
import Msm.Api.Typed
import Msm.CMem.Bases
import Msm.Obj.Clients

/-! # The pointers that the functions store

Every function that writes stores null, what `malloc` has returned, or what it
has loaded as a pointer; scalars and characters are no pointers. -/
namespace Msm.Seg
open Msm.Exec Msm.CMem Msm.Api

abbrev any {α : Type} : α → Prop := fun _ => True

section stores
variable {α β : Type}

/-! ## Single actions -/

theorem based_loadU16 (o : Order) (p : Ptr) : Based any (loadU16 o p) :=
  ⟨trivial, fun _ _ => trivial⟩

theorem based_loadU32 (o : Order) (p : Ptr) : Based any (loadU32 o p) :=
  ⟨trivial, fun _ _ => trivial⟩

theorem based_loadPtr (o : Order) (p : Ptr) : Based Kind.ptr.Base (loadPtr o p) :=
  ⟨trivial, fun _ h => h⟩

theorem based_store {k : Kind} (o : Order) (p : Ptr) {v : k.Val} (hv : k.Base v) :
    Based any (store o k p v) := ⟨hv, fun _ _ => trivial⟩

theorem based_u32 (o : Order) (p : Ptr) (v : UInt32) : Based any (store o .u32 p v) :=
  based_store o p (Kind.base_u32 v)

theorem based_u64 (o : Order) (p : Ptr) (v : UInt64) : Based any (store o .u64 p v) :=
  based_store o p (Kind.base_u64 v)

theorem based_malloc (n : Nat) : Based Kind.ptr.Base (malloc n) := ⟨trivial, fun _ h => h⟩

theorem based_memset0 (p : Ptr) (n : Nat) : Based any (memset0 p n) := ⟨trivial, fun _ _ => trivial⟩

theorem based_memcpy (dst src : Ptr) (n : Nat) : Based any (memcpy dst src n) :=
  ⟨trivial, fun _ _ => trivial⟩

theorem based_free (p : Ptr) : Based any (free p) := ⟨trivial, fun _ _ => trivial⟩

/-- A program that only reads stores nothing. -/
theorem based_reads {p : CProg α} (h : p.Only Act.IsRead) : Based any p := by
  induction p with
  | ret x => trivial
  | act a k ih =>
    refine ⟨?_, fun r _ => ih r (h.2 r)⟩
    cases a with
    | load o k p => trivial
    | copyOut p n => trivial
    | _ => exact h.1.elim

/-- A load of a 32-bit field, or 0 for a null buffer. -/
theorem based_loadOr {Q : β → Prop} {o : Order} {buf q : Ptr} {k : UInt32 → CProg β}
    (hk : ∀ x, Based Q (k x)) :
    Based Q (if buf = none then pure 0 >>= k else loadU32 o q >>= k) := by
  split
  · exact hk 0
  · exact (based_loadU32 o q).bind fun x _ => hk x

/-! ## Strings -/

theorem base_of_mem_takeD {cs : List Cell} {n : Nat} {c : Cell} (hcs : ∀ c ∈ cs, c.Base)
    (h : c ∈ cs.takeD n .indet) : c.Base := by
  induction n generalizing cs with
  | zero => cases h
  | succ n ih =>
    cases cs with
    | nil =>
      rcases List.mem_cons.mp h with rfl | h
      · trivial
      · exact ih hcs h
    | cons x cs =>
      rcases List.mem_cons.mp h with rfl | h
      · exact hcs _ List.mem_cons_self
      · exact ih (fun c hc => hcs c (List.mem_cons_of_mem x hc)) h

theorem based_copyChars (dst : Ptr) (str : CharPtr) (n : Nat) :
    Based any (copyChars dst str n) := by
  cases str with
  | null => exact based_memcpy ..
  | shared a => exact based_memcpy ..
  | own bs =>
    refine ⟨fun c hc => base_of_mem_takeD (fun c hc => ?_) hc, fun _ _ => trivial⟩
    obtain ⟨b, _, rfl⟩ := List.mem_map.mp hc
    trivial

theorem based_strBufNew (str : CharPtr) (len : UInt32) :
    Based Kind.ptr.Base (strBufNew str len) := by
  unfold strBufNew
  refine (based_malloc _).bind fun p hp => ?_
  split
  · exact Kind.base_null
  refine (based_u32 ..).bind fun _ _ => (based_u32 ..).bind fun _ _ => ?_
  refine (based_copyChars ..).bind fun _ _ => ?_
  exact (based_store _ _ (Kind.base_u8 _)).bind fun _ _ => hp

theorem based_stringSet (slot : Ptr) (str : CharPtr) (len : UInt32) :
    Based any (msmStringSet slot str len) := by
  unfold msmStringSet
  split
  · trivial
  dsimp only
  generalize (if str = .null then 0 else len) = n
  split
  · exact based_store _ _ Kind.base_null
  refine (based_strBufNew str n).bind fun p hp => ?_
  split
  · trivial
  · exact based_store _ _ hp

theorem based_stringClear (slot : Ptr) : Based any (msmStringClear slot) := by
  unfold msmStringClear
  split
  · trivial
  · exact based_store _ _ Kind.base_null

/-! ## Arrays -/

theorem based_arrayReserve (slot : Ptr) (newCap itemSize : UInt32) :
    Based any (msmArrayReserve slot newCap itemSize) := by
  unfold msmArrayReserve
  split
  · trivial
  refine (based_loadPtr ..).bind fun buf _ => based_loadOr fun oldCap => ?_
  dsimp only
  split
  · trivial
  refine based_loadOr fun oldSize => (based_malloc _).bind fun p hp => ?_
  split
  · trivial
  refine (based_memset0 ..).bind fun _ _ => (based_u32 ..).bind fun _ _ =>
    (based_u32 ..).bind fun _ _ => ?_
  split
  · exact (based_memcpy ..).bind fun _ _ => based_store _ _ hp
  · exact based_store _ _ hp

theorem based_preparePush (slot : Ptr) (itemSize : UInt32) :
    Based any (msmArrayPreparePush slot itemSize) := by
  unfold msmArrayPreparePush
  split
  · trivial
  refine (based_loadPtr ..).bind fun buf _ => based_loadOr fun sz => based_loadOr fun cap => ?_
  have hend (q : Ptr) : Based any (if q = none then pure none else do
      memset0 (arrBufData q + sz.toNat * itemSize.toNat) itemSize.toNat
      pure (arrBufData q + sz.toNat * itemSize.toNat)) := by
    split
    · trivial
    · exact (based_memset0 ..).bind fun _ _ => trivial
  dsimp only
  split
  · refine (based_arrayReserve slot _ itemSize).bind fun _ _ => ?_
    exact (based_loadPtr ..).bind fun q _ => hend q
  · exact hend buf

theorem based_commitPush (slot : Ptr) : Based any (msmArrayCommitPush slot) := by
  unfold msmArrayCommitPush
  split
  · trivial
  refine (based_loadPtr ..).bind fun buf _ => ?_
  split
  · trivial
  · exact (based_loadU32 ..).bind fun sz _ => based_u32 ..

theorem based_pushBack (slot : Ptr) (itemSize : UInt32) :
    Based any (msmArrayPushBack slot itemSize) := by
  unfold msmArrayPushBack
  refine (based_preparePush slot itemSize).bind fun p _ => ?_
  split
  · exact (based_commitPush slot).bind fun _ _ => trivial
  · trivial

theorem based_arrayClear (slot : Ptr) : Based any (msmArrayClear slot) := by
  unfold msmArrayClear
  split
  · trivial
  refine (based_loadPtr ..).bind fun buf _ => ?_
  split
  · trivial
  · exact based_u32 ..

theorem based_arrayDestroy (slot : Ptr) : Based any (arrayDestroy slot) := by
  unfold arrayDestroy
  refine (based_loadPtr ..).bind fun buf _ => ?_
  split
  · trivial
  · exact (based_free buf).bind fun _ _ => based_store _ _ Kind.base_null

/-! ## Typed views -/

theorem based_assign (p : Ptr) (v : Scalar) : Based any (v.assign p) := by
  cases v with
  | boolean b => exact based_u32 ..
  | int32 x => exact based_u32 ..
  | float32 x => exact based_u32 ..
  | int64 x => exact based_u64 ..
  | float64 x => exact based_u64 ..

theorem based_pushInt32 (slot : Ptr) (v : UInt32) : Based any (msmArrayPushInt32 slot v) := by
  unfold msmArrayPushInt32
  split
  · trivial
  · exact (based_pushBack slot _).bind fun p _ => based_u32 ..

theorem based_writeFields (fields : Fields) (rec : Ptr) (i : Nat) (args : List Scalar) :
    Based any (writeFields fields rec i args) := by
  induction args generalizing i with
  | nil => trivial
  | cons v args ih => exact (based_assign _ v).bind fun _ _ => ih (i + 1)

theorem based_emplaceBackWith (fields : Fields) (slot : Ptr) (args : List Scalar) :
    Based any (emplaceBackWith fields slot args) :=
  (based_pushBack slot _).bind fun p _ => based_writeFields fields p 0 args

/-! ## Objects -/

theorem based_find (slot : Ptr) (name : CStr) (n : Nat) :
    Based any (objectFindEntry slot name n) := by
  unfold objectFindEntry objectFindEntryByHash
  refine (based_loadPtr ..).bind fun buf _ => ?_
  split
  · trivial
  refine (based_loadU32 ..).bind fun count _ => ?_
  split
  · trivial
  refine (based_reads (Obj.only_scan ..)).bind fun found _ => ?_
  cases found <;> trivial

theorem based_objectGrow (slot buf : Ptr) (count newCap : UInt32) :
    Based any (objectGrow slot buf count newCap) := by
  unfold objectGrow
  refine (based_malloc _).bind fun p hp => ?_
  split
  · trivial
  refine (based_memset0 ..).bind fun _ _ => (based_u32 ..).bind fun _ _ =>
    (based_u32 ..).bind fun _ _ => ?_
  have hstore : Based any (atomicStorePtr (slot + 8) p .release >>= fun _ =>
      pure (objBufEntries p + count.toNat * entrySize)) :=
    (based_store _ _ hp).bind fun _ _ => trivial
  split
  · exact (based_memcpy ..).bind fun _ _ => hstore
  · exact hstore

theorem based_objectAddEntry (slot : Ptr) : Based any (objectAddEntry slot) := by
  unfold objectAddEntry
  refine (based_loadPtr ..).bind fun buf _ => based_loadOr fun count => based_loadOr fun cap => ?_
  dsimp only
  split
  · exact based_objectGrow ..
  · trivial

theorem based_objectCommitAdd (slot : Ptr) : Based any (objectCommitAdd slot) := by
  unfold objectCommitAdd
  refine (based_loadPtr ..).bind fun buf _ => ?_
  split
  · trivial
  · exact (based_loadU32 ..).bind fun count _ => based_u32 ..

/-- A setter stores what its `write` stores, and the address of the new value block. -/
theorem based_objectSetField (st : Setter β) (hw : ∀ p, Based any (st.write p)) (slot : Ptr)
    (name : Option CStr) : Based any (objectSetField st slot name) := by
  cases name with
  | none => trivial
  | some name =>
    unfold objectSetField
    dsimp only
    split
    · trivial
    refine (based_find ..).bind fun e _ => ?_
    split
    · refine (based_loadU16 ..).bind fun type _ => ?_
      split
      · exact ⟨trivial, fun r => r.elim⟩
      · exact (based_loadPtr ..).bind fun val _ => (hw val).bind fun _ _ => trivial
    refine (based_objectAddEntry slot).bind fun e _ => ?_
    split
    · trivial
    refine (based_u64 ..).bind fun _ _ => (based_store _ _ (Kind.base_u16 _)).bind fun _ _ =>
      (based_u32 ..).bind fun _ _ => (based_malloc _).bind fun val hv => ?_
    refine (based_memset0 ..).bind fun _ _ => (hw val).bind fun _ _ => ?_
    refine (based_store _ _ hv).bind fun _ _ => ?_
    exact (based_objectCommitAdd slot).bind fun _ _ => trivial

theorem based_objectRemove (slot : Ptr) (name : Option CStr) :
    Based any (msmObjectRemove slot name) := by
  cases name with
  | none => trivial
  | some name =>
    unfold msmObjectRemove
    dsimp only
    split
    · trivial
    refine (based_loadPtr ..).bind fun buf _ => ?_
    split
    · trivial
    refine (based_loadU32 ..).bind fun count _ => ?_
    split
    · trivial
    refine (based_reads (Obj.only_scan ..)).bind fun found _ => ?_
    cases found with
    | none => trivial
    | some i =>
      dsimp only
      split
      · exact (based_store _ _ Kind.base_null).bind fun _ _ => trivial
      refine (based_malloc _).bind fun p hp => ?_
      split
      · trivial
      have hstore : Based any (atomicStorePtr (slot + 8) p .release >>= fun _ =>
          pure (0 : Int32)) :=
        (based_store _ _ hp).bind fun _ _ => trivial
      have hafter (dst src : Ptr) (n : Nat) : Based any (if 0 < count.toNat - i - 1 then
          memcpy dst src n >>= fun _ => atomicStorePtr (slot + 8) p .release >>= fun _ =>
            pure (0 : Int32)
          else atomicStorePtr (slot + 8) p .release >>= fun _ => pure (0 : Int32)) := by
        split
        · exact (based_memcpy ..).bind fun _ _ => hstore
        · exact hstore
      refine (based_u32 ..).bind fun _ _ => (based_u32 ..).bind fun _ _ => ?_
      split
      · exact (based_memcpy ..).bind fun _ _ => hafter ..
      · exact hafter ..

/-! ## Teardown -/

theorem based_stringDeallocate (slot : Ptr) : Based any (stringDeallocate slot) := by
  unfold stringDeallocate
  split
  · trivial
  refine (based_loadPtr ..).bind fun data _ => ?_
  split
  · trivial
  · exact (based_free data).bind fun _ _ => based_store _ _ Kind.base_null

theorem based_deallocateEntries (entries : Ptr) (n : Nat) (i : UInt32) :
    Based any (deallocateEntries entries n i) := by
  induction n generalizing i with
  | zero => trivial
  | succ n ih =>
    unfold deallocateEntries
    refine (based_loadU16 ..).bind fun type _ => (based_loadPtr ..).bind fun val _ => ?_
    have hval : Based any (free val >>= fun _ => deallocateEntries entries n (i + 1)) :=
      (based_free val).bind fun _ _ => ih (i + 1)
    split
    · split
      · refine (based_loadPtr ..).bind fun data _ => ?_
        split
        · exact (based_free data).bind fun _ _ => hval
        · exact hval
      · exact hval
    · exact ih (i + 1)

theorem based_objectDeallocate (slot : Ptr) : Based any (objectDeallocate slot) := by
  unfold objectDeallocate
  split
  · trivial
  refine (based_loadPtr ..).bind fun buf _ => ?_
  split
  · trivial
  refine (based_loadU32 ..).bind fun count _ => (based_deallocateEntries ..).bind fun _ _ => ?_
  exact (based_free buf).bind fun _ _ => based_store _ _ Kind.base_null

theorem based_deallocateItems {dealloc : Ptr → CProg Unit} (hd : ∀ p, Based any (dealloc p))
    (elements : Ptr) (itemSize : UInt32) (n : Nat) (i : UInt32) :
    Based any (deallocateItems dealloc elements itemSize n i) := by
  induction n generalizing i with
  | zero => trivial
  | succ n ih => exact (hd _).bind fun _ _ => ih (i + 1)

theorem based_arrayDeallocate {dealloc : Ptr → CProg Unit} (hd : ∀ p, Based any (dealloc p))
    (itemSize : UInt32) (slot : Ptr) : Based any (arrayDeallocate dealloc itemSize slot) := by
  unfold arrayDeallocate
  split
  · trivial
  refine (based_loadPtr ..).bind fun buf _ => ?_
  split
  · trivial
  refine (based_loadU32 ..).bind fun sz _ => (based_deallocateItems hd ..).bind fun _ _ => ?_
  exact (based_free buf).bind fun _ _ => based_store _ _ Kind.base_null

end stores

mutual

theorem Ty.based_deallocate : ∀ (t : Ty) (slot : Ptr), Based any (t.deallocate slot)
  | .prim _, _ => trivial
  | .string, slot => based_stringDeallocate slot
  | .object, slot => based_objectDeallocate slot
  | .array item, slot =>
    based_arrayDeallocate (fun p => Ty.based_deallocate item p) item.itemSize slot
  | .record fields, ptr => by
    rw [Ty.deallocate]
    split
    · trivial
    · exact Fields.based_deallocate fields headerSize ptr

theorem Fields.based_deallocate : ∀ (fs : Fields) (offset : UInt64) (ptr : Ptr),
    Based any (fs.deallocateFields offset ptr)
  | .nil, _, _ => trivial
  | .cons _ first rest, _, ptr =>
    (Ty.based_deallocate first _).bind fun _ _ => Fields.based_deallocate rest _ ptr

end

end Msm.Seg
