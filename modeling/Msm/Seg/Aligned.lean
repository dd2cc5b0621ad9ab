import Msm.Rec.Layout
import Msm.Seg.Stores

/-! # The addresses of atomic accesses

`std::atomic_ref` requires naturally aligned addresses. Every slot starts at a
multiple of 8 in its block, since every size, field offset and stride is one, and
every buffer at the start of a block, since no other pointer is ever stored. -/
namespace Msm.Seg
open Msm.Exec Msm.CMem Msm.Api

/-! ## Runs of the typed and object operations -/

/-- The functions that write, on whatever pointers they are given. -/
inductive Op where
  | assign (ptr : Ptr) (v : Scalar)
  | stringSet (slot : Ptr) (str : CharPtr) (len : UInt32)
  | stringClear (slot : Ptr)
  | arrayReserve (slot : Ptr) (newCap itemSize : UInt32)
  | arrayPreparePush (slot : Ptr) (itemSize : UInt32)
  | arrayCommitPush (slot : Ptr)
  | arrayPushBack (slot : Ptr) (itemSize : UInt32)
  | arrayPushInt32 (slot : Ptr) (v : UInt32)
  | emplaceBackWith (fields : Fields) (slot : Ptr) (args : List Scalar)
  | arrayClear (slot : Ptr)
  | arrayDestroy (slot : Ptr)
  | objectSetInt32 (slot : Ptr) (name : Option CStr) (v : Int32)
  | objectSetInt64 (slot : Ptr) (name : Option CStr) (v : Int64)
  | objectSetFloat64 (slot : Ptr) (name : Option CStr) (v : UInt64)
  | objectSetBool (slot : Ptr) (name : Option CStr) (v : Int32)
  | objectSetString (slot : Ptr) (name : Option CStr) (str : CharPtr) (len : UInt32)
  | objectEnsureObject (slot : Ptr) (name : Option CStr)
  | objectRemove (slot : Ptr) (name : Option CStr)
  | deallocate (type : Ty) (ptr : Ptr)

/-- The call, with what it returns left out. -/
def Op.code : Op → CProg Unit
  | .assign ptr v => v.assign ptr
  | .stringSet slot str len => msmStringSet slot str len
  | .stringClear slot => msmStringClear slot
  | .arrayReserve slot newCap itemSize => msmArrayReserve slot newCap itemSize
  | .arrayPreparePush slot itemSize => msmArrayPreparePush slot itemSize >>= fun _ => pure ()
  | .arrayCommitPush slot => msmArrayCommitPush slot
  | .arrayPushBack slot itemSize => msmArrayPushBack slot itemSize >>= fun _ => pure ()
  | .arrayPushInt32 slot v => msmArrayPushInt32 slot v
  | .emplaceBackWith fields slot args => Api.emplaceBackWith fields slot args
  | .arrayClear slot => msmArrayClear slot
  | .arrayDestroy slot => Api.arrayDestroy slot
  | .objectSetInt32 slot name v => msmObjectSetInt32 slot name v >>= fun _ => pure ()
  | .objectSetInt64 slot name v => msmObjectSetInt64 slot name v >>= fun _ => pure ()
  | .objectSetFloat64 slot name v => msmObjectSetFloat64 slot name v >>= fun _ => pure ()
  | .objectSetBool slot name v => msmObjectSetBool slot name v >>= fun _ => pure ()
  | .objectSetString slot name str len =>
    msmObjectSetString slot name str len >>= fun _ => pure ()
  | .objectEnsureObject slot name => msmObjectEnsureObject slot name >>= fun _ => pure ()
  | .objectRemove slot name => msmObjectRemove slot name >>= fun _ => pure ()
  | .deallocate type ptr => type.deallocate ptr

/-- `segment::create<T>`, with a schema hash or with 0 -/
def create (name : CStr) (type : Ty) (hash : UInt64) : Process → Except Stop (Ptr × Process) :=
  msmAllocWithSchema (some name) type.slotSize hash (some fun p => type.deallocate p)

/-- The processes that segments, typed views and objects lead to, from an empty
registry and heap, with any outcomes of `malloc`. -/
inductive Uses : Process → Prop
  | start (script : List Bool) : Uses ⟨[], ⟨[], script⟩⟩
  | create {s s' : Process} {p : Ptr} (name : CStr) (type : Ty) (hash : UInt64) :
      Uses s → create name type hash s = .ok (p, s') → Uses s'
  | close {s s' : Process} (name : CStr) :
      Uses s → msmFree (some name) s = .ok ((), s') → Uses s'
  | op {s : Process} {m : Mem} (c : Op) :
      Uses s → c.code.run s.mem = .ok ((), m) → Uses { s with mem := m }

/-- The type of the slot in a value block, by the type of the entry. -/
def IsValueType (type : UInt16) : Ty → Prop
  | .string => type = typeString
  | .object => type = typeObject
  | _ => False

/-- The views of the slots of segments, and of those inside them: a view has a
type and the address of its slot. `open<T>` does not check the type. An element
counts whether it is committed or not. -/
inductive View (s : Process) : Ty → Addr → Prop
  | root {name : CStr} {a : Addr} (type : Ty) : msmGet (some name) s = .ok (some a, s) →
      View s type a
  | get {fields : Fields} {a b : Addr} {name : FixedString} {type : Ty} :
      View s (.record fields) a → fields.get name (some a) = some (some b, type) → View s type b
  | field {fields : Fields} {a : Addr} {i : Nat} {type : Ty} :
      View s (.record fields) a → fields.typeAt i = some type →
      View s type (a + (fields.fieldOffset i).toNat)
  | item {type : Ty} {a buf : Addr} (i : Nat) :
      View s (.array type) a → s.mem.load .ptr (a + 8) = some (some buf) →
      View s type (buf + (arrBufHeader + i * type.itemSize.toNat))
  | value {a buf v : Addr} {t : UInt16} {type : Ty} (i : Nat) :
      View s .object a → s.mem.load .ptr (a + 8) = some (some buf) →
      s.mem.load .u16 (buf + (objBufHeader + i * entrySize) + 8) = some t →
      s.mem.load .ptr (buf + (objBufHeader + i * entrySize) + 16) = some (some v) →
      IsValueType t type → View s type v

/-- The numeric address, given those of the blocks. -/
def address (base : Nat → Nat) (a : Addr) : Nat := base a.block + a.off

/-! ## Only addresses of blocks are stored -/

theorem Op.based (c : Op) : Based any c.code := by
  have hset {β : Type} (st : Setter β) (hw : ∀ p, Based any (st.write p)) (slot : Ptr)
      (name : Option CStr) : Based any (objectSetField st slot name >>= fun _ => pure ()) :=
    (based_objectSetField st hw slot name).bind fun _ _ => trivial
  cases c with
  | assign ptr v => exact based_assign ptr v
  | stringSet slot str len => exact based_stringSet slot str len
  | stringClear slot => exact based_stringClear slot
  | arrayReserve slot newCap itemSize => exact based_arrayReserve slot newCap itemSize
  | arrayPreparePush slot itemSize =>
    exact (based_preparePush slot itemSize).bind fun _ _ => trivial
  | arrayCommitPush slot => exact based_commitPush slot
  | arrayPushBack slot itemSize => exact (based_pushBack slot itemSize).bind fun _ _ => trivial
  | arrayPushInt32 slot v => exact based_pushInt32 slot v
  | emplaceBackWith fields slot args => exact based_emplaceBackWith fields slot args
  | arrayClear slot => exact based_arrayClear slot
  | arrayDestroy slot => exact based_arrayDestroy slot
  | objectSetInt32 slot name v => exact hset _ (fun _ => based_u32 ..) slot name
  | objectSetInt64 slot name v => exact hset _ (fun _ => based_u64 ..) slot name
  | objectSetFloat64 slot name v => exact hset _ (fun _ => based_u64 ..) slot name
  | objectSetBool slot name v => exact hset _ (fun _ => based_u32 ..) slot name
  | objectSetString slot name str len => exact hset _ (fun _ => based_stringSet ..) slot name
  | objectEnsureObject slot name => exact hset objectSetter (fun _ => trivial) slot name
  | objectRemove slot name => exact (based_objectRemove slot name).bind fun _ _ => trivial
  | deallocate type ptr => exact Ty.based_deallocate type ptr

/-- Pointers to blocks only, in memory and in the registry, and destructors that
store no others. -/
structure Placed (s : Process) : Prop where
  bases : s.mem.Bases
  root : ∀ name e, Keyed.find s.registry name = some e → Kind.ptr.Base e.ptr
  destructor : ∀ name e d, Keyed.find s.registry name = some e → e.destructor = some d →
    ∀ p, Based any (d p)

section placed
variable {s s' : Process} {m : Mem}

theorem bases_onHeap {α : Type} {Q : α → Prop} {p : CProg α} {x : α} {m' : Mem} (hm : m.Bases)
    (hp : Based Q p) (h : onHeap p m = .ok (x, m')) : m'.Bases ∧ Q x := by
  cases hr : p.run m with
  | error f =>
    rw [onHeap, hr] at h
    cases h
  | ok r =>
    rw [onHeap, hr] at h
    cases h
    exact hm.run hp hr

theorem Placed.heap (h : Placed s) (hm : m.Bases) : Placed { s with mem := m } :=
  ⟨hm, h.root, h.destructor⟩

theorem Placed.create (h : Placed s) {name : CStr} {type : Ty} {hash : UInt64} {p : Ptr}
    (hc : create name type hash s = .ok (p, s')) : Placed s' := by
  rw [Seg.create, msmAllocWithSchema, allocEntry] at hc
  simp only at hc
  split at hc
  · cases hc
    exact h
  split at hc
  · cases hc
  cases hma : onHeap (malloc type.slotSize.toNat) s.mem with
  | error f =>
    rw [hma] at hc
    cases hc
  | ok r =>
    obtain ⟨ptr, m₁⟩ := r
    obtain ⟨hm₁, hptr⟩ := bases_onHeap h.bases (based_malloc _) hma
    simp only [hma, bind, Except.bind] at hc
    split at hc
    · cases hc
      exact h.heap hm₁
    split at hc
    · cases hc
    rename_i r hz
    obtain ⟨hm₂, _⟩ := bases_onHeap hm₁ (based_memset0 _ _) hz
    cases hc
    refine ⟨hm₂, fun k e he => ?_, fun k e d he hd => ?_⟩
    · by_cases hk : k = name
      · rw [hk, Keyed.find_set_self] at he
        cases he
        exact hptr
      · rw [Keyed.find_set_of_ne hk] at he
        exact h.root k e he
    · by_cases hk : k = name
      · rw [hk, Keyed.find_set_self] at he
        cases he
        cases hd
        exact Ty.based_deallocate type
      · rw [Keyed.find_set_of_ne hk] at he
        exact h.destructor k e d he hd

theorem Placed.close (h : Placed s) {name : CStr} (hc : msmFree (some name) s = .ok ((), s')) :
    Placed s' := by
  unfold msmFree at hc
  cases hf : Keyed.find s.registry name with
  | none =>
    simp only [hf] at hc
    cases hc
    exact h
  | some e =>
    simp only [hf] at hc
    cases hd : onHeap (destroyEntry e) s.mem with
    | error f =>
      rw [hd] at hc
      cases hc
    | ok r =>
      rw [hd] at hc
      cases hc
      have hdestroy : Based any (destroyEntry e) := by
        unfold destroyEntry
        cases he : e.destructor with
        | none => exact based_free e.ptr
        | some d => exact (h.destructor name e d hf he e.ptr).bind fun _ _ => based_free e.ptr
      have hfind {k : CStr} {e' : Entry}
          (hk : Keyed.find (Keyed.remove s.registry name) k = some e') :
          Keyed.find s.registry k = some e' := by
        by_cases hkn : k = name
        · rw [hkn, Keyed.find_remove_self] at hk
          cases hk
        · rwa [Keyed.find_remove_of_ne hkn] at hk
      refine ⟨(bases_onHeap h.bases hdestroy hd).1, fun k e' hk => h.root k e' (hfind hk), ?_⟩
      exact fun k e' d hk => h.destructor k e' d (hfind hk)

theorem Uses.placed (h : Uses s) : Placed s := by
  induction h with
  | start script => exact ⟨fun b o => by cases b <;> trivial, nofun, nofun⟩
  | create name type hash _ hc ih => exact ih.create hc
  | close name _ hc ih => exact ih.close hc
  | op c _ hr ih => exact ih.heap (ih.bases.run c.based hr).1

end placed

/-! ## Sizes, offsets and strides -/

theorem dvd_ofNat64 {n : Nat} (h : 8 ∣ n) : 8 ∣ (UInt64.ofNat n).toNat := by
  rw [UInt64.toNat_ofNat']
  omega

theorem dvd_toUInt32 {x : UInt64} (h : 8 ∣ x.toNat) : 8 ∣ x.toUInt32.toNat := by
  rw [UInt64.toNat_toUInt32]
  omega

mutual

theorem Ty.dvd_size : ∀ t : Ty, 8 ∣ t.size
  | .prim p => by cases p <;> decide
  | .string => ⟨2, rfl⟩
  | .object => ⟨2, rfl⟩
  | .array _ => ⟨2, rfl⟩
  | .record fields => Nat.dvd_add (Nat.dvd_refl 8) (Fields.dvd_size fields)

theorem Fields.dvd_size : ∀ fs : Fields, 8 ∣ fs.size
  | .nil => Nat.dvd_zero 8
  | .cons _ type rest => Nat.dvd_add (Ty.dvd_size type) (Fields.dvd_size rest)

end

theorem dvd_slotSize (t : Ty) : 8 ∣ t.slotSize.toNat := by
  rw [t.slotSize_eq]
  exact dvd_ofNat64 (Ty.dvd_size t)

theorem dvd_before (i : Nat) (fs : Fields) : 8 ∣ fs.before i := by
  induction i generalizing fs with
  | zero => cases fs <;> exact Nat.dvd_zero 8
  | succ i ih =>
    cases fs with
    | nil => exact Nat.dvd_zero 8
    | cons _ type rest => exact Nat.dvd_add (Ty.dvd_size type) (ih rest)

theorem dvd_fieldOffset (i : Nat) (fs : Fields) : 8 ∣ (fs.fieldOffset i).toNat := by
  rw [fs.fieldOffset_eq]
  exact dvd_ofNat64 (Nat.dvd_add (Nat.dvd_refl 8) (dvd_before i fs))

/-! ## Views -/

section views
variable {s : Process} {t : Ty} {a b : Addr}

/-- A pointer that is loaded is the address of a block. -/
theorem Placed.load (h : Placed s) (hl : s.mem.load .ptr a = some (some b)) : b.off = 0 :=
  Kind.base_some.mp (h.bases.load hl)

theorem find_of_msmGet {name : CStr} (h : msmGet (some name) s = .ok (some a, s)) :
    ∃ e, Keyed.find s.registry name = some e ∧ e.ptr = some a := by
  unfold msmGet at h
  cases hf : Keyed.find s.registry name with
  | none =>
    simp only [hf] at h
    cases h
  | some e =>
    simp only [hf] at h
    exact ⟨e, rfl, congrArg Prod.fst (Except.ok.inj h)⟩

/-- **Every slot starts at a multiple of 8 in its block.** -/
theorem View.dvd_off (h : Placed s) (hv : View s t a) : 8 ∣ a.off := by
  induction hv with
  | @root name a type hget =>
    obtain ⟨e, he, hptr⟩ := find_of_msmGet hget
    have hbase := h.root name e he
    rw [hptr] at hbase
    rw [Kind.base_some.mp hbase]
    exact Nat.dvd_zero 8
  | @get fields a b name type hv hget ih =>
    obtain ⟨i, _, hget⟩ := Option.bind_eq_some_iff.mp hget
    obtain ⟨type', _, hget⟩ := Option.map_eq_some_iff.mp hget
    cases hget
    exact Nat.dvd_add ih (dvd_toUInt32 (dvd_fieldOffset i fields))
  | @field fields a i type hv _ ih => exact Nat.dvd_add ih (dvd_fieldOffset i fields)
  | @item type a buf i hv hl ih =>
    rw [Addr.add_off, h.load hl, Nat.zero_add]
    have hstride : 8 ∣ i * type.itemSize.toNat :=
      Nat.dvd_mul_left_of_dvd (dvd_toUInt32 (dvd_slotSize type)) i
    exact Nat.dvd_add (Nat.dvd_refl 8) hstride
  | value i hv hbuf ht hval _ ih =>
    rw [h.load hval]
    exact Nat.dvd_zero 8

/-- **Every atomic access is aligned.** Every size is a multiple of 8, whatever
the nesting. After any typed and object operations, with blocks at multiples of
16, the pointer field of every slot is at a multiple of 8, and the buffer it
points to has both 32-bit fields at multiples of 4. -/
theorem accesses_aligned {base : Nat → Nat} (hbase : ∀ b, 16 ∣ base b) :
    (∀ t : Ty, 8 ∣ t.slotSize.toNat) ∧
    ∀ s t a, Uses s → View s t a → 8 ∣ address base (a + 8) ∧
      ∀ buf, s.mem.load .ptr (a + 8) = some (some buf) →
        4 ∣ address base buf ∧ 4 ∣ address base (buf + 4) := by
  refine ⟨dvd_slotSize, fun s t a hs hv => ⟨?_, fun buf hl => ?_⟩⟩
  · have hoff := hv.dvd_off hs.placed
    have := hbase a.block
    rw [address, Addr.add_block, Addr.add_off]
    omega
  · have hoff := hs.placed.load hl
    have := hbase buf.block
    rw [address, address, Addr.add_block, Addr.add_off, hoff]
    omega

end views

/-! The first element of an array of strings in a record. -/

def tagged : Fields :=
  .cons [105, 100] (.prim .int64) (.cons [116, 97, 103, 115] (.array .string) .nil)

def note : CStr := ⟨[110, 111, 116, 101], by decide⟩

theorem accesses_aligned_tag : ∃ s, Uses s ∧ View s .string ⟨1, 8⟩ ∧
    (∀ b, 16 ∣ 16 * (b + 1)) ∧ 8 ∣ address (fun b => 16 * (b + 1)) ⟨1, 16⟩ := by
  have hbase (b : Nat) : 16 ∣ 16 * (b + 1) := Nat.dvd_mul_right 16 _
  obtain ⟨s, hs, hget, hload⟩ : ∃ s, Uses s ∧ msmGet (some note) s = .ok (some ⟨0, 0⟩, s) ∧
      s.mem.load .ptr ⟨0, 32⟩ = some (some ⟨1, 0⟩) :=
    ⟨_, .op (.arrayPushBack (some ⟨0, 24⟩) 16)
      (.create note (.record tagged) 0 (.start []) rfl) rfl, rfl, rfl⟩
  have htags : View s (.array .string) ⟨0, 24⟩ :=
    (View.root (.record tagged) hget).get
      (rfl : tagged.get [116, 97, 103, 115] _ = some (some ⟨0, 24⟩, .array .string))
  have htag : View s .string ⟨1, 8⟩ := htags.item 0 hload
  exact ⟨s, hs, htag, hbase, ((accesses_aligned hbase).2 s _ _ hs htag).1⟩

end Msm.Seg
