import Msm.Own.Owners
import Msm.Own.Updates
import Msm.Rec.Elements

/-! # Runs on a typed slot

From a zeroed slot, the program takes views of what is there, sets and clears
strings, pushes to arrays, reserves and clears them and writes fields. Every step
evolves the root, so the root is held after any run and its teardown is exact.

The library casts two byte counts to 32 bits: the offset of a field in `get`, and
the size of an item. `ok` says which counts a run may ask it to cast. -/
namespace Msm.Own
open Msm.Exec Msm.CMem Msm.Api

/-- The views of slots that the program can take now: the root, what `get` and
`operator[]` return, and what `emplace_back(args...)` writes through. -/
inductive View (ok : Nat → Prop) (m : Mem) (T : Ty) (r : Addr) : Ty → Addr → Prop
  | root : View ok m T r T r
  | get {fields : Fields} {a b : Addr} {name : FixedString} {i : Nat} {t : Ty} :
      View ok m T r (.record fields) a → fields.findFieldIndex name 0 = some i →
      ok (fields.fieldOffset i).toNat → fields.get name (some a) = some (some b, t) →
      View ok m T r t b
  | field {fields : Fields} {a : Addr} {i : Nat} {t : Ty} :
      View ok m T r (.record fields) a → fields.typeAt i = some t →
      View ok m T r t (a + (fields.fieldOffset i).toNat)
  | item {item : Ty} {a b : Addr} {i : UInt64} :
      View ok m T r (.array item) a → returned (arrayAt item (some a) i) m = .ok (some b) →
      View ok m T r item b

/-- One operation through a current view. `push_back(v)` and `emplace_back(args...)`
are a push, and then writes through views of the new element. -/
inductive Step (ok : Nat → Prop) (T : Ty) (r : Addr) (m m' : Mem) : Prop
  | assign {a : Addr} {v : Scalar} : View ok m T r (.prim v.prim) a →
      (v.assign (some a)).run m = .ok ((), m') → Step ok T r m m'
  | setString {a : Addr} {str : CharPtr} {len : UInt32} : View ok m T r .string a →
      len.toNat < 2 ^ 32 - 1 → (msmStringSet (some a) str len).run m = .ok ((), m') →
      Step ok T r m m'
  | clearString {a : Addr} : View ok m T r .string a →
      (msmStringClear (some a)).run m = .ok ((), m') → Step ok T r m m'
  | push {item : Ty} {a : Addr} {n : UInt32} {p : Ptr} : View ok m T r (.array item) a →
      ok item.size → returned (msmArraySize (some a)) m = .ok n →
      (n.toNat + 1) * item.itemSize.toNat < 2 ^ 32 →
      (emplaceBack item (some a)).run m = .ok (p, m') → Step ok T r m m'
  | reserve {item : Ty} {a : Addr} {newCap : UInt32} : View ok m T r (.array item) a →
      (msmArrayReserve (some a) newCap item.itemSize).run m = .ok ((), m') → Step ok T r m m'
  | clear {item : Ty} {a : Addr} : View ok m T r (.array item) a →
      (msmArrayClear (some a)).run m = .ok ((), m') → Step ok T r m m'

/-- The states of runs from a zeroed slot of `T` at `r`, allocations succeeding. -/
inductive Reached (ok : Nat → Prop) (T : Ty) (r : Addr) : Mem → Prop
  | start {m : Mem} : m.script = [] → m.Valid r T.slotSize.toNat →
      m.read r T.slotSize.toNat = List.replicate T.slotSize.toNat (.byte 0) → Reached ok T r m
  | step {m m' : Mem} : Reached ok T r m → Step ok T r m m' → Reached ok T r m'

/-! ## Views -/

section views
variable {ok : Nat → Prop} {m m' : Mem} {T t item : Ty} {r a b : Addr} {fs : Fields}

/-- What `operator[]` returns. -/
theorem arrayAt_ensures (h : (Ty.array item).shape.Held m a) (i : UInt64) :
    Ensures (arrayAt item (some a) i) m fun p _ => ∀ x, p = some x →
      ∃ c j, Shape.pointee m a = some c ∧ j < count m c ∧
        x = ⟨c, 8 + j * item.itemSize.toNat⟩ := by
  obtain ⟨n, cap, hb⟩ := Shape.Held.bufferAt h
  simp only [arrayAt, msmArrayGet, arrBufSize, atomicLoadU32, loadU32_bind]
  split
  · intro x hx
    cases hx
  refine .act (Mem.exec_load hb.load) ?_
  cases hp : Shape.pointee m a with
  | none =>
    intro x hx
    cases hx
  | some c =>
    have hbuf := hb.buffer c hp
    refine .act (Mem.exec_load hbuf.load_size) ?_
    split
    · intro x hx
      cases hx
    · rename_i hi
      rw [UInt32.le_iff_toNat_le, Nat.not_le, ← hbuf.count_eq] at hi
      intro x hx
      cases hx
      exact ⟨c, _, rfl, hi, rfl⟩

/-- A field of a slot that is held: its changes are changes of the record. -/
theorem field_evolves {i : Nat} (ht : fs.typeAt i = some t) (hsize : (Ty.record fs).size < 2 ^ 64)
    (h : (Ty.record fs).shape.Held m a) : t.size < 2 ^ 64 ∧
      t.shape.Held m (a + (fs.fieldOffset i).toNat) ∧
      ∀ m', t.shape.Evolves (a + (fs.fieldOffset i).toNat) m m' →
        (Ty.record fs).shape.Evolves a m m' := by
  have hle := Fields.size_le ht
  have hrec : (Ty.record fs).size = 8 + fs.size := rfl
  rw [Fields.fieldOffset_exact hsize]
  exact ⟨by omega, Ty.shape_field ht h⟩

/-- **The changes of a slot in view are changes of the root.** -/
theorem View.evolves (hv : View ok m T r t a) (hok : ∀ n, ok n → n < 2 ^ 32)
    (hsize : T.size < 2 ^ 64) (h : T.shape.Held m r) : t.size < 2 ^ 64 ∧ t.shape.Held m a ∧
      ∀ m', t.shape.Evolves a m m' → T.shape.Evolves r m m' := by
  induction hv with
  | root => exact ⟨hsize, h, fun _ he => he⟩
  | @get fs a b name i t _ hfind hoff hget ih =>
    obtain ⟨hs, hh, hlift⟩ := ih
    rw [Fields.get, hfind, Option.bind_some] at hget
    obtain ⟨t', ht, he⟩ := Option.map_eq_some_iff.mp hget
    have hlt := hok _ hoff
    rw [msmRecordGetField, if_neg (Option.some_ne_none a), UInt64.toNat_toUInt32,
      Nat.mod_eq_of_lt hlt, Ptr.some_add] at he
    cases he
    obtain ⟨hts, hth, htlift⟩ := field_evolves ht hs hh
    exact ⟨hts, hth, fun m' he => hlift m' (htlift m' he)⟩
  | field _ ht ih =>
    obtain ⟨hs, hh, hlift⟩ := ih
    obtain ⟨hts, hth, htlift⟩ := field_evolves ht hs hh
    exact ⟨hts, hth, fun m' he => hlift m' (htlift m' he)⟩
  | @item item a b i _ hat ih =>
    obtain ⟨_, hh, hlift⟩ := ih
    obtain ⟨_, hplace⟩ := (arrayAt_ensures hh i).returned hat
    obtain ⟨c, j, hp, hj, rfl⟩ := hplace b rfl
    obtain ⟨hlt, hstride⟩ := item_stride hh hp hj
    obtain ⟨hth, htlift⟩ := Ty.shape_item hh hp hj
    rw [hstride]
    exact ⟨by omega, hth, fun m' he => hlift m' (htlift m' he)⟩

end views

/-! ## Steps and runs -/

section runs
variable {ok : Nat → Prop} {m m' : Mem} {T : Ty} {r : Addr}

theorem eight_le_size (t : Ty) : 8 ≤ t.size := by
  cases t with
  | prim p => cases p <;> decide
  | record fields => exact Nat.le_add_right 8 _
  | _ => exact Nat.le_add_right 8 8

theorem msmArraySize_ensures {a : Addr} {w : Nat} {c : Option Nat} {n cap : UInt32}
    (hb : BufferAt m a w c n cap) : Ensures (msmArraySize (some a)) m fun k _ => k = n := by
  unfold msmArraySize
  refine .act (Mem.exec_load hb.load) (hb.loadSize (o := .acquire) (k := .ret) ?_)
  exact rfl

theorem Step.evolves (hs : Step ok T r m m') (hok : ∀ n, ok n → n < 2 ^ 32)
    (hsize : T.size < 2 ^ 64) (h : T.shape.Held m r) (hscript : m.script = []) :
    T.shape.Evolves r m m' := by
  have hm : m.mallocOk = true := by rw [Mem.mallocOk, hscript]; rfl
  cases hs with
  | assign hv hr =>
    obtain ⟨_, hh, hlift⟩ := hv.evolves hok hsize h
    exact hlift m' (assign_evolves hh hr)
  | setString hv _ hr =>
    obtain ⟨_, hh, hlift⟩ := hv.evolves hok hsize h
    exact hlift m' (setString_evolves hh hm hr)
  | clearString hv hr =>
    obtain ⟨_, hh, hlift⟩ := hv.evolves hok hsize h
    exact hlift m' (clearString_evolves hh hr)
  | @push item a n p hv hitem hn hsmall hr =>
    obtain ⟨_, hh, hlift⟩ := hv.evolves hok hsize h
    obtain ⟨k, cap, hb⟩ := Shape.Held.bufferAt hh
    have hlt := hok _ hitem
    have hw := item.toNat_itemSize
    rw [item.size_shape, Nat.mod_eq_of_lt hlt, ← item.size_shape] at hw
    have h8 := eight_le_size item
    rw [← item.size_shape] at h8
    obtain ⟨_, rfl⟩ := (msmArraySize_ensures hb).returned hn
    rw [hw] at hsmall
    exact hlift m' (push_evolves hh hb hw h8 hsmall hm hr)
  | @reserve item a newCap hv hr =>
    obtain ⟨_, hh, hlift⟩ := hv.evolves hok hsize h
    exact hlift m' (reserve_evolves hh item.toNat_itemSize hm hr)
  | clear hv hr =>
    obtain ⟨_, hh, hlift⟩ := hv.evolves hok hsize h
    exact hlift m' (clear_evolves hh hr)

theorem Step.script_nil (hs : Step ok T r m m') (h : m.script = []) : m'.script = [] := by
  have hrun {α : Type} {p : CProg α} {x : α} (hr : p.run m = .ok (x, m')) : m'.script = [] :=
    Prog.run_keep (P := fun m : Mem => m.script = []) (fun _ _ _ _ h he => Mem.exec_script_nil h he)
      h hr
  cases hs with
  | assign _ hr => exact hrun hr
  | setString _ _ hr => exact hrun hr
  | clearString _ hr => exact hrun hr
  | push _ _ _ _ hr => exact hrun hr
  | reserve _ hr => exact hrun hr
  | clear _ hr => exact hrun hr

/-- The root is held after any run. -/
theorem Reached.held (h : Reached ok T r m) (hok : ∀ n, ok n → n < 2 ^ 32)
    (hsize : T.size < 2 ^ 64) : m.script = [] ∧ T.shape.Held m r := by
  induction h with
  | start hscript hv hz =>
    rw [Ty.toNat_slotSize hsize, ← T.size_shape] at hv hz
    exact ⟨hscript, (Shape.held_zero hv hz).1⟩
  | step _ hs ih =>
    obtain ⟨hscript, hh⟩ := ih
    exact ⟨hs.script_nil hscript, (hs.evolves hok hsize hh hscript).held⟩

end runs

/-- **Teardown frees exactly what the slot owns**, after any run that asks `get` for
no field at 4 GiB or beyond and pushes no item of 4 GiB or more. -/
theorem teardown_exact {T : Ty} {r : Addr} {m : Mem} (hwo : T.WithoutObject)
    (hsize : T.size < 2 ^ 64) (h : Reached (· < 2 ^ 32) T r m) : TeardownExact T r m := by
  obtain ⟨_, hheld⟩ := h.held (fun _ hn => hn) hsize
  exact teardownExact_of_held hwo hsize hheld

/-- An array of strings. -/
def names : Ty := .array .string

theorem teardown_exact_names : ∃ m, Owner m names ⟨0, 0⟩ ⟨1, 8⟩ 2 ∧
    TeardownExact names ⟨0, 0⟩ m := by
  have h₀ : Reached (· < 2 ^ 32) names ⟨0, 0⟩ zeroedSlot :=
    .start rfl (by decide) rfl
  have h₁ := h₀.step (.push .root (by decide) rfl (by decide) rfl)
  have h₂ := h₁.step (.setString (.item (i := 0) .root rfl) (by decide)
    (show (msmStringSet (some ⟨1, 8⟩) (.own [97]) 1).run _ = .ok ((), _) from rfl))
  exact ⟨_, .item (i := 0) rfl rfl (by decide) (.string rfl), teardown_exact trivial (by decide) h₂⟩

/-! ## A field at 4 GiB -/

def sName : FixedString := [115]

/-- The third field stands at 12 GiB + 16; `get` looks for it at 16, in the
pointer of the string. -/
def wideFields : Fields :=
  .cons sName .string (.cons Rec.xName (.record (Rec.nest 28))
    (.cons Rec.yName (.prim .int32) .nil))

def wideMem : Mem := ⟨[some ⟨12884901912, fun _ => .byte 0⟩], []⟩

theorem size_wide : (Ty.record wideFields).size = 12884901912 := by
  have hs := Rec.size_nest 28
  have hw : (Ty.record wideFields).size =
      8 + (16 + ((Ty.record (Rec.nest 28)).size + (8 + 0))) := rfl
  omega

theorem wide_withoutObject : (Ty.record wideFields).WithoutObject := by
  have hnest (n : Nat) : (Ty.record (Rec.nest n)).WithoutObject := by
    induction n with
    | zero => exact ⟨trivial, trivial, trivial⟩
    | succ n ih => exact ⟨ih, ih, trivial⟩
  exact ⟨trivial, hnest 28, trivial, trivial⟩

theorem wide_unique : (Ty.record wideFields).Unique :=
  ⟨rfl, trivial, Rec.nest_unique 28, trivial, trivial⟩

theorem get_wide : wideFields.get Rec.yName (some ⟨0, 0⟩) = some (some ⟨0, 16⟩, .prim .int32) := by
  have hoff : wideFields.fieldOffset 2 = 12884901904 := by
    have hs := Rec.size_nest 28
    have hb : 8 + wideFields.before 2 = 8 + (16 + ((Ty.record (Rec.nest 28)).size + 0)) := rfl
    have he : 8 + wideFields.before 2 = 12884901904 := by omega
    rw [Fields.fieldOffset_eq, he]
    rfl
  have hget : wideFields.get Rec.yName (some ⟨0, 0⟩) =
      some (msmRecordGetField (some ⟨0, 0⟩) (wideFields.fieldOffset 2).toUInt32,
        .prim .int32) := rfl
  rw [hget, hoff]
  rfl

/-- A field write through a `get` that truncates lands in the string slot, and
teardown frees a pointer that no allocation has returned. -/
theorem teardown_of_wide : ¬ ∀ (T : Ty) (r : Addr) (m : Mem), T.WithoutObject → T.Unique →
    T.size < 2 ^ 64 → Reached (fun _ => True) T r m → TeardownExact T r m := by
  intro h
  have h₀ : Reached (fun _ => True) (.record wideFields) ⟨0, 0⟩ wideMem := by
    have hslot : (Ty.record wideFields).slotSize.toNat = 12884901912 := by
      rw [Ty.toNat_slotSize (by rw [size_wide]; decide), size_wide]
    refine .start rfl ?_ ?_
    · rw [hslot]
      decide
    · rw [hslot]
      refine List.eq_replicate_iff.mpr ⟨wideMem.length_read _ _, fun c hc => ?_⟩
      obtain ⟨i, _, rfl⟩ := List.mem_map.mp hc
      rfl
  have h₁ : Reached (fun _ => True) (.record wideFields) ⟨0, 0⟩
      (wideMem.write ⟨0, 20⟩ (Kind.u32.encode 1)) :=
    h₀.step (.assign (a := ⟨0, 16⟩) (v := .int32 1) (.get .root (i := 2) rfl trivial get_wide) rfl)
  have hexact := h _ _ _ wide_withoutObject wide_unique (by rw [size_wide]; decide) h₁
  obtain ⟨bs, m', hends, _⟩ := hexact.frees
  have hfault : ((Ty.record wideFields).deallocate (some ⟨0, 0⟩)).run
      (wideMem.write ⟨0, 20⟩ (Kind.u32.encode 1)) = .error .indeterminate := rfl
  have hrun := hends.run
  rw [hfault] at hrun
  cases hrun

end Msm.Own
