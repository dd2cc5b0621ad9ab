import Msm.Own.Teardown

/-! # Who owns a buffer, and what teardown has to do

Slots are reached from the root as the code reaches them: a field at its
`field_offset`, an element below the size at its stride. On a slot that is held,
the owners are those its shape lists, and teardown is exact. -/
namespace Msm.Own
open Msm.Exec Msm.CMem Msm.Api

/-- The slot at `x`, which is the one at `a` or is reached from it, owns the buffer `c`. -/
inductive Owner (m : Mem) : Ty → Addr → Addr → Nat → Prop
  | string {a : Addr} {b : Nat} :
      m.load .ptr (a + 8) = some (some ⟨b, 0⟩) → Owner m .string a a b
  | array {item : Ty} {a : Addr} {b : Nat} :
      m.load .ptr (a + 8) = some (some ⟨b, 0⟩) → Owner m (.array item) a a b
  | item {item : Ty} {a x : Addr} {b c i : Nat} {n : UInt32} :
      m.load .ptr (a + 8) = some (some ⟨b, 0⟩) → m.load .u32 ⟨b, 0⟩ = some n → i < n.toNat →
      Owner m item ⟨b, 8 + i * item.itemSize.toNat⟩ x c → Owner m (.array item) a x c
  | field {fields : Fields} {t : Ty} {a x : Addr} {c i : Nat} :
      fields.typeAt i = some t → Owner m t (a + (fields.fieldOffset i).toNat) x c →
      Owner m (.record fields) a x c

/-- The slot at `x` is the one at `a` or one directly inside it, through records only. -/
inductive Inside : Ty → Addr → Ty → Addr → Prop
  | root {t : Ty} {a : Addr} : Inside t a t a
  | field {fields : Fields} {t u : Ty} {a x : Addr} {i : Nat} :
      fields.typeAt i = some t → Inside t (a + (fields.fieldOffset i).toNat) u x →
      Inside (.record fields) a u x

/-- No two slots reached from the root own one buffer; `deallocate` frees every
buffer that one owns once, and nothing else; then the strings and arrays directly
inside the root are empty, and a second `deallocate` frees nothing. -/
structure TeardownExact (T : Ty) (r : Addr) (m : Mem) : Prop where
  unique : ∀ x y c, Owner m T r x c → Owner m T r y c → x = y
  frees : ∃ bs m', Ends (T.deallocate (some r)) m bs m' ∧ bs.Nodup ∧
    (∀ c, c ∈ bs ↔ ∃ x, Owner m T r x c) ∧
    (∀ x, Inside T r .string x → returned (msmStringGet (some x)) m' = .ok (.own []) ∧
      returned (msmStringLength (some x)) m' = .ok 0) ∧
    (∀ item x, Inside T r (.array item) x → returned (msmArraySize (some x)) m' = .ok 0 ∧
      returned (msmArrayCapacity (some x)) m' = .ok 0) ∧
    ∃ m'', Ends (T.deallocate (some r)) m' [] m''

/-! ## The owners are those the shape lists -/

section owners
variable {m : Mem} {a x : Addr} {b c i : Nat} {fs : Fields} {t item : Ty}

/-- An element below the size lies where the code looks for it. -/
theorem item_stride (h : (Ty.array item).shape.Held m a) (hp : Shape.pointee m a = some b)
    (hi : i < count m b) : item.size < 2 ^ 32 ∧ item.itemSize.toNat = item.size := by
  obtain ⟨n, cap, hbuf⟩ := (Shape.Held.body h hp).1.ok.1
  rw [hbuf.count_eq] at hi
  have hw := hbuf.stride (Nat.zero_lt_of_lt hi)
  have hsize := item.toNat_itemSize
  rw [hw, item.size_shape] at hsize
  exact ⟨hsize ▸ item.itemSize.toNat_lt, hsize⟩

/-- What a record owns, field by field. -/
theorem Fields.mem_owned : ∀ (fs : Fields) (a : Addr), (x, c) ∈ fs.shape.owned m a ↔
    ∃ i t, fs.typeAt i = some t ∧ (x, c) ∈ t.shape.owned m (a + fs.before i)
  | .nil, _ => ⟨nofun, fun ⟨i, t, ht, _⟩ => by cases i <;> cases ht⟩
  | .cons name type rest, a => by
    show (x, c) ∈ type.shape.owned m a ++ rest.shape.owned m (a + type.shape.size) ↔ _
    rw [List.mem_append, Fields.mem_owned rest]
    constructor
    · rintro (h | ⟨i, t, ht, h⟩)
      · exact ⟨0, type, rfl, h⟩
      · refine ⟨i + 1, t, ht, ?_⟩
        rwa [type.size_shape, Addr.add_add] at h
    · rintro ⟨i, t, ht, h⟩
      cases i with
      | zero =>
        cases ht
        exact .inl h
      | succ i =>
        refine .inr ⟨i, t, ht, ?_⟩
        rwa [type.size_shape, Addr.add_add]

theorem mem_owned_record (hsize : (Ty.record fs).size < 2 ^ 64) :
    (x, c) ∈ (Ty.record fs).shape.owned m a ↔ ∃ i t, fs.typeAt i = some t ∧
      (x, c) ∈ t.shape.owned m (a + (fs.fieldOffset i).toNat) := by
  have h := Fields.mem_owned (m := m) (x := x) (c := c) fs (a + 8)
  simp only [Addr.add_add, ← Fields.fieldOffset_exact hsize] at h
  exact h

theorem mem_owned_array (h : (Ty.array item).shape.Held m a) :
    (x, c) ∈ (Ty.array item).shape.owned m a ↔ ∃ b, Shape.pointee m a = some b ∧
      ((x, c) = (a, b) ∨ ∃ i < count m b,
        (x, c) ∈ item.shape.owned m ⟨b, 8 + i * item.itemSize.toNat⟩) := by
  refine Shape.mem_owned_box.trans (exists_congr fun b => and_congr_right fun hp => ?_)
  refine or_congr_right (Shape.mem_owned_rep.trans ?_)
  refine exists_congr fun i => and_congr_right fun hi => ?_
  rw [(item_stride h hp hi).2, item.size_shape]
  rfl

mutual

theorem owner_of_mem : ∀ (t : Ty) (a : Addr), t.size < 2 ^ 64 → t.shape.Held m a →
    (x, c) ∈ t.shape.owned m a → Owner m t a x c
  | .prim _, _, _, _, hx => nomatch hx
  | .object, _, _, _, hx => nomatch hx
  | .string, a, _, h, hx => by
    obtain ⟨b, hp, hx⟩ := Shape.mem_owned_box.mp hx
    rcases hx with he | hx
    · cases he
      exact .string (Shape.Held.load_ptr h hp)
    · cases hx
  | .array item, a, _, h, hx => by
    obtain ⟨b, hp, hx⟩ := (mem_owned_array h).mp hx
    have hl := Shape.Held.load_ptr h hp
    rcases hx with he | ⟨i, hi, hx⟩
    · cases he
      exact .array hl
    · obtain ⟨hsize, hstride⟩ := item_stride h hp hi
      obtain ⟨n, cap, hbuf⟩ := (Shape.Held.body h hp).1.ok.1
      have hitem := (Ty.shape_item h hp hi).1
      rw [← hstride] at hitem
      rw [hbuf.count_eq] at hi
      exact .item hl hbuf.load_size hi (owner_of_mem item _ (by omega) hitem hx)
  | .record fs, a, hsize, h, hx => by
    obtain ⟨_, hfs, _⟩ := Shape.held_seq.mp h
    have hsize' : fs.size < 2 ^ 64 := Nat.lt_of_le_of_lt (Nat.le_add_left _ 8) hsize
    obtain ⟨i, t, ht, ho⟩ := field_owner_of_mem fs (a + 8) hsize' hfs hx
    rw [Addr.add_add, ← Fields.fieldOffset_exact hsize] at ho
    exact .field ht ho

theorem field_owner_of_mem : ∀ (fs : Fields) (a : Addr), fs.size < 2 ^ 64 → fs.shape.Held m a →
    (x, c) ∈ fs.shape.owned m a →
    ∃ i t, fs.typeAt i = some t ∧ Owner m t (a + fs.before i) x c
  | .nil, _, _, _, hx => nomatch hx
  | .cons name type rest, a, hsize, h, hx => by
    obtain ⟨htype, hrest, _⟩ := Shape.held_seq.mp h
    rw [Fields.size] at hsize
    rcases List.mem_append.mp hx with hx | hx
    · exact ⟨0, type, rfl, owner_of_mem type a (by omega) htype hx⟩
    · obtain ⟨i, t, ht, ho⟩ := field_owner_of_mem rest _ (by omega) hrest hx
      rw [Addr.add_add, type.size_shape] at ho
      exact ⟨i + 1, t, ht, ho⟩

end

theorem mem_of_owner (ho : Owner m t a x c) (hsize : t.size < 2 ^ 64) (h : t.shape.Held m a) :
    (x, c) ∈ t.shape.owned m a := by
  induction ho with
  | string hl => exact Shape.mem_owned_box.mpr ⟨_, Shape.pointee_of_load (c := some _) hl, .inl rfl⟩
  | array hl => exact Shape.mem_owned_box.mpr ⟨_, Shape.pointee_of_load (c := some _) hl, .inl rfl⟩
  | @item item a x b c i n hl hn hi _ ih =>
    have hp : Shape.pointee m a = some b := Shape.pointee_of_load (c := some b) hl
    have hcount : count m b = n.toNat := by rw [count, hn]; rfl
    have hi' : i < count m b := hcount ▸ hi
    obtain ⟨hlt, hstride⟩ := item_stride h hp hi'
    have hitem := (Ty.shape_item h hp hi').1
    rw [← hstride] at hitem
    exact (mem_owned_array h).mpr ⟨b, hp, .inr ⟨i, hi', ih (by omega) hitem⟩⟩
  | @field fs t a x c i ht _ ih =>
    have hoff := Fields.fieldOffset_exact hsize i
    have hle := Fields.size_le ht
    have hrec : (Ty.record fs).size = 8 + fs.size := rfl
    refine (mem_owned_record hsize).mpr ⟨i, t, ht, ih (by omega) ?_⟩
    rw [hoff]
    exact (Ty.shape_field ht h).1

theorem owner_iff (hsize : t.size < 2 ^ 64) (h : t.shape.Held m a) :
    Owner m t a x c ↔ (x, c) ∈ t.shape.owned m a :=
  ⟨fun ho => mem_of_owner ho hsize h, owner_of_mem t a hsize h⟩

/-! ## Slots directly inside -/

/-- A slot directly inside is held, and what it owns the whole owns. -/
theorem Inside.held {u : Ty} (hin : Inside t a u x) (hsize : t.size < 2 ^ 64)
    (h : t.shape.Held m a) : u.shape.Held m x ∧
      ∀ y ∈ u.shape.owned m x, y ∈ t.shape.owned m a := by
  induction hin with
  | root => exact ⟨h, fun _ hy => hy⟩
  | @field fs t u a x i ht _ ih =>
    have hoff := Fields.fieldOffset_exact hsize i
    have hle := Fields.size_le ht
    have hrec : (Ty.record fs).size = 8 + fs.size := rfl
    have hfield := (Ty.shape_field ht h).1
    rw [← hoff] at hfield
    obtain ⟨hu, howned⟩ := ih (by omega) hfield
    exact ⟨hu, fun y hy => (mem_owned_record hsize).mpr ⟨i, t, ht, howned y hy⟩⟩

/-- A slot that owns nothing has the null pointer. -/
theorem load_null {B : Body} (h : (Shape.box B).Held m x)
    (he : ∀ y ∈ (Shape.box B).owned m x, False) : m.load .ptr (x + 8) = some none := by
  have hl := h.ok.1
  cases hp : Shape.pointee m x with
  | none => rwa [hp] at hl
  | some b => exact (he (x, b) (Shape.mem_owned_box.mpr ⟨b, hp, .inl rfl⟩)).elim

end owners

/-- A program that reads the null pointer of a slot and returns. -/
theorem returned_null {α : Type} {m : Mem} {a : Addr} {o : Order} {k : Ptr → CProg α} {v : α}
    (h : m.load .ptr (a + 8) = some none) (hk : k none = .ret v) :
    returned (Prog.act (M := cmachine) (.load o .ptr (some (a + 8))) k) m = .ok v := by
  simp only [returned, Prog.run, Mem.exec_load h, hk]
  rfl

/-- **On a slot that is held, teardown is exact.** -/
theorem teardownExact_of_held {T : Ty} {r : Addr} {m : Mem} (hwo : T.WithoutObject)
    (hsize : T.size < 2 ^ 64) (h : T.shape.Held m r) : TeardownExact T r m := by
  obtain ⟨m', hrun, he⟩ := T.releases hwo hsize r m h
  obtain ⟨m'', hrun', _⟩ := T.releases hwo hsize r m' he.held
  rw [he.empty] at hrun'
  have hnone : T.shape.owned m' r = [] := List.map_eq_nil_iff.mp he.empty
  have hnull {B : Body} {u : Ty} {x : Addr} (hu : u.shape = .box B) (hin : Inside T r u x) :
      m'.load .ptr (x + 8) = some none := by
    obtain ⟨hheld, hsub⟩ := hin.held hsize he.held
    rw [hu] at hheld hsub
    refine load_null hheld fun y hy => ?_
    have hmem := hsub y hy
    rw [hnone] at hmem
    cases hmem
  refine ⟨fun x y c hx hy => ?_, T.shape.blocks m r, m', hrun, h.nodup, fun c => ?_,
    fun x hin => ?_, fun item x hin => ?_, m'', hrun'⟩
  · have hinj := List.inj_on_of_nodup_map h.nodup
      (mem_of_owner hx hsize h) (mem_of_owner hy hsize h) rfl
    exact congrArg Prod.fst hinj
  · rw [Shape.blocks, List.mem_map]
    constructor
    · intro hc
      obtain ⟨⟨x, d⟩, hy, rfl⟩ := hc
      exact ⟨x, (owner_iff hsize h).mpr hy⟩
    · intro ho
      obtain ⟨x, ho⟩ := ho
      exact ⟨(x, c), mem_of_owner ho hsize h, rfl⟩
  · exact ⟨returned_null (hnull rfl hin) rfl, returned_null (hnull rfl hin) rfl⟩
  · exact ⟨returned_null (hnull rfl hin) rfl, returned_null (hnull rfl hin) rfl⟩

end Msm.Own
