import Msm.Typed.Writes

/-! # A typed heap

Under views that may be old, no slot owns its buffers: the buffer that a reserve
has replaced keeps its items, and they share what they point to with the items of
the new one. What never changes is what a block is for. A heap gives every
published block its content: the root of a type, the buffer of an array, or a
string. Every slot in it then holds a value of its type, whatever is written to
other slots, and the memory keeps to the heap as long as each write leaves the slot
it is made in with a value of its type. -/
namespace Msm.Typed
open Msm.Exec Msm.CMem Msm.Api Msm.Own

/-- What a block is for, from when it is published on. -/
inductive Content where
  | root (T : Ty)
  | items (item : Ty) (cap : UInt32)
  | chars (bs : List UInt8)

/-- The contents of the blocks, and how often an array has grown by an element. -/
structure Heap where
  content : Nat → Option Content
  pushes : Nat

namespace Heap

def add (h : Heap) (b : Nat) (c : Content) : Heap :=
  { h with content := Function.update h.content b (some c) }

def push (h : Heap) : Heap := { h with pushes := h.pushes + 1 }

@[simp] theorem add_pushes (h : Heap) (b : Nat) (c : Content) : (h.add b c).pushes = h.pushes := rfl

@[simp] theorem add_content_self (h : Heap) (b : Nat) (c : Content) :
    (h.add b c).content b = some c := by simp [add]

theorem add_content_of_ne (h : Heap) {b b' : Nat} (c : Content) (hne : b' ≠ b) :
    (h.add b c).content b' = h.content b' := by simp [add, hne]

/-- Contents stay, and there may be more. -/
structure Extends (h h' : Heap) : Prop where
  content : ∀ b c, h.content b = some c → h'.content b = some c
  pushes : h.pushes ≤ h'.pushes

theorem Extends.refl (h : Heap) : h.Extends h := ⟨fun _ _ => id, Nat.le_refl _⟩

theorem Extends.trans {h h' h'' : Heap} (h₁ : h.Extends h') (h₂ : h'.Extends h'') :
    h.Extends h'' :=
  ⟨fun b c hc => h₂.content b c (h₁.content b c hc), Nat.le_trans h₁.pushes h₂.pushes⟩

theorem extends_add {h : Heap} {b : Nat} (c : Content) (hb : h.content b = none) :
    h.Extends (h.add b c) := by
  refine ⟨fun b' c' hc => ?_, Nat.le_refl _⟩
  by_cases he : b' = b
  · subst he
    rw [hb] at hc
    cases hc
  · rw [add_content_of_ne h c he, hc]

theorem extends_push (h : Heap) : h.Extends h.push := ⟨fun _ _ => id, Nat.le_succ _⟩

end Heap

/-- The numbers and the strings that calls have been given. -/
structure Given where
  scalar : Scalar → Prop
  chars : List UInt8 → Prop

structure Given.Le (A A' : Given) : Prop where
  scalar : ∀ v, A.scalar v → A'.scalar v
  chars : ∀ bs, A.chars bs → A'.chars bs

theorem Given.Le.refl (A : Given) : A.Le A := ⟨fun _ => id, fun _ => id⟩

theorem Given.Le.trans {A A' A'' : Given} (h : A.Le A') (h' : A'.Le A'') : A.Le A'' :=
  ⟨fun v hv => h'.scalar v (h.scalar v hv), fun bs hb => h'.chars bs (h.chars bs hb)⟩

/-- A number that a slot may hold: given by a call, or zero. -/
def Given.Number (A : Given) (v : Scalar) : Prop := (∃ k : Prim, v = k.zero) ∨ A.scalar v

theorem Given.Number.mono {A A' : Given} {v : Scalar} (h : A.Number v) (hA : A.Le A') :
    A'.Number v := h.imp id (hA.scalar v)

/-! ## Slots -/

/-- The pointer of the slot is null, or leads to a block with such a content. -/
def PointsTo (h : Heap) (m : Mem) (a : Addr) (P : Content → Prop) : Prop :=
  ∃ c, m.load .ptr (a + 8) = some (basePtr c) ∧ ∀ b, c = some b → ∃ x, h.content b = some x ∧ P x

def Content.IsChars (c : Content) : Prop := ∃ bs, c = .chars bs

def Content.IsItems (item : Ty) (c : Content) : Prop := ∃ cap, c = .items item cap

mutual

/-- The slot of type `t` at `a` holds a value of its type. -/
def SlotOk (A : Given) (h : Heap) (m : Mem) : Ty → Addr → Prop
  | .prim k, a => ∃ x, m.load k.kind (a + k.payload) = some x ∧ A.Number (k.ofVal x)
  | .string, a => PointsTo h m a Content.IsChars
  | .object, _ => True
  | .array item, a => PointsTo h m a (Content.IsItems item)
  | .record fields, a => SlotsOk A h m fields (a + 8)

def SlotsOk (A : Given) (h : Heap) (m : Mem) : Fields → Addr → Prop
  | .nil, _ => True
  | .cons _ type rest, a => SlotOk A h m type a ∧ SlotsOk A h m rest (a + type.size)

end

section slots
variable {A A' : Given} {h h' : Heap} {m m' : Mem} {a a' : Addr} {P : Content → Prop}

theorem PointsTo.mono (hp : PointsTo h m a P) (hh : h.Extends h') : PointsTo h' m a P := by
  obtain ⟨c, hl, hc⟩ := hp
  refine ⟨c, hl, fun b hb => ?_⟩
  obtain ⟨x, hx, hP⟩ := hc b hb
  exact ⟨x, hh.content b x hx, hP⟩

theorem PointsTo.move (hp : PointsTo h m a P) (hv : m.Valid a 16) (hv' : m'.Valid a' 16)
    (hr : m'.read a' 16 = m.read a 16) : PointsTo h m' a' P := by
  obtain ⟨c, hl, hc⟩ := hp
  exact ⟨c, (Mem.load_of_read hv hv' hr (by decide)).trans hl, hc⟩

theorem PointsTo.zero (hv : m.Valid a 16) (hr : m.read a 16 = List.replicate 16 (.byte 0)) :
    PointsTo h m a P := by
  refine ⟨none, ?_, fun b hb => by cases hb⟩
  rw [Mem.load, if_pos (hv.mono (by decide)), ← m.read_part a (k := 16) (by decide), hr]
  rfl

/-- A pointer that is stored leads where it points. -/
theorem PointsTo.store {c : Option Nat} (hv : m.Valid (a + 8) Kind.ptr.size)
    (hc : ∀ b, c = some b → ∃ x, h.content b = some x ∧ P x) :
    PointsTo h (m.write (a + 8) (Kind.ptr.encode (basePtr c))) a P :=
  ⟨c, Mem.load_write_same (k := .ptr) (basePtr c) hv, hc⟩

end slots

mutual

theorem slotOk_mono {A A' : Given} {h h' : Heap} {m : Mem} (hA : A.Le A') (hh : h.Extends h') :
    ∀ (t : Ty) {a : Addr}, SlotOk A h m t a → SlotOk A' h' m t a
  | .prim _, _, ⟨x, hl, hx⟩ => ⟨x, hl, hx.mono hA⟩
  | .string, _, hs => PointsTo.mono hs hh
  | .object, _, _ => trivial
  | .array _, _, hs => PointsTo.mono hs hh
  | .record fields, _, hs => slotsOk_mono hA hh fields hs

theorem slotsOk_mono {A A' : Given} {h h' : Heap} {m : Mem} (hA : A.Le A') (hh : h.Extends h') :
    ∀ (fs : Fields) {a : Addr}, SlotsOk A h m fs a → SlotsOk A' h' m fs a
  | .nil, _, _ => trivial
  | .cons _ type rest, _, hs => ⟨slotOk_mono hA hh type hs.1, slotsOk_mono hA hh rest hs.2⟩

end

mutual

/-- **A slot moves with its bytes.** -/
theorem slotOk_move {A : Given} {h : Heap} {m m' : Mem} : ∀ (t : Ty) {a a' : Addr},
    m.Valid a t.size → m'.Valid a' t.size → m'.read a' t.size = m.read a t.size →
    SlotOk A h m t a → SlotOk A h m' t a'
  | .prim k, a, a', hv, hv', hr, hs => by
    obtain ⟨x, hl, hx⟩ := hs
    have hp := k.payload_add
    exact ⟨x, (Mem.load_of_read hv hv' hr (Nat.le_of_eq hp)).trans hl, hx⟩
  | .string, _, _, hv, hv', hr, hs => PointsTo.move hs hv hv' hr
  | .object, _, _, _, _, _, _ => trivial
  | .array _, _, _, hv, hv', hr, hs => PointsTo.move hs hv hv' hr
  | .record fields, a, a', hv, hv', hr, hs => by
    have hsize : (Ty.record fields).size = 8 + fields.size := rfl
    rw [hsize] at hv hv' hr
    rw [Mem.read_add, Mem.read_add] at hr
    obtain ⟨_, hr'⟩ := List.append_inj hr (by simp only [Mem.length_read])
    exact slotsOk_move fields (hv.mono (Nat.le_refl _)) (hv'.mono (Nat.le_refl _)) hr' hs

theorem slotsOk_move {A : Given} {h : Heap} {m m' : Mem} : ∀ (fs : Fields) {a a' : Addr},
    m.Valid a fs.size → m'.Valid a' fs.size → m'.read a' fs.size = m.read a fs.size →
    SlotsOk A h m fs a → SlotsOk A h m' fs a'
  | .nil, _, _, _, _, _, _ => trivial
  | .cons name type rest, a, a', hv, hv', hr, hs => by
    have hsize : (Fields.cons name type rest).size = type.size + rest.size := rfl
    rw [hsize] at hv hv' hr
    rw [Mem.read_add, Mem.read_add] at hr
    obtain ⟨hr₁, hr₂⟩ := List.append_inj hr (by simp only [Mem.length_read])
    exact ⟨slotOk_move type (hv.le (Nat.le_add_right _ _)) (hv'.le (Nat.le_add_right _ _)) hr₁ hs.1,
      slotsOk_move rest (hv.mono (Nat.le_refl _)) (hv'.mono (Nat.le_refl _)) hr₂ hs.2⟩

end

mutual

theorem slotOk_zero {A : Given} {h : Heap} {m : Mem} : ∀ (t : Ty) {a : Addr}, m.Valid a t.size →
    m.read a t.size = List.replicate t.size (.byte 0) → SlotOk A h m t a
  | .prim k, a, hv, hr => by
    have hp := k.payload_add
    have hsize : (Ty.prim k).size = k.size := rfl
    rw [hsize] at hv hr
    refine ⟨k.kind.zero, ?_, .inl ⟨k, rfl⟩⟩
    rw [Mem.load, if_pos (hv.mono (Nat.le_of_eq hp)), ← m.read_part a (Nat.le_of_eq hp), hr,
      List.drop_replicate, List.take_replicate, Nat.min_eq_left (by omega), Kind.decode_zero]
  | .string, _, hv, hr => PointsTo.zero hv hr
  | .object, _, _, _ => trivial
  | .array _, _, hv, hr => PointsTo.zero hv hr
  | .record fields, a, hv, hr => by
    have hsize : (Ty.record fields).size = 8 + fields.size := rfl
    rw [hsize] at hv hr
    rw [Mem.read_add, List.replicate_add] at hr
    obtain ⟨_, hr'⟩ := List.append_inj hr (by simp only [Mem.length_read, List.length_replicate])
    exact slotsOk_zero fields (hv.mono (Nat.le_refl _)) hr'

theorem slotsOk_zero {A : Given} {h : Heap} {m : Mem} : ∀ (fs : Fields) {a : Addr},
    m.Valid a fs.size → m.read a fs.size = List.replicate fs.size (.byte 0) → SlotsOk A h m fs a
  | .nil, _, _, _ => trivial
  | .cons name type rest, a, hv, hr => by
    have hsize : (Fields.cons name type rest).size = type.size + rest.size := rfl
    rw [hsize] at hv hr
    rw [Mem.read_add, List.replicate_add] at hr
    obtain ⟨hr₁, hr₂⟩ := List.append_inj hr (by simp only [Mem.length_read, List.length_replicate])
    exact ⟨slotOk_zero type (hv.le (Nat.le_add_right _ _)) hr₁,
      slotsOk_zero rest (hv.mono (Nat.le_refl _)) hr₂⟩

end

section fields
variable {A : Given} {h : Heap} {m : Mem} {a x : Addr} {t : Ty} {fs : Fields} {i : Nat}
  {cs : List Cell}

theorem slotsOk_at (ht : fs.typeAt i = some t) (hs : SlotsOk A h m fs a) :
    SlotOk A h m t (a + fs.before i) := by
  induction i generalizing fs a with
  | zero =>
    cases fs with
    | nil => cases ht
    | cons _ type rest =>
      cases ht
      exact hs.1
  | succ i ih =>
    cases fs with
    | nil => cases ht
    | cons _ type rest =>
      have hrest := ih ht hs.2
      rwa [Addr.add_add] at hrest

/-- The bytes `[x, x + n)` are among `[a, a + k)`. -/
structure Inside (x : Addr) (n : Nat) (a : Addr) (k : Nat) : Prop where
  block : x.block = a.block
  lower : a.off ≤ x.off
  upper : x.off + n ≤ a.off + k

theorem Inside.add {n d k : Nat} (hd : d + n ≤ k) : Inside (a + d) n a k :=
  ⟨rfl, Nat.le_add_right _ _, by simp only [Addr.add_off]; omega⟩

theorem Inside.trans {n d k l : Nat} (hx : Inside x n (a + d) k) (hd : d + k ≤ l) :
    Inside x n a l := by
  obtain ⟨hb, h1, h2⟩ := hx
  simp only [Addr.add_off] at h1 h2
  exact ⟨hb, by omega, by omega⟩

/-- A slot beside a write. -/
theorem slotOk_apart (hv : m.Valid a t.size) (hx : Mem.Apart x cs.length a t.size)
    (hs : SlotOk A h m t a) : SlotOk A h (m.write x cs) t a :=
  slotOk_move t hv ((Mem.valid_write ..).mpr hv) (Mem.read_write_apart hx) hs

theorem slotsOk_apart (hv : m.Valid a fs.size) (hx : Mem.Apart x cs.length a fs.size)
    (hs : SlotsOk A h m fs a) : SlotsOk A h (m.write x cs) fs a :=
  slotsOk_move fs hv ((Mem.valid_write ..).mpr hv) (Mem.read_write_apart hx) hs

/-- A write in one field. -/
theorem slotsOk_set (ht : fs.typeAt i = some t) (hv : m.Valid a fs.size)
    (hs : SlotsOk A h m fs a) (hx : Inside x cs.length (a + fs.before i) t.size)
    (hok : SlotOk A h (m.write x cs) t (a + fs.before i)) : SlotsOk A h (m.write x cs) fs a := by
  induction i generalizing fs a with
  | zero =>
    cases fs with
    | nil => cases ht
    | cons name type rest =>
      cases ht
      have hsize : (Fields.cons name t rest).size = t.size + rest.size := rfl
      rw [hsize] at hv
      have hupper : x.off + cs.length ≤ a.off + t.size := hx.upper
      refine ⟨hok, slotsOk_apart (hv.mono (Nat.le_refl _)) (fun _ => .inl ?_) hs.2⟩
      simpa only [Addr.add_off] using hupper
  | succ i ih =>
    cases fs with
    | nil => cases ht
    | cons name type rest =>
      have hsize : (Fields.cons name type rest).size = type.size + rest.size := rfl
      have hbefore : (Fields.cons name type rest).before (i + 1) = type.size + rest.before i := rfl
      rw [hsize] at hv
      rw [hbefore, ← Addr.add_add] at hx hok
      have hlower := hx.lower
      simp only [Addr.add_off] at hlower
      refine ⟨slotOk_apart (hv.le (Nat.le_add_right _ _)) (fun _ => .inr (by omega)) hs.1, ?_⟩
      exact ih ht (hv.mono (Nat.le_refl _)) hs.2 hx hok

end fields

/-! ## The blocks of a heap -/

/-- A buffer of an array: all the slots of its capacity hold values of their type. -/
structure ItemsOk (A : Given) (h : Heap) (m : Mem) (b : Nat) (item : Ty) (cap : UInt32) :
    Prop where
  sound : (Ty.array item).Sound
  valid : m.Valid ⟨b, 0⟩ (8 + cap.toNat * item.size)
  load_cap : m.load .u32 ⟨b, 4⟩ = some cap
  load_size : ∃ n : UInt32, m.load .u32 ⟨b, 0⟩ = some n ∧ n.toNat ≤ cap.toNat ∧
    n.toNat ≤ h.pushes
  item : ∀ i, i < cap.toNat → SlotOk A h m item ⟨b, 8 + i * item.size⟩

def Content.Ok (A : Given) (h : Heap) (m : Mem) (b : Nat) : Content → Prop
  | .root T => T.Sound ∧ T.size < 2 ^ 32 ∧ m.Valid ⟨b, 0⟩ T.size ∧ SlotOk A h m T ⟨b, 0⟩
  | .items item cap => ItemsOk A h m b item cap
  | .chars bs => A.chars bs ∧ 0 ∉ bs ∧ Str.StrAt m b (bs.map .byte)

/-- The memory keeps to the heap. -/
def Store (A : Given) (h : Heap) (m : Mem) : Prop := ∀ b c, h.content b = some c → c.Ok A h m b

section blocks
variable {A A' : Given} {h h' : Heap} {m m' : Mem} {b : Nat} {c : Content} {item : Ty}
  {cap : UInt32}

/-- The items of a buffer end inside it. -/
theorem item_inside {i : Nat} (hi : i < cap.toNat) :
    8 + i * item.size + item.size ≤ 8 + cap.toNat * item.size := by
  have := Nat.mul_le_mul_right item.size (Nat.succ_le_of_lt hi)
  rw [Nat.succ_mul] at this
  omega

theorem ItemsOk.valid_item (hi : ItemsOk A h m b item cap) {i : Nat} (hlt : i < cap.toNat) :
    m.Valid ⟨b, 8 + i * item.size⟩ item.size := by
  have hv := hi.valid.mono (item_inside hlt)
  rwa [Addr.mk_add, Nat.zero_add] at hv

theorem Content.Ok.mono (hc : c.Ok A h m b) (hA : A.Le A') (hh : h.Extends h') :
    c.Ok A' h' m b := by
  cases c with
  | root T =>
    obtain ⟨hsound, hsize, hv, hs⟩ := hc
    exact ⟨hsound, hsize, hv, slotOk_mono hA hh T hs⟩
  | items item cap =>
    obtain ⟨n, hl, hle, hp⟩ := hc.load_size
    exact ⟨hc.sound, hc.valid, hc.load_cap, ⟨n, hl, hle, Nat.le_trans hp hh.pushes⟩,
      fun i hi => slotOk_mono hA hh item (hc.item i hi)⟩
  | chars bs => exact ⟨hA.chars bs hc.1, hc.2⟩

theorem Content.Ok.lt (hc : c.Ok A h m b) : b < m.next := by
  cases c with
  | root T => exact hc.2.2.1.lt
  | items item cap => exact hc.valid.lt
  | chars bs => exact Mem.sizeOf_lt hc.2.2.size

/-- A content depends on the bytes of its block only. -/
theorem Content.Ok.of_block (hc : c.Ok A h m b) (hb : m'.block b = m.block b) :
    c.Ok A h m' b := by
  have hvalid {o n : Nat} (hv : m.Valid ⟨b, o⟩ n) : m'.Valid ⟨b, o⟩ n := by
    obtain ⟨sz, hs, hle⟩ := hv
    exact ⟨sz, (Mem.sizeOf_of_block hb).trans hs, hle⟩
  have hread (o n : Nat) : m'.read ⟨b, o⟩ n = m.read ⟨b, o⟩ n :=
    Mem.read_congr fun o _ _ => Mem.cellAt_of_block hb o
  cases c with
  | root T =>
    obtain ⟨hsound, hsize, hv, hs⟩ := hc
    exact ⟨hsound, hsize, hvalid hv, slotOk_move T hv (hvalid hv) (hread ..) hs⟩
  | items item cap =>
    obtain ⟨n, hl, hn⟩ := hc.load_size
    refine ⟨hc.sound, hvalid hc.valid, (Mem.load_of_block (a := ⟨b, 4⟩) hb).trans hc.load_cap,
      ⟨n, (Mem.load_of_block (a := ⟨b, 0⟩) hb).trans hl, hn⟩, fun i hi => ?_⟩
    have hv := hc.valid_item hi
    exact slotOk_move item hv (hvalid hv) (hread ..) (hc.item i hi)
  | chars bs =>
    exact ⟨hc.1, hc.2.1, hc.2.2.congr (Mem.sizeOf_of_block hb) fun o _ => Mem.cellAt_of_block hb o⟩

theorem Store.mono (hs : Store A h m) (hA : A.Le A') : Store A' h m :=
  fun b c hc => (hs b c hc).mono hA (.refl h)

theorem Store.lt (hs : Store A h m) (hc : h.content b = some c) : b < m.next := (hs b c hc).lt

theorem Store.fresh (hs : Store A h m) (hb : m.next ≤ b) : h.content b = none := by
  cases hc : h.content b with
  | none => rfl
  | some c => exact absurd (hs.lt hc) (Nat.not_lt.mpr hb)

/-- Private work leaves the heap alone. -/
theorem Store.of_blocks (hs : Store A h m)
    (hb : ∀ b c, h.content b = some c → m'.block b = m.block b) : Store A h m' :=
  fun b c hc => (hs b c hc).of_block (hb b c hc)

theorem Store.keeps (hs : Store A h m) (hk : m.Keeps m') : Store A h m' :=
  hs.of_blocks fun b _ hc => hk.block_eq b (hs.lt hc)

/-- A block that is ready gets its content. -/
theorem Store.add (hs : Store A h m) (hb : h.content b = none) (hc : c.Ok A (h.add b c) m b) :
    Store A (h.add b c) m := by
  intro b' c' hc'
  by_cases he : b' = b
  · subst he
    rw [Heap.add_content_self] at hc'
    cases hc'
    exact hc
  · rw [Heap.add_content_of_ne h c he] at hc'
    exact (hs b' c' hc').mono (.refl A) (Heap.extends_add c hb)

/-- A new size of a buffer. -/
theorem Store.setSize {n : UInt32} (hs : Store A h m) (hh : h.Extends h')
    (hcontent : h'.content = h.content) (hc : h.content b = some (.items item cap))
    (hle : n.toNat ≤ cap.toNat) (hpush : n.toNat ≤ h'.pushes) :
    Store A h' (m.write ⟨b, 0⟩ (Kind.u32.encode n)) := by
  intro b' c' hc'
  rw [hcontent] at hc'
  have hok := (hs b' c' hc').mono (.refl A) hh
  by_cases he : b' = b
  · subst he
    rw [hc] at hc'
    cases hc'
    have hv : m.Valid ⟨b', 0⟩ Kind.u32.size := hok.valid.le (by simp only [Kind.size]; omega)
    refine ⟨hok.sound, (Mem.valid_write ..).mpr hok.valid, ?_,
      ⟨n, Mem.load_write_same (k := .u32) n hv, hle, hpush⟩, fun i hi => ?_⟩
    · refine (Mem.load_write_apart fun _ => .inl ?_).trans hok.load_cap
      simp only [Kind.length_encode, Kind.size]
      omega
    · refine slotOk_apart (hok.valid_item hi) (fun _ => .inl ?_) (hok.item i hi)
      simp only [Kind.length_encode, Kind.size]
      omega
  · exact hok.of_block (m.block_write_of_ne _ he)

end blocks

/-! ## Typed addresses -/

/-- There is a slot of type `t` at `a`. -/
inductive At (h : Heap) : Ty → Addr → Prop
  | root {T : Ty} {b : Nat} : h.content b = some (.root T) → At h T ⟨b, 0⟩
  | item {item : Ty} {cap : UInt32} {b i : Nat} : h.content b = some (.items item cap) →
      i < cap.toNat → At h item ⟨b, 8 + i * item.size⟩
  | field {fs : Fields} {t : Ty} {a : Addr} {i : Nat} : At h (.record fs) a →
      fs.typeAt i = some t → At h t (a + (8 + fs.before i))

structure Located (A : Given) (h : Heap) (m : Mem) (t : Ty) (a : Addr) : Prop where
  sound : t.Sound
  small : t.size < 2 ^ 32
  valid : m.Valid a t.size
  ok : SlotOk A h m t a

section addresses
variable {A : Given} {h h' : Heap} {m : Mem} {t : Ty} {a x : Addr} {cs : List Cell}

theorem At.mono (hat : At h t a) (hh : h.Extends h') : At h' t a := by
  induction hat with
  | root hc => exact .root (hh.content _ _ hc)
  | item hc hi => exact .item (hh.content _ _ hc) hi
  | field _ ht ih => exact .field ih ht

theorem sound_typeAt {fs : Fields} {i : Nat} (hs : fs.Sound) (ht : fs.typeAt i = some t) :
    t.Sound := by
  induction i generalizing fs with
  | zero =>
    cases fs with
    | nil => cases ht
    | cons _ _ rest =>
      cases ht
      exact hs.1
  | succ i ih =>
    cases fs with
    | nil => cases ht
    | cons _ _ rest => exact ih hs.2 ht

/-- **A typed address holds a value of its type.** -/
theorem At.located (hat : At h t a) (hs : Store A h m) : Located A h m t a := by
  induction hat with
  | root hc =>
    obtain ⟨hsound, hsize, hv, hok⟩ := hs _ _ hc
    exact ⟨hsound, hsize, hv, hok⟩
  | item hc hi =>
    have hok := hs _ _ hc
    exact ⟨hok.sound.2, hok.sound.1, hok.valid_item hi, hok.item _ hi⟩
  | @field fs t a i _ ht ih =>
    have hle := Fields.size_le ht
    have hsize : (Ty.record fs).size = 8 + fs.size := rfl
    have hsmall := ih.small
    have hvalid := ih.valid
    rw [hsize] at hsmall hvalid
    refine ⟨sound_typeAt ih.sound.2 ht, by omega, hvalid.mono (by omega), ?_⟩
    have hok := slotsOk_at ht ih.ok
    rwa [Addr.add_add] at hok

/-- **A write in a typed slot keeps the heap** when it leaves a value of its type. -/
theorem Store.set (hs : Store A h m) (hat : At h t a) (hx : Inside x cs.length a t.size)
    (hok : SlotOk A h (m.write x cs) t a) : Store A h (m.write x cs) := by
  induction hat with
  | @root T b hc =>
    intro b' c' hc'
    have hok' := hs b' c' hc'
    by_cases he : b' = b
    · subst he
      rw [hc] at hc'
      cases hc'
      exact ⟨hok'.1, hok'.2.1, (Mem.valid_write ..).mpr hok'.2.2.1, hok⟩
    · exact hok'.of_block (m.block_write_of_ne _ (hx.block ▸ he))
  | @item item cap b i hc hi =>
    intro b' c' hc'
    have hok' := hs b' c' hc'
    by_cases he : b' = b
    · subst he
      rw [hc] at hc'
      cases hc'
      have hlower := hx.lower
      have hupper := hx.upper
      have hheader {k : Kind} {o : Nat} (ho : o + k.size ≤ 8) :
          (m.write x cs).load k ⟨b', o⟩ = m.load k ⟨b', o⟩ :=
        Mem.load_write_apart fun _ => .inr (by simp only at hlower ⊢; omega)
      obtain ⟨n, hl, hn⟩ := hok'.load_size
      refine ⟨hok'.sound, (Mem.valid_write ..).mpr hok'.valid,
        (hheader (by decide)).trans hok'.load_cap, ⟨n, (hheader (by decide)).trans hl, hn⟩,
        fun j hj => ?_⟩
      by_cases hij : j = i
      · subst hij
        exact hok
      · refine slotOk_apart (hok'.valid_item hj) (fun _ => ?_) (hok'.item j hj)
        simp only at hlower hupper ⊢
        rcases Nat.lt_or_gt_of_ne hij with hlt | hlt
        · have := Nat.mul_le_mul_right item.size (Nat.succ_le_of_lt hlt)
          rw [Nat.succ_mul] at this
          omega
        · have := Nat.mul_le_mul_right item.size (Nat.succ_le_of_lt hlt)
          rw [Nat.succ_mul] at this
          omega
    · exact hok'.of_block (m.block_write_of_ne _ (hx.block ▸ he))
  | @field fs t a i hrec ht ih =>
    have hle := Fields.size_le ht
    have hsize : (Ty.record fs).size = 8 + fs.size := rfl
    have hloc := hrec.located hs
    have hvalid := hloc.valid
    rw [hsize] at hvalid
    refine ih (hx.trans (by omega)) ?_
    rw [← Addr.add_add] at hx hok
    exact slotsOk_set ht (hvalid.mono (Nat.le_refl _)) hloc.ok hx hok

end addresses
end Msm.Typed
