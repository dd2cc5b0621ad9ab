import Mathlib.Logic.Function.Basic
import Msm.CMem.Machine

/-! # A slot and the blocks it has published

One writer publishes heap blocks through a pointer field at `slot + 8`. A
reader that has loaded the pointer may look at a block for ever after, so the
ghost heap keeps every block ever published with what it holds. A layout says
what a block of the ghost heap looks like in memory and which of its bytes a
reader can reach; it depends on those bytes only.

`Repr` relates memory and ghost heap. It survives every write that avoids the
reachable bytes (`Repr.write`) and every allocation (`Repr.alloc`): the private
work of a copy on write. The commit points are `Repr.point`, `Repr.update`. -/
namespace Msm.CMem
open Msm.Exec

structure Layout where
  Node : Type
  At : Mem → Nat → Node → Prop
  reach : Node → Nat → Prop
  alloc : ∀ {m b n}, At m b n → ∃ sz, m.sizeOf b = some sz
  congr : ∀ {m m' : Mem} {b n}, At m b n → m'.sizeOf b = m.sizeOf b →
    (∀ o, reach n o → m'.cellAt b o = m.cellAt b o) → At m' b n

/-- `m'` has every block of `m`, unchanged. -/
structure Mem.Keeps (m m' : Mem) : Prop where
  next_le : m.next ≤ m'.next
  block_eq : ∀ b, b < m.next → m'.block b = m.block b

namespace Mem.Keeps
variable {m m' m'' : Mem}

theorem refl (m : Mem) : m.Keeps m := ⟨Nat.le_refl _, fun _ _ => rfl⟩

theorem trans (h : m.Keeps m') (h' : m'.Keeps m'') : m.Keeps m'' :=
  ⟨Nat.le_trans h.next_le h'.next_le, fun b hb =>
    (h'.block_eq b (Nat.lt_of_lt_of_le hb h.next_le)).trans (h.block_eq b hb)⟩

theorem sizeOf_eq (h : m.Keeps m') {b : Nat} (hb : b < m.next) : m'.sizeOf b = m.sizeOf b := by
  simp only [Mem.sizeOf, h.block_eq b hb]

theorem cellAt_eq (h : m.Keeps m') {b : Nat} (hb : b < m.next) (o : Nat) :
    m'.cellAt b o = m.cellAt b o := by simp only [Mem.cellAt, h.block_eq b hb]

theorem load_eq (h : m.Keeps m') {k : Kind} {a : Addr} (ha : a.block < m.next) :
    m'.load k a = m.load k a :=
  load_congr (h.sizeOf_eq ha) fun o _ _ => h.cellAt_eq ha o

theorem load_some (h : m.Keeps m') {k : Kind} {a : Addr} {v : k.Val} (hl : m.load k a = some v) :
    m'.load k a = some v := (h.load_eq (load_valid hl).lt).trans hl

theorem valid (h : m.Keeps m') {a : Addr} {n : Nat} (hv : m.Valid a n) : m'.Valid a n := by
  obtain ⟨sz, hs, hle⟩ := hv
  exact ⟨sz, (h.sizeOf_eq (sizeOf_lt hs)).trans hs, hle⟩

theorem tick (h : m.Keeps m') : m.Keeps m'.tick := ⟨h.next_le, h.block_eq⟩

theorem alloc (h : m.Keeps m') (n : Nat) : m.Keeps (m'.alloc n) := by
  refine ⟨by rw [alloc_next]; have := h.next_le; omega, fun b hb => ?_⟩
  rw [block_alloc_of_ne _ _ (by have := h.next_le; omega), h.block_eq b hb]

theorem write (h : m.Keeps m') {a : Addr} {cs : List Cell} (ha : m.next ≤ a.block) :
    m.Keeps (m'.write a cs) := by
  refine ⟨by rw [write_next]; exact h.next_le, fun b hb => ?_⟩
  rw [block_write, if_neg (by omega), h.block_eq b hb]

end Mem.Keeps

/-- The action works on blocks from `N` on only, or allocates one. -/
def Act.Fresh (N : Nat) : Act → Prop
  | .store _ _ p _ => ∃ a, p = some a ∧ N ≤ a.block
  | .copyIn p _ => ∃ a, p = some a ∧ N ≤ a.block
  | .memcpy dst _ _ => ∃ a, dst = some a ∧ N ≤ a.block
  | .zero p _ => ∃ a, p = some a ∧ N ≤ a.block
  | .malloc _ => True
  | .load .. => True
  | .copyOut .. => True
  | .free _ => False
  | .abort .. => False

theorem Act.Fresh.block_eq {N : Nat} {a : Act} {m m' : Mem} {r : a.Res} (ha : a.Fresh N)
    (hN : N ≤ m.next) (he : m.exec a = .ok (r, m')) {b : Nat} (hb : b < N) :
    m'.block b = m.block b := by
  have hw (x : Addr) (n : Nat) (hr : a.range = some (x, n)) (hx : N ≤ x.block) :
      m'.block b = m.block b := by
    obtain ⟨cs, _, _, rfl⟩ := Mem.exec_write hr he
    rw [Mem.block_write, if_neg (by omega)]
  cases a with
  | load o k p => rw [Act.IsRead.state_eq (a := .load o k p) trivial he]
  | copyOut p n => rw [Act.IsRead.state_eq (a := .copyOut p n) trivial he]
  | store o k p v => obtain ⟨x, rfl, hx⟩ := ha; exact hw x _ rfl hx
  | copyIn p cs => obtain ⟨x, rfl, hx⟩ := ha; exact hw x _ rfl hx
  | memcpy dst src n => obtain ⟨x, rfl, hx⟩ := ha; exact hw x _ rfl hx
  | zero p n => obtain ⟨x, rfl, hx⟩ := ha; exact hw x _ rfl hx
  | malloc n =>
    cases hm : m.mallocOk with
    | true =>
      rw [Mem.exec_malloc_ok hm] at he
      cases he
      exact m.tick.block_alloc_of_ne n (by rw [Mem.tick_next]; omega)
    | false =>
      rw [Mem.exec_malloc_fail hm] at he
      cases he
      rfl
  | free p => exact ha.elim
  | abort f x => exact ha.elim

/-- Work on fresh blocks is a move that leaves the ghost state alone. -/
def FreshOk {Γ : Type} (T : Γ → Mem → Act → Mem → Γ → Prop) (g : Γ) (N : Nat) : Prop :=
  ∀ m a m' r, N ≤ m.next → a.Fresh N → m.exec a = .ok (r, m') → T g m a m' g

theorem FreshOk.mono {Γ : Type} {T : Γ → Mem → Act → Mem → Γ → Prop} {g : Γ} {N N' : Nat}
    (hT : FreshOk T g N) (h : N ≤ N') : FreshOk T g N' := by
  intro m a m' r hm ha he
  refine hT m a m' r (Nat.le_trans h hm) ?_ he
  cases a with
  | store o k p v => obtain ⟨x, hx, hle⟩ := ha; exact ⟨x, hx, Nat.le_trans h hle⟩
  | copyIn p cs => obtain ⟨x, hx, hle⟩ := ha; exact ⟨x, hx, Nat.le_trans h hle⟩
  | memcpy dst src n => obtain ⟨x, hx, hle⟩ := ha; exact ⟨x, hx, Nat.le_trans h hle⟩
  | zero p n => obtain ⟨x, hx, hle⟩ := ha; exact ⟨x, hx, Nat.le_trans h hle⟩
  | free p => exact ha.elim
  | abort f x => exact ha.elim
  | _ => trivial

theorem FreshOk.act {Γ : Type} {T : Γ → Mem → Act → Mem → Γ → Prop} {g : Γ} {N : Nat}
    (hT : FreshOk T g N) {α : Type} {F : Fault → Mem → Γ → Prop} {Q : α → Mem → Γ → Prop}
    {a : Act} {k : a.Res → CProg α} {m m' : Mem} {r : a.Res} (he : m.exec a = .ok (r, m'))
    (hN : N ≤ m.next) (ha : a.Fresh N) (hk : (k r).Safe T F Q m' g) :
    (Prog.act (M := cmachine) a k).Safe T F Q m g :=
  Prog.safe_act g he (hT m a m' r hN ha he) hk

structure Ghost (L : Layout) where
  cur : Option Nat
  heap : Nat → Option L.Node

namespace Ghost
variable {L : Layout}

def set (g : Ghost L) (b : Nat) (n : L.Node) : Ghost L :=
  { g with heap := Function.update g.heap b (some n) }

def point (g : Ghost L) (c : Option Nat) : Ghost L := { g with cur := c }

@[simp] theorem set_cur (g : Ghost L) (b : Nat) (n : L.Node) : (g.set b n).cur = g.cur := rfl
@[simp] theorem point_cur (g : Ghost L) (c : Option Nat) : (g.point c).cur = c := rfl
@[simp] theorem point_heap (g : Ghost L) (c : Option Nat) : (g.point c).heap = g.heap := rfl

@[simp] theorem set_heap_self (g : Ghost L) (b : Nat) (n : L.Node) :
    (g.set b n).heap b = some n := by simp [set]

theorem set_heap_of_ne (g : Ghost L) {b b' : Nat} (n : L.Node) (h : b' ≠ b) :
    (g.set b n).heap b' = g.heap b' := by simp [set, h]

theorem set_heap_cases {g : Ghost L} {b x : Nat} {n y : L.Node} (h : (g.set b n).heap x = some y) :
    (x = b ∧ y = n) ∨ (x ≠ b ∧ g.heap x = some y) := by
  by_cases he : x = b
  · subst he
    rw [set_heap_self] at h
    exact .inl ⟨rfl, (Option.some.inj h).symm⟩
  · exact .inr ⟨he, (set_heap_of_ne g n he).symm.trans h⟩

/-- `g'` has the nodes of `g` and maybe more. -/
def Extends (g g' : Ghost L) : Prop :=
  g'.cur = g.cur ∧ ∀ b n, g.heap b = some n → g'.heap b = some n

theorem Extends.refl (g : Ghost L) : g.Extends g := ⟨rfl, fun _ _ => id⟩

theorem Extends.trans {g g' g'' : Ghost L} (h : g.Extends g') (h' : g'.Extends g'') :
    g.Extends g'' := ⟨h'.1.trans h.1, fun b n hb => h'.2 b n (h.2 b n hb)⟩

theorem extends_set {g : Ghost L} {b : Nat} (n : L.Node) (h : g.heap b = none) :
    g.Extends (g.set b n) := by
  refine ⟨rfl, fun b' n' hb => ?_⟩
  by_cases he : b' = b
  · subst he; rw [h] at hb; cases hb
  · rw [set_heap_of_ne _ _ he, hb]

/-- Byte `o` of block `b` can be reached by a reader: it is a reachable byte of
a block ever published. -/
def reach (g : Ghost L) (b o : Nat) : Prop := ∃ n, g.heap b = some n ∧ L.reach n o

end Ghost

/-- The pointer value that publishes block `c`. -/
def basePtr (c : Option Nat) : Ptr := c.map (⟨·, 0⟩)

@[simp] theorem basePtr_none : basePtr none = none := rfl
@[simp] theorem basePtr_some (b : Nat) : basePtr (some b) = some ⟨b, 0⟩ := rfl

structure Repr (L : Layout) (slot : Addr) (m : Mem) (g : Ghost L) : Prop where
  slot_valid : m.Valid slot 16
  slot_ptr : m.load .ptr (slot + 8) = some (basePtr g.cur)
  slot_apart : g.heap slot.block = none
  node : ∀ b n, g.heap b = some n → L.At m b n

/-- A slot as a zeroed segment, record field or value block holds it. -/
def Zeroed (m : Mem) (slot : Addr) : Prop :=
  m.Valid slot 16 ∧ m.read slot 16 = List.replicate 16 (.byte 0)

/-- Memory that has just been cleared. -/
theorem Zeroed.of_zeros {m : Mem} {a : Addr} {n : Nat} (hv : m.Valid a n) (hn : 16 ≤ n) :
    Zeroed (m.write a (List.replicate n (.byte 0))) a := by
  have hv' : m.Valid a (List.replicate n (Cell.byte 0)).length := by rwa [List.length_replicate]
  refine ⟨(Mem.valid_write ..).mpr (hv.mono (d := 0) (by omega)), ?_⟩
  have hread := Mem.read_write_inside hv' (d := 0) (n := 16) (by rw [List.length_replicate]; omega)
  rw [Addr.add_zero] at hread
  rw [hread, List.drop_zero, List.take_replicate, Nat.min_eq_left hn]

theorem Zeroed.congr {m m' : Mem} {slot : Addr} (h : Zeroed m slot)
    (hs : m'.sizeOf slot.block = m.sizeOf slot.block)
    (hc : ∀ o, m'.cellAt slot.block o = m.cellAt slot.block o) : Zeroed m' slot := by
  obtain ⟨⟨sz, hsz, hle⟩, hread⟩ := h
  exact ⟨⟨sz, hs.trans hsz, hle⟩, (Mem.read_congr fun o _ _ => hc o).trans hread⟩

/-- A process with one zeroed slot, and memory for every allocation. -/
def zeroedSlot : Mem := ⟨[some ⟨16, fun _ => .byte 0⟩], []⟩

theorem zeroedSlot_zeroed : Zeroed zeroedSlot ⟨0, 0⟩ := ⟨⟨16, rfl, Nat.le_refl _⟩, rfl⟩

def Ghost.empty (L : Layout) : Ghost L := ⟨none, fun _ => none⟩

theorem Zeroed.repr {L : Layout} {m : Mem} {slot : Addr} (h : Zeroed m slot) :
    Repr L slot m (Ghost.empty L) where
  slot_valid := h.1
  slot_ptr := by
    have hr := h.2
    rw [show 16 = 8 + 8 from rfl, Mem.read_add, List.replicate_add] at hr
    have h8 := (List.append_inj hr (by simp [Mem.length_read])).2
    rw [Mem.load, if_pos (h.1.mono (by simp [Kind.size]))]
    simp only [Kind.size, h8]
    rfl
  slot_apart := rfl
  node _ _ hb := by cases hb

/-- The bytes `[a, a + n)` meet no byte a reader can reach, the pointer field of
the slot included. -/
def Ghost.Avoids {L : Layout} (slot : Addr) (g : Ghost L) (a : Addr) (n : Nat) : Prop :=
  (∀ o, a.off ≤ o → o < a.off + n → ¬ g.reach a.block o) ∧ Mem.Apart a n (slot + 8) 8

namespace Repr
variable {L : Layout} {slot : Addr} {m m' : Mem} {g : Ghost L}

theorem node_lt (h : Repr L slot m g) {b : Nat} {n : L.Node} (hb : g.heap b = some n) :
    b < m.next := by
  obtain ⟨sz, hs⟩ := L.alloc (h.node b n hb)
  exact Mem.sizeOf_lt hs

theorem slot_lt (h : Repr L slot m g) : slot.block < m.next := h.slot_valid.lt

theorem fresh (h : Repr L slot m g) {b : Nat} (hb : m.next ≤ b) : g.heap b = none := by
  cases hn : g.heap b with
  | none => rfl
  | some n => have := h.node_lt hn; omega

/-- Memory may change as long as the reachable bytes stay. -/
theorem frame (h : Repr L slot m g) (hv : m'.Valid slot 16)
    (hs : ∀ b n, g.heap b = some n → m'.sizeOf b = m.sizeOf b)
    (hc : ∀ b o, g.reach b o → m'.cellAt b o = m.cellAt b o)
    (hp : m'.load .ptr (slot + 8) = m.load .ptr (slot + 8)) : Repr L slot m' g where
  slot_valid := hv
  slot_ptr := hp.trans h.slot_ptr
  slot_apart := h.slot_apart
  node b n hb := L.congr (h.node b n hb) (hs b n hb) fun o ho => hc b o ⟨n, hb, ho⟩

theorem keeps (h : Repr L slot m g) (hk : m.Keeps m') : Repr L slot m' g :=
  h.frame (hk.valid h.slot_valid) (fun _ _ hb => hk.sizeOf_eq (h.node_lt hb))
    (fun _ o hr => hk.cellAt_eq (h.node_lt hr.choose_spec.1) o) (hk.load_eq h.slot_lt)

theorem write (h : Repr L slot m g) {a : Addr} {cs : List Cell}
    (ha : g.Avoids slot a cs.length) : Repr L slot (m.write a cs) g := by
  refine h.frame ((m.valid_write ..).mpr h.slot_valid) (fun _ _ _ => m.sizeOf_write ..) ?_
    (Mem.load_write_apart ha.2)
  intro b o hr
  refine Mem.cellAt_write_of_not ?_
  rintro ⟨rfl, h1, h2⟩
  exact ha.1 o h1 h2 hr

theorem tick (h : Repr L slot m g) : Repr L slot m.tick g := h.keeps (Mem.Keeps.refl m).tick

theorem alloc (h : Repr L slot m g) (n : Nat) : Repr L slot (m.tick.alloc n) g :=
  h.keeps ((Mem.Keeps.refl m).tick.alloc n)

theorem avoids_of_fresh {N : Nat} (hN : ∀ b n, g.heap b = some n → b < N)
    (hs : slot.block < N) {a : Addr} (ha : N ≤ a.block) (n : Nat) : g.Avoids slot a n := by
  refine ⟨fun o _ _ hr => ?_, fun hb => ?_⟩
  · have := hN _ _ hr.choose_spec.1; omega
  · simp only [Addr.add_block] at hb; omega

/-- Work on fresh blocks leaves the representation alone. -/
theorem exec_fresh (h : Repr L slot m g) {N : Nat} (hN : ∀ b n, g.heap b = some n → b < N)
    (hs : slot.block < N) {a : Act} {r : a.Res} (ha : a.Fresh N) (he : m.exec a = .ok (r, m')) :
    Repr L slot m' g := by
  have hw (x : Addr) (n : Nat) (hr : a.range = some (x, n)) (hx : N ≤ x.block) :
      Repr L slot m' g := by
    obtain ⟨cs, hcs, _, rfl⟩ := Mem.exec_write hr he
    exact h.write (avoids_of_fresh hN hs hx _)
  cases a with
  | load o k p => rw [Act.IsRead.state_eq (a := .load o k p) trivial he]; exact h
  | copyOut p n => rw [Act.IsRead.state_eq (a := .copyOut p n) trivial he]; exact h
  | store o k p v => obtain ⟨x, rfl, hx⟩ := ha; exact hw x _ rfl hx
  | copyIn p cs => obtain ⟨x, rfl, hx⟩ := ha; exact hw x _ rfl hx
  | memcpy dst src n => obtain ⟨x, rfl, hx⟩ := ha; exact hw x _ rfl hx
  | zero p n => obtain ⟨x, rfl, hx⟩ := ha; exact hw x _ rfl hx
  | malloc n =>
    cases hm : m.mallocOk with
    | true => rw [Mem.exec_malloc_ok hm] at he; cases he; exact h.alloc n
    | false => rw [Mem.exec_malloc_fail hm] at he; cases he; exact h.tick
  | free p => exact ha.elim
  | abort f x => exact ha.elim

/-- Memory after one more node is known to be there. -/
theorem intro (h : Repr L slot m g) {b : Nat} {n : L.Node} (hb : b ≠ slot.block)
    (hn : L.At m b n) : Repr L slot m (g.set b n) where
  slot_valid := h.slot_valid
  slot_ptr := h.slot_ptr
  slot_apart := (g.set_heap_of_ne n (Ne.symm hb)).trans h.slot_apart
  node b' n' hb' := by
    by_cases he : b' = b
    · subst he
      rw [Ghost.set_heap_self] at hb'
      cases hb'; exact hn
    · rw [Ghost.set_heap_of_ne _ _ he] at hb'
      exact h.node b' n' hb'

/-- The commit point of a publication: one store of the slot's pointer. -/
theorem point (h : Repr L slot m g) (c : Option Nat) :
    Repr L slot (m.write (slot + 8) (Kind.ptr.encode (basePtr c))) (g.point c) where
  slot_valid := (m.valid_write ..).mpr h.slot_valid
  slot_ptr := Mem.load_write_same (k := .ptr) (basePtr c) (h.slot_valid.mono (by simp [Kind.size]))
  slot_apart := h.slot_apart
  node b n hb := by
    refine L.congr (h.node b n hb) (m.sizeOf_write ..) fun o _ => Mem.cellAt_write_of_not ?_
    rintro ⟨rfl, _⟩
    rw [Ghost.point_heap, Addr.add_block, h.slot_apart] at hb
    cases hb

/-- A commit point inside a published block: one write turns its node into `n'`. -/
theorem update (h : Repr L slot m g) {a : Addr} {cs : List Cell} {n n' : L.Node}
    (hn : g.heap a.block = some n) (hn' : L.At (m.write a cs) a.block n') :
    Repr L slot (m.write a cs) (g.set a.block n') := by
  have hb : a.block ≠ slot.block := by
    intro he
    have := h.slot_apart
    rw [← he, hn] at this
    cases this
  constructor
  · exact (m.valid_write ..).mpr h.slot_valid
  · have hp : Mem.Apart a cs.length (slot + 8) Kind.ptr.size := fun he => absurd he hb
    exact (Mem.load_write_apart hp).trans h.slot_ptr
  · exact (g.set_heap_of_ne n' (Ne.symm hb)).trans h.slot_apart
  · intro b' x hx
    by_cases he : b' = a.block
    · subst he
      rw [Ghost.set_heap_self] at hx
      cases hx; exact hn'
    · rw [Ghost.set_heap_of_ne _ _ he] at hx
      refine L.congr (h.node b' x hx) (m.sizeOf_write ..) fun o _ => Mem.cellAt_write_of_not ?_
      rintro ⟨hb', _⟩
      exact he hb'.symm

end Repr
end Msm.CMem
