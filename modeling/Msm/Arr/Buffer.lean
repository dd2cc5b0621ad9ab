import Mathlib.Data.List.Infix
import Mathlib.Data.List.TakeDrop
import Msm.CMem.Published

/-! # Array buffers and what a writer step does to them

A buffer holds a size, a capacity and the elements. Elements from `size` on may
have been written before, by a push that is under way or by one that a clear has
taken back: the node of a buffer keeps every element ever written, because a
reader that has passed the bounds check keeps a pointer to it. The moves are the
four ways the published buffers of a slot change. -/
namespace Msm.Arr
open Msm.CMem

def zeros (n : Nat) : List Cell := List.replicate n (.byte 0)

/-- What is known of an array buffer. `filling` says that element `size` is
being written and not yet committed. -/
structure Node where
  cap : Nat
  size : Nat
  filling : Bool
  elems : List (List Cell)
  cap_lt : cap < 2 ^ 32
  size_le : size ≤ elems.length
  elems_le : elems.length ≤ cap
  filling_lt : filling = true → size < elems.length

namespace Node

def empty : Node := ⟨0, 0, false, [], by decide, Nat.le_refl _, Nat.le_refl _, nofun⟩

/-- The committed elements. -/
def items (x : Node) : List (List Cell) := x.elems.take x.size

/-- Element `size` is now `v`. -/
def touch (x : Node) (v : List Cell) (h : x.size < x.cap) : Node where
  cap := x.cap
  size := x.size
  filling := true
  elems := x.elems.take x.size ++ v :: x.elems.drop (x.size + 1)
  cap_lt := x.cap_lt
  size_le := by simp [x.size_le]
  elems_le := by have := x.elems_le; have := x.size_le; simp; omega
  filling_lt _ := by have := x.size_le; simp; omega

def commit (x : Node) (h : x.filling = true) : Node :=
  ⟨x.cap, x.size + 1, false, x.elems, x.cap_lt, x.filling_lt h, x.elems_le, nofun⟩

def clear (x : Node) : Node :=
  ⟨x.cap, 0, false, x.elems, x.cap_lt, Nat.zero_le _, x.elems_le, nofun⟩

/-- A new buffer of capacity `cap` with the committed elements of `x`. -/
def grow (x : Node) (cap : Nat) (h : x.size ≤ cap) (hc : cap < 2 ^ 32) : Node :=
  ⟨cap, x.size, false, x.items, hc, by simp [items, x.size_le], by simp [items]; omega, nofun⟩

/-- Element `i` is now `v`. -/
def put (x : Node) (i : Nat) (v : List Cell) : Node where
  cap := x.cap
  size := x.size
  filling := x.filling
  elems := x.elems.set i v
  cap_lt := x.cap_lt
  size_le := by rw [List.length_set]; exact x.size_le
  elems_le := by rw [List.length_set]; exact x.elems_le
  filling_lt h := by rw [List.length_set]; exact x.filling_lt h

theorem items_put (x : Node) (i : Nat) (v : List Cell) :
    (x.put i v).items = x.items.set i v := by simp [items, put, List.take_set]

@[simp] theorem items_empty : empty.items = [] := rfl
@[simp] theorem length_items (x : Node) : x.items.length = x.size := by simp [items, x.size_le]

theorem items_get {x : Node} {i : Nat} (h : i < x.size) : x.items[i]? = x.elems[i]? :=
  List.getElem?_take_of_lt h

@[simp] theorem items_touch (x : Node) (v : List Cell) (h : x.size < x.cap) :
    (x.touch v h).items = x.items := by simp [items, touch, x.size_le]

theorem touch_get (x : Node) (v : List Cell) (h : x.size < x.cap) (i : Nat) :
    (x.touch v h).elems[i]? = if i = x.size then some v else x.elems[i]? := by
  have hl : (x.elems.take x.size).length = x.size := by simp [x.size_le]
  simp only [touch]
  rcases Nat.lt_trichotomy i x.size with hi | rfl | hi
  · rw [List.getElem?_append_left (by omega), List.getElem?_take_of_lt hi, if_neg (by omega)]
  · rw [List.getElem?_append_right (by omega), hl, Nat.sub_self, if_pos rfl]; rfl
  · obtain ⟨d, rfl⟩ := Nat.exists_eq_add_of_lt hi
    rw [List.getElem?_append_right (by omega), hl, if_neg (by omega)]
    simp [show x.size + d + 1 - x.size = d + 1 by omega, List.getElem?_drop, Nat.add_right_comm]

theorem length_touch (x : Node) (v : List Cell) (h : x.size < x.cap) :
    x.elems.length ≤ (x.touch v h).elems.length := by
  have := x.size_le
  simp [touch]
  omega

theorem items_commit (x : Node) (h : x.filling = true) {v : List Cell}
    (hv : x.elems[x.size]? = some v) : (x.commit h).items = x.items ++ [v] := by
  rw [items, commit, items, List.take_add_one, hv]; rfl

@[simp] theorem items_clear (x : Node) : x.clear.items = [] := rfl
@[simp] theorem items_grow (x : Node) (cap : Nat) (h : x.size ≤ cap) (hc : cap < 2 ^ 32) :
    (x.grow cap h hc).items = x.items := by
  have hl := x.length_items
  simp only [items, grow] at hl ⊢
  rw [List.take_take, Nat.min_self]

end Node

/-- Block `b` is an array buffer with elements of `n` bytes. -/
structure BufAt (n : Nat) (m : Mem) (b : Nat) (x : Node) : Prop where
  bytes : m.sizeOf b = some (8 + x.cap * n)
  size : m.load .u32 ⟨b, 0⟩ = some (UInt32.ofNat x.size)
  cap : m.load .u32 ⟨b, 4⟩ = some (UInt32.ofNat x.cap)
  elem : ∀ i v, x.elems[i]? = some v → m.read ⟨b, 8 + i * n⟩ n = v

namespace BufAt
variable {n : Nat} {m m' : Mem} {b : Nat} {x : Node}

theorem elem_lt {i : Nat} (h : i < x.elems.length) : 8 + i * n + n ≤ 8 + x.elems.length * n := by
  have := Nat.mul_le_mul_right n (show i + 1 ≤ x.elems.length from h)
  rw [Nat.succ_mul] at this
  omega

theorem congr (h : BufAt n m b x) (hs : m'.sizeOf b = m.sizeOf b)
    (hc : ∀ o, o < 8 + x.elems.length * n → m'.cellAt b o = m.cellAt b o) : BufAt n m' b x where
  bytes := hs.trans h.bytes
  size := (Mem.load_congr hs fun o _ ho => hc o (by simp [Kind.size] at ho; omega)).trans h.size
  cap := (Mem.load_congr hs fun o _ ho => hc o (by simp [Kind.size] at ho; omega)).trans h.cap
  elem i v hv := by
    refine (Mem.read_congr fun o _ ho => hc o ?_).trans (h.elem i v hv)
    have := elem_lt (n := n) (List.getElem?_eq_some_iff.mp hv).1
    exact Nat.lt_of_lt_of_le ho this

theorem valid_header (h : BufAt n m b x) (o k : Nat) (ho : o + k ≤ 8) : m.Valid ⟨b, o⟩ k :=
  ⟨_, h.bytes, by simp only; omega⟩

/-- Element `i` lies inside the allocation exactly when `i` is below the capacity. -/
theorem valid_elem (h : BufAt n m b x) (hn : 0 < n) (i : Nat) :
    m.Valid ⟨b, 8 + i * n⟩ n ↔ i < x.cap := by
  have hle : 8 + i * n + n ≤ 8 + x.cap * n ↔ i < x.cap := by
    rw [Nat.add_assoc, Nat.add_le_add_iff_left, ← Nat.succ_mul, Nat.mul_le_mul_right_iff hn,
      Nat.succ_le_iff]
  constructor
  · rintro ⟨sz, hs, ho⟩
    rw [h.bytes] at hs
    cases hs
    exact hle.mp ho
  · intro hi
    exact ⟨_, h.bytes, hle.mpr hi⟩

theorem elem_apart {i j : Nat} (h : i ≠ j) (c : Nat) {d k : Nat} (hd : d + k ≤ n) :
    Mem.Apart ⟨c, 8 + i * n + d⟩ k ⟨b, 8 + j * n⟩ n := by
  intro _
  simp only
  rcases Nat.lt_or_gt_of_ne h with hij | hij
  · have := Nat.mul_le_mul_right n (show i + 1 ≤ j from hij)
    rw [Nat.succ_mul] at this
    exact .inl (by omega)
  · have := Nat.mul_le_mul_right n (show j + 1 ≤ i from hij)
    rw [Nat.succ_mul] at this
    exact .inr (by omega)

/-- Writing part of element `size`. -/
theorem write_elem (h : BufAt n m b x) (hx : x.size < x.cap) {d : Nat} {cs v : List Cell}
    (hd : d + cs.length ≤ n) (hv : (m.write ⟨b, 8 + x.size * n + d⟩ cs).read
      ⟨b, 8 + x.size * n⟩ n = v) :
    BufAt n (m.write ⟨b, 8 + x.size * n + d⟩ cs) b (x.touch v hx) where
  bytes := (m.sizeOf_write ..).trans h.bytes
  size := (Mem.load_write_apart fun _ => .inr (by simp [Kind.size]; omega)).trans h.size
  cap := (Mem.load_write_apart fun _ => .inr (by simp [Kind.size]; omega)).trans h.cap
  elem i w hw := by
    rw [Node.touch_get] at hw
    split at hw
    · rename_i hi
      cases hw
      rw [hi]
      exact hv
    · rename_i hi
      exact (Mem.read_write_apart (elem_apart (Ne.symm hi) b hd)).trans (h.elem i w hw)

/-- Writing part of any element written before. -/
theorem put (h : BufAt n m b x) {i d : Nat} {cs v : List Cell} (hd : d + cs.length ≤ n)
    (hv : (m.write ⟨b, 8 + i * n + d⟩ cs).read ⟨b, 8 + i * n⟩ n = v) :
    BufAt n (m.write ⟨b, 8 + i * n + d⟩ cs) b (x.put i v) where
  bytes := (m.sizeOf_write ..).trans h.bytes
  size := (Mem.load_write_apart fun _ => .inr (by simp [Kind.size]; omega)).trans h.size
  cap := (Mem.load_write_apart fun _ => .inr (by simp [Kind.size]; omega)).trans h.cap
  elem j w hw := by
    rw [Node.put, List.getElem?_set] at hw
    split at hw
    · rename_i hj
      split at hw
      · cases hw
        rw [← hj]
        exact hv
      · cases hw
    · rename_i hj
      exact (Mem.read_write_apart (elem_apart hj b hd)).trans (h.elem j w hw)

/-- Storing a new size: nothing else in the buffer changes. -/
theorem write_size (h : BufAt n m b x) (k : Nat) {y : Node} (hc : y.cap = x.cap)
    (hs : y.size = k) (he : y.elems = x.elems) :
    BufAt n (m.write ⟨b, 0⟩ (Kind.u32.encode (UInt32.ofNat k))) b y where
  bytes := by rw [hc]; exact (m.sizeOf_write ..).trans h.bytes
  size := by rw [hs]; exact Mem.load_write_same (k := .u32) _ (h.valid_header 0 4 (by omega))
  cap := by
    rw [hc]
    exact (Mem.load_write_apart fun _ => .inl (by simp [Kind.size])).trans h.cap
  elem i v hv := by
    rw [he] at hv
    exact (Mem.read_write_apart fun _ => .inl (by simp [Kind.size]; omega)).trans (h.elem i v hv)

end BufAt

/-- Published array buffers with elements of `n` bytes. -/
abbrev layout (n : Nat) : Layout where
  Node := Node
  At := BufAt n
  reach x o := o < 8 + x.elems.length * n
  alloc h := ⟨_, h.bytes⟩
  congr h hs hc := h.congr hs hc

abbrev State (n : Nat) := Ghost (layout n)

/-- The node of the current buffer; a null buffer is an empty one. -/
def cur {n : Nat} (g : State n) : Node := (g.cur.bind g.heap).getD .empty

/-- The committed elements of the slot. -/
def contents {n : Nat} (g : State n) : List (List Cell) := (cur g).items

structure Inv (slot : Addr) (n : Nat) (m : Mem) (g : State n) : Prop where
  repr : Repr (layout n) slot m g
  cur_some : ∀ b, g.cur = some b → ∃ x, g.heap b = some x
  filling_cur : ∀ b x, g.heap b = some x → x.filling = true → g.cur = some b

theorem inv_empty {slot : Addr} {n : Nat} {m : Mem} (h : Zeroed m slot) :
    Inv slot n m (Ghost.empty _) :=
  ⟨h.repr, fun _ hb => (by cases hb), fun _ _ hx => (by cases hx)⟩

section cur
variable {n : Nat} {g : State n}

theorem cur_none (h : g.cur = none) : cur g = .empty := by simp [cur, h]

theorem cur_eq {b : Nat} {x : Node} (h : g.cur = some b) (hx : g.heap b = some x) : cur g = x := by
  simp [cur, h, hx]

theorem Inv.cur_node {slot : Addr} {m : Mem} (h : Inv slot n m g) {b : Nat} (hb : g.cur = some b) :
    g.heap b = some (cur g) := by
  obtain ⟨x, hx⟩ := h.cur_some b hb
  rw [hx, cur_eq hb hx]

theorem Inv.cur_at {slot : Addr} {m : Mem} (h : Inv slot n m g) {b : Nat} (hb : g.cur = some b) :
    BufAt n m b (cur g) := h.repr.node b _ (h.cur_node hb)

/-- When the current buffer is not being filled, none is. -/
theorem Inv.not_filling {slot : Addr} {m : Mem} (h : Inv slot n m g) (hf : (cur g).filling = false)
    {b : Nat} {x : Node} (hx : g.heap b = some x) : x.filling = false := by
  cases hxf : x.filling with
  | false => rfl
  | true => rw [cur_eq (h.filling_cur b x hx hxf) hx, hxf] at hf; cases hf

end cur

/-! ## The array a memory holds -/

/-- The address of the slot's buffer. -/
def bufPtr (m : Mem) (slot : Addr) : Ptr := (m.load .ptr (slot + 8)).getD none

def arraySize (m : Mem) (slot : Addr) : Nat :=
  ((bufPtr m slot).bind (m.load .u32)).elim 0 UInt32.toNat

def arrayCap (m : Mem) (slot : Addr) : Nat :=
  ((bufPtr m slot + 4).bind (m.load .u32)).elim 0 UInt32.toNat

/-- The bytes of the elements below the size, `n` for each. -/
def arrayElems (m : Mem) (slot : Addr) (n : Nat) : List (List Cell) :=
  match bufPtr m slot with
  | none => []
  | some b => (List.range (arraySize m slot)).map fun i => m.read (b + (8 + i * n)) n

theorem size_toNat (x : Node) : (UInt32.ofNat x.size).toNat = x.size := by
  have := x.size_le
  have := x.elems_le
  have := x.cap_lt
  simp
  omega

theorem cap_toNat (x : Node) : (UInt32.ofNat x.cap).toNat = x.cap := by
  have := x.cap_lt
  simp
  omega

section view
variable {slot : Addr} {n : Nat} {m : Mem} {g : State n}

theorem Inv.bufPtr_eq (h : Inv slot n m g) : bufPtr m slot = basePtr g.cur := by
  rw [bufPtr, h.repr.slot_ptr, Option.getD_some]

theorem Inv.arraySize_eq (h : Inv slot n m g) : arraySize m slot = (cur g).size := by
  rw [arraySize, h.bufPtr_eq]
  cases hc : g.cur with
  | none => rw [cur_none hc]; rfl
  | some b => simp only [basePtr_some, Option.bind_some, (h.cur_at hc).size, Option.elim_some, size_toNat]

theorem Inv.arrayCap_eq (h : Inv slot n m g) : arrayCap m slot = (cur g).cap := by
  rw [arrayCap, h.bufPtr_eq]
  cases hc : g.cur with
  | none => rw [cur_none hc]; rfl
  | some b =>
    simp only [basePtr_some, Ptr.some_add, Addr.mk_add, Nat.zero_add, Option.bind_some,
      (h.cur_at hc).cap, Option.elim_some, cap_toNat]

theorem Inv.arrayElems_eq (h : Inv slot n m g) : arrayElems m slot n = contents g := by
  rw [arrayElems, h.bufPtr_eq, h.arraySize_eq]
  cases hc : g.cur with
  | none => simp [contents, cur_none hc]
  | some b =>
    refine List.ext_getElem? fun i => ?_
    by_cases hi : i < (cur g).size
    · obtain ⟨v, hv⟩ : ∃ v, (cur g).items[i]? = some v :=
        ⟨_, List.getElem?_eq_getElem (by simpa using hi)⟩
      have hread := (h.cur_at hc).elem i v (((cur g).items_get hi).symm.trans hv)
      rw [contents, hv]
      simp [hi, hread]
    · rw [List.getElem?_eq_none (by simpa using hi),
        List.getElem?_eq_none (by simpa [contents] using hi)]

end view

/-! ## The moves -/

/-- The current buffer's node becomes `y`. -/
def Update {n : Nat} (g g' : State n) (y : Node) : Prop :=
  ∃ b, g.cur = some b ∧ g' = g.set b y

/-- A new buffer with the same committed elements is published. -/
def Publish {n : Nat} (g g' : State n) : Prop :=
  ∃ b cap h hc, g.heap b = none ∧ (cur g).filling = false ∧
    g' = (g.set b ((cur g).grow cap h hc)).point (some b)

inductive Move {n : Nat} (g : State n) : State n → Prop
  | same : Move g g
  | publish {g' : State n} : Publish g g' → Move g g'
  | touch {g' : State n} (v : List Cell) (h : (cur g).size < (cur g).cap) :
      Update g g' ((cur g).touch v h) → Move g g'
  | commit {g' : State n} (h : (cur g).filling = true) : Update g g' ((cur g).commit h) → Move g g'
  | clear {g' : State n} : (cur g).filling = false → Update g g' (cur g).clear → Move g g'

section moves
variable {n : Nat} {slot : Addr} {m m' : Mem} {g g' : State n}

theorem Update.cur_eq {y : Node} (h : Update g g' y) : cur g' = y := by
  obtain ⟨b, hb, rfl⟩ := h
  exact Arr.cur_eq hb (g.set_heap_self b y)

theorem Publish.contents_eq (h : Publish g g') : contents g' = contents g := by
  obtain ⟨b, cap, hs, hc, _, _, rfl⟩ := h
  simp [contents, cur]

/-- A buffer's node after its node or another one has been updated. -/
theorem Update.heap {y : Node} (h : Update g g' y) {b : Nat} {x : Node} (hx : g'.heap b = some x) :
    (g.cur = some b ∧ x = y) ∨ (g.cur ≠ some b ∧ g.heap b = some x) := by
  obtain ⟨c, hc, rfl⟩ := h
  by_cases he : b = c
  · subst he
    rw [Ghost.set_heap_self] at hx
    exact .inl ⟨hc, (Option.some.inj hx).symm⟩
  · rw [Ghost.set_heap_of_ne _ _ he] at hx
    exact .inr ⟨by rw [hc]; exact fun h => he (Option.some.inj h).symm, hx⟩

theorem Update.heap_of {y : Node} (h : Update g g' y) {b : Nat} {x : Node} (hx : g.heap b = some x) :
    (g.cur = some b ∧ g'.heap b = some y) ∨ (g.cur ≠ some b ∧ g'.heap b = some x) := by
  obtain ⟨c, hc, rfl⟩ := h
  by_cases he : b = c
  · subst he
    exact .inl ⟨hc, g.set_heap_self ..⟩
  · exact .inr ⟨by rw [hc]; exact fun h => he (Option.some.inj h).symm,
      (g.set_heap_of_ne _ he).trans hx⟩

theorem Update.inv {y : Node} (h : Update g g' y) (hI : Inv slot n m g)
    (hr : Repr (layout n) slot m' g') : Inv slot n m' g' := by
  have hcur : g'.cur = g.cur := by obtain ⟨c, _, rfl⟩ := h; rfl
  refine ⟨hr, ?_, ?_⟩
  · obtain ⟨c, hc, rfl⟩ := h
    intro b hb
    rw [Ghost.set_cur, hc] at hb
    cases hb
    exact ⟨y, g.set_heap_self ..⟩
  · intro b x hx hf
    rw [hcur]
    rcases h.heap hx with ⟨hb, _⟩ | ⟨_, hxb⟩
    · exact hb
    · exact hI.filling_cur b x hxb hf

theorem Publish.inv {b cap : Nat} {h : (cur g).size ≤ cap} {hc : cap < 2 ^ 32}
    (hI : Inv slot n m g) (hf : (cur g).filling = false)
    (hr : Repr (layout n) slot m' ((g.set b ((cur g).grow cap h hc)).point (some b))) :
    Inv slot n m' ((g.set b ((cur g).grow cap h hc)).point (some b)) := by
  refine ⟨hr, ?_, ?_⟩
  · rintro c ⟨⟩
    exact ⟨_, g.set_heap_self ..⟩
  · intro c x hx hxf
    by_cases he : c = b
    · rw [he]; rfl
    · rw [Ghost.point_heap, Ghost.set_heap_of_ne _ _ he] at hx
      rw [hI.not_filling hf hx] at hxf
      cases hxf

/-- Part of element `size` is written. -/
theorem Inv.touch (h : Inv slot n m g) {b : Nat} (hb : g.cur = some b)
    (hx : (cur g).size < (cur g).cap) {d : Nat} {cs v : List Cell} (hd : d + cs.length ≤ n)
    (hv : (m.write ⟨b, 8 + (cur g).size * n + d⟩ cs).read ⟨b, 8 + (cur g).size * n⟩ n = v) :
    Inv slot n (m.write ⟨b, 8 + (cur g).size * n + d⟩ cs) (g.set b ((cur g).touch v hx)) :=
  Update.inv ⟨b, hb, rfl⟩ h
    (h.repr.update (a := ⟨b, _⟩) (h.cur_node hb) ((h.cur_at hb).write_elem hx hd hv))

/-- Part of an element of the current buffer is written again. -/
theorem Inv.put (h : Inv slot n m g) {b : Nat} (hb : g.cur = some b) {i d : Nat}
    {cs v : List Cell} (hd : d + cs.length ≤ n)
    (hv : (m.write ⟨b, 8 + i * n + d⟩ cs).read ⟨b, 8 + i * n⟩ n = v) :
    Inv slot n (m.write ⟨b, 8 + i * n + d⟩ cs) (g.set b ((cur g).put i v)) :=
  Update.inv ⟨b, hb, rfl⟩ h
    (h.repr.update (a := ⟨b, _⟩) (h.cur_node hb) ((h.cur_at hb).put hd hv))

/-- The store of `size + 1`. -/
theorem Inv.commit (h : Inv slot n m g) {b : Nat} (hb : g.cur = some b)
    (hf : (cur g).filling = true) :
    Inv slot n (m.write ⟨b, 0⟩ (Kind.u32.encode (UInt32.ofNat ((cur g).size + 1))))
      (g.set b ((cur g).commit hf)) :=
  Update.inv ⟨b, hb, rfl⟩ h
    (h.repr.update (a := ⟨b, 0⟩) (h.cur_node hb) ((h.cur_at hb).write_size _ rfl rfl rfl))

/-- The store of size 0. -/
theorem Inv.clear (h : Inv slot n m g) {b : Nat} (hb : g.cur = some b) :
    Inv slot n (m.write ⟨b, 0⟩ (Kind.u32.encode 0)) (g.set b (cur g).clear) :=
  Update.inv ⟨b, hb, rfl⟩ h
    (h.repr.update (a := ⟨b, 0⟩) (h.cur_node hb) ((h.cur_at hb).write_size 0 rfl rfl rfl))

/-- The store of the slot's pointer that publishes a finished buffer. -/
theorem Inv.publish (h : Inv slot n m g) (hf : (cur g).filling = false) {b cap : Nat}
    {hs : (cur g).size ≤ cap} {hc : cap < 2 ^ 32} (hb : b ≠ slot.block)
    (hx : BufAt n m b ((cur g).grow cap hs hc)) :
    Inv slot n (m.write (slot + 8) (Kind.ptr.encode (some ⟨b, 0⟩)))
      ((g.set b ((cur g).grow cap hs hc)).point (some b)) :=
  Publish.inv h hf ((h.repr.intro hb hx).point (some b))

/-! ## What the moves leave in place -/

/-- What a node keeps when its buffer is updated. -/
theorem Update.keeps {y : Node} {P : Node → Node → Prop} (h : Update g g' y) (hrefl : ∀ x, P x x)
    (hy : P (cur g) y) {b : Nat} {x : Node} (hx : g.heap b = some x) :
    ∃ x', g'.heap b = some x' ∧ P x x' := by
  rcases h.heap_of hx with ⟨hb, hx'⟩ | ⟨_, hx'⟩
  · rw [Arr.cur_eq hb hx] at hy
    exact ⟨y, hx', hy⟩
  · exact ⟨x, hx', hrefl x⟩

theorem Publish.heap_of (h : Publish g g') {b : Nat} {x : Node} (hx : g.heap b = some x) :
    g'.heap b = some x := by
  obtain ⟨c, cap, hs, hc, hnone, _, rfl⟩ := h
  exact (Ghost.extends_set _ hnone).2 b x hx

/-- A buffer stays published, with at least as many elements written. -/
theorem Move.elems_le (h : Move g g') {b : Nat} {x : Node} (hx : g.heap b = some x) :
    ∃ x', g'.heap b = some x' ∧ x.elems.length ≤ x'.elems.length := by
  cases h with
  | same => exact ⟨x, hx, Nat.le_refl _⟩
  | publish h => exact ⟨x, h.heap_of hx, Nat.le_refl _⟩
  | touch v hv h =>
    exact h.keeps (P := fun x y => x.elems.length ≤ y.elems.length) (fun _ => Nat.le_refl _)
      ((cur g).length_touch v hv) hx
  | commit hf h =>
    exact h.keeps (P := fun x y => x.elems.length ≤ y.elems.length) (fun _ => Nat.le_refl _)
      (Nat.le_refl _) hx
  | clear _ h =>
    exact h.keeps (P := fun x y => x.elems.length ≤ y.elems.length) (fun _ => Nat.le_refl _)
      (Nat.le_refl _) hx

/-- Every buffer ever published holds a beginning of the committed elements. -/
def Prefixes {n : Nat} (g : State n) : Prop := ∀ b x, g.heap b = some x → x.items <+: contents g

/-- A move of a writer that never clears: nothing committed is taken back. -/
structure Grows {n : Nat} (g g' : State n) : Prop where
  contents_le : contents g <+: contents g'
  size_le : ∀ b x, g.heap b = some x → ∃ x', g'.heap b = some x' ∧ x.size ≤ x'.size
  prefixes : Prefixes g → Prefixes g'

theorem Grows.refl (g : State n) : Grows g g :=
  ⟨List.prefix_refl _, fun _ x hx => ⟨x, hx, Nat.le_refl _⟩, id⟩

theorem Grows.trans {g'' : State n} (h : Grows g g') (h' : Grows g' g'') : Grows g g'' := by
  refine ⟨h.contents_le.trans h'.contents_le, fun b x hx => ?_, h'.prefixes ∘ h.prefixes⟩
  obtain ⟨x', hx', hle⟩ := h.size_le b x hx
  obtain ⟨x'', hx'', hle'⟩ := h'.size_le b x' hx'
  exact ⟨x'', hx'', Nat.le_trans hle hle'⟩

theorem Publish.grows (h : Publish g g') : Grows g g' := by
  refine ⟨by rw [h.contents_eq], fun b x hx => ⟨x, h.heap_of hx, Nat.le_refl _⟩, ?_⟩
  intro hp b x hx
  rw [h.contents_eq]
  obtain ⟨c, cap, hs, hc, _, _, rfl⟩ := h
  by_cases he : b = c
  · subst he
    rw [Ghost.point_heap, Ghost.set_heap_self] at hx
    cases hx
    rw [Node.items_grow, contents]
  · rw [Ghost.point_heap, Ghost.set_heap_of_ne _ _ he] at hx
    exact hp b x hx

theorem Update.grows {y : Node} (h : Update g g' y) (hsize : (cur g).size ≤ y.size)
    (hitems : (cur g).items <+: y.items) : Grows g g' := by
  have hcont : contents g <+: contents g' := by rw [contents, contents, h.cur_eq]; exact hitems
  refine ⟨hcont, fun b x hx => ?_, fun hp b x hx => ?_⟩
  · exact h.keeps (P := fun x y => x.size ≤ y.size) (fun _ => Nat.le_refl _) hsize hx
  · rcases h.heap hx with ⟨_, rfl⟩ | ⟨_, hx⟩
    · rw [contents, h.cur_eq]
    · exact (hp b x hx).trans hcont

theorem Update.touch_grows {v : List Cell} {hx : (cur g).size < (cur g).cap}
    (h : Update g g' ((cur g).touch v hx)) : Grows g g' :=
  h.grows (Nat.le_refl _) (by rw [Node.items_touch])

theorem Update.commit_grows {hf : (cur g).filling = true}
    (h : Update g g' ((cur g).commit hf)) : Grows g g' := by
  obtain ⟨v, hv⟩ : ∃ v, (cur g).elems[(cur g).size]? = some v :=
    ⟨_, List.getElem?_eq_getElem ((cur g).filling_lt hf)⟩
  exact h.grows (Nat.le_succ _) (by rw [Node.items_commit _ hf hv]; exact List.prefix_append _ _)

end moves
end Msm.Arr
