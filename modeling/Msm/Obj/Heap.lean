import Msm.Api.Object
import Msm.Data.Keyed
import Msm.Str.Buffer

/-! # What an object slot has published

Three kinds of blocks hang off an object slot: entries buffers, value blocks and
the buffers of string values. The ghost heap keeps each one ever published. The
invariant `Inv` relates them: the slot points to an entries buffer, an entry to
a value block of its type, names are distinct in a buffer, and no two entries
ever published share a value block. -/
namespace Msm.Obj
open Msm.CMem Msm.Api

/-! ## Values -/

/-- A value stored in its block as one number. -/
inductive Scalar where
  | bool (v : UInt32)
  | int32 (v : UInt32)
  | int64 (v : UInt64)
  | float64 (v : UInt64)
deriving DecidableEq

namespace Scalar

def type : Scalar → UInt16
  | .bool _ => typeBool
  | .int32 _ => typeInt32
  | .int64 _ => typeInt64
  | .float64 _ => typeFloat64

/-- The size of the value block. -/
def size : Scalar → UInt32
  | .bool _ => 8
  | .int32 _ => 8
  | .int64 _ => 16
  | .float64 _ => 16

def kind : Scalar → Kind
  | .bool _ => .u32
  | .int32 _ => .u32
  | .int64 _ => .u64
  | .float64 _ => .u64

/-- Where in the block the number is. -/
def off : Scalar → Nat
  | .bool _ => 4
  | .int32 _ => 4
  | .int64 _ => 8
  | .float64 _ => 8

def bits : (s : Scalar) → s.kind.Val
  | .bool v => v
  | .int32 v => v
  | .int64 v => v
  | .float64 v => v

theorem fits (s : Scalar) : s.off + s.kind.size ≤ s.size.toNat := by
  cases s <;> exact Nat.le_refl _

theorem eq_of_type {s s' : Scalar} (h : s.type = s'.type) :
    s.kind = s'.kind ∧ s.off = s'.off ∧ s.size = s'.size := by
  cases s <;> cases s' <;> first | exact ⟨rfl, rfl, rfl⟩ | cases h

theorem eq_bool {s : Scalar} (h : s.type = typeBool) : ∃ v, s = .bool v := by
  cases s <;> first | exact ⟨_, rfl⟩ | cases h

theorem eq_int32 {s : Scalar} (h : s.type = typeInt32) : ∃ v, s = .int32 v := by
  cases s <;> first | exact ⟨_, rfl⟩ | cases h

theorem eq_int64 {s : Scalar} (h : s.type = typeInt64) : ∃ v, s = .int64 v := by
  cases s <;> first | exact ⟨_, rfl⟩ | cases h

theorem eq_float64 {s : Scalar} (h : s.type = typeFloat64) : ∃ v, s = .float64 v := by
  cases s <;> first | exact ⟨_, rfl⟩ | cases h

end Scalar

/-- What a value block holds: a number, the address of a string buffer, or the
slot of a nested object. -/
inductive Payload where
  | scalar (s : Scalar)
  | string (buf : Option Nat)
  | object

def Payload.type : Payload → UInt16
  | .scalar s => s.type
  | .string _ => typeString
  | .object => typeObject

def Payload.size : Payload → Nat
  | .scalar s => s.size.toNat
  | .string _ => 24
  | .object => 24

theorem Payload.eq_scalar {s : Scalar} {p : Payload} (h : p.type = s.type) :
    ∃ s', p = .scalar s' ∧ s'.type = s.type := by
  cases p with
  | scalar s' => exact ⟨s', rfl, h⟩
  | string _ => cases s <;> cases h
  | object => cases s <;> cases h

structure Entry where
  hash : UInt64
  type : UInt16
  val : Nat

inductive Node where
  | buf (cap : Nat) (es : List Entry)
  | val (p : Payload)
  | str (bs : List UInt8)

/-! ## Nodes in memory -/

structure EntryAt (m : Mem) (a : Addr) (e : Entry) : Prop where
  hash : m.load .u64 a = some e.hash
  type : m.load .u16 (a + 8) = some e.type
  val : m.load .ptr (a + 16) = some (some ⟨e.val, 0⟩)

structure BufAt (m : Mem) (b cap : Nat) (es : List Entry) : Prop where
  bytes : m.sizeOf b = some (8 + cap * 24)
  len_le : es.length ≤ cap
  cap_lt : cap < 2 ^ 32
  count : m.load .u32 ⟨b, 0⟩ = some (UInt32.ofNat es.length)
  capacity : m.load .u32 ⟨b, 4⟩ = some (UInt32.ofNat cap)
  entry : ∀ i e, es[i]? = some e → EntryAt m ⟨b, 8 + i * 24⟩ e

def PayloadAt (m : Mem) (v : Nat) (p : Payload) : Prop :=
  m.sizeOf v = some p.size ∧ match p with
    | .scalar s => m.load s.kind ⟨v, s.off⟩ = some s.bits
    | .string buf => m.load .ptr ⟨v, 8⟩ = some (basePtr buf)
    | .object => True

def NodeAt (m : Mem) (b : Nat) : Node → Prop
  | .buf cap es => BufAt m b cap es
  | .val p => PayloadAt m b p
  | .str bs => Str.StrAt m b (bs.map .byte)

/-- The bytes a reader can reach: the entries below the count, the whole value
block, the whole string buffer. -/
def Node.reach : Node → Nat → Prop
  | .buf _ es, o => o < 8 + es.length * 24
  | .val p, o => o < p.size
  | .str bs, o => o < 8 + (bs.length + 1)

section frames
variable {m m' : Mem} {a : Addr} {e : Entry} {b v cap : Nat} {es : List Entry} {p : Payload}

theorem EntryAt.congr (h : EntryAt m a e) (hs : m'.sizeOf a.block = m.sizeOf a.block)
    (hc : ∀ o, a.off ≤ o → o < a.off + 24 → m'.cellAt a.block o = m.cellAt a.block o) :
    EntryAt m' a e where
  hash := (Mem.load_within (d := 0) (n := 24) (by decide) hs hc).trans h.hash
  type := (Mem.load_within (n := 24) (by decide) hs hc).trans h.type
  val := (Mem.load_within (n := 24) (by decide) hs hc).trans h.val

theorem EntryAt.write (h : EntryAt m a e) {x : Addr} {cs : List Cell}
    (hx : Mem.Apart x cs.length a 24) : EntryAt (m.write x cs) a e := by
  refine h.congr (m.sizeOf_write ..) fun o h1 h2 => Mem.cellAt_write_of_not ?_
  rintro ⟨hb, h3, h4⟩
  rcases hx hb with h | h <;> omega

/-- An entry copied together with others. -/
theorem EntryAt.copy {dst src : Addr} {n d : Nat} (h : EntryAt m (src + d) e)
    (hv : m.Valid dst n) (hs : m.Valid src n) (hd : d + 24 ≤ n) :
    EntryAt (m.write dst (m.read src n)) (dst + d) e where
  hash := (Mem.load_write_copy hv hs (by simp [Kind.size]; omega)).trans h.hash
  type := by
    rw [Addr.add_add, Mem.load_write_copy hv hs (by simp [Kind.size]; omega), ← Addr.add_add]
    exact h.type
  val := by
    rw [Addr.add_add, Mem.load_write_copy hv hs (by simp [Kind.size]; omega), ← Addr.add_add]
    exact h.val

theorem entry_le {i : Nat} (h : i < es.length) : 8 + i * 24 + 24 ≤ 8 + es.length * 24 := by omega

theorem BufAt.congr (h : BufAt m b cap es) (hs : m'.sizeOf b = m.sizeOf b)
    (hc : ∀ o, o < 8 + es.length * 24 → m'.cellAt b o = m.cellAt b o) : BufAt m' b cap es where
  bytes := hs.trans h.bytes
  len_le := h.len_le
  cap_lt := h.cap_lt
  count := (Mem.load_congr hs fun o _ ho => hc o (by simp [Kind.size] at ho; omega)).trans h.count
  capacity :=
    (Mem.load_congr hs fun o _ ho => hc o (by simp [Kind.size] at ho; omega)).trans h.capacity
  entry i e he := (h.entry i e he).congr hs fun o _ ho => hc o (by
    have := entry_le (List.getElem?_eq_some_iff.mp he).1
    simp only at ho
    omega)

theorem BufAt.valid (h : BufAt m b cap es) {d n : Nat} (hd : d + n ≤ 8 + cap * 24) :
    m.Valid ⟨b, d⟩ n := ⟨_, h.bytes, hd⟩

theorem PayloadAt.congr (h : PayloadAt m v p) (hs : m'.sizeOf v = m.sizeOf v)
    (hc : ∀ o, o < p.size → m'.cellAt v o = m.cellAt v o) : PayloadAt m' v p := by
  refine ⟨hs.trans h.1, ?_⟩
  have h2 := h.2
  cases p with
  | scalar s =>
    have := s.fits
    exact (Mem.load_congr hs fun o _ ho => hc o (by simp only [Payload.size] at ho ⊢; omega)).trans h2
  | string buf =>
    exact (Mem.load_congr hs fun o _ ho => hc o (by
      simp only [Payload.size, Kind.size] at ho ⊢; omega)).trans h2
  | object => trivial

end frames

theorem NodeAt.alloc {m : Mem} {b : Nat} {n : Node} (h : NodeAt m b n) :
    ∃ sz, m.sizeOf b = some sz := by
  cases n with
  | buf cap es => exact ⟨_, BufAt.bytes h⟩
  | val p => exact ⟨_, And.left h⟩
  | str bs => exact ⟨_, Str.StrAt.size h⟩

theorem NodeAt.congr {m m' : Mem} {b : Nat} {n : Node} (h : NodeAt m b n)
    (hs : m'.sizeOf b = m.sizeOf b) (hc : ∀ o, n.reach o → m'.cellAt b o = m.cellAt b o) :
    NodeAt m' b n := by
  cases n with
  | buf cap es => exact BufAt.congr h hs hc
  | val p => exact PayloadAt.congr h hs hc
  | str bs => exact Str.StrAt.congr h hs fun o ho => hc o (by simpa [Node.reach] using ho)

abbrev layout : Layout where
  Node := Node
  At := NodeAt
  reach := Node.reach
  alloc := NodeAt.alloc
  congr := NodeAt.congr

abbrev State := Ghost layout

/-! ## The object -/

inductive Value where
  | scalar (s : Scalar)
  | string (bs : List UInt8)
  | object
deriving DecidableEq

def Value.type : Value → UInt16
  | .scalar s => s.type
  | .string _ => typeString
  | .object => typeObject

/-- A field as the object shows it: its value block and its value. -/
structure Field where
  slot : Nat
  value : Value
deriving DecidableEq

/-- Fields by name hash, in the order they were added. The code keys fields by
the 64-bit hash of the name. -/
abbrev Fields := List (UInt64 × Field)

/-- The entries of the current buffer. -/
def entries (g : State) : List Entry :=
  match g.cur.bind g.heap with
  | some (.buf _ es) => es
  | _ => []

def Payload.value (g : State) : Payload → Value
  | .scalar s => .scalar s
  | .string none => .string []
  | .string (some s) => match g.heap s with
    | some (.str bs) => .string bs
    | _ => .string []
  | .object => .object

/-- The value block `v` holds. -/
def valueAt (g : State) (v : Nat) : Value :=
  match g.heap v with
  | some (.val p) => p.value g
  | _ => .object

def fieldOf (g : State) (e : Entry) : UInt64 × Field := (e.hash, ⟨e.val, valueAt g e.val⟩)

/-- The fields of the slot's object. -/
def fields (g : State) : Fields := (entries g).map (fieldOf g)

/-- The entry is in a buffer that has been published. -/
def Published (g : State) (e : Entry) : Prop := ∃ b cap es, g.heap b = some (.buf cap es) ∧ e ∈ es

/-- The blocks published fit together. -/
structure Shape (g : State) : Prop where
  cur_buf : ∀ b, g.cur = some b → ∃ cap es, g.heap b = some (.buf cap es)
  entry_val : ∀ e, Published g e → ∃ p, g.heap e.val = some (.val p) ∧ p.type = e.type
  val_str : ∀ v s, g.heap v = some (.val (.string (some s))) → ∃ bs, g.heap s = some (.str bs)
  distinct : ∀ b cap es, g.heap b = some (.buf cap es) → (es.map Entry.hash).Nodup
  val_inj : ∀ e e', Published g e → Published g e' → e.val = e'.val → e = e'

structure Inv (slot : Addr) (m : Mem) (g : State) : Prop extends Shape g where
  repr : Repr layout slot m g

section inv
variable {slot : Addr} {m : Mem} {g : State}

theorem entries_none (h : g.cur = none) : entries g = [] := by simp [entries, h]

theorem entries_eq {b cap : Nat} {es : List Entry} (h : g.cur = some b)
    (hb : g.heap b = some (.buf cap es)) : entries g = es := by simp [entries, h, hb]

/-- The current buffer, with its capacity. -/
theorem Shape.cur_heap (h : Shape g) {b : Nat} (hb : g.cur = some b) :
    ∃ cap, g.heap b = some (.buf cap (entries g)) := by
  obtain ⟨cap, es, hes⟩ := h.cur_buf b hb
  exact ⟨cap, by rw [entries_eq hb hes]; exact hes⟩

theorem Inv.buf_at (h : Inv slot m g) {b cap : Nat} {es : List Entry}
    (hb : g.heap b = some (.buf cap es)) : BufAt m b cap es := h.repr.node b _ hb

theorem Inv.payload_at (h : Inv slot m g) {v : Nat} {p : Payload}
    (hv : g.heap v = some (.val p)) : PayloadAt m v p := h.repr.node v _ hv

theorem Inv.str_at (h : Inv slot m g) {s : Nat} {bs : List UInt8}
    (hs : g.heap s = some (.str bs)) : Str.StrAt m s (bs.map .byte) := h.repr.node s _ hs

theorem Shape.mem_entries (h : Shape g) {e : Entry} (he : e ∈ entries g) :
    ∃ b cap, g.cur = some b ∧ g.heap b = some (.buf cap (entries g)) := by
  cases hc : g.cur with
  | none => rw [entries_none hc] at he; cases he
  | some b =>
    obtain ⟨cap, hb⟩ := h.cur_heap hc
    exact ⟨b, cap, rfl, hb⟩

theorem Shape.published (h : Shape g) {e : Entry} (he : e ∈ entries g) : Published g e := by
  obtain ⟨b, cap, _, hb⟩ := h.mem_entries he
  exact ⟨b, cap, _, hb, he⟩

theorem Shape.entry_payload (h : Shape g) {e : Entry} (he : e ∈ entries g) :
    ∃ p, g.heap e.val = some (.val p) ∧ p.type = e.type := h.entry_val e (h.published he)

theorem Shape.entries_nodup (h : Shape g) : ((entries g).map Entry.hash).Nodup := by
  cases hc : g.cur with
  | none => rw [entries_none hc]; exact List.nodup_nil
  | some b =>
    obtain ⟨cap, hb⟩ := h.cur_heap hc
    exact h.distinct b cap _ hb

theorem keys_fields (g : State) : Keyed.keys (fields g) = (entries g).map Entry.hash := by
  simp [Keyed.keys, fields, fieldOf]

@[simp] theorem length_fields (g : State) : (fields g).length = (entries g).length := by
  simp [fields]

theorem Shape.fields_distinct (h : Shape g) : Keyed.Distinct (fields g) := by
  rw [Keyed.Distinct, ← Keyed.keys, keys_fields]
  exact h.entries_nodup

theorem Payload.value_type (g : State) (p : Payload) : (p.value g).type = p.type := by
  cases p with
  | scalar s => rfl
  | string buf =>
    cases buf with
    | none => rfl
    | some s => rw [Payload.value]; split <;> rfl
  | object => rfl

theorem Shape.value_type (h : Shape g) {e : Entry} (he : e ∈ entries g) :
    (valueAt g e.val).type = e.type := by
  obtain ⟨p, hp, ht⟩ := h.entry_payload he
  rw [valueAt, hp, ← ht]
  exact p.value_type g

theorem Shape.find_of_mem (h : Shape g) {e : Entry} (he : e ∈ entries g) :
    Keyed.find (fields g) e.hash = some ⟨e.val, valueAt g e.val⟩ :=
  Keyed.find_of_mem h.fields_distinct (List.mem_map.mpr ⟨e, he, rfl⟩)

/-- A field is found exactly when the buffer has an entry for it. -/
theorem find_some {k : UInt64} {f : Field}
    (hf : Keyed.find (fields g) k = some f) :
    ∃ e ∈ entries g, e.hash = k ∧ f = ⟨e.val, valueAt g e.val⟩ := by
  obtain ⟨e, he, heq⟩ := List.mem_map.mp (Keyed.mem_of_find hf)
  cases heq
  exact ⟨e, he, rfl, rfl⟩

theorem find_none_iff (g : State) (k : UInt64) :
    Keyed.find (fields g) k = none ↔ ∀ e ∈ entries g, e.hash ≠ k := by
  rw [Keyed.find_eq_none_iff, keys_fields, List.mem_map]
  constructor
  · exact fun h e he hk => h ⟨e, he, hk⟩
  · rintro h ⟨e, he, hk⟩
    exact h e he hk

end inv
end Msm.Obj
