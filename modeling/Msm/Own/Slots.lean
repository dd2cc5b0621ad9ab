import Msm.Own.Release
import Msm.Rec.Layout

/-! # The slots of typed segments as owners

A string slot owns its buffer; an array slot owns its buffer and what the
elements below its size own; a record is its fields side by side. -/
namespace Msm.Own
open Msm.Exec Msm.CMem

/-! ## The buffer of an array -/

/-- The header and the room of an array buffer whose items need `w` bytes: `n` of
them are there and `cap` fit. -/
structure BufferOk (m : Mem) (b w : Nat) (n cap : UInt32) : Prop where
  load_size : m.load .u32 ⟨b, 0⟩ = some n
  load_cap : m.load .u32 ⟨b, 4⟩ = some cap
  le : n.toNat ≤ cap.toNat
  room : m.Valid ⟨b, 0⟩ (8 + cap.toNat * (w % 2 ^ 32))
  small : n.toNat * w < 2 ^ 32

/-- The size in the header of a buffer. -/
def count (m : Mem) (b : Nat) : Nat := ((m.load .u32 ⟨b, 0⟩).map UInt32.toNat).getD 0

section buffer
variable {m m' : Mem} {b w : Nat} {n cap : UInt32}

theorem BufferOk.count_eq (h : BufferOk m b w n cap) : count m b = n.toNat := by
  rw [count, h.load_size]
  rfl

theorem BufferOk.of_block (h : BufferOk m b w n cap) (hb : m'.block b = m.block b) :
    BufferOk m' b w n cap where
  load_size := (Mem.load_of_block (a := ⟨b, 0⟩) hb).trans h.load_size
  load_cap := (Mem.load_of_block (a := ⟨b, 4⟩) hb).trans h.load_cap
  le := h.le
  room := by
    obtain ⟨sz, hsz, hle⟩ := h.room
    exact ⟨sz, (Mem.sizeOf_of_block hb).trans hsz, hle⟩
  small := h.small

/-- With an item there, the stride of the code is the size of an item. -/
theorem BufferOk.stride (h : BufferOk m b w n cap) (hn : 0 < n.toNat) : w % 2 ^ 32 = w := by
  have := h.small
  have := Nat.le_mul_of_pos_left w hn
  exact Nat.mod_eq_of_lt (by omega)

theorem BufferOk.elements (h : BufferOk m b w n cap) : m.Valid ⟨b, 8⟩ (n.toNat * w) := by
  have hle : 8 + n.toNat * w ≤ 8 + cap.toNat * (w % 2 ^ 32) := by
    rcases Nat.eq_zero_or_pos n.toNat with h0 | hpos
    · rw [h0, Nat.zero_mul]
      exact Nat.le_add_right _ _
    · rw [h.stride hpos]
      exact Nat.add_le_add_left (Nat.mul_le_mul_right w h.le) 8
  exact (h.room.le hle).mono (d := 8) (Nat.le_refl _)

end buffer

/-- `[size:4 | cap:4 | elements...]`, the elements below the size being of one shape. -/
def items (s : Shape) : Body where
  Ok m b := (∃ n cap, BufferOk m b s.size n cap) ∧ (s.rep (count m b)).Ok m ⟨b, 8⟩
  owned m b := (s.rep (count m b)).owned m ⟨b, 8⟩
  live {m b} h := by
    obtain ⟨n, cap, hbuf⟩ := h.1
    obtain ⟨sz, hsz, _⟩ := hbuf.room
    exact ⟨by rw [hsz]; exact Option.some_ne_none sz, (s.rep (count m b)).live h.2⟩
  frame {m m' b} h hb hc := by
    obtain ⟨n, cap, hbuf⟩ := h.1
    have hbuf' := hbuf.of_block hb
    have hn : count m' b = count m b := hbuf'.count_eq.trans hbuf.count_eq.symm
    have hv : m.Valid ⟨b, 8⟩ (s.rep (count m b)).size := by
      rw [Shape.size_rep, hbuf.count_eq]
      exact hbuf.elements
    have hv' : m'.Valid ⟨b, 8⟩ (s.rep (count m b)).size := by
      rw [Shape.size_rep, hbuf.count_eq]
      exact hbuf'.elements
    obtain ⟨hok, he⟩ := (s.rep (count m b)).move h.2 hv hv'
      (Mem.read_congr fun o _ _ => Mem.cellAt_of_block hb o) hc
    rw [hn]
    exact ⟨⟨⟨n, cap, hbuf'⟩, hok⟩, he⟩

section items
variable {s : Shape} {m m' : Mem} {b : Nat} {n cap : UInt32}

theorem items_row (h : (items s).Held m b) : (s.rep (count m b)).Held m ⟨b, 8⟩ := by
  obtain ⟨n, cap, hbuf⟩ := h.ok.1
  refine ⟨?_, h.ok.2, h.nodup, h.apart⟩
  rw [Shape.size_rep, hbuf.count_eq]
  exact hbuf.elements

theorem items_held (hbuf : BufferOk m b s.size n cap) (h : (s.rep n.toNat).Held m ⟨b, 8⟩) :
    (items s).Held m b ∧ (items s).blocks m b = (s.rep n.toNat).blocks m ⟨b, 8⟩ := by
  have hblocks : (items s).blocks m b = (s.rep n.toNat).blocks m ⟨b, 8⟩ := by
    rw [← hbuf.count_eq]
    rfl
  refine ⟨⟨⟨⟨n, cap, hbuf⟩, ?_⟩, ?_, ?_⟩, hblocks⟩
  · rw [hbuf.count_eq]
    exact h.ok
  · rw [hblocks]
    exact h.nodup
  · rw [hblocks]
    exact h.apart

/-- A change of the row of elements is a change of the buffer. -/
theorem Body.Evolves.items (h : (Own.items s).Held m b)
    (he : (s.rep (count m b)).Evolves ⟨b, 8⟩ m m') : (Own.items s).Evolves b m m' := by
  obtain ⟨n, cap, hbuf⟩ := h.ok.1
  have hhead {o : Nat} (ho : o + 4 ≤ 8) : m'.load .u32 ⟨b, o⟩ = m.load .u32 ⟨b, o⟩ := by
    refine Mem.load_congr he.sizeOf fun o' _ h2 => he.outside o' fun ⟨h3, _⟩ => ?_
    simp only [Kind.size] at h2
    simp only at h3
    omega
  have hbuf' : BufferOk m' b s.size n cap := by
    obtain ⟨sz, hsz, hle⟩ := hbuf.room
    exact ⟨(hhead (by decide)).trans hbuf.load_size,
      (hhead (by decide)).trans hbuf.load_cap, hbuf.le,
      ⟨sz, he.sizeOf.trans hsz, hle⟩, hbuf.small⟩
  have hheld := he.held
  have hfresh := he.fresh
  rw [hbuf.count_eq] at hheld hfresh
  obtain ⟨hh, hb'⟩ := items_held hbuf' hheld
  obtain ⟨_, hb⟩ := items_held hbuf (hbuf.count_eq ▸ items_row h)
  refine ⟨fun c hc hne hnot => he.other c hc hne hnot, he.next_le, hh, fun c hc => ?_⟩
  rw [hb'] at hc
  rw [hb]
  exact hfresh c hc

end items
end Msm.Own

namespace Msm.Api
open Msm.CMem Msm.Own

mutual

/-- What a slot of the type owns. Objects are left out. -/
def Ty.shape : Ty → Shape
  | .prim p => .raw p.size
  | .string => .box .bytes
  | .object => .raw 16
  | .array item => .box (items item.shape)
  | .record fields => (Shape.raw 8).seq fields.shape

def Fields.shape : Fields → Shape
  | .nil => .raw 0
  | .cons _ type rest => type.shape.seq rest.shape

end

mutual

theorem Ty.size_shape : ∀ t : Ty, t.shape.size = t.size
  | .prim _ => rfl
  | .string => rfl
  | .object => rfl
  | .array _ => rfl
  | .record fields => congrArg (8 + ·) fields.size_shape

theorem Fields.size_shape : ∀ fs : Fields, fs.shape.size = fs.size
  | .nil => rfl
  | .cons _ type rest => congrArg₂ (· + ·) type.size_shape rest.size_shape

end

section positions
variable {m m' : Mem} {a : Addr} {fs : Fields} {i : Nat} {t : Ty}

/-- A field is held where its record is, and its changes are changes of the record. -/
theorem Fields.shape_field (ht : fs.typeAt i = some t) (h : fs.shape.Held m a) :
    t.shape.Held m (a + fs.before i) ∧
      ∀ m', t.shape.Evolves (a + fs.before i) m m' → fs.shape.Evolves a m m' := by
  induction i generalizing fs a with
  | zero =>
    cases fs with
    | nil => cases ht
    | cons name type rest =>
      cases ht
      obtain ⟨hs, _⟩ := Shape.held_seq.mp h
      exact ⟨hs, fun m' he => he.seq_left h⟩
  | succ i ih =>
    cases fs with
    | nil => cases ht
    | cons name type rest =>
      obtain ⟨_, hr, _⟩ := Shape.held_seq.mp h
      obtain ⟨hf, he⟩ := ih ht hr
      rw [Addr.add_add, type.size_shape] at hf he
      refine ⟨hf, fun m' h' => ?_⟩
      have hr' := he m' h'
      rw [← type.size_shape] at hr'
      exact hr'.seq_right h

theorem Ty.shape_field (ht : fs.typeAt i = some t) (h : (Ty.record fs).shape.Held m a) :
    t.shape.Held m (a + (8 + fs.before i)) ∧ ∀ m', t.shape.Evolves (a + (8 + fs.before i)) m m' →
      (Ty.record fs).shape.Evolves a m m' := by
  obtain ⟨_, hr, _⟩ := Shape.held_seq.mp h
  obtain ⟨hf, he⟩ := Fields.shape_field ht hr
  rw [Addr.add_add] at hf he
  exact ⟨hf, fun m' h' => (he m' h').seq_right h⟩

/-- So is an element below the size. -/
theorem Ty.shape_item {b : Nat} (h : (Ty.array t).shape.Held m a)
    (hp : Shape.pointee m a = some b) (hi : i < count m b) :
    t.shape.Held m ⟨b, 8 + i * t.size⟩ ∧ ∀ m', t.shape.Evolves ⟨b, 8 + i * t.size⟩ m m' →
      (Ty.array t).shape.Evolves a m m' := by
  obtain ⟨hb, _⟩ := Shape.Held.body h hp
  have hrow := items_row hb
  have hitem := hrow.at hi
  rw [t.size_shape] at hitem
  refine ⟨hitem, fun m' he => ?_⟩
  rw [← t.size_shape] at he
  exact .box h hp (.items hb (.rep hrow hi he))

end positions
end Msm.Api
