import Mathlib.Algebra.Group.Nat.Defs
import Mathlib.Data.List.Basic
import Mathlib.Data.Nat.Init

/-! # A byte memory of heap blocks

Blocks of bytes, addressed by block and offset. A byte is a number or, where a
pointer was stored, one of its eight pieces, so an address is never made out of
numbers. `Mem.load` and `Mem.write` come with the lemmas everything above uses:
a load depends on the bytes of its range only, and what it gives after a write
of the same range, of a range around it, and of a disjoint range. -/
namespace Msm.CMem

structure Addr where
  block : Nat
  off : Nat
deriving DecidableEq, Repr

instance : HAdd Addr Nat Addr := ⟨fun a n => ⟨a.block, a.off + n⟩⟩

@[simp] theorem Addr.add_block (a : Addr) (n : Nat) : (a + n).block = a.block := rfl
@[simp] theorem Addr.add_off (a : Addr) (n : Nat) : (a + n).off = a.off + n := rfl
@[simp] theorem Addr.mk_add (b o n : Nat) : (⟨b, o⟩ : Addr) + n = ⟨b, o + n⟩ := rfl
@[simp] theorem Addr.add_zero (a : Addr) : a + 0 = a := rfl
theorem Addr.add_add (a : Addr) (m n : Nat) : a + m + n = a + (m + n) := by
  cases a; simp [Nat.add_assoc]

/-- A pointer value; `none` is the null pointer, which arithmetic keeps null. -/
abbrev Ptr := Option Addr

instance : HAdd Ptr Nat Ptr := ⟨fun p n => p.map (· + n)⟩

@[simp] theorem Ptr.some_add (a : Addr) (n : Nat) : (some a : Ptr) + n = some (a + n) := rfl
@[simp] theorem Ptr.none_add (n : Nat) : (none : Ptr) + n = none := rfl

inductive Cell where
  | indet
  | byte (b : UInt8)
  | frag (a : Addr) (i : Nat)
deriving DecidableEq, Repr

/-! ## Scalars as bytes, low byte first -/

def bytesLE : Nat → Nat → List Cell
  | 0, _ => []
  | n + 1, v => .byte (UInt8.ofNat v) :: bytesLE n (v / 256)

def ofBytesLE : List Cell → Option Nat
  | [] => some 0
  | .byte b :: cs => (ofBytesLE cs).map (b.toNat + 256 * ·)
  | _ :: _ => none

@[simp] theorem length_bytesLE (n v : Nat) : (bytesLE n v).length = n := by
  induction n generalizing v with
  | zero => rfl
  | succ n ih => simp [bytesLE, ih]

theorem ofBytesLE_bytesLE (n v : Nat) : ofBytesLE (bytesLE n v) = some (v % 256 ^ n) := by
  induction n generalizing v with
  | zero => simp [bytesLE, ofBytesLE, Nat.mod_one]
  | succ n ih =>
    have hb : (UInt8.ofNat v).toNat = v % 256 := rfl
    rw [bytesLE, ofBytesLE, ih, Option.map_some, hb, Nat.pow_succ', Nat.mod_mul]

inductive Kind where
  | u8 | u16 | u32 | u64 | ptr
deriving DecidableEq, Repr

namespace Kind

abbrev Val : Kind → Type
  | .u8 => UInt8
  | .u16 => UInt16
  | .u32 => UInt32
  | .u64 => UInt64
  | .ptr => Ptr

def size : Kind → Nat
  | .u8 => 1
  | .u16 => 2
  | .u32 => 4
  | .u64 => 8
  | .ptr => 8

def encode : (k : Kind) → k.Val → List Cell
  | .u8, v => bytesLE 1 v.toNat
  | .u16, v => bytesLE 2 v.toNat
  | .u32, v => bytesLE 4 v.toNat
  | .u64, v => bytesLE 8 v.toNat
  | .ptr, none => bytesLE 8 0
  | .ptr, some a => (List.range 8).map (.frag a)

def decode : (k : Kind) → List Cell → Option k.Val
  | .u8, cs => (ofBytesLE cs).map UInt8.ofNat
  | .u16, cs => (ofBytesLE cs).map UInt16.ofNat
  | .u32, cs => (ofBytesLE cs).map UInt32.ofNat
  | .u64, cs => (ofBytesLE cs).map UInt64.ofNat
  | .ptr, cs => match cs with
    | .frag a _ :: _ => if cs = (List.range 8).map (.frag a) then some (some a) else none
    | _ => if ofBytesLE cs = some 0 then some none else none

/-- What a range of zero bytes decodes to. -/
def zero : (k : Kind) → k.Val
  | .u8 => 0
  | .u16 => 0
  | .u32 => 0
  | .u64 => 0
  | .ptr => none

@[simp] theorem length_encode (k : Kind) (v : k.Val) : (k.encode v).length = k.size := by
  cases k with
  | ptr => cases v <;> simp [encode, size]
  | _ => simp [encode, size]

@[simp] theorem decode_encode (k : Kind) (v : k.Val) : k.decode (k.encode v) = some v := by
  cases k with
  | u8 => simp [encode, decode, ofBytesLE_bytesLE, Nat.mod_eq_of_lt v.toNat_lt]
  | u16 => simp [encode, decode, ofBytesLE_bytesLE, Nat.mod_eq_of_lt v.toNat_lt]
  | u32 => simp [encode, decode, ofBytesLE_bytesLE, Nat.mod_eq_of_lt v.toNat_lt]
  | u64 => simp [encode, decode, ofBytesLE_bytesLE, Nat.mod_eq_of_lt v.toNat_lt]
  | ptr =>
    cases v with
    | none => rfl
    | some a => simp [encode, decode, List.range_succ_eq_map]

@[simp] theorem decode_zero (k : Kind) : k.decode (List.replicate k.size (.byte 0)) = some k.zero := by
  cases k <;> rfl

end Kind

/-! ## Blocks and memories -/

structure Block where
  size : Nat
  cell : Nat → Cell

/-- The blocks in allocation order, `none` once freed, and the outcomes of the
allocations to come: each succeeds or fails as `script` says, and succeeds when
the script is over. -/
structure Mem where
  blocks : List (Option Block)
  script : List Bool

namespace Mem

/-- The block the next successful allocation creates. -/
def next (m : Mem) : Nat := m.blocks.length

def block (m : Mem) (b : Nat) : Option Block := m.blocks[b]?.join

def sizeOf (m : Mem) (b : Nat) : Option Nat := (m.block b).map Block.size

def cellAt (m : Mem) (b o : Nat) : Cell := ((m.block b).map (·.cell o)).getD .indet

/-- The `n` bytes at `a` lie inside a block that is allocated. -/
def Valid (m : Mem) (a : Addr) (n : Nat) : Prop := ∃ sz, m.sizeOf a.block = some sz ∧ a.off + n ≤ sz

instance (m : Mem) (a : Addr) (n : Nat) : Decidable (m.Valid a n) :=
  match h : m.sizeOf a.block with
  | none => isFalse (by rintro ⟨sz, hs, _⟩; rw [h] at hs; cases hs)
  | some sz => decidable_of_iff (a.off + n ≤ sz) (by
      constructor
      · intro hle; exact ⟨sz, h, hle⟩
      · rintro ⟨sz', hs, hle⟩; rw [h] at hs; cases hs; exact hle)

def read (m : Mem) (a : Addr) (n : Nat) : List Cell :=
  (List.range n).map fun i => m.cellAt a.block (a.off + i)

def Block.write (blk : Block) (o : Nat) (cs : List Cell) : Block where
  size := blk.size
  cell i := if o ≤ i then (cs[i - o]?).getD (blk.cell i) else blk.cell i

def write (m : Mem) (a : Addr) (cs : List Cell) : Mem :=
  { m with blocks := m.blocks.modify a.block (·.map fun blk => Block.write blk a.off cs) }

def load (m : Mem) (k : Kind) (a : Addr) : Option k.Val :=
  if m.Valid a k.size then k.decode (m.read a k.size) else none

/-- A new block of `n` bytes, of indeterminate content. -/
def alloc (m : Mem) (n : Nat) : Mem :=
  { m with blocks := m.blocks ++ [some ⟨n, fun _ => .indet⟩] }

def free (m : Mem) (b : Nat) : Mem := { m with blocks := m.blocks.set b none }

@[simp] theorem write_script (m : Mem) (a : Addr) (cs : List Cell) :
    (m.write a cs).script = m.script := rfl
@[simp] theorem write_next (m : Mem) (a : Addr) (cs : List Cell) :
    (m.write a cs).next = m.next := by simp [next, write]

theorem sizeOf_lt {m : Mem} {b sz : Nat} (h : m.sizeOf b = some sz) : b < m.next := by
  obtain ⟨blk, hb, _⟩ := Option.map_eq_some_iff.mp h
  rw [block, Option.join_eq_some_iff] at hb
  exact (List.getElem?_eq_some_iff.mp hb).1

theorem Valid.lt {m : Mem} {a : Addr} {n : Nat} (h : m.Valid a n) : a.block < m.next := by
  obtain ⟨sz, hs, _⟩ := h
  exact sizeOf_lt hs

theorem Valid.mono {m : Mem} {a : Addr} {n : Nat} (h : m.Valid a n) {d k : Nat} (hd : d + k ≤ n) :
    m.Valid (a + d) k := by
  obtain ⟨sz, hs, hle⟩ := h
  exact ⟨sz, hs, by simp only [Addr.add_off]; omega⟩

theorem Valid.le {m : Mem} {a : Addr} {n k : Nat} (h : m.Valid a n) (hk : k ≤ n) : m.Valid a k := by
  obtain ⟨sz, hs, hle⟩ := h
  exact ⟨sz, hs, by omega⟩

/-! ## What a write and an allocation change -/

theorem block_write (m : Mem) (a : Addr) (cs : List Cell) (b : Nat) :
    (m.write a cs).block b =
      if a.block = b then (m.block b).map fun blk => Block.write blk a.off cs else m.block b := by
  simp only [block, write, List.getElem?_modify]
  split
  · cases m.blocks[b]? with
    | none => rfl
    | some o => cases o <;> rfl
  · cases m.blocks[b]? <;> rfl

theorem block_write_of_ne (m : Mem) {a : Addr} (cs : List Cell) {b : Nat} (h : b ≠ a.block) :
    (m.write a cs).block b = m.block b := by
  rw [block_write, if_neg (Ne.symm h)]

@[simp] theorem sizeOf_write (m : Mem) (a : Addr) (cs : List Cell) (b : Nat) :
    (m.write a cs).sizeOf b = m.sizeOf b := by
  simp only [sizeOf, block_write]
  split
  · cases m.block b <;> rfl
  · rfl

@[simp] theorem valid_write (m : Mem) (a a' : Addr) (cs : List Cell) (n : Nat) :
    (m.write a cs).Valid a' n ↔ m.Valid a' n := by simp only [Valid, sizeOf_write]

/-- A byte outside the written range stays. -/
theorem cellAt_write_of_not {m : Mem} {a : Addr} {cs : List Cell} {b o : Nat}
    (h : ¬ (a.block = b ∧ a.off ≤ o ∧ o < a.off + cs.length)) :
    (m.write a cs).cellAt b o = m.cellAt b o := by
  simp only [cellAt, block_write]
  split
  · rename_i hb
    cases m.block b with
    | none => rfl
    | some blk =>
      simp only [Option.map_some, Option.getD_some, Block.write]
      split
      · rw [List.getElem?_eq_none (by omega)]; rfl
      · rfl
  · rfl

/-- A byte of the written range. -/
theorem cellAt_write {m : Mem} {a : Addr} {cs : List Cell} (hv : m.Valid a cs.length) {i : Nat}
    {c : Cell} (h : cs[i]? = some c) : (m.write a cs).cellAt a.block (a.off + i) = c := by
  obtain ⟨sz, hs, _⟩ := hv
  obtain ⟨blk, hb, _⟩ := Option.map_eq_some_iff.mp hs
  simp [cellAt, block_write, hb, Block.write, h]

theorem alloc_next (m : Mem) (n : Nat) : (m.alloc n).next = m.next + 1 := by simp [next, alloc]

theorem block_alloc_of_ne (m : Mem) (n : Nat) {b : Nat} (h : b ≠ m.next) :
    (m.alloc n).block b = m.block b := by
  simp only [block, alloc]
  by_cases hb : b < m.blocks.length
  · rw [List.getElem?_append_left hb]
  · have : m.blocks.length < b := Nat.lt_of_le_of_ne (Nat.le_of_not_lt hb) (Ne.symm h)
    rw [List.getElem?_eq_none (by simp; omega), List.getElem?_eq_none (by omega)]

theorem cellAt_alloc_of_ne (m : Mem) (n : Nat) {b : Nat} (h : b ≠ m.next) (o : Nat) :
    (m.alloc n).cellAt b o = m.cellAt b o := by simp only [cellAt, block_alloc_of_ne m n h]

theorem sizeOf_alloc (m : Mem) (n : Nat) : (m.alloc n).sizeOf m.next = some n := by
  simp [sizeOf, block, alloc, next]

/-! ## Loads -/

theorem length_read (m : Mem) (a : Addr) (n : Nat) : (m.read a n).length = n := by simp [read]

theorem read_getElem (m : Mem) (a : Addr) {n i : Nat} (h : i < n) :
    (m.read a n)[i]? = some (m.cellAt a.block (a.off + i)) := by simp [read, h]

theorem read_add (m : Mem) (a : Addr) (n k : Nat) :
    m.read a (n + k) = m.read a n ++ m.read (a + n) k := by
  simp [read, List.range_add, Function.comp_def, Nat.add_assoc]

theorem read_congr {m m' : Mem} {a : Addr} {n : Nat}
    (h : ∀ o, a.off ≤ o → o < a.off + n → m'.cellAt a.block o = m.cellAt a.block o) :
    m'.read a n = m.read a n := by
  refine List.map_congr_left fun i hi => h _ (Nat.le_add_right _ _) ?_
  have := List.mem_range.mp hi
  omega

/-- A load depends on the block's size and the bytes of its range. -/
theorem load_congr {m m' : Mem} {k : Kind} {a : Addr} (hs : m'.sizeOf a.block = m.sizeOf a.block)
    (h : ∀ o, a.off ≤ o → o < a.off + k.size → m'.cellAt a.block o = m.cellAt a.block o) :
    m'.load k a = m.load k a := by
  have hv : m'.Valid a k.size ↔ m.Valid a k.size := by simp only [Valid, hs]
  simp only [load, hv, read_congr h]

/-- A load inside a range that has not changed. -/
theorem load_within {m m' : Mem} {k : Kind} {a : Addr} {d n : Nat} (hd : d + k.size ≤ n)
    (hs : m'.sizeOf a.block = m.sizeOf a.block)
    (hc : ∀ o, a.off ≤ o → o < a.off + n → m'.cellAt a.block o = m.cellAt a.block o) :
    m'.load k (a + d) = m.load k (a + d) :=
  load_congr hs fun o h1 h2 => hc o (by simp at h1; omega) (by simp at h2; omega)

theorem load_valid {m : Mem} {k : Kind} {a : Addr} {v : k.Val} (h : m.load k a = some v) :
    m.Valid a k.size := by
  rw [load] at h
  split at h
  · assumption
  · cases h

/-- Bytes `d` to `d + n` of a written list, read back. -/
theorem read_write_inside {m : Mem} {a : Addr} {cs : List Cell} (hv : m.Valid a cs.length)
    {d n : Nat} (h : d + n ≤ cs.length) :
    (m.write a cs).read (a + d) n = (cs.drop d).take n := by
  refine List.ext_getElem? fun i => ?_
  by_cases hi : i < n
  · rw [read_getElem _ _ hi, List.getElem?_take_of_lt hi, List.getElem?_drop]
    have hd : d + i < cs.length := by omega
    rw [Addr.add_off, Addr.add_block, Nat.add_assoc,
      cellAt_write hv (List.getElem?_eq_getElem hd), List.getElem?_eq_getElem hd]
  · rw [List.getElem?_eq_none (by rw [length_read]; omega),
      List.getElem?_eq_none (by simp; omega)]

theorem read_write_same {m : Mem} {a : Addr} {cs : List Cell} (hv : m.Valid a cs.length) :
    (m.write a cs).read a cs.length = cs := by
  have h := read_write_inside hv (d := 0) (n := cs.length) (by omega)
  simpa using h

theorem read_write_all {m : Mem} {a : Addr} {cs : List Cell} {n : Nat} (hv : m.Valid a n)
    (hn : cs.length = n) : (m.write a cs).read a n = cs := by
  subst hn
  exact read_write_same hv

/-- The ranges `[a, a + n)` and `[a', a' + n')` share no byte. -/
def Apart (a : Addr) (n : Nat) (a' : Addr) (n' : Nat) : Prop :=
  a.block = a'.block → a.off + n ≤ a'.off ∨ a'.off + n' ≤ a.off

theorem read_write_apart {m : Mem} {a a' : Addr} {cs : List Cell} {n : Nat}
    (h : Apart a cs.length a' n) : (m.write a cs).read a' n = m.read a' n := by
  refine read_congr fun o h1 h2 => cellAt_write_of_not ?_
  rintro ⟨hb, h3, h4⟩
  rcases h hb with h | h <;> omega

theorem load_write_apart {m : Mem} {a a' : Addr} {cs : List Cell} {k : Kind}
    (h : Apart a cs.length a' k.size) : (m.write a cs).load k a' = m.load k a' := by
  simp only [load, valid_write, read_write_apart h]

theorem load_write_inside {m : Mem} {a : Addr} {cs : List Cell} (hv : m.Valid a cs.length)
    {k : Kind} {d : Nat} (h : d + k.size ≤ cs.length) :
    (m.write a cs).load k (a + d) = k.decode ((cs.drop d).take k.size) := by
  rw [load, if_pos ((valid_write ..).mpr (hv.mono h)), read_write_inside hv h]

theorem load_write_same {m : Mem} {a : Addr} {k : Kind} (v : k.Val) (hv : m.Valid a k.size) :
    (m.write a (k.encode v)).load k a = some v := by
  have hlen : m.Valid a (k.encode v).length := by simpa using hv
  have h := load_write_inside hlen (k := k) (d := 0) (by simp)
  rw [List.drop_zero, List.take_of_length_le (by simp), Kind.decode_encode] at h
  exact h

/-- A scalar inside a range that has been zeroed. -/
theorem load_write_zeros {m : Mem} {a : Addr} {n : Nat} (hv : m.Valid a n) {k : Kind} {d : Nat}
    (h : d + k.size ≤ n) :
    (m.write a (List.replicate n (.byte 0))).load k (a + d) = some k.zero := by
  rw [load_write_inside (by simpa using hv) (by simpa using h), List.drop_replicate,
    List.take_replicate, Nat.min_eq_left (by omega), Kind.decode_zero]

/-- A scalar inside a range that has been copied from `src`. -/
theorem load_write_copy {m : Mem} {dst src : Addr} {n : Nat} (hv : m.Valid dst n)
    (hs : m.Valid src n) {k : Kind} {d : Nat} (h : d + k.size ≤ n) :
    (m.write dst (m.read src n)).load k (dst + d) = m.load k (src + d) := by
  rw [load_write_inside (by simpa [length_read] using hv) (by simpa [length_read] using h), load,
    if_pos (hs.mono h)]
  congr 1
  refine List.ext_getElem? fun i => ?_
  by_cases hi : i < k.size
  · rw [List.getElem?_take_of_lt hi, List.getElem?_drop, read_getElem _ _ hi,
      read_getElem _ _ (by omega), Addr.add_off, Addr.add_block, Nat.add_assoc]
  · rw [List.getElem?_eq_none (by simp; omega), List.getElem?_eq_none (by rw [length_read]; omega)]

/-- A part of a range, read on its own. -/
theorem read_part (m : Mem) (a : Addr) {k d n : Nat} (h : d + n ≤ k) :
    ((m.read a k).drop d).take n = m.read (a + d) n := by
  refine List.ext_getElem? fun i => ?_
  by_cases hi : i < n
  · rw [List.getElem?_take_of_lt hi, List.getElem?_drop, read_getElem _ _ (by omega),
      read_getElem _ _ hi, Addr.add_off, Addr.add_block, Nat.add_assoc]
  · rw [List.getElem?_eq_none (by simp; omega), List.getElem?_eq_none (by rw [length_read]; omega)]

/-- A scalar inside equal bytes. -/
theorem load_of_read {m m' : Mem} {a a' : Addr} {n : Nat} (hv : m.Valid a n) (hv' : m'.Valid a' n)
    (hr : m'.read a' n = m.read a n) {k : Kind} {d : Nat} (h : d + k.size ≤ n) :
    m'.load k (a' + d) = m.load k (a + d) := by
  rw [load, load, if_pos (hv'.mono h), if_pos (hv.mono h), ← m'.read_part a' h, ← m.read_part a h, hr]

/-- The bytes `v` with `cs` written over them from position `d` on. -/
def splice (v : List Cell) (d : Nat) (cs : List Cell) : List Cell :=
  v.take d ++ cs ++ v.drop (d + cs.length)

theorem getElem?_splice {v cs : List Cell} {d : Nat} (h : d + cs.length ≤ v.length) (i : Nat) :
    (splice v d cs)[i]? = if d ≤ i ∧ i < d + cs.length then cs[i - d]? else v[i]? := by
  have hlen : (v.take d).length = d := List.length_take_of_le (by omega)
  rw [splice, List.append_assoc]
  by_cases h1 : i < d
  · rw [List.getElem?_append_left (by omega), List.getElem?_take_of_lt h1, if_neg (by omega)]
  · rw [List.getElem?_append_right (by omega), hlen]
    by_cases h2 : i < d + cs.length
    · rw [List.getElem?_append_left (by omega), if_pos (by omega)]
    · rw [List.getElem?_append_right (by omega), List.getElem?_drop, if_neg (by omega)]
      congr 1
      omega

/-- A range part of which has been written. -/
theorem read_write_splice {m : Mem} {a : Addr} {cs : List Cell} {d n : Nat} (hv : m.Valid a n)
    (h : d + cs.length ≤ n) : (m.write (a + d) cs).read a n = splice (m.read a n) d cs := by
  obtain ⟨r, rfl⟩ := Nat.exists_eq_add_of_le h
  have hcs : m.Valid (a + d) cs.length := hv.mono (by omega)
  have h1 : (m.write (a + d) cs).read a d = m.read a d :=
    read_write_apart fun _ => .inr (Nat.le_refl _)
  have h2 : (m.write (a + d) cs).read (a + (d + cs.length)) r = m.read (a + (d + cs.length)) r :=
    read_write_apart fun _ => .inl (by simp only [Addr.add_off]; omega)
  have hsplit (m' : Mem) : m'.read a (d + cs.length + r) =
      m'.read a d ++ m'.read (a + d) cs.length ++ m'.read (a + (d + cs.length)) r := by
    rw [read_add, read_add]
  have htake : (m.read a (d + cs.length + r)).take d = m.read a d := by
    simpa using m.read_part a (k := d + cs.length + r) (d := 0) (n := d) (by omega)
  have hdrop : (m.read a (d + cs.length + r)).drop (d + cs.length) =
      m.read (a + (d + cs.length)) r := by
    rw [read_add, List.drop_left' (length_read ..)]
  rw [splice, htake, hdrop, hsplit, h1, h2, read_write_same hcs]

end Mem
end Msm.CMem
