import Msm.CMem.Frees

/-! # Memories that hold addresses of blocks only

A pointer in memory is the address of a block as `malloc` has returned it, with
no offset added, as long as programs store no other. -/
namespace Msm.CMem
open Msm.Exec

/-- Not a part of an address inside a block. -/
def Cell.Base : Cell → Prop
  | .frag a _ => a.off = 0
  | _ => True

/-- Not an address inside a block. -/
def Kind.Base (k : Kind) (v : k.Val) : Prop := ∀ c ∈ k.encode v, c.Base

def Mem.Bases (m : Mem) : Prop := ∀ b o, (m.cellAt b o).Base

/-- The action stores no address inside a block. -/
def Act.StoresBases : Act → Prop
  | .store _ k _ v => k.Base v
  | .copyIn _ cs => ∀ c ∈ cs, c.Base
  | _ => True

/-- The result holds no address inside a block. -/
def Act.GivesBases : (a : Act) → a.Res → Prop
  | .load _ k _, v => k.Base v
  | .malloc _, p => Kind.ptr.Base p
  | .copyOut .., cs => ∀ c ∈ cs, c.Base
  | .store .., _ => True
  | .copyIn .., _ => True
  | .memcpy .., _ => True
  | .zero .., _ => True
  | .free _, _ => True
  | .abort .., _ => True

/-- The program stores no address inside a block, given none. -/
abbrev Based {α : Type} (Q : α → Prop) (p : CProg α) : Prop :=
  p.Within Act.StoresBases Act.GivesBases Q

theorem base_of_mem_bytesLE {n v : Nat} {c : Cell} (h : c ∈ bytesLE n v) : c.Base := by
  induction n generalizing v with
  | zero => cases h
  | succ n ih =>
    rcases List.mem_cons.mp h with rfl | h
    · trivial
    · exact ih h

namespace Kind

theorem base_u8 (v : UInt8) : Kind.u8.Base v := fun _ => base_of_mem_bytesLE
theorem base_u16 (v : UInt16) : Kind.u16.Base v := fun _ => base_of_mem_bytesLE
theorem base_u32 (v : UInt32) : Kind.u32.Base v := fun _ => base_of_mem_bytesLE
theorem base_u64 (v : UInt64) : Kind.u64.Base v := fun _ => base_of_mem_bytesLE
theorem base_null : Kind.ptr.Base none := fun _ => base_of_mem_bytesLE

theorem base_some {a : Addr} : Kind.ptr.Base (some a) ↔ a.off = 0 := by
  constructor
  · intro h
    exact h (.frag a 0) (by simp [encode])
  · intro h c hc
    obtain ⟨i, _, rfl⟩ := List.mem_map.mp hc
    exact h

end Kind

namespace Mem
variable {m m' : Mem}

theorem Bases.write (h : m.Bases) (a : Addr) {cs : List Cell} (hcs : ∀ c ∈ cs, c.Base) :
    (m.write a cs).Bases := by
  intro b o
  by_cases hin : a.block = b ∧ a.off ≤ o ∧ o < a.off + cs.length
  · obtain ⟨rfl, hle, hlt⟩ := hin
    cases hb : m.block a.block with
    | none => simp [cellAt, block_write, hb, Cell.Base]
    | some blk =>
      have hget : cs[o - a.off]? = some cs[o - a.off] := List.getElem?_eq_getElem (by omega)
      have hcell : (m.write a cs).cellAt a.block o = cs[o - a.off] := by
        simp [cellAt, block_write, hb, Block.write, hle, hget]
      rw [hcell]
      exact hcs _ (List.getElem_mem _)
  · rw [cellAt_write_of_not hin]
    exact h b o

theorem Bases.read (h : m.Bases) (a : Addr) (n : Nat) : ∀ c ∈ m.read a n, c.Base := by
  intro c hc
  obtain ⟨i, _, rfl⟩ := List.mem_map.mp hc
  exact h _ _

theorem Bases.alloc (h : m.Bases) (n : Nat) : (m.alloc n).Bases := by
  intro b o
  by_cases hb : b = m.next
  · subst hb
    simp [cellAt, block, Mem.alloc, next, Cell.Base]
  · rw [cellAt_alloc_of_ne m n hb]
    exact h b o

theorem Bases.free (h : m.Bases) (b : Nat) : (m.free b).Bases := by
  intro c o
  by_cases hc : c = b
  · subst hc
    simp [cellAt, m.block_free_self, Cell.Base]
  · rw [cellAt_of_block (m.block_free_of_ne hc)]
    exact h c o

/-- The bytes of an address are parts of it. -/
theorem decode_base {cs : List Cell} {b : Addr} (h : Kind.ptr.decode cs = some (some b))
    (hcs : ∀ c ∈ cs, c.Base) : b.off = 0 := by
  have hzero (cs : List Cell) :
      (if ofBytesLE cs = some 0 then some none else none : Option Ptr) ≠ some (some b) := by
    split <;> simp
  cases cs with
  | nil => exact absurd h (hzero [])
  | cons c cs =>
    cases c with
    | frag a i =>
      simp only [Kind.decode] at h
      split at h
      · cases h
        exact hcs (.frag b i) List.mem_cons_self
      · cases h
    | indet =>
      simp only [Kind.decode] at h
      exact absurd h (hzero _)
    | byte x =>
      simp only [Kind.decode] at h
      exact absurd h (hzero _)

theorem Bases.load (h : m.Bases) {k : Kind} {a : Addr} {v : k.Val} (hl : m.load k a = some v) :
    k.Base v := by
  cases k with
  | u8 => exact Kind.base_u8 v
  | u16 => exact Kind.base_u16 v
  | u32 => exact Kind.base_u32 v
  | u64 => exact Kind.base_u64 v
  | ptr =>
    cases v with
    | none => exact Kind.base_null
    | some b =>
      rw [Mem.load] at hl
      split at hl
      · have hread := h.read a Kind.ptr.size
        generalize m.read a Kind.ptr.size = cs at hl hread
        exact Kind.base_some.mpr (decode_base hl hread)
      · cases hl

/-- An access that does not fault has an address. -/
theorem access_bind {β : Type} {p : Ptr} {n : Nat} {f : Addr → Except Fault β} {y : β}
    (h : (m.access p n).bind f = .ok y) : ∃ a, f a = .ok y := by
  cases ha : m.access p n with
  | error e => rw [ha] at h; cases h
  | ok a => rw [ha] at h; exact ⟨a, h⟩

/-- **No address inside a block is ever in memory** if none is stored. -/
theorem Bases.exec (h : m.Bases) {x : Act} {r : x.Res} (hx : x.StoresBases)
    (he : m.exec x = .ok (r, m')) : m'.Bases ∧ x.GivesBases r := by
  cases x with
  | load o k p =>
    cases Act.IsRead.state_eq (a := .load o k p) trivial he
    refine ⟨h, ?_⟩
    obtain ⟨a, he⟩ := access_bind he
    split at he
    · rename_i hl
      cases he
      exact h.load hl
    · cases he
  | copyOut p n =>
    cases Act.IsRead.state_eq (a := .copyOut p n) trivial he
    obtain ⟨a, he⟩ := access_bind he
    cases he
    exact ⟨h, h.read a n⟩
  | store o k p v =>
    obtain ⟨a, he⟩ := access_bind he
    cases he
    exact ⟨h.write a hx, trivial⟩
  | copyIn p cs =>
    obtain ⟨a, he⟩ := access_bind he
    cases he
    exact ⟨h.write a hx, trivial⟩
  | memcpy dst src n =>
    obtain ⟨a, he⟩ := access_bind he
    obtain ⟨b, he⟩ := access_bind he
    cases he
    exact ⟨h.write a (h.read b n), trivial⟩
  | zero p n =>
    obtain ⟨a, he⟩ := access_bind he
    cases he
    exact ⟨h.write a fun c hc => by rw [List.eq_of_mem_replicate hc]; trivial, trivial⟩
  | malloc n =>
    cases hm : m.mallocOk with
    | true =>
      rw [exec_malloc_ok hm] at he
      cases he
      exact ⟨Bases.alloc (m := m.tick) h n, Kind.base_some.mpr rfl⟩
    | false =>
      rw [exec_malloc_fail hm] at he
      cases he
      exact ⟨h, Kind.base_null⟩
  | free p =>
    refine ⟨?_, trivial⟩
    cases p with
    | none => cases he; exact h
    | some a =>
      simp only [Mem.exec] at he
      split at he
      · cases he
        exact h.free a.block
      · cases he
  | abort f y => cases he

theorem Bases.run {α : Type} {Q : α → Prop} {p : CProg α} {x : α} (h : m.Bases) (hp : Based Q p)
    (hr : p.run m = .ok (x, m')) : m'.Bases ∧ Q x :=
  hp.run (fun _ _ _ _ hI hP he => Bases.exec hI hP he) h hr

end Mem
end Msm.CMem
