import Msm.Own.Shape

/-! # Slots that own a block

A slot has a pointer to a block of its own, or null. What is in the block is a
body: it may own further blocks. A slot evolves when the body of its block does,
or when its pointer is replaced. -/
namespace Msm.Own
open Msm.CMem

/-- What a block means, and the blocks that slots in it own. -/
structure Body where
  Ok : Mem → Nat → Prop
  owned : Mem → Nat → List (Addr × Nat)
  live : ∀ {m b}, Ok m b → m.sizeOf b ≠ none ∧ ∀ c ∈ (owned m b).map Prod.snd, m.sizeOf c ≠ none
  frame : ∀ {m m' b}, Ok m b → m'.block b = m.block b →
    (∀ c ∈ (owned m b).map Prod.snd, m'.block c = m.block c) →
    Ok m' b ∧ (owned m' b).map Prod.snd = (owned m b).map Prod.snd

namespace Body

def blocks (B : Body) (m : Mem) (b : Nat) : List Nat := (B.owned m b).map Prod.snd

structure Held (B : Body) (m : Mem) (b : Nat) : Prop where
  ok : B.Ok m b
  nodup : (B.blocks m b).Nodup
  apart : b ∉ B.blocks m b

/-- From `m` to `m'` nothing has changed but the block, the blocks owned in it and
new blocks. -/
def Confined (B : Body) (b : Nat) (m m' : Mem) : Prop :=
  ∀ c, c < m.next → c ≠ b → c ∉ B.blocks m b → m'.block c = m.block c

/-- ... and the block is held again, with no other blocks in it. -/
structure Evolves (B : Body) (b : Nat) (m m' : Mem) : Prop where
  confined : B.Confined b m m'
  next_le : m.next ≤ m'.next
  held : B.Held m' b
  fresh : ∀ c ∈ B.blocks m' b, c ∈ B.blocks m b ∨ m.next ≤ c

/-- A block of which only the size matters. -/
def bytes : Body where
  Ok m b := m.sizeOf b ≠ none
  owned _ _ := []
  live h := ⟨h, nofun⟩
  frame h hb _ := ⟨by rwa [Mem.sizeOf_of_block hb], rfl⟩

section lemmas
variable {B : Body} {m m' : Mem} {b : Nat}

theorem Held.frame (h : B.Held m b) (hb : m'.block b = m.block b)
    (hc : ∀ c ∈ B.blocks m b, m'.block c = m.block c) :
    B.Held m' b ∧ B.blocks m' b = B.blocks m b := by
  obtain ⟨hok, he⟩ := B.frame h.ok hb hc
  have he' : B.blocks m' b = B.blocks m b := he
  exact ⟨⟨hok, he' ▸ h.nodup, he' ▸ h.apart⟩, he'⟩

end lemmas
end Body

namespace Shape

/-- The block that the slot at `a` points to. -/
def pointee (m : Mem) (a : Addr) : Option Nat :=
  (m.load .ptr (a + 8)).bind fun p => p.map Addr.block

theorem pointee_of_load {m : Mem} {a : Addr} {c : Option Nat}
    (h : m.load .ptr (a + 8) = some (basePtr c)) : pointee m a = c := by
  rw [pointee, h]
  cases c <;> rfl

/-- A 16-byte slot: a header, and a pointer to a block or null. -/
def box (B : Body) : Shape where
  size := 16
  Ok m a := m.load .ptr (a + 8) = some (basePtr (pointee m a)) ∧
    ∀ b, pointee m a = some b → B.Ok m b
  owned m a := (pointee m a).elim [] fun b => B.owned m b ++ [(a, b)]
  live {m a} h b hb := by
    cases hc : pointee m a with
    | none =>
      rw [hc] at hb
      cases hb
    | some c =>
      obtain ⟨hl, hlive⟩ := B.live (h.2 c hc)
      rw [hc, Option.elim_some, List.map_append, List.mem_append] at hb
      rcases hb with hb | hb
      · exact hlive b hb
      · rw [List.mem_singleton.mp hb]
        exact hl
  move {m m' a a'} h hv hv' hr hb := by
    have hl : m'.load .ptr (a' + 8) = m.load .ptr (a + 8) := Mem.load_of_read hv hv' hr (by decide)
    have hp : pointee m' a' = pointee m a := by rw [pointee, pointee, hl]
    rw [hl, hp]
    cases hc : pointee m a with
    | none => exact ⟨⟨hc ▸ h.1, nofun⟩, rfl⟩
    | some c =>
      rw [hc, Option.elim_some, List.map_append] at hb
      obtain ⟨hok, he⟩ := B.frame (h.2 c hc) (hb c (List.mem_append_right _ List.mem_cons_self))
        fun d hd => hb d (List.mem_append_left _ hd)
      refine ⟨⟨hc ▸ h.1, fun b hbc => ?_⟩, ?_⟩
      · cases hbc
        exact hok
      · rw [Option.elim_some, Option.elim_some, List.map_append, List.map_append, he]
        rfl
  zero {m a} hv hr := by
    have hl : m.load .ptr (a + 8) = some none := by
      rw [Mem.load, if_pos (hv.mono (by decide)), ← m.read_part a (k := 16) (by decide), hr]
      rfl
    have hp : pointee m a = none := pointee_of_load (c := none) hl
    rw [hp]
    exact ⟨⟨hl, nofun⟩, rfl⟩

section lemmas
variable {B : Body} {m m' : Mem} {a : Addr} {b : Nat}

theorem owned_box : (box B).owned m a =
    (pointee m a).elim [] fun b => B.owned m b ++ [(a, b)] := rfl

theorem mem_owned_box {y : Addr × Nat} : y ∈ (box B).owned m a ↔
    ∃ b, pointee m a = some b ∧ (y = (a, b) ∨ y ∈ B.owned m b) := by
  rw [owned_box]
  cases pointee m a with
  | none => exact ⟨nofun, fun ⟨_, hb, _⟩ => nomatch hb⟩
  | some b =>
    rw [Option.elim_some, List.mem_append, List.mem_singleton, or_comm]
    constructor
    · intro hy
      exact ⟨b, rfl, hy⟩
    · intro ⟨_, hb, hy⟩
      cases hb
      exact hy

theorem blocks_box_none (h : pointee m a = none) : (box B).blocks m a = [] := by
  rw [blocks, owned_box, h]
  rfl

theorem blocks_box_some (h : pointee m a = some b) :
    (box B).blocks m a = B.blocks m b ++ [b] := by
  rw [blocks, owned_box, h, Option.elim_some, List.map_append]
  rfl

theorem Held.load_ptr (h : (box B).Held m a) (hp : pointee m a = some b) :
    m.load .ptr (a + 8) = some (some ⟨b, 0⟩) := by
  have hl := h.ok.1
  rwa [hp] at hl

theorem Held.valid_ptr (h : (box B).Held m a) : m.Valid (a + 8) Kind.ptr.size :=
  Mem.Valid.mono (n := 16) h.valid (by decide)

/-- The body of a slot that points to a block. -/
theorem Held.body (h : (box B).Held m a) (hp : pointee m a = some b) :
    B.Held m b ∧ a.block ≠ b ∧ a.block ∉ B.blocks m b := by
  have hn := h.nodup
  have ha := h.apart
  rw [blocks_box_some hp] at hn ha
  obtain ⟨hn, _, hd⟩ := List.nodup_append'.mp hn
  rw [List.mem_append, not_or, List.mem_singleton] at ha
  exact ⟨⟨h.ok.2 b hp, hn, fun hb => hd hb List.mem_cons_self⟩, ha.2, ha.1⟩

theorem held_box (hv : m.Valid a 16) (hl : m.load .ptr (a + 8) = some (basePtr (pointee m a)))
    (hB : ∀ b, pointee m a = some b → B.Held m b ∧ a.block ≠ b ∧ a.block ∉ B.blocks m b) :
    (box B).Held m a := by
  cases hp : pointee m a with
  | none =>
    have hb := blocks_box_none (B := B) hp
    exact ⟨hv, ⟨hl, fun b hb => (hB b hb).1.ok⟩, hb ▸ List.nodup_nil, hb ▸ List.not_mem_nil⟩
  | some b =>
    have hb := blocks_box_some (B := B) hp
    obtain ⟨hh, hne, hnot⟩ := hB b hp
    refine ⟨hv, ⟨hl, fun b hb => (hB b hb).1.ok⟩, ?_, ?_⟩
    · rw [hb]
      refine List.nodup_append'.mpr ⟨hh.nodup, List.nodup_singleton b, fun c hc hcb => ?_⟩
      rw [List.mem_singleton.mp hcb] at hc
      exact hh.apart hc
    · rw [hb, List.mem_append, not_or, List.mem_singleton]
      exact ⟨hnot, hne⟩

/-- A change of the body is a change of the slot. -/
theorem Evolves.box (h : (box B).Held m a) (hp : pointee m a = some b) (he : B.Evolves b m m') :
    (box B).Evolves a m m' := by
  obtain ⟨hh, hne, hnot⟩ := h.body hp
  have hlt := h.valid.lt
  have hslot := he.confined a.block hlt hne hnot
  have hl : m'.load .ptr (a + 8) = m.load .ptr (a + 8) := Mem.load_of_block (a := a + 8) hslot
  have hp' : pointee m' a = some b := by rw [pointee, hl, ← pointee, hp]
  have hblocks := blocks_box_some (B := B) hp
  have hblocks' := blocks_box_some (B := B) hp'
  refine ⟨⟨Mem.sizeOf_of_block hslot, fun o _ => Mem.cellAt_of_block hslot o, ?_⟩, he.next_le,
    ?_, ?_⟩
  · intro c hc _ hcb
    rw [hblocks, List.mem_append, not_or, List.mem_singleton] at hcb
    exact he.confined c hc hcb.2 hcb.1
  · refine held_box ?_ ?_ fun c hc => ?_
    · obtain ⟨sz, hsz, hle⟩ := h.valid
      exact ⟨sz, (Mem.sizeOf_of_block hslot).trans hsz, hle⟩
    · rw [hl, hp', ← hp]
      exact h.ok.1
    · rw [hp'] at hc
      cases hc
      refine ⟨he.held, hne, fun hin => ?_⟩
      rcases he.fresh _ hin with hin | hin
      · exact hnot hin
      · exact Nat.not_lt.mpr hin hlt
  · intro c hc
    rw [hblocks', List.mem_append, List.mem_singleton] at hc
    rw [hblocks, List.mem_append, List.mem_singleton]
    rcases hc with hc | hc
    · exact (he.fresh c hc).imp_left .inl
    · exact .inl (.inr hc)

/-- **A slot is given another block, or null.** The block is new, and owns what the
slot owned before or new blocks. -/
theorem Evolves.point {m₁ : Mem} (h : (Shape.box B).Held m a) (hk : m.Keeps m₁) (c : Option Nat)
    (hc : ∀ b, c = some b → B.Held m₁ b ∧ m.next ≤ b ∧
      ∀ d ∈ B.blocks m₁ b, d ∈ (Shape.box B).blocks m a ∨ m.next ≤ d) :
    (Shape.box B).Evolves a m (m₁.write (a + 8) (Kind.ptr.encode (basePtr c))) := by
  have hlt := h.valid.lt
  have hv : m₁.Valid a 16 := hk.valid h.valid
  have hv8 : m₁.Valid (a + 8) Kind.ptr.size := hv.mono (by decide)
  have hlen : (Kind.ptr.encode (basePtr c)).length = 8 := Kind.length_encode .ptr _
  have hl := Mem.load_write_same (k := .ptr) (basePtr c) hv8
  have hp := pointee_of_load hl
  have hother {d : Nat} (hd : d ≠ a.block) :
      (m₁.write (a + 8) (Kind.ptr.encode (basePtr c))).block d = m₁.block d :=
    Mem.block_write_of_ne m₁ _ hd
  have hbody {b : Nat} (hb : c = some b) :
      B.Held (m₁.write (a + 8) (Kind.ptr.encode (basePtr c))) b ∧
        B.blocks (m₁.write (a + 8) (Kind.ptr.encode (basePtr c))) b = B.blocks m₁ b := by
    obtain ⟨hB, hge, hd⟩ := hc b hb
    refine hB.frame (hother (by omega)) fun d hin => hother ?_
    rintro rfl
    rcases hd _ hin with hin | hin
    · exact h.apart hin
    · omega
  refine ⟨⟨?_, fun o ho => ?_, fun d hd hne _ => ?_⟩, ?_, ?_, fun d hd => ?_⟩
  · rw [Mem.sizeOf_write]
    exact hk.sizeOf_eq hlt
  · rw [Mem.cellAt_write_of_not, hk.cellAt_eq hlt]
    rw [hlen, Addr.add_off]
    rintro ⟨_, h1, h2⟩
    refine ho ⟨by omega, ?_⟩
    show o < a.off + 16
    omega
  · rw [hother hne, hk.block_eq d hd]
  · rw [Mem.write_next]
    exact hk.next_le
  · refine held_box ((Mem.valid_write ..).mpr hv) (by rw [hp]; exact hl) fun b hb => ?_
    rw [hp] at hb
    obtain ⟨hB, hge, hd⟩ := hc b hb
    obtain ⟨hB', he⟩ := hbody hb
    refine ⟨hB', by omega, fun hin => ?_⟩
    rw [he] at hin
    rcases hd _ hin with hin | hin
    · exact h.apart hin
    · omega
  · cases c with
    | none =>
      rw [blocks_box_none hp] at hd
      cases hd
    | some b =>
      obtain ⟨_, hge, hsub⟩ := hc b rfl
      rw [blocks_box_some hp, List.mem_append, List.mem_singleton, (hbody rfl).2] at hd
      rcases hd with hd | rfl
      · exact hsub d hd
      · exact .inr hge

end lemmas
end Shape
end Msm.Own
