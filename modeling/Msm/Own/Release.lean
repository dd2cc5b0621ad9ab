import Msm.Own.Box

/-! # Programs that release what bytes own

A program releases a shape when it frees exactly the blocks owned through the
bytes, in order, and leaves them well formed and owning nothing. Such programs
are put together as the shapes are: one after another, in a loop, and for a slot
the program for its body, a `free` and the null pointer. -/
namespace Msm.Own
open Msm.Exec Msm.CMem

/-- The bytes at `a` have been emptied, what they owned may have changed, and
nothing else has. -/
structure Shape.Emptied (s : Shape) (a : Addr) (m m' : Mem) : Prop extends s.Confined a m m' where
  held : s.Held m' a
  empty : s.blocks m' a = []

/-- The program frees the blocks that the bytes at `a` own, each once and no
others, and empties the bytes. -/
def Shape.Releases (s : Shape) (a : Addr) (p : CProg Unit) : Prop :=
  ∀ m, s.Held m a → ∃ m', Ends p m (s.blocks m a) m' ∧ s.Emptied a m m'

/-- The program frees the blocks that the block owns, but not the block. -/
def Body.Releases (B : Body) (d : Ptr → CProg Unit) : Prop :=
  ∀ m b, B.Held m b → ∃ m', Ends (d (some ⟨b, 0⟩)) m (B.blocks m b) m' ∧
    m'.sizeOf b = m.sizeOf b ∧ B.Confined b m m'

namespace Shape
variable {s t : Shape} {B : Body} {a : Addr}

theorem releases_raw (n : Nat) (a : Addr) : (raw n).Releases a (pure ()) := by
  intro m h
  exact ⟨m, .nil m, ⟨rfl, fun _ _ => rfl, fun _ _ _ _ => rfl⟩, h, rfl⟩

theorem Releases.seq {p q : CProg Unit} (hp : s.Releases a p) (hq : t.Releases (a + s.size) q) :
    (seq s t).Releases a (p >>= fun _ => q) := by
  intro m h
  obtain ⟨hs, ht, hdisj⟩ := held_seq.mp h
  obtain ⟨m₁, hrun, hs₁⟩ := hp m hs
  obtain ⟨ht₁, hblocks⟩ :=
    hs₁.beside ht rfl (.inr (Nat.le_refl _)) fun c hc hcs => hdisj hcs hc
  obtain ⟨m₂, hrun₂, ht₂⟩ := hq m₁ ht₁
  rw [hblocks] at hrun₂
  obtain ⟨hs₂, hempty⟩ :=
    ht₂.beside hs₁.held rfl (.inl (Nat.le_refl _)) fun c hc => by rw [hs₁.empty] at hc; cases hc
  rw [hs₁.empty] at hempty
  have hsub (b : Nat) (hb : b ∈ (s.seq t).blocks m₁ a) :
      b ∈ (s.seq t).blocks m a ∨ m.next ≤ b := by
    rw [blocks_seq, hs₁.empty, List.nil_append, hblocks] at hb
    rw [blocks_seq]
    exact .inl (List.mem_append_right _ hb)
  refine ⟨m₂, ?_, ?_, ?_, ?_⟩
  · rw [blocks_seq]
    exact hrun.bind hrun₂
  · exact hs₁.seq_left.trans ht₂.seq_right (Mem.run_next_le hrun.run) hsub
  · refine held_seq.mpr ⟨hs₂, ht₂.held, fun b hb => ?_⟩
    rw [hempty] at hb
    cases hb
  · rw [blocks_seq, hempty, ht₂.empty]
    rfl

/-- A loop over a row. -/
theorem Releases.rep {d : Nat → CProg Unit} {n : Nat}
    (hd : ∀ i < n, s.Releases (a + i * s.size) (d i)) : (rep s n).Releases a (rounds d n 0) := by
  induction n with
  | zero => exact releases_raw 0 a
  | succ n ih =>
    have hn := hd n (Nat.lt_succ_self n)
    rw [← size_rep s n] at hn
    rw [rounds_succ, Nat.zero_add]
    exact (ih fun i hi => hd i (Nat.lt_succ_of_lt hi)).seq hn

/-- The program for a slot: the body's, a free, and the null pointer. -/
def releaseBox (d : Ptr → CProg Unit) (a : Addr) : CProg Unit := do
  let p ← loadPtr .plain (some (a + 8))
  if p = none then pure ()
  else
    d p
    free p
    store .plain .ptr (some (a + 8)) none

theorem Releases.box {d : Ptr → CProg Unit} (hd : B.Releases d) (a : Addr) :
    (box B).Releases a (releaseBox d a) := by
  intro m h
  have hl := h.ok.1
  cases hp : pointee m a with
  | none =>
    rw [hp] at hl
    refine ⟨m, ?_, ⟨rfl, fun _ _ => rfl, fun _ _ _ _ => rfl⟩, h, blocks_box_none hp⟩
    rw [blocks_box_none hp]
    exact .load hl (.nil m)
  | some b =>
    rw [hp] at hl
    obtain ⟨hh, hne, hnot⟩ := h.body hp
    obtain ⟨m₁, hrun, hsize, hconf⟩ := hd m b hh
    have hlive : m₁.sizeOf b ≠ none := hsize ▸ (B.live hh.ok).1
    have hslot : (m₁.free b).block a.block = m.block a.block :=
      (m₁.block_free_of_ne hne).trans (hconf _ h.valid.lt hne hnot)
    have hv : (m₁.free b).Valid a 16 := by
      obtain ⟨sz, hsz, hle⟩ := h.valid
      exact ⟨sz, (Mem.sizeOf_of_block hslot).trans hsz, hle⟩
    have hv8 : (m₁.free b).Valid (a + 8) Kind.ptr.size := hv.mono (by decide)
    have hfree : Ends (free (some ⟨b, 0⟩)) m₁ [b] (m₁.free b) := (Frees.last rfl hlive).toEnds
    have hend := (hrun.bind (f := fun _ => free (some ⟨b, 0⟩)) hfree).bind
      (f := fun _ => store .plain .ptr (some (a + 8)) none) (.store hv8)
    have hlen : (Kind.ptr.encode none).length = 8 := Kind.length_encode .ptr none
    have hnull := Mem.load_write_same (k := .ptr) none hv8
    have hp' : pointee ((m₁.free b).write (a + 8) (Kind.ptr.encode none)) a = none :=
      pointee_of_load (c := none) hnull
    refine ⟨_, ?_, ⟨?_, fun o ho => ?_, fun c hc hca hcb => ?_⟩, ?_, blocks_box_none hp'⟩
    · rw [blocks_box_some hp]
      rw [List.append_nil, Prog.bind_assoc] at hend
      exact .load hl hend
    · rw [Mem.sizeOf_write, Mem.sizeOf_of_block hslot]
    · rw [Mem.cellAt_write_of_not, Mem.cellAt_of_block hslot]
      rw [hlen, Addr.add_off]
      rintro ⟨_, h1, h2⟩
      refine ho ⟨by omega, ?_⟩
      show o < a.off + 16
      omega
    · rw [blocks_box_some hp, List.mem_append, not_or, List.mem_singleton] at hcb
      have hwrite := (m₁.free b).block_write_of_ne (Kind.ptr.encode none) (a := a + 8) hca
      rw [hwrite, m₁.block_free_of_ne hcb.2, hconf c hc hcb.2 hcb.1]
    · refine held_box ((Mem.valid_write ..).mpr hv) (by rw [hp']; exact hnull) fun c hc => ?_
      rw [hp'] at hc
      cases hc

end Shape
end Msm.Own
