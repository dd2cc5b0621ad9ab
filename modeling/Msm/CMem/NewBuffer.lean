import Msm.CMem.Published

/-! # New buffers

A function that grows a buffer builds a new one privately: a block that is
cleared and given the header `[n:4 | cap:4]`. -/
namespace Msm.CMem
open Msm.Exec

/-- `m₁` is `m` with a new block of `size` bytes, with a header. -/
structure Mem.NewBuffer (m : Mem) (size : Nat) (n cap : UInt32) (m₁ : Mem) : Prop where
  keeps : m.Keeps m₁
  script : m₁.script = m.script.tail
  sizeOf : m₁.sizeOf m.next = some size
  load_count : m₁.load .u32 ⟨m.next, 0⟩ = some n
  load_cap : m₁.load .u32 ⟨m.next, 4⟩ = some cap

/-- The stores that build it, after the `malloc`. Behind the header it is clear. -/
theorem newBuffer_clear_safe {Γ α : Type} {T : Γ → Mem → Act → Mem → Γ → Prop}
    {F : Fault → Mem → Γ → Prop} {Q : α → Mem → Γ → Prop} {g : Γ} {m : Mem} {size : Nat}
    {n cap : UInt32} {k : CProg α}
    (hT : FreshOk T g m.next) (h8 : 8 ≤ size)
    (hk : ∀ m₁, m.NewBuffer size n cap m₁ →
      (∀ d l, 8 ≤ d → d + l ≤ size → m₁.read ⟨m.next, d⟩ l = List.replicate l (.byte 0)) →
      k.Safe T F Q m₁ g) :
    (Prog.act (M := cmachine) (.zero (some ⟨m.next, 0⟩) size) fun _ =>
      Prog.act (M := cmachine) (.store .relaxed .u32 (some ⟨m.next, 0⟩) n) fun _ =>
        Prog.act (M := cmachine) (.store .relaxed .u32 (some ⟨m.next, 4⟩) cap) fun _ => k).Safe
          T F Q (m.tick.alloc size) g := by
  have hs : (m.tick.alloc size).sizeOf m.next = some size := Mem.sizeOf_alloc m.tick size
  have hk0 : m.Keeps (m.tick.alloc size) := (Mem.Keeps.refl m).tick.alloc size
  have hscript : (m.tick.alloc size).script = m.script.tail := rfl
  generalize m.tick.alloc size = m₀ at hs hk0 hscript
  let m₁ := m₀.write ⟨m.next, 0⟩ (List.replicate size (.byte 0))
  let m₂ := m₁.write ⟨m.next, 0⟩ (Kind.u32.encode n)
  let m₃ := m₂.write ⟨m.next, 4⟩ (Kind.u32.encode cap)
  have hk1 : m.Keeps m₁ := hk0.write (Nat.le_refl _)
  have hk2 : m.Keeps m₂ := hk1.write (Nat.le_refl _)
  have hv (d : Nat) (hd : d ≤ 4) : m₀.Valid ⟨m.next, d⟩ Kind.u32.size :=
    ⟨size, hs, by simp only [Kind.size]; omega⟩
  have hv1 : m₁.Valid ⟨m.next, 0⟩ Kind.u32.size := (Mem.valid_write ..).mpr (hv 0 (by decide))
  have hv2 : m₂.Valid ⟨m.next, 4⟩ Kind.u32.size := by simpa [m₁, m₂] using hv 4 (by decide)
  have hcount : m₃.load .u32 ⟨m.next, 0⟩ = some n :=
    (Mem.load_write_apart fun _ => by simp [Kind.size]).trans
      (Mem.load_write_same (k := .u32) n hv1)
  have hsize : m₃.sizeOf m.next = some size := by simpa [m₁, m₂, m₃] using hs
  refine hT.act (Mem.exec_zero ⟨size, hs, by simp⟩) hk0.next_le ⟨_, rfl, Nat.le_refl _⟩ ?_
  refine hT.act (Mem.exec_store hv1) hk1.next_le ⟨_, rfl, Nat.le_refl _⟩ ?_
  refine hT.act (Mem.exec_store hv2) hk2.next_le ⟨_, rfl, Nat.le_refl _⟩ ?_
  refine hk m₃ ⟨hk2.write (Nat.le_refl _), hscript, hsize, hcount,
    Mem.load_write_same (k := .u32) cap hv2⟩ fun d l hd hl => ?_
  have happart {o : Nat} (ho : o + 4 ≤ 8) (v : UInt32) :
      Mem.Apart ⟨m.next, o⟩ (Kind.u32.encode v).length ⟨m.next, d⟩ l :=
    fun _ => .inl (by simp only [Kind.length_encode, Kind.size]; omega)
  have hzeros : m₀.Valid ⟨m.next, 0⟩ (List.replicate size (Cell.byte 0)).length := by
    rw [List.length_replicate]
    exact ⟨size, hs, Nat.le_of_eq (Nat.zero_add size)⟩
  have hin := Mem.read_write_inside hzeros (d := d) (n := l) (by rw [List.length_replicate]; omega)
  rw [Addr.mk_add, Nat.zero_add, List.drop_replicate, List.take_replicate,
    Nat.min_eq_left (by omega)] at hin
  rw [Mem.read_write_apart (happart (by decide) cap), Mem.read_write_apart (happart (by decide) n)]
  exact hin

theorem newBuffer_safe {Γ α : Type} {T : Γ → Mem → Act → Mem → Γ → Prop}
    {F : Fault → Mem → Γ → Prop} {Q : α → Mem → Γ → Prop} {g : Γ} {m : Mem} {size : Nat}
    {n cap : UInt32} {k : CProg α}
    (hT : FreshOk T g m.next) (h8 : 8 ≤ size)
    (hk : ∀ m₁, m.NewBuffer size n cap m₁ → k.Safe T F Q m₁ g) :
    (Prog.act (M := cmachine) (.zero (some ⟨m.next, 0⟩) size) fun _ =>
      Prog.act (M := cmachine) (.store .relaxed .u32 (some ⟨m.next, 0⟩) n) fun _ =>
        Prog.act (M := cmachine) (.store .relaxed .u32 (some ⟨m.next, 4⟩) cap) fun _ => k).Safe
          T F Q (m.tick.alloc size) g :=
  newBuffer_clear_safe hT h8 fun m₁ hnew _ => hk m₁ hnew

end Msm.CMem
