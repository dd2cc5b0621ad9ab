import Msm.Arr.Clients

/-! # What array readers see

Without clears every published buffer holds a beginning of what has been pushed,
so a reader's sizes never decrease and the elements it is given are the pushed
ones, for ever. With clears an element that a reader still points to may be
written again: a copy is of a committed value exactly as long as it is not made
while the writer fills that element. -/
namespace Msm.Arr
open Msm.Exec Msm.CMem Msm.Api

variable {ι : Type} {slot : Addr} {itemSize : UInt32} {clears : Bool} {m₀ : Mem}

theorem msmArraySize_only (slot : Addr) : (msmArraySize (some slot)).Only Act.IsRead := by
  simp only [msmArraySize, reduceCtorEq, if_false, atomicLoadPtr, arrBufSize, atomicLoadU32]
  refine ⟨trivial, fun q => ?_⟩
  cases q with
  | none => trivial
  | some b => exact ⟨trivial, fun _ => trivial⟩

theorem msmArrayGet_only (slot : Addr) (i itemSize : UInt32) :
    (msmArrayGet (some slot) i itemSize).Only Act.IsRead := by
  simp only [msmArrayGet, reduceCtorEq, false_or]
  by_cases h0 : itemSize = 0
  · simp only [h0, if_true]; trivial
  simp only [h0, if_false, atomicLoadPtr, arrBufSize, atomicLoadU32]
  refine ⟨trivial, fun q => ?_⟩
  cases q with
  | none => trivial
  | some b =>
    refine ⟨trivial, fun sz => ?_⟩
    by_cases h : sz ≤ i
    · simp only [Prog.bind, h, if_true]; trivial
    · simp only [Prog.bind, h, if_false]; trivial

theorem reader_only (slot : Addr) (itemSize : UInt32) : (reader slot itemSize).Only Act.IsRead := by
  intro log c p hp
  cases c with
  | size =>
    cases hp
    exact Prog.only_bind (msmArraySize_only slot) fun _ => trivial
  | get i =>
    cases hp
    exact Prog.only_bind (msmArrayGet_only slot i itemSize) fun _ => trivial
  | copy i a =>
    simp only [reader] at hp
    split at hp
    · cases hp; exact ⟨trivial, fun _ => trivial⟩
    · cases hp

/-! ## A sequence of states with published buffers -/

/-- Memories and ghost states side by side; a buffer stays published, with at
least as many elements written. -/
structure Shown (slot : Addr) (n : Nat) (μ : Nat → Mem) (γ : Nat → State n) : Prop where
  inv : ∀ t, Inv slot n (μ t) (γ t)
  elems_le : ∀ t u b x, t ≤ u → (γ t).heap b = some x →
    ∃ x', (γ u).heap b = some x' ∧ x.elems.length ≤ x'.elems.length

namespace Shown
variable {μ : Nat → Mem} {γ : Nat → State itemSize.toNat} (h : Shown slot itemSize.toNat μ γ)
include h

/-- `msm_array_size` gives the size some buffer has, that was current during the call. -/
theorem size_sampled (t : Nat) : (msmArraySize (some slot)).Sampled μ
    (fun v u => ∃ w, t ≤ w ∧ w ≤ u ∧ match (γ w).cur with
      | none => v.toNat = 0
      | some b => ∃ x, (γ u).heap b = some x ∧ v.toNat = x.size) t := by
  simp only [msmArraySize, reduceCtorEq, if_false, atomicLoadPtr, loadPtr_bind, Ptr.some_add]
  refine sampled_load fun s hs => ⟨_, (h.inv s).repr.slot_ptr, ?_⟩
  cases hc : (γ s).cur with
  | none => exact ⟨s, hs, Nat.le_refl _, by simp [hc]⟩
  | some b =>
    simp only [basePtr_some, reduceCtorEq, if_false, arrBufSize, atomicLoadU32, loadU32]
    refine sampled_load fun u hu => ?_
    obtain ⟨x, hx, _⟩ := h.elems_le s u b _ hu ((h.inv s).cur_node hc)
    refine ⟨_, ((h.inv u).repr.node b x hx).size, s, hs, hu, ?_⟩
    rw [hc]
    exact ⟨x, hx, size_toNat x⟩

/-- `msm_array_get` gives an element below the size that buffer has. -/
theorem get_sampled (hn : itemSize ≠ 0) (i : UInt32) (t : Nat) :
    (msmArrayGet (some slot) i itemSize).Sampled μ
      (fun p u => ∃ w, t ≤ w ∧ w ≤ u ∧ match (γ w).cur with
        | none => p = none
        | some b => ∃ x, (γ u).heap b = some x ∧
            p = if i.toNat < x.size then some ⟨b, 8 + i.toNat * itemSize.toNat⟩ else none) t := by
  simp only [msmArrayGet, reduceCtorEq, hn, or_self, if_false, atomicLoadPtr, loadPtr_bind,
    Ptr.some_add]
  refine sampled_load fun s hs => ⟨_, (h.inv s).repr.slot_ptr, ?_⟩
  cases hc : (γ s).cur with
  | none => exact ⟨s, hs, Nat.le_refl _, by simp [hc]⟩
  | some b =>
    simp only [basePtr_some, reduceCtorEq, if_false, arrBufSize, atomicLoadU32, loadU32_bind]
    refine sampled_load fun u hu => ?_
    obtain ⟨x, hx, _⟩ := h.elems_le s u b _ hu ((h.inv s).cur_node hc)
    refine ⟨_, ((h.inv u).repr.node b x hx).size, ?_⟩
    have hle : UInt32.ofNat x.size ≤ i ↔ ¬ i.toNat < x.size := by
      rw [UInt32.le_iff_toNat_le, size_toNat, Nat.not_lt]
    by_cases hi : i.toNat < x.size
    · rw [if_neg (fun hc => hle.mp hc hi)]
      refine ⟨s, hs, hu, ?_⟩
      rw [hc]
      exact ⟨x, hx, by simp [hi, arrBufData, arrBufHeader]⟩
    · rw [if_pos (hle.mpr hi)]
      refine ⟨s, hs, hu, ?_⟩
      rw [hc]
      exact ⟨x, hx, by simp [hi]⟩

end Shown

/-! ## The ghost states of a run -/

/-- The writer's contract along a run, whatever its readers are. -/
structure Trail {R : Client cmachine} (ρ : Run (writer slot itemSize clears) R ι m₀)
    (γ : Nat → State itemSize.toNat) : Prop where
  inv : ∀ t, Inv slot itemSize.toNat (ρ.state t) (γ t)
  at_writer : ∀ t, (contract slot itemSize clears).At (ρ.sys t).writer (ρ.state t) (γ t)
  tracks : ∀ t, (contract slot itemSize clears).Tracks (ρ.sys t).writer (ρ.state t) (γ t)
    (ρ.sys (t + 1)).writer (ρ.state (t + 1)) (γ (t + 1))
  zero : γ 0 = Ghost.empty _

theorem exists_trail {R : Client cmachine} (hR : R.Only Act.IsRead) (h0 : Zeroed m₀ slot)
    (hs : m₀.script = []) (hn : itemSize ≠ 0)
    (ρ : Run (writer slot itemSize clears) R ι m₀) : ∃ γ, Trail ρ γ := by
  have hinit : Inv slot itemSize.toNat m₀ (Ghost.empty _) := inv_empty h0
  obtain ⟨γ, hγ0, hγ⟩ := ρ.ghost hR (fun a ha _ _ _ he => ha.state_eq he)
    (contract_holds hn clears) ⟨hinit, hs, ⟨rfl, rfl, nofun⟩⟩ fun _ => trivial
  refine ⟨γ, fun t => ?_, fun t => (hγ t).1, fun t => (hγ t).2, hγ0⟩
  induction t with
  | zero => rw [hγ0, ρ.state_zero]; exact hinit
  | succ t ih =>
    rcases (hγ t).2.moves with ⟨hst, hg⟩ | ⟨c, a, k, _, _, ht⟩
    · rw [hst, hg]; exact ih
    · exact (ht ih).1

namespace Trail
variable {R : Client cmachine} {ρ : Run (writer slot itemSize clears) R ι m₀}
  {γ : Nat → State itemSize.toNat} (h : Trail ρ γ)
include h

/-- From one instant to the next the ghost state stays, or moves as a call allows. -/
theorem allowed (t : Nat) : γ (t + 1) = γ t ∨
    ∃ c : WCall, (c.op = .clear → clears = true) ∧ c.op.Allowed (γ t) (γ (t + 1)) := by
  rcases (h.tracks t).moves with ⟨_, hg⟩ | ⟨c, a, k, _, hc, ht⟩
  · exact .inl hg
  · exact .inr ⟨c, hc, (ht (h.inv t)).2⟩

theorem move (t : Nat) : Move (γ t) (γ (t + 1)) := by
  rcases h.allowed t with hg | ⟨c, _, ha⟩
  · rw [hg]; exact .same
  · exact ha.move

/-- A buffer stays published, with at least as many elements written. -/
theorem elems_le {t u : Nat} (htu : t ≤ u) {b : Nat} {x : Node} (hx : (γ t).heap b = some x) :
    ∃ x', (γ u).heap b = some x' ∧ x.elems.length ≤ x'.elems.length := by
  induction u, htu using Nat.le_induction with
  | base => exact ⟨x, hx, Nat.le_refl _⟩
  | succ u _ ih =>
    obtain ⟨y, hy, hle⟩ := ih
    obtain ⟨z, hz, hle'⟩ := (h.move u).elems_le hy
    exact ⟨z, hz, Nat.le_trans hle hle'⟩

theorem writer_not_faults (t : Nat) : ¬ (ρ.sys t).writer.Faults (ρ.state t) :=
  (h.at_writer t).not_faults fun _ => id

theorem shown : Shown slot itemSize.toNat ρ.state γ where
  inv := h.inv
  elems_le _ _ _ _ htu hx := h.elems_le htu hx

/-! ## The elements a reader points to -/

omit h in
/-- The reader points to element `i` of a buffer, as far as elements have been
written there. -/
def Held (g : State itemSize.toNat) (i : UInt32) (a : Addr) : Prop :=
  a.off = 8 + i.toNat * itemSize.toNat ∧
    ∃ x, g.heap a.block = some x ∧ i.toNat < x.elems.length

theorem held_mono {i : UInt32} {a : Addr} {t u : Nat} (hh : Held (γ t) i a) (htu : t ≤ u) :
    Held (γ u) i a := by
  obtain ⟨ho, x, hx, hi⟩ := hh
  obtain ⟨y, hy, hle⟩ := h.elems_le htu hx
  exact ⟨ho, y, hy, Nat.lt_of_lt_of_le hi hle⟩

/-- A copy gives what the element holds at that instant. -/
theorem copy_reads (hn : itemSize ≠ 0) {i : UInt32} {a : Addr} {t : Nat} (hh : Held (γ t) i a) :
    (ρ.state t).Valid a itemSize.toNat ∧ ∃ x v, (γ t).heap a.block = some x ∧
      x.elems[i.toNat]? = some v ∧ (ρ.state t).read a itemSize.toNat = v := by
  obtain ⟨ho, x, hx, hi⟩ := hh
  have hpos : 0 < itemSize.toNat := Nat.pos_of_ne_zero fun h0 => hn (UInt32.toNat_inj.mp h0)
  have hat := (h.inv t).repr.node _ x hx
  have ha : a = ⟨a.block, 8 + i.toNat * itemSize.toNat⟩ := by rw [← ho]
  obtain ⟨v, hv⟩ : ∃ v, x.elems[i.toNat]? = some v := ⟨_, List.getElem?_eq_getElem hi⟩
  refine ⟨?_, x, v, hx, hv, ?_⟩
  · rw [ha]
    exact (hat.valid_elem hpos _).mpr (Nat.lt_of_lt_of_le hi x.elems_le)
  · rw [ha]
    exact hat.elem _ v hv

theorem copy_sampled (hn : itemSize ≠ 0) {i : UInt32} {a : Addr} {t : Nat}
    (hh : Held (γ t) i a) : (copyElem a itemSize).Sampled ρ.state
      (fun r u => t ≤ u ∧ ∃ x v, (γ u).heap a.block = some x ∧ x.elems[i.toNat]? = some v ∧
        r = .bytes v) t := by
  intro u hu
  obtain ⟨hv, x, v, hx, hxv, hr⟩ := h.copy_reads hn (h.held_mono hh hu)
  exact ⟨_, Mem.exec_copyOut hv, hu, x, v, hx, hxv, congrArg RVal.bytes hr⟩

end Trail
end Msm.Arr
