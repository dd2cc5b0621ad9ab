import Msm.Api.Typed
import Msm.CMem.Frees

/-! # The walk of `array::deallocate`

The loop as rounds over the index. It computes the place of an element with a
32-bit product; below 4 GiB the product is that of the natural numbers. -/
namespace Msm.Api
open Msm.CMem

theorem deallocateItems_rounds (dealloc : Ptr → CProg Unit) (p : Ptr) (itemSize : UInt32)
    (n i : Nat) : deallocateItems dealloc p itemSize n (UInt32.ofNat i) =
      rounds (fun j => dealloc (p + (UInt32.ofNat j * itemSize).toNat)) n i := by
  induction n generalizing i with
  | zero => rfl
  | succ n ih =>
    have hs : UInt32.ofNat i + 1 = UInt32.ofNat (i + 1) := (UInt32.ofNat_add i 1).symm
    rw [deallocateItems, hs, ih]
    rfl

theorem mul_toNat (i : Nat) (s : UInt32) (hi : i < 2 ^ 32) :
    (UInt32.ofNat i * s).toNat = i * s.toNat % 2 ^ 32 := by
  rw [UInt32.toNat_mul, UInt32.toNat_ofNat', Nat.mod_eq_of_lt (show i < 2 ^ 32 from hi)]

/-- Below `n` the 32-bit products of the indices are the products, exactly when
the last one fits. -/
theorem products_iff {n : Nat} {s : UInt32} (hn : n < 2 ^ 32) :
    (∀ i < n, (UInt32.ofNat i * s).toNat = i * s.toNat) ↔ n = 0 ∨ (n - 1) * s.toNat < 2 ^ 32 := by
  constructor
  · intro h
    rcases Nat.eq_zero_or_pos n with h0 | hpos
    · exact .inl h0
    · have hlast := h (n - 1) (by omega)
      rw [mul_toNat _ _ (by omega)] at hlast
      exact .inr (by omega)
  · intro h i hi
    have hle : i * s.toNat ≤ (n - 1) * s.toNat := Nat.mul_le_mul_right _ (by omega)
    rw [mul_toNat _ _ (by omega)]
    omega

/-- While the products fit, it visits the elements one after the other. -/
theorem deallocateItems_eq (dealloc : Ptr → CProg Unit) (p : Ptr) {itemSize : UInt32} {n : Nat}
    (hn : n < 2 ^ 32) (h : n = 0 ∨ (n - 1) * itemSize.toNat < 2 ^ 32) :
    deallocateItems dealloc p itemSize n 0 =
      rounds (fun i => dealloc (p + i * itemSize.toNat)) n 0 := by
  rw [show (0 : UInt32) = UInt32.ofNat 0 from rfl, deallocateItems_rounds]
  refine rounds_congr fun i _ hi => ?_
  rw [(products_iff hn).mpr h i (by omega)]

end Msm.Api
