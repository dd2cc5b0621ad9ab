import Msm.Api.Walks
import Msm.Own.Slots

/-! # Teardown releases what the slot owns

`deallocate` of a type is put together as the type is, and so is the proof: a
string frees its buffer, an array runs the loop over its items first, a record
goes from field to field. Objects are left out: what `object::deallocate` frees
is another matter. -/
namespace Msm.Own
open Msm.Exec Msm.CMem Msm.Api

theorem bytes_releases : Body.bytes.Releases fun _ => pure () := by
  intro m b _
  exact ⟨m, .nil m, rfl, fun _ _ _ _ => rfl⟩

/-- The loop of an array. -/
theorem items_releases {s : Shape} {itemSize : UInt32} {dealloc : Ptr → CProg Unit}
    (hw : itemSize.toNat = s.size % 2 ^ 32)
    (hs : s.size < 2 ^ 32 → ∀ a, s.Releases a (dealloc (some a))) :
    (items s).Releases fun buf => (do
      let sz ← loadU32 .plain buf
      deallocateItems dealloc (buf + 8) itemSize sz.toNat 0) := by
  intro m b h
  obtain ⟨n, cap, hbuf⟩ := h.ok.1
  have hrow := items_row h
  rw [hbuf.count_eq] at hrow
  have hloop : (s.rep n.toNat).Releases ⟨b, 8⟩
      (rounds (fun i => dealloc ((some ⟨b, 8⟩ : Ptr) + i * itemSize.toNat)) n.toNat 0) := by
    refine .rep fun i hi => ?_
    have hsmall := hbuf.small
    have hle := Nat.le_mul_of_pos_left s.size (Nat.zero_lt_of_lt hi)
    rw [hw, hbuf.stride (Nat.zero_lt_of_lt hi)]
    exact hs (by omega) _
  obtain ⟨m', hrun, he⟩ := hloop m hrow
  have hfit : n.toNat = 0 ∨ (n.toNat - 1) * itemSize.toNat < 2 ^ 32 := by
    have hsmall := hbuf.small
    have hle : (n.toNat - 1) * itemSize.toNat ≤ n.toNat * s.size :=
      Nat.mul_le_mul (Nat.sub_le _ _) (hw ▸ Nat.mod_le _ _)
    omega
  rw [← deallocateItems_eq dealloc (some ⟨b, 8⟩) n.toNat_lt hfit] at hrun
  have hblocks : (items s).blocks m b = (s.rep n.toNat).blocks m ⟨b, 8⟩ :=
    (items_held hbuf hrow).2
  rw [← hblocks] at hrun
  refine ⟨m', .load hbuf.load_size hrun, he.sizeOf, fun c hc hne hnot => he.other c hc hne ?_⟩
  rwa [← hblocks]

end Msm.Own

namespace Msm.Api
open Msm.Exec Msm.CMem Msm.Own

mutual

/-- Built from the primitives, `string`, `array` and `record`. -/
def Ty.WithoutObject : Ty → Prop
  | .prim _ => True
  | .string => True
  | .object => False
  | .array item => item.WithoutObject
  | .record fields => fields.WithoutObject

def Fields.WithoutObject : Fields → Prop
  | .nil => True
  | .cons _ type rest => type.WithoutObject ∧ rest.WithoutObject

end

theorem Ty.toNat_itemSize (item : Ty) : item.itemSize.toNat = item.shape.size % 2 ^ 32 := by
  rw [Ty.itemSize, UInt64.toNat_toUInt32, item.slotSize_eq, UInt64.toNat_ofNat', item.size_shape]
  exact Nat.mod_mod_of_dvd _ (by decide)

mutual

/-- **`deallocate` frees exactly what the slot owns**, and empties it. -/
theorem Ty.releases : ∀ t : Ty, t.WithoutObject → t.size < 2 ^ 64 → ∀ a,
    t.shape.Releases a (t.deallocate (some a))
  | .prim p, _, _, a => Shape.releases_raw p.size a
  | .string, _, _, a => .box bytes_releases a
  | .array item, hwo, _, a => by
    have hitem (h : item.shape.size < 2 ^ 32) (x : Addr) :
        item.shape.Releases x (item.deallocate (some x)) := by
      rw [item.size_shape] at h
      exact item.releases hwo (by omega) x
    exact .box (items_releases item.toNat_itemSize hitem) a
  | .record fields, hwo, hsize, a => by
    have h8 : (8 : UInt64).toNat = 8 := rfl
    have hfields := fields.releases hwo headerSize a (by rw [headerSize, h8]; exact hsize)
    exact .seq (Shape.releases_raw 8 a) hfields

theorem Fields.releases : ∀ fs : Fields, fs.WithoutObject → ∀ (offset : UInt64) a,
    offset.toNat + fs.size < 2 ^ 64 →
      fs.shape.Releases (a + offset.toNat) (fs.deallocateFields offset (some a))
  | .nil, _, _, _, _ => Shape.releases_raw 0 _
  | .cons _ type rest, hwo, offset, a, hsize => by
    rw [Fields.size] at hsize
    have hnext : (offset + type.slotSize).toNat = offset.toNat + type.size := by
      rw [UInt64.toNat_add, Ty.toNat_slotSize (by omega), Nat.mod_eq_of_lt (by omega)]
    have hrest := rest.releases hwo.2 (offset + type.slotSize) a (by omega)
    rw [hnext, ← Addr.add_add, ← type.size_shape] at hrest
    exact .seq (type.releases hwo.1 (by omega) (a + offset.toNat)) hrest

end

end Msm.Api
