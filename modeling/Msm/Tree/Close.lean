import Msm.Obj.Map
import Msm.Tree.Teardown

/-! # Closing an object

`object::deallocate` is to free the whole tree. It looks for strings among the
entries, and not for objects: what is below a nested object is never freed. -/
namespace Msm.Tree
open Msm.Exec Msm.CMem Msm.Api Msm.Obj

/-- Closing the object frees each block below its slot once, and no other, and
leaves the slot empty. The walker of the allocator would free the same blocks. -/
structure ClosesTree (root : Addr) (m : Mem) : Prop where
  empties : ∃ m', (objectDeallocate (some root)).run m = .ok ((), m') ∧ objectBuf m' root = none
  once : (freed (objectDeallocate (some root)) m).Nodup
  below : ∀ b, b ∈ freed (objectDeallocate (some root)) m ↔ Below m root b
  agrees : ∀ depth, m.next ≤ depth → ∃ bs m', Ends (deallocateBelow depth (some root)) m bs m' ∧
    (freed (objectDeallocate (some root)) m).Perm bs

section close
variable {root s : Addr} {m m₀ : Mem} {F : Ghosts} {g : State} {σ : Session} {b depth : Nat}

theorem deep_of_next (hd : m.next ≤ depth) : Deep m depth g := fun _ _ =>
  Nat.le_trans hd (Nat.le_add_right _ _)

/-- **The walker of the allocator frees the whole tree, each block once.** -/
theorem deallocateBelow_tree (h0 : Zeroed m₀ root) (h : Reaches root (.start m₀) σ)
    (hd : σ.now.next ≤ depth) :
    ∃ bs m', Frees (deallocateBelow depth (some root)) σ.now bs m' ∧ bs.Nodup ∧
      ∀ b, b ∈ bs ↔ Below σ.now root b := by
  obtain ⟨F, hT⟩ := h.tended h0
  have hF := hT.forest
  obtain ⟨g, hg⟩ := hF.rooted
  obtain ⟨m', h'⟩ := deallocateBelow_frees hF hg (deep_of_next hd) rfl fun _ _ => rfl
  exact ⟨_, m', h', hF.owned_nodup hg, fun b => hF.mem_owned_iff hg (deep_of_next hd)⟩

/-- Without nested entries buffers the object's own blocks are all there are. -/
theorem Forest.below_iff_of_empty (hF : Forest root m F) (hs : F s = some g)
    (hempty : ∀ k v, (k, ⟨v, .object⟩) ∈ objectFields m s → objectBuf m ⟨v, 0⟩ = none) :
    Below m s b ↔ b ∈ objectBlocks g := by
  rw [← objectBlock_iff (hF.inv s g hs)]
  constructor
  · rintro ⟨t, hat, ht⟩
    rcases hat.cases_head with rfl | ⟨k, v, hk, hat⟩
    · exact ht
    · -- an object without a buffer has no fields, and no blocks
      have hnil : objectFields m ⟨v, 0⟩ = [] := by rw [objectFields, hempty k v hk]
      rcases hat.cases_head with rfl | ⟨k', w, hk', _⟩
      · cases ht with
        | buf hb =>
          rw [hempty k v hk] at hb
          cases hb
        | value hf =>
          rw [hnil] at hf
          cases hf
        | string hf _ =>
          rw [hnil] at hf
          cases hf
      · rw [hnil] at hk'
        cases hk'
  · exact fun hb => ⟨s, .here, hb⟩

/-- The entries buffer of a nested object is not the outer object's. -/
theorem Forest.nested_buf_not_mem (hF : Forest root m F) (hs : F s = some g)
    {k : UInt64} {v c : Nat}
    (hk : (k, ⟨v, .object⟩) ∈ objectFields m s) (hb : objectBuf m ⟨v, 0⟩ = some ⟨c, 0⟩) :
    c ∉ objectBlocks g := by
  obtain ⟨e, he, _, rfl, hslot⟩ := (mem_objectFields_object (hF.inv s g hs)).mp hk
  obtain ⟨h, hh⟩ := hF.child s g _ hs hslot
  exact hF.nested_apart hs he (nested_eq_some.mpr ⟨hslot, hh⟩) ⟨_, .here, .buf hb⟩

/-- **An object is closed with its whole tree exactly when no nested object
directly in it has an entries buffer.** -/
theorem closesTree_iff (h0 : Zeroed m₀ root) (h : Reaches root (.start m₀) σ)
    (hlt : objectCount σ.now root < 2 ^ 27) :
    ClosesTree root σ.now ↔ ∀ k v, (k, ⟨v, .object⟩) ∈ objectFields σ.now root →
      objectBuf σ.now ⟨v, 0⟩ = none := by
  obtain ⟨F, hT⟩ := h.tended h0
  have hF := hT.forest
  obtain ⟨g, hg⟩ := hF.rooted
  obtain ⟨m', hend, hnull⟩ := objectDeallocate_frees hF hg hlt
  constructor
  · intro hc k v hk
    cases hb : objectBuf σ.now ⟨v, 0⟩ with
    | none => rfl
    | some p =>
      obtain ⟨hv, hFv⟩ := hF.child_of_mem hg hk
      have hbase := (hF.inv _ hv hFv).objectBuf_eq.symm.trans hb
      obtain ⟨c, _, rfl⟩ := Option.map_eq_some_iff.mp hbase
      have hbelow : Below σ.now root c := ⟨_, .field .here hk, .buf hb⟩
      have hmem := (hc.below c).mpr hbelow
      rw [hend.freed] at hmem
      exact (hF.nested_buf_not_mem hg hk hb hmem).elim
  · intro hempty
    have hblocks (b : Nat) : b ∈ objectBlocks g ↔ Below σ.now root b :=
      (hF.below_iff_of_empty hg hempty).symm
    have hnodup := objectBlocks_nodup hF hg
    refine ⟨⟨m', hend.run, hnull⟩, ?_, ?_, ?_⟩
    · rw [hend.freed]
      exact hnodup
    · rw [hend.freed]
      exact hblocks
    · intro depth hd
      obtain ⟨bs, m₂, hfr, hbs, hiff⟩ := deallocateBelow_tree h0 h hd
      refine ⟨bs, m₂, hfr.toEnds, ?_⟩
      rw [hend.freed]
      exact (List.perm_ext_iff_of_nodup hnodup hbs).mpr fun b => (hblocks b).trans (hiff b).symm

end close

/-! A string beside an object that has no fields yet; then a field in that object. -/

theorem string_beside_object : ∃ σ, Reaches ⟨0, 0⟩ (.start zeroedSlot) σ ∧
    objectFields σ.now ⟨0, 0⟩ =
      [(key16 nameA, ⟨2, .object⟩), (key16 nameB, ⟨3, .string [104, 105]⟩)] ∧
    objectCount σ.now ⟨0, 0⟩ = 2 ∧ objectBuf σ.now ⟨2, 0⟩ = none := by
  refine ⟨_, .call (c := .set nameB (.string [104, 105] (by decide)))
    (.call (c := .set nameA .object) .refl ⟨_, List.mem_singleton_self _, .here⟩ trivial rfl)
    ⟨_, List.mem_cons_self, .here⟩ trivial rfl, ?_, ?_, ?_⟩
  · decide +kernel
  · decide +kernel
  · decide +kernel

theorem closesTree_iff_string : ∃ σ, Reaches ⟨0, 0⟩ (.start zeroedSlot) σ ∧
    ClosesTree ⟨0, 0⟩ σ.now := by
  obtain ⟨σ, hσ, hf, hn, hb⟩ := string_beside_object
  refine ⟨σ, hσ, (closesTree_iff zeroedSlot_zeroed hσ (by rw [hn]; decide)).mpr ?_⟩
  intro k v hk
  rw [hf] at hk
  obtain ⟨_, rfl⟩ : k = key16 nameA ∧ v = 2 := by simpa using hk
  exact hb

theorem field_in_object : ∃ σ, Reaches ⟨0, 0⟩ (.start zeroedSlot) σ ∧
    objectFields σ.now ⟨0, 0⟩ = [(key16 nameA, ⟨2, .object⟩)] ∧
    objectBuf σ.now ⟨2, 0⟩ = some ⟨3, 0⟩ ∧
    (∀ s, ObjectAt σ.now ⟨0, 0⟩ s → objectCount σ.now s < 2 ^ 27) ∧
    freed (objectDeallocate (some ⟨0, 0⟩)) σ.now = [2, 1] := by
  have hreach : ∃ σ, Reaches ⟨0, 0⟩ (.start zeroedSlot) σ ∧
      objectFields σ.now ⟨0, 0⟩ = [(key16 nameA, ⟨2, .object⟩)] ∧
      objectFields σ.now ⟨2, 0⟩ = [(key16 nameA, ⟨4, .scalar (.int32 7)⟩)] ∧
      objectCount σ.now ⟨0, 0⟩ = 1 ∧ objectCount σ.now ⟨2, 0⟩ = 1 ∧
      objectBuf σ.now ⟨2, 0⟩ = some ⟨3, 0⟩ ∧
      freed (objectDeallocate (some ⟨0, 0⟩)) σ.now = [2, 1] := by
    refine ⟨_, .call (s := ⟨2, 0⟩) (c := .set nameA (.int32 7))
      (.call (c := .set nameA .object) .refl ⟨_, List.mem_singleton_self _, .here⟩ trivial rfl)
      ⟨_, List.mem_cons_self, .field (k := key16 nameA) .here ?_⟩ trivial rfl,
      ?_, ?_, ?_, ?_, ?_, ?_⟩
    · decide +kernel
    · decide +kernel
    · decide +kernel
    · decide +kernel
    · decide +kernel
    · decide +kernel
    · decide +kernel
  obtain ⟨σ, hσ, hf, hf', hn, hn', hb, hfr⟩ := hreach
  refine ⟨σ, hσ, hf, hb, fun s hs => ?_, hfr⟩
  rcases hs.cases_head with rfl | ⟨k, v, hk, hat⟩
  · rw [hn]
    decide
  · rw [hf] at hk
    obtain ⟨_, rfl⟩ : k = key16 nameA ∧ v = 2 := by simpa using hk
    rcases hat.cases_head with rfl | ⟨k', w, hk', _⟩
    · rw [hn']
      decide
    · rw [hf'] at hk'
      simp at hk'

/-- The entries buffer of the object under "a" is not freed. -/
theorem nested_object_leaks :
    ¬ ∀ (root : Addr) (m₀ : Mem) (σ : Session), Zeroed m₀ root → Reaches root (.start m₀) σ →
      (∀ s, ObjectAt σ.now root s → objectCount σ.now s < 2 ^ 27) → ClosesTree root σ.now := by
  intro h
  obtain ⟨σ, hσ, hf, hb, hn, hfr⟩ := field_in_object
  have hk : (key16 nameA, ⟨2, .object⟩) ∈ objectFields σ.now ⟨0, 0⟩ := by
    rw [hf]
    exact List.mem_singleton_self _
  have hmem := ((h ⟨0, 0⟩ zeroedSlot σ zeroedSlot_zeroed hσ hn).below 3).mpr
    ⟨_, .field .here hk, .buf hb⟩
  rw [hfr] at hmem
  exact absurd hmem (by decide)

end Msm.Tree
