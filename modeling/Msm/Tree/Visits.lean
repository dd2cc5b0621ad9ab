import Msm.Api.Walks
import Msm.Arr.Growable
import Msm.Obj.Room
import Msm.Tree.Teardown

/-! # The addresses of teardown and of access

Teardown walks an array, and the entries of an object, with a 32-bit product of
index and stride; access computes the same addresses in 64 bits. They are the
same as long as the last product fits 32 bits. -/
namespace Msm.Tree
open Msm.Exec Msm.CMem Msm.Api Msm.Arr Msm.Obj

/-- The slot has no buffer, or one whose size can be read. -/
def Headed (slot : Addr) (m : Mem) : Prop :=
  ∃ p, m.load .ptr (slot + 8) = some p ∧ ∀ a, p = some a → ∃ n, m.load .u32 a = some n

/-- What `array::deallocate` passes to the item's `deallocate` in round `i`. -/
def itemVisit (m : Mem) (slot : Addr) (itemSize : UInt32) (i : Nat) : Ptr :=
  bufPtr m slot + 8 + (UInt32.ofNat i * itemSize).toNat

/-- The entry that `object::deallocate` reads in round `i`. -/
def entryVisit (m : Mem) (slot : Addr) (i : Nat) : Ptr :=
  objectBuf m slot + 8 + (UInt32.ofNat i * 24).toNat

/-- The entry that `object_find_entry_by_hash` examines in round `i`. -/
def entryExamined (m : Mem) (slot : Addr) (i : Nat) : Ptr := objectBuf m slot + 8 + i * 24

/-- The first index from `i` on, of `n`, that `look` accepts. -/
def search (look : Nat → CProg Bool) : Nat → Nat → CProg (Option Nat)
  | 0, _ => pure none
  | n + 1, i => do
    let found ← look i
    if found then pure (some i) else search look n (i + 1)

/-- `object_find_entry_by_hash` examines the entry at `e`. -/
def examine (h : UInt64) (e : Ptr) : CProg Bool := do
  let nameHash ← entryNameHash e
  pure (nameHash = h)

/-- The end of both teardowns. -/
def release (slot : Addr) (buf : Ptr) : CProg Unit := do
  free buf
  store .plain .ptr (some slot + 8) none

/-- On `m` the loop of `array::deallocate` visits `addr i` for each `i` below the size. -/
def VisitsItems (slot : Addr) (itemSize : UInt32) (m : Mem) (addr : Nat → Ptr) : Prop :=
  ∀ dealloc : Ptr → CProg Unit, (arrayDeallocate dealloc itemSize (some slot)).run m =
    (if bufPtr m slot = none then pure () else do
      rounds (fun i => dealloc (addr i)) (arraySize m slot) 0
      release slot (bufPtr m slot) : CProg Unit).run m

/-- On `m` the loop of `object::deallocate` visits `addr i` for each `i` below the count. -/
def VisitsEntries (slot : Addr) (m : Mem) (addr : Nat → Ptr) : Prop :=
  (objectDeallocate (some slot)).run m =
    (if objectBuf m slot = none then pure () else do
      rounds (fun i => deallocateEntry (addr i)) (objectCount m slot) 0
      release slot (objectBuf m slot) : CProg Unit).run m

/-- On `m` the lookup examines `addr i` for each `i` below the count, up to the
first entry with the hash, and returns the address it has examined last. -/
def ExaminesEntries (slot : Addr) (m : Mem) (addr : Nat → Ptr) : Prop :=
  ∀ h, (objectFindEntryByHash (some slot) h).run m = (do
    let found ← search (fun i => examine h (addr i)) (objectCount m slot) 0
    pure (found.elim none addr) : CProg Ptr).run m

/-- Teardown visits the elements that `msm_array_get` gives, each once. -/
def ItemsAgree (slot : Addr) (itemSize : UInt32) (m : Mem) : Prop :=
  (∀ i : UInt32, i.toNat < arraySize m slot →
    (msmArrayGet (some slot) i itemSize).run m = .ok (itemVisit m slot itemSize i.toNat, m)) ∧
  ∀ i j, i < arraySize m slot → j < arraySize m slot →
    itemVisit m slot itemSize i = itemVisit m slot itemSize j → i = j

/-- Teardown visits the entries that the lookup examines, each once. -/
def EntriesAgree (slot : Addr) (m : Mem) : Prop :=
  (∀ i < objectCount m slot, entryVisit m slot i = entryExamined m slot i) ∧
  ∀ i j, i < objectCount m slot → j < objectCount m slot →
    entryVisit m slot i = entryVisit m slot j → i = j

section visits
variable {slot : Addr} {itemSize : UInt32} {m : Mem}

/-! ## The loops -/

theorem scanEntries_search (p : Ptr) (h : UInt64) (n i : Nat) :
    scanEntries p h n i = search (fun j => examine h (p + j * 24)) n i := by
  induction n generalizing i with
  | zero => rfl
  | succ n ih =>
    rw [scanEntries, search, examine, Prog.bind_assoc]
    refine congrArg _ (funext fun nameHash => ?_)
    simp [ih]

theorem Headed.visitsItems (h : Headed slot m) (itemSize : UInt32) :
    VisitsItems slot itemSize m (itemVisit m slot itemSize) := by
  intro dealloc
  obtain ⟨p, hp, hn⟩ := h
  have hbuf : bufPtr m slot = p := by rw [bufPtr, hp, Option.getD_some]
  rw [arrayDeallocate, if_neg (Option.some_ne_none _)]
  simp only [loadPtr_bind, Ptr.some_add, Prog.run, Mem.exec_load hp, hbuf]
  cases p with
  | none => rfl
  | some a =>
    obtain ⟨n, hn⟩ := hn a rfl
    have hsize : arraySize m slot = n.toNat := by
      rw [arraySize, hbuf, Option.bind_some, hn, Option.elim_some]
    simp only [reduceCtorEq, if_false, loadU32_bind, Prog.run, Mem.exec_load hn, hsize]
    rw [show (0 : UInt32) = UInt32.ofNat 0 from rfl, deallocateItems_rounds]
    simp only [itemVisit, hbuf]
    rfl

theorem Headed.visitsEntries (h : Headed slot m) : VisitsEntries slot m (entryVisit m slot) := by
  obtain ⟨p, hp, hn⟩ := h
  have hbuf : objectBuf m slot = p := by rw [objectBuf, hp, Option.getD_some]
  rw [VisitsEntries, objectDeallocate, if_neg (Option.some_ne_none _)]
  simp only [loadPtr_bind, Ptr.some_add, Prog.run, Mem.exec_load hp, hbuf]
  cases p with
  | none => rfl
  | some a =>
    obtain ⟨n, hn⟩ := hn a rfl
    have hcount : objectCount m slot = n.toNat := by
      rw [objectCount, hbuf, Option.bind_some, hn, Option.elim_some]
    simp only [reduceCtorEq, if_false, loadU32_bind, Prog.run, Mem.exec_load hn, hcount]
    rw [show (0 : UInt32) = UInt32.ofNat 0 from rfl, deallocateEntries_rounds]
    simp only [entryVisit, hbuf]
    rfl

theorem Headed.examinesEntries (h : Headed slot m) :
    ExaminesEntries slot m (entryExamined m slot) := by
  intro hash
  obtain ⟨p, hp, hn⟩ := h
  have hbuf : objectBuf m slot = p := by rw [objectBuf, hp, Option.getD_some]
  simp only [objectFindEntryByHash, atomicLoadPtr, loadPtr_bind, Ptr.some_add, Prog.run,
    Mem.exec_load hp]
  cases p with
  | none =>
    have hcount : objectCount m slot = 0 := by rw [objectCount, hbuf]; rfl
    rw [hcount]
    rfl
  | some a =>
    obtain ⟨n, hn⟩ := hn a rfl
    have hcount : objectCount m slot = n.toNat := by
      rw [objectCount, hbuf, Option.bind_some, hn, Option.elim_some]
    simp only [reduceCtorEq, if_false, objBufCount, atomicLoadU32, loadU32_bind, Prog.run,
      Mem.exec_load hn, hcount, scanEntries_search, entryExamined, hbuf]
    by_cases h0 : n = 0
    · subst h0
      rfl
    · rw [if_neg h0]
      refine congrArg (fun p : CProg Ptr => p.run m) (congrArg _ (funext fun found => ?_))
      cases found with
      | none => rfl
      | some i => rw [Option.elim_some, entryExamined, hbuf]; rfl

/-! ## The addresses -/

theorem ptr_add_inj {a : Addr} {x y : Nat} : (some a : Ptr) + x = (some a : Ptr) + y ↔ x = y := by
  constructor
  · intro h
    have := congrArg Addr.off (Option.some.inj h)
    simpa using this
  · intro h
    rw [h]

theorem arraySize_lt (m : Mem) (slot : Addr) : arraySize m slot < 2 ^ 32 := by
  rw [arraySize]
  cases (bufPtr m slot).bind (m.load .u32) with
  | none => decide
  | some n => exact n.toNat_lt

/-- The address `msm_array_get` gives below the size. -/
theorem Headed.get_run (h : Headed slot m) (hs : itemSize ≠ 0) {i : UInt32}
    (hi : i.toNat < arraySize m slot) : (msmArrayGet (some slot) i itemSize).run m =
      .ok (bufPtr m slot + 8 + i.toNat * itemSize.toNat, m) := by
  obtain ⟨p, hp, hn⟩ := h
  have hbuf : bufPtr m slot = p := by rw [bufPtr, hp, Option.getD_some]
  rw [arraySize, hbuf] at hi
  cases p with
  | none => exact absurd hi (Nat.not_lt_zero _)
  | some a =>
    obtain ⟨n, hn⟩ := hn a rfl
    rw [Option.bind_some, hn, Option.elim_some] at hi
    have hle : ¬ n ≤ i := fun hle => by
      have := UInt32.le_iff_toNat_le.mp hle
      omega
    simp only [msmArrayGet, reduceCtorEq, hs, or_self, if_false, atomicLoadPtr, loadPtr_bind,
      Ptr.some_add, Prog.run, Mem.exec_load hp, arrBufSize, atomicLoadU32, loadU32_bind,
      Mem.exec_load hn, hle, hbuf]
    rfl

theorem buf_some_of_size {i : Nat} (hi : i < arraySize m slot) : ∃ a, bufPtr m slot = some a := by
  rw [arraySize] at hi
  cases hb : bufPtr m slot with
  | none => rw [hb] at hi; exact absurd hi (Nat.not_lt_zero i)
  | some a => exact ⟨a, rfl⟩

/-- A stride of 0 gives null for every index, and only then is an element without
an address. -/
theorem itemsAgree_iff (h : Headed slot m) : ItemsAgree slot itemSize m ↔
    arraySize m slot = 0 ∨ (itemSize ≠ 0 ∧ (arraySize m slot - 1) * itemSize.toNat < 2 ^ 32) := by
  have hlt := arraySize_lt m slot
  constructor
  · intro hagree
    rcases Nat.eq_zero_or_pos (arraySize m slot) with h0 | hpos
    · exact .inl h0
    obtain ⟨a, ha⟩ := buf_some_of_size hpos
    have hne : itemSize ≠ 0 := fun h0 => by
      have hnull := hagree.1 0 hpos
      rw [msmArrayGet, if_pos (.inr h0), itemVisit, ha] at hnull
      cases hnull
    refine .inr ⟨hne, ((products_iff hlt).mp fun i hi => ?_).resolve_left (Nat.ne_of_gt hpos)⟩
    have hi32 : (UInt32.ofNat i).toNat = i := by
      rw [UInt32.toNat_ofNat']
      omega
    have hget := hagree.1 (UInt32.ofNat i) (by rw [hi32]; exact hi)
    rw [h.get_run hne (by rw [hi32]; exact hi), hi32, itemVisit, ha] at hget
    exact (ptr_add_inj.mp (congrArg Prod.fst (Except.ok.inj hget))).symm
  · intro hcond
    refine ⟨fun i hi => ?_, fun i j hi hj he => ?_⟩
    · obtain ⟨hne, hfit⟩ := hcond.resolve_left (by omega)
      have hprod := (products_iff hlt).mpr (.inr hfit) i.toNat hi
      rw [h.get_run hne hi, itemVisit, hprod]
    · obtain ⟨hne, hfit⟩ := hcond.resolve_left (by omega)
      obtain ⟨a, ha⟩ := buf_some_of_size hi
      have hprod := (products_iff hlt).mpr (.inr hfit)
      rw [itemVisit, itemVisit, hprod i hi, hprod j hj, ha] at he
      have hpos : 0 < itemSize.toNat :=
        Nat.pos_of_ne_zero fun h0 => hne (UInt32.toNat_inj.mp h0)
      exact Nat.eq_of_mul_eq_mul_right hpos (ptr_add_inj.mp he)

theorem entriesAgree_iff (m : Mem) (slot : Addr) : EntriesAgree slot m ↔
    objectCount m slot = 0 ∨ (objectCount m slot - 1) * 24 < 2 ^ 32 := by
  have hlt : objectCount m slot < 2 ^ 32 := arraySize_lt m slot
  have hbuf {i : Nat} (hi : i < objectCount m slot) : ∃ a, objectBuf m slot = some a :=
    buf_some_of_size hi
  have hiff := products_iff (s := 24) hlt
  constructor
  · intro hagree
    refine hiff.mp fun i hi => ?_
    obtain ⟨a, ha⟩ := hbuf hi
    have he := hagree.1 i hi
    rw [entryVisit, entryExamined, ha] at he
    exact ptr_add_inj.mp he
  · intro hcond
    have hprod := hiff.mpr hcond
    refine ⟨fun i hi => ?_, fun i j hi hj he => ?_⟩
    · rw [entryVisit, entryExamined, hprod i hi]
      rfl
    · obtain ⟨a, ha⟩ := hbuf hi
      rw [entryVisit, entryVisit, hprod i hi, hprod j hj, ha] at he
      exact Nat.eq_of_mul_eq_mul_right (by decide) (ptr_add_inj.mp he)

/-- **Teardown visits the addresses of access exactly while the products fit.**
Whatever the item's `deallocate`, the loops visit the addresses named here and
the lookup examines those named here. They agree, and are distinct, if and only
if the last index times the stride is below 2^32 and the stride is not 0. -/
theorem teardown_visits_iff (h : Headed slot m) (itemSize : UInt32) :
    VisitsItems slot itemSize m (itemVisit m slot itemSize) ∧
    VisitsEntries slot m (entryVisit m slot) ∧ ExaminesEntries slot m (entryExamined m slot) ∧
    (ItemsAgree slot itemSize m ↔
      arraySize m slot = 0 ∨ (itemSize ≠ 0 ∧ (arraySize m slot - 1) * itemSize.toNat < 2 ^ 32)) ∧
    (EntriesAgree slot m ↔
      objectCount m slot = 0 ∨ (objectCount m slot - 1) * 24 < 2 ^ 32) :=
  ⟨h.visitsItems itemSize, h.visitsEntries, h.examinesEntries, itemsAgree_iff h,
    entriesAgree_iff m slot⟩

end visits

/-! Three elements of 24 bytes, and so many that the last product is 2^32 + 8. -/

theorem headed_fullBuffer (count : UInt32) (h : (fullBuffer count).load .u32 ⟨1, 0⟩ = some count) :
    Headed ⟨0, 0⟩ (fullBuffer count) :=
  ⟨some ⟨1, 0⟩, rfl, fun _ ha => ⟨count, Option.some.inj ha ▸ h⟩⟩

theorem teardown_visits_iff_three : itemVisit (fullBuffer 3) ⟨0, 0⟩ 24 2 = some ⟨1, 56⟩ ∧
    VisitsItems ⟨0, 0⟩ 24 (fullBuffer 3) (itemVisit (fullBuffer 3) ⟨0, 0⟩ 24) ∧
    ItemsAgree ⟨0, 0⟩ 24 (fullBuffer 3) ∧ EntriesAgree ⟨0, 0⟩ (fullBuffer 3) := by
  obtain ⟨hvisits, _, _, hitems, hentries⟩ := teardown_visits_iff (headed_fullBuffer 3 rfl) 24
  exact ⟨rfl, hvisits, hitems.mpr (by decide), hentries.mpr (by decide)⟩

theorem visits_wrap : Headed ⟨0, 0⟩ (fullBuffer 178956972) ∧
    ¬ ItemsAgree ⟨0, 0⟩ 24 (fullBuffer 178956972) ∧
    ¬ EntriesAgree ⟨0, 0⟩ (fullBuffer 178956972) := by
  have h := headed_fullBuffer 178956972 rfl
  refine ⟨h, fun hitems => ?_, fun hentries => ?_⟩
  · have hsize : arraySize (fullBuffer 178956972) ⟨0, 0⟩ = 178956972 := rfl
    have hcond := (itemsAgree_iff h).mp hitems
    rw [hsize, show UInt32.toNat 24 = 24 from rfl] at hcond
    omega
  · have hcount : objectCount (fullBuffer 178956972) ⟨0, 0⟩ = 178956972 := rfl
    have hcond := (entriesAgree_iff _ _).mp hentries
    rw [hcount] at hcond
    omega

end Msm.Tree
