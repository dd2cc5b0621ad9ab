import Msm.Obj.View

/-! # Room for one more entry

`object_add_entry` on any entries buffer, of whatever capacity: removal leaves
buffers of any. A full buffer is copied into one of twice its capacity, doubled
in 32 bits, while the length of the copy is computed in 64. -/
namespace Msm.Obj
open Msm.Exec Msm.CMem Msm.Api

/-- The slot points to a buffer at `a` with `count` entries of room for `cap`. -/
structure Buffered (slot : Addr) (m : Mem) (a : Addr) (count cap : UInt32) : Prop where
  pointer : m.load .ptr (slot + 8) = some (some a)
  count_eq : m.load .u32 a = some count
  cap_eq : m.load .u32 (a + 4) = some cap
  count_le : count.toNat ≤ cap.toNat
  cap_pos : 0 < cap.toNat
  valid : m.Valid a (8 + cap.toNat * 24)

/-- The slot has no buffer, or one whose entries lie within its capacity. -/
def EntriesSlot (slot : Addr) (m : Mem) : Prop :=
  m.load .ptr (slot + 8) = some none ∨ ∃ a count cap, Buffered slot m a count cap

/-- The bytes of the entries below the count. -/
def entryBytes (m : Mem) (slot : Addr) : List Cell :=
  match objectBuf m slot with
  | none => []
  | some a => m.read (a + 8) (objectCount m slot * 24)

/-- `object_add_entry` touches allocated bytes only. It returns null and leaves
everything as it was, or leaves the slot with a buffer that has the same entries
and room for one more, and returns the address of that one. -/
def MakesRoom (slot : Addr) (m : Mem) : Prop :=
  match (objectAddEntry (some slot)).run m with
  | .error _ => False
  | .ok (none, m') => m'.blocks = m.blocks
  | .ok (some e, m') => ∃ a count cap, Buffered slot m' a count cap ∧
      count.toNat = objectCount m slot ∧ count.toNat < cap.toNat ∧
      entryBytes m' slot = entryBytes m slot ∧ e = a + (8 + count.toNat * 24)

/-- The buffer is full, its doubled capacity wraps in 32 bits, and the allocation
of that size is granted. -/
def WrapsGranted (slot : Addr) (m : Mem) : Prop :=
  objectCap m slot ≤ objectCount m slot ∧ 2 ^ 31 ≤ objectCap m slot ∧ m.mallocOk = true

section room
variable {slot a : Addr} {m : Mem} {count cap newCap : UInt32} {p : Ptr}
  {F : Fault → Mem → Unit → Prop} {Q : Ptr → Mem → Unit → Prop}

theorem Buffered.buf_eq (h : Buffered slot m a count cap) : objectBuf m slot = some a := by
  rw [objectBuf, h.pointer, Option.getD_some]

theorem Buffered.objectCount_eq (h : Buffered slot m a count cap) :
    objectCount m slot = count.toNat := by
  rw [objectCount, h.buf_eq, Option.bind_some, h.count_eq, Option.elim_some]

theorem Buffered.objectCap_eq (h : Buffered slot m a count cap) : objectCap m slot = cap.toNat := by
  rw [objectCap, h.buf_eq, Ptr.some_add, Option.bind_some, h.cap_eq, Option.elim_some]

theorem Buffered.entryBytes_eq (h : Buffered slot m a count cap) :
    entryBytes m slot = m.read (a + 8) (count.toNat * 24) := by
  rw [entryBytes, h.buf_eq, h.objectCount_eq]

theorem objectBuf_null (h : m.load .ptr (slot + 8) = some none) : objectBuf m slot = none := by
  rw [objectBuf, h, Option.getD_some]

theorem objectCount_null (h : m.load .ptr (slot + 8) = some none) : objectCount m slot = 0 := by
  rw [objectCount, objectBuf_null h]
  rfl

theorem objectCap_null (h : m.load .ptr (slot + 8) = some none) : objectCap m slot = 0 := by
  rw [objectCap, objectBuf_null h]
  rfl

/-- The growing of a buffer: the copy fits the new one, or leaves it. -/
theorem grow_safe (hslot : m.Valid (slot + 8) 8)
    (hbuf : ∀ a, p = some a → m.Valid a (8 + count.toNat * 24)) (hnull : p = none → count = 0)
    (hfail : m.mallocOk = false → Q none m.tick ())
    (hwrap : m.mallocOk = true → newCap.toNat < count.toNat → ∀ m', F .outOfBounds m' ())
    (hok : ∀ m', m.mallocOk = true → count.toNat ≤ newCap.toNat →
      m'.load .ptr (slot + 8) = some (some ⟨m.next, 0⟩) → m'.load .u32 ⟨m.next, 0⟩ = some count →
      m'.load .u32 ⟨m.next, 4⟩ = some newCap → m'.Valid ⟨m.next, 0⟩ (8 + newCap.toNat * 24) →
      (∀ a, p = some a →
        m'.read ⟨m.next, 8⟩ (count.toNat * 24) = m.read (a + 8) (count.toNat * 24)) →
      Q (some ⟨m.next, 8 + count.toNat * 24⟩) m' ()) :
    (objectGrow (some slot) p count newCap).Safe (fun _ _ _ _ _ => True) F Q m () := by
  simp only [objectGrow, malloc_bind, memset0_bind, objBufSetCount, objBufSetCapacity,
    atomicStoreU32, store_bind, objBufHeader, entrySize, objBufEntries, memcpy_bind]
  cases hm : m.mallocOk with
  | false =>
    refine Prog.safe_act () (Mem.exec_malloc_fail hm) trivial ?_
    simpa using hfail hm
  | true =>
    refine Prog.safe_act () (Mem.exec_malloc_ok hm) trivial ?_
    have hs0 : (m.tick.alloc (8 + newCap.toNat * 24)).sizeOf m.next =
        some (8 + newCap.toNat * 24) := Mem.sizeOf_alloc m.tick _
    have hk0 : m.Keeps (m.tick.alloc (8 + newCap.toNat * 24)) := (Mem.Keeps.refl m).tick.alloc _
    generalize m.tick.alloc (8 + newCap.toNat * 24) = m₀ at hs0 hk0
    simp only [reduceCtorEq, if_false, Ptr.some_add, Addr.mk_add, Nat.zero_add]
    let m₁ := m₀.write ⟨m.next, 0⟩ (List.replicate (8 + newCap.toNat * 24) (.byte 0))
    let m₂ := m₁.write ⟨m.next, 0⟩ (Kind.u32.encode count)
    let m₃ := m₂.write ⟨m.next, 4⟩ (Kind.u32.encode newCap)
    have hk3 : m.Keeps m₃ :=
      ((hk0.write (Nat.le_refl _)).write (Nat.le_refl _)).write (Nat.le_refl _)
    have hs3 : m₃.sizeOf m.next = some (8 + newCap.toNat * 24) := by simpa [m₁, m₂, m₃] using hs0
    have hv (o : Nat) (ho : o + 4 ≤ 8) : m₀.Valid ⟨m.next, o⟩ Kind.u32.size :=
      ⟨_, hs0, by simp only [Kind.size]; omega⟩
    have hv1 : m₁.Valid ⟨m.next, 0⟩ Kind.u32.size := (Mem.valid_write ..).mpr (hv 0 (by omega))
    have hv2 : m₂.Valid ⟨m.next, 4⟩ Kind.u32.size := by simpa [m₁, m₂] using hv 4 (by omega)
    have hcount : m₃.load .u32 ⟨m.next, 0⟩ = some count :=
      (Mem.load_write_apart fun _ => by simp [Kind.size]).trans
        (Mem.load_write_same (k := .u32) _ hv1)
    have hcap : m₃.load .u32 ⟨m.next, 4⟩ = some newCap := Mem.load_write_same (k := .u32) _ hv2
    refine Prog.safe_act () (Mem.exec_zero ⟨_, hs0, by simp⟩) trivial ?_
    refine Prog.safe_act () (Mem.exec_store hv1) trivial ?_
    refine Prog.safe_act () (Mem.exec_store hv2) trivial ?_
    have hne : slot.block ≠ m.next := Nat.ne_of_lt hslot.lt
    -- the store of the pointer touches nothing of the new buffer
    have hpub (m' : Mem) (hk : m.Keeps m') (hs : m'.sizeOf m.next = some (8 + newCap.toNat * 24))
        (hc : m'.load .u32 ⟨m.next, 0⟩ = some count) (hn : m'.load .u32 ⟨m.next, 4⟩ = some newCap)
        (hle : count.toNat ≤ newCap.toNat) (hread : ∀ a, p = some a →
          m'.read ⟨m.next, 8⟩ (count.toNat * 24) = m.read (a + 8) (count.toNat * 24)) :
        (atomicStorePtr (some (slot + 8)) (some ⟨m.next, 0⟩) .release >>= fun _ =>
          pure (some ⟨m.next, 8 + count.toNat * 24⟩)).Safe (fun _ _ _ _ _ => True) F Q m' () := by
      have hv8 : m'.Valid (slot + 8) Kind.ptr.size := hk.valid hslot
      refine Prog.safe_act () (Mem.exec_store hv8) trivial ?_
      refine hok _ hm hle (Mem.load_write_same (k := .ptr) _ hv8) ?_ ?_ ?_ fun a ha => ?_
      · exact (Mem.load_write_apart fun he => absurd he hne).trans hc
      · exact (Mem.load_write_apart fun he => absurd he hne).trans hn
      · exact (Mem.valid_write ..).mpr ⟨_, hs, by simp⟩
      · exact (Mem.read_write_apart fun he => absurd he hne).trans (hread a ha)
    cases p with
    | none =>
      have h0 := hnull rfl
      simp only [ne_eq, not_true_eq_false, false_and, if_false]
      exact hpub m₃ hk3 hs3 hcount hcap (by rw [h0]; exact Nat.zero_le _) fun a ha => by cases ha
    | some b =>
      have hold := hbuf b rfl
      by_cases hpos : 0 < count
      · simp only [ne_eq, reduceCtorEq, not_false_eq_true, hpos, and_self, if_true, Ptr.some_add]
        by_cases hle : count.toNat ≤ newCap.toNat
        · have hdst : m₃.Valid ⟨m.next, 8⟩ (count.toNat * 24) := ⟨_, hs3, by simp only; omega⟩
          have hsrc : m.Valid (b + 8) (count.toNat * 24) := hold.mono (Nat.le_refl _)
          refine Prog.safe_act () (Mem.exec_memcpy hdst (hk3.valid hsrc)) trivial ?_
          refine hpub _ (hk3.write (Nat.le_refl _)) ((m₃.sizeOf_write ..).trans hs3) ?_ ?_ hle ?_
          · exact (Mem.load_write_apart fun _ => by simp [Kind.size]).trans hcount
          · exact (Mem.load_write_apart fun _ => by simp [Kind.size]).trans hcap
          · rintro a ⟨⟩
            exact (Mem.read_write_all hdst (m₃.length_read ..)).trans
              (Mem.read_congr fun o _ _ => hk3.cellAt_eq hsrc.lt o)
        · refine Prog.safe_fault (Mem.exec_memcpy_invalid ?_) (hwrap hm (by omega) _)
          rintro ⟨sz, hsz, hin⟩
          rw [hs3] at hsz
          cases hsz
          simp only at hin
          omega
      · have h0 : count.toNat = 0 := by
          rw [UInt32.lt_iff_toNat_lt] at hpos
          exact Nat.eq_zero_of_not_pos hpos
        simp only [hpos, and_false, if_false]
        refine hpub m₃ hk3 hs3 hcount hcap (by omega) fun a _ => ?_
        rw [h0, Nat.zero_mul]
        rfl

/-- A null buffer becomes one of four entries, a full one is doubled, and any
other is used as it is. -/
theorem addEntry_safe (h : EntriesSlot slot m) (hslot : m.Valid (slot + 8) 8)
    (hfail : m.mallocOk = false → Q none m.tick ())
    (hwrap : WrapsGranted slot m → ∀ m', F .outOfBounds m' ())
    (hok : ¬ WrapsGranted slot m → ∀ m' a count cap, Buffered slot m' a count cap →
      count.toNat = objectCount m slot → count.toNat < cap.toNat →
      entryBytes m' slot = entryBytes m slot → Q (some (a + (8 + count.toNat * 24))) m' ()) :
    (objectAddEntry (some slot)).Safe (fun _ _ _ _ _ => True) F Q m () := by
  rcases h with hnull | ⟨a, count, cap, hb⟩
  · refine Prog.safe_act () (Mem.exec_load hnull) trivial ?_
    have hnot : ¬ WrapsGranted slot m := fun hw => by
      have hbig := hw.2.1
      rw [objectCap_null hnull] at hbig
      exact absurd hbig (by decide)
    refine grow_safe hslot (fun a ha => by cases ha) (fun _ => rfl) hfail
      (fun _ hlt => absurd hlt (Nat.not_lt_zero _)) ?_
    intro m' hm _ hp hc hn hv _
    have hb' : Buffered slot m' ⟨m.next, 0⟩ 0 4 := ⟨hp, hc, hn, by decide, by decide, hv⟩
    refine hok hnot m' _ 0 4 hb' (objectCount_null hnull).symm (by decide) ?_
    rw [hb'.entryBytes_eq, entryBytes, objectBuf_null hnull]
    rfl
  · have hcount := hb.objectCount_eq
    have hcap := hb.objectCap_eq
    refine Prog.safe_act () (Mem.exec_load hb.pointer) trivial ?_
    refine Prog.safe_act () (Mem.exec_load hb.count_eq) trivial ?_
    refine Prog.safe_act () (Mem.exec_load hb.cap_eq) trivial ?_
    have hle := hb.count_le
    have hpos := hb.cap_pos
    have hlt := cap.toNat_lt
    simp only [Prog.bind, reduceCtorEq, false_or]
    by_cases hfull : cap.toNat ≤ count.toNat
    · have hne : cap ≠ 0 := fun h0 => by rw [h0] at hpos; exact Nat.lt_irrefl 0 hpos
      have hdouble : (cap * 2).toNat = cap.toNat * 2 % 2 ^ 32 := by
        rw [UInt32.toNat_mul, show (2 : UInt32).toNat = 2 from rfl]
      rw [if_pos (UInt32.le_iff_toNat_le.mpr hfull), if_neg hne]
      refine grow_safe hslot ?_ (fun hn => by cases hn) hfail (fun hm hsmall => hwrap ?_) ?_
      · intro c hc
        cases hc
        obtain ⟨sz, hsz, hin⟩ := hb.valid
        exact ⟨sz, hsz, by omega⟩
      · exact ⟨by omega, by omega, hm⟩
      · intro m' _ hroom hp hc hn hv hread
        have hb' : Buffered slot m' ⟨m.next, 0⟩ count (cap * 2) :=
          ⟨hp, hc, hn, hroom, by omega, hv⟩
        have hnot : ¬ WrapsGranted slot m := fun hw => by
          have hbig := hw.2.1
          omega
        have hq := hok hnot m' _ count _ hb' hcount.symm (by omega)
          (by rw [hb'.entryBytes_eq, hb.entryBytes_eq]; exact hread a rfl)
        rwa [Addr.mk_add, Nat.zero_add] at hq
    · rw [if_neg (fun hle' => hfull (UInt32.le_iff_toNat_le.mp hle'))]
      have hnot : ¬ WrapsGranted slot m := fun hw => by
        have hfull' := hw.1
        omega
      have hq := hok hnot m a count cap hb hcount.symm (by omega) rfl
      rwa [← Addr.add_add] at hq

/-- The entries are copied into a block that is too small for them. -/
theorem addEntry_overflows (h : EntriesSlot slot m) (hslot : m.Valid (slot + 8) 8)
    (hw : WrapsGranted slot m) : (objectAddEntry (some slot)).run m = .error .outOfBounds := by
  have hsafe : (objectAddEntry (some slot)).Safe (fun _ _ _ _ _ => True)
      (fun f _ (_ : Unit) => f = Fault.outOfBounds) (fun _ _ _ => False) m () := by
    refine addEntry_safe h hslot (fun hm => ?_) (fun _ _ => rfl) (fun hnot => absurd hw hnot)
    rw [hw.2.2] at hm
    cases hm
  cases hr : (objectAddEntry (some slot)).run m with
  | ok r =>
    obtain ⟨_, hf, _⟩ := hsafe.run_ok hr
    exact hf.elim
  | error f =>
    obtain ⟨_, _, hf, _⟩ := hsafe.run_error hr
    rw [hf]

/-- **Room is made exactly when the doubled capacity does not wrap.** For every
entries buffer with its entries within its capacity, or none, and whether or not
the allocation is granted. -/
theorem makesRoom_iff (h : EntriesSlot slot m) : MakesRoom slot m ↔ ¬ WrapsGranted slot m := by
  have hslot : m.Valid (slot + 8) 8 := by
    rcases h with hnull | ⟨_, _, _, hb⟩
    · exact Mem.load_valid hnull
    · exact Mem.load_valid hb.pointer
  constructor
  · intro hroom hw
    rw [MakesRoom, addEntry_overflows h hslot hw] at hroom
    exact hroom
  · intro hnot
    have hsafe : (objectAddEntry (some slot)).Safe (fun _ _ _ _ _ => True)
        (fun _ _ (_ : Unit) => False) (fun p m' _ => match p with
          | none => m'.blocks = m.blocks
          | some e => ∃ a count cap, Buffered slot m' a count cap ∧
              count.toNat = objectCount m slot ∧ count.toNat < cap.toNat ∧
              entryBytes m' slot = entryBytes m slot ∧ e = a + (8 + count.toNat * 24)) m () := by
      refine addEntry_safe h hslot (fun _ => rfl) (fun hw => absurd hw hnot) ?_
      intro _ m' a count cap hb hcount hlt hbytes
      exact ⟨a, count, cap, hb, hcount, hlt, hbytes, rfl⟩
    obtain ⟨p, m', _, hrun, hq⟩ := hsafe.run_total
    rw [MakesRoom, hrun]
    cases p with
    | none => exact hq
    | some e => exact hq

end room

/-! A full buffer of one entry, as a removal leaves it, and one of 2^31. -/

/-- A slot and a full buffer of `count` entries, all bytes zero. -/
def fullBuffer (count : UInt32) : Mem :=
  let header := Kind.u32.encode count ++ Kind.u32.encode count
  ⟨[some ⟨16, fun i => if 8 ≤ i then .frag ⟨1, 0⟩ (i - 8) else .byte 0⟩,
    some ⟨8 + count.toNat * 24, fun i => header.getD i (.byte 0)⟩], []⟩

theorem fullBuffer_one : EntriesSlot ⟨0, 0⟩ (fullBuffer 1) :=
  .inr ⟨⟨1, 0⟩, 1, 1, rfl, rfl, rfl, by decide, by decide, by decide⟩

theorem fullBuffer_huge : EntriesSlot ⟨0, 0⟩ (fullBuffer 0x80000000) :=
  .inr ⟨⟨1, 0⟩, 0x80000000, 0x80000000, rfl, rfl, rfl, by decide, by decide, by decide⟩

theorem makesRoom_iff_one :
    MakesRoom ⟨0, 0⟩ (fullBuffer 1) ↔ ¬ WrapsGranted ⟨0, 0⟩ (fullBuffer 1) :=
  makesRoom_iff fullBuffer_one

theorem copies_past_new_buffer :
    ¬ ∀ (slot : Addr) (m : Mem), EntriesSlot slot m → MakesRoom slot m := by
  intro h
  have hw : WrapsGranted ⟨0, 0⟩ (fullBuffer 0x80000000) := ⟨by decide, by decide, rfl⟩
  have hroom := h _ _ fullBuffer_huge
  rw [MakesRoom, addEntry_overflows fullBuffer_huge ⟨16, rfl, Nat.le_refl _⟩ hw] at hroom
  exact hroom

end Msm.Obj
