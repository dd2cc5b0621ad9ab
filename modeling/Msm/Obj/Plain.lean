import Msm.Obj.Calls

/-! # What changes the bytes readers can reach

Readers run without locks, so a byte they can reach should change by an atomic
store only: of the object's `entries_ptr`, of the count of its current buffer or
of the `data_ptr` of a string value. A writer's call keeps to this, with one
exception: a set of a number on a field of its type overwrites it in place with
an assignment that is not atomic. (A buffer size that wraps in 32 bits is the
other way to leave one's own memory.) -/
namespace Msm.Obj
open Msm.Exec Msm.CMem Msm.Api

/-- A plain write meets no byte that readers could reach in a state passed, the
last one being that of the write. -/
def PlainPrivate (slot : Addr) (passed : List Mem) (a : Act) : Prop :=
  a.IsPlain → ∀ x n, a.range = some (x, n) → ∀ o, x.off ≤ o → o < x.off + n →
    ∀ m ∈ passed, ¬ ReadersReach m slot x.block o

/-- The atomic stores by which the object in `slot` changes under its readers: of
`entries_ptr`, of the count of the current buffer, of the `data_ptr` in the value
block of a string. -/
inductive CommitStore (m : Mem) (slot : Addr) : Act → Prop
  | entriesPtr (p : Ptr) : CommitStore m slot (.store .release .ptr (some (slot + 8)) p)
  | count {p : Addr} (n : UInt32) : objectBuf m slot = some p →
      CommitStore m slot (.store .release .u32 (some p) n)
  | dataPtr {p v : Addr} {i : Nat} (s : Ptr) : objectBuf m slot = some p → i < objectCount m slot →
      m.load .u16 (p + (8 + i * 24 + 8)) = some typeString →
      m.load .ptr (p + (8 + i * 24 + 16)) = some (some v) →
      CommitStore m slot (.store .release .ptr (some (v + 8)) s)

/-- An action that writes or frees a byte that readers could reach in a state
passed is a commit store in the last of them. -/
def ReachCommits (slot : Addr) (passed : List Mem) (a : Act) : Prop :=
  ∀ b o, a.Alters b o → ∀ m ∈ passed, ReadersReach m slot b o →
    ∃ s ∈ passed.getLast?, CommitStore s slot a

/-- The call stays within its memory, its plain writes are private, and all it
changes within the readers' reach it changes by commit stores. -/
def CallPrivate (slot : Addr) (past : List Mem) (m : Mem) (c : WCall) : Prop :=
  (c.code slot).run m ≠ .error .outOfBounds ∧
    (c.code slot).Along (PlainPrivate slot) past m ∧ (c.code slot).Along (ReachCommits slot) past m

/-- A buffer size the call computes wraps in 32 bits, and the allocations up to
that of this buffer succeed: the doubled capacity of a full buffer of 2^31
entries or more, or the capacity of a string of 2^32 - 1 bytes. -/
def WCall.Overflows (slot : Addr) (m : Mem) : WCall → Prop
  | .set name x => match Keyed.find (objectFields m slot) (key16 name) with
    | some f => f.value.type = x.value.type ∧ x.value.Wraps ∧ m.outcome 0 = true
    | none => (Full m slot → m.outcome 0 = true) ∧
        ((Full m slot ∧ 2 ^ 31 ≤ objectCap m slot) ∨
          (m.outcome (if Full m slot then 1 else 0) = true ∧ x.value.Wraps ∧
            m.outcome ((if Full m slot then 1 else 0) + 1) = true))
  | .remove _ => False

section plain
variable {slot : Addr} {m m₀ : Mem} {g : State} {past : List Mem}

theorem Arg.mismatch_ne (x : Arg) (name : CStr) : x.mismatch name ≠ .outOfBounds := by
  cases x <;> exact fun h => by cases h

/-- The call faults out of bounds exactly when a size wraps. -/
theorem overflows_iff (name : CStr) (x : Arg) : (WCall.set name x).Overflows slot m ↔
    x.outcome slot m (objectFields m slot) name = .fault .outOfBounds := by
  simp only [WCall.Overflows, Arg.outcome, setOutcome]
  cases Keyed.find (objectFields m slot) (key16 name) with
  | some f =>
    by_cases ht : f.value.type = x.value.type
    · by_cases hw : x.value.Wraps ∧ m.outcome 0 = true
      · simp [ht, hw]
      · simp only [ht, hw, true_and, ne_eq, not_true_eq_false, if_false]
        exact ⟨fun h => h.elim, fun h => by cases h⟩
    · simp only [ht, false_and, ne_eq, not_false_eq_true, if_true, false_iff]
      exact fun h => x.mismatch_ne name (Outcome.fault.inj h)
  | none =>
    by_cases hfull : Full m slot
    · simp only [hfull, if_true, true_and, true_implies]
      grind
    · simp only [hfull, if_false, false_and, false_implies, true_and, false_or]
      grind

/-- The stores of a call that commit, as readers know them. -/
theorem Inv.commitStore (h : Inv slot m g) {a : Act} (ha : Commit slot g a) :
    CommitStore m slot a := by
  cases ha with
  | pointer p => exact .entriesPtr p
  | count n hc => exact .count n (by rw [h.objectBuf_eq, hc]; rfl)
  | @string e p he ht =>
    obtain ⟨b, cap, hc, hb⟩ := h.mem_entries he
    obtain ⟨i, hi⟩ := List.mem_iff_getElem?.mp he
    have hat := (h.buf_at hb).entry i e hi
    have hp : objectBuf m slot = some ⟨b, 0⟩ := by rw [h.objectBuf_eq, hc]; rfl
    have hlt : i < objectCount m slot := by
      rw [h.objectCount_eq]
      exact (List.getElem?_eq_some_iff.mp hi).1
    have htype := hat.type
    have hval := hat.val
    rw [Addr.mk_add] at htype hval
    exact .dataPtr (v := ⟨e.val, 0⟩) p hp hlt (by rwa [Addr.mk_add, Nat.zero_add, ← ht])
      (by rwa [Addr.mk_add, Nat.zero_add])

/-- A byte that readers could reach when a step was taken, or before it. -/
theorem Covers.reach (h : Inv slot m g) (hcov : Covers slot past g) {m' : Mem}
    (hm : m' ∈ past ++ [m]) {b o : Nat} (hr : ReadersReach m' slot b o) : g.reach b o := by
  rcases List.mem_append.mp hm with hm | hm
  · exact hcov m' hm b o hr
  · rw [List.mem_singleton.mp hm] at hr
    exact h.reach_of_view hr

/-- Without either exception a call is private. -/
theorem callPrivate_of_not (h : Inv slot m g) (hcov : Covers slot past g) (c : WCall)
    (hover : ¬ c.Overwrites (objectFields m slot)) (hflow : ¬ c.Overflows slot m) :
    CallPrivate slot past m c := by
  rw [h.objectFields_eq] at hover
  have hsafe : (c.code slot).Safe (T slot false m.next (fields g))
      (fun f _ _ => f ≠ Fault.outOfBounds) (fun _ _ _ => True) m g := by
    cases c with
    | set name x =>
      refine x.code_safe name h rfl Nat.le.refl (fun ho => absurd ho hover)
        (fun f hf _ _ _ he => ?_) (fun _ _ _ => trivial) (fun _ _ _ _ _ _ _ _ _ => trivial)
      rw [overflows_iff, h.objectFields_eq] at hflow
      exact hflow (he ▸ hf)
    | remove name =>
      exact Prog.Safe.bind (msmObjectRemove_safe h rfl Nat.le.refl (fun _ => trivial)
        (fun _ _ _ => trivial) fun _ _ _ _ _ _ => trivial)
  have halong {P : List Mem → Act → Prop} (hP : ∀ past s g a, Inv slot s g → Covers slot past g →
      Disciplined slot false g a → P (past ++ [s]) a) : (c.code slot).Along P past m :=
    (hsafe.along (I := fun h s g => Inv slot s g ∧ Covers slot h g)
      (fun _ _ _ _ _ _ => Covers.step)
      (fun past s g a _ _ hI ht => hP past s g a hI.1 hI.2 (ht.2 hI.1).2.2.2.1) ⟨h, hcov⟩).1
  refine ⟨fun hr => ?_, halong fun past s g a hI hc hd => ?_, halong fun past s g a hI hc hd => ?_⟩
  · obtain ⟨_, _, hne, _⟩ := hsafe.run_error hr
    exact hne rfl
  · intro hplain x n hx o h1 h2 m' hm' hr
    have halter : a.Alters x.block o := .inl ⟨x, n, hx, rfl, h1, h2⟩
    exact (hd.commit halter (hc.reach hI hm' hr)).not_plain hplain
  · intro b o halter m' hm' hr
    have hcommit := hI.commitStore (hd.commit halter (hc.reach hI hm' hr))
    exact ⟨s, by simp, hcommit⟩

/-- The block of a current field is within a reader's reach. -/
theorem Inv.value_reached (h : Inv slot m g) {e : Entry} (he : e ∈ entries g) {p : Payload}
    (hp : g.heap e.val = some (.val p)) {o : Nat} (ho : o < p.size) :
    ReadersReach m slot e.val o := by
  obtain ⟨b, cap, hc, hb⟩ := h.mem_entries he
  obtain ⟨i, hi⟩ := List.mem_iff_getElem?.mp he
  have hlt := (List.getElem?_eq_some_iff.mp hi).1
  have hat := (h.buf_at hb).entry i e hi
  refine .value (p := ⟨b, 0⟩) (v := ⟨e.val, 0⟩) (i := i) ?_ ?_ ?_ (h.payload_at hp).1 ho
  · rw [h.objectBuf_eq, hc]
    rfl
  · rw [h.objectCount_eq]
    exact hlt
  · have := hat.val
    rw [Addr.mk_add] at this ⊢
    rw [Nat.zero_add]
    exact this

/-- The assignment of a number to its field is not private. -/
theorem overwrite_not_private {α β : Type} {st : Setter β} {s : Scalar}
    (hst : Stores st (.scalar s)) (h : Inv slot m g) {name : CStr} {f : Field}
    (hf : Keyed.find (fields g) (key16 name) = some f) (ht : f.value.type = s.type)
    (k : β → CProg α) :
    ¬ (objectSetField st (some slot) (some name) >>= k).Along (PlainPrivate slot) past m := by
  intro hpriv
  obtain ⟨p, _, hrun, _, _, _, hp⟩ := (h.trace.find_sampled (key16 name) 0).run
  cases p with
  | none => rw [hf] at hp; cases hp
  | some a =>
    obtain ⟨e, he, hek, hheld⟩ := hp
    have hat := h.trace.held_at (Nat.le_refl 0) hheld
    obtain ⟨q, hq, hqt⟩ := h.entry_payload he
    have hfe := h.find_of_mem he
    rw [hek, hf] at hfe
    have hte : e.type = s.type := by
      rw [← h.value_type he, ← ht, Option.some.inj hfe]
    have hsize : q.size = s.size.toNat :=
      Payload.size_eq (show q.type = (Payload.scalar s).type from hqt.trans hte)
    have hfits := s.fits
    simp only [objectSetField, reduceCtorEq, if_false, objectFindEntry] at hpriv
    rw [Prog.bind_assoc] at hpriv
    replace hpriv := Prog.along_bind hrun hpriv
    have htype : ¬ e.type ≠ st.type := not_not.mpr (hte.trans hst.type.symm)
    simp only [ne_eq, reduceCtorEq, not_false_eq_true, if_true, entryTypeId, loadU16_bind,
      entryValuePtr, loadPtr_bind, Ptr.some_add, Prog.act_bind] at hpriv
    replace hpriv := ((Prog.along_act (Mem.exec_load hat.type)).mp hpriv).2
    rw [if_neg htype] at hpriv
    replace hpriv := ((Prog.along_act (Mem.exec_load hat.val)).mp hpriv).2
    simp only [hst.write, writeValue, Ptr.some_add, Addr.mk_add, Nat.zero_add] at hpriv
    have hsz : m.sizeOf e.val = some s.size.toNat := hsize ▸ (h.payload_at hq).1
    have hbad := ((Prog.along_act (Mem.exec_store ⟨_, hsz, s.fits⟩)).mp hpriv).1
    have hpos : 0 < s.kind.size := by cases s <;> simp [Scalar.kind, Kind.size]
    refine hbad rfl ⟨e.val, s.off⟩ s.kind.size rfl s.off (Nat.le_refl _) (by simp only; omega) m
      (by simp) (h.value_reached he hq ?_)
    rw [hsize]
    omega

/-- **Reachable bytes change by commit stores but for the overwriting of numbers.**
In every reachable state a call stays within its own memory, every plain write it
makes meets no byte that readers could ever reach, and every byte they could that
it changes it changes by an atomic store of `entries_ptr`, the count or a
`data_ptr`, if and only if it does not set a number on a field of its type and no
buffer size it computes wraps. -/
theorem plain_writes_private_iff (h0 : Zeroed m₀ slot) (h : Reachable slot m₀ past m) (c : WCall) :
    CallPrivate slot past m c ↔
      ¬ c.Overwrites (objectFields m slot) ∧ ¬ c.Overflows slot m := by
  obtain ⟨g, hI, hcov⟩ := h.inv h0
  constructor
  · intro hpriv
    refine ⟨fun hover => ?_, fun hflow => ?_⟩
    · rw [hI.objectFields_eq] at hover
      cases c with
      | remove name => exact hover
      | set name x =>
        obtain ⟨s, f, hs, hf, ht⟩ := hover
        rw [hs] at ht
        obtain ⟨st, k, hst, hcode⟩ := x.scalar_code hs slot name
        have hp : (x.code slot name).Along (PlainPrivate slot) past m := hpriv.2.1
        rw [hcode] at hp
        exact overwrite_not_private hst hI hf ht k hp
    · cases c with
      | remove name => exact hflow
      | set name x =>
        rw [overflows_iff, hI.objectFields_eq] at hflow
        have hsafe : (x.code slot name).Safe (T slot true m.next (fields g))
            (fun f _ _ => f = Fault.outOfBounds) (fun _ _ _ => False) m g := by
          refine x.code_safe name hI rfl Nat.le.refl (fun _ => rfl) (fun f hf _ _ _ => ?_)
            (fun hf => ?_) (fun _ _ _ _ hf => ?_)
          · rw [hflow] at hf
            cases hf
            rfl
          · rw [hflow] at hf
            cases hf
          · rw [hflow] at hf
            cases hf
        refine hpriv.1 ?_
        show (x.code slot name).run m = _
        cases hr : (x.code slot name).run m with
        | ok r =>
          obtain ⟨_, hq, _⟩ := hsafe.run_ok hr
          exact hq.elim
        | error f =>
          obtain ⟨_, _, hf, _⟩ := hsafe.run_error hr
          rw [hf]
  · rintro ⟨hover, hflow⟩
    exact callPrivate_of_not hI hcov c hover hflow

end plain

/-! An object whose one field is the number 7 under "a". To add the field and to
remove it are private; to set it to 8 overwrites the four bytes of the number where
readers look at them. -/

theorem nameA_nul_free : (0 : UInt8) ∉ [97] := by decide

def nameA : CStr := ⟨[97], nameA_nul_free⟩

theorem seven_reachable : ∃ past m, Reachable ⟨0, 0⟩ zeroedSlot past m ∧
    Keyed.find (objectFields m ⟨0, 0⟩) (key16 nameA) = some ⟨2, .scalar (.int32 7)⟩ :=
  ⟨_, _, .call (c := .set nameA (.int32 7)) .init rfl, by decide +kernel⟩

theorem plain_writes_private_iff_seven :
    CallPrivate ⟨0, 0⟩ [] zeroedSlot (.set nameA (.int32 7)) ∧
    ∃ past m, Keyed.find (objectFields m ⟨0, 0⟩) (key16 nameA) = some ⟨2, .scalar (.int32 7)⟩ ∧
      ¬ CallPrivate ⟨0, 0⟩ past m (.set nameA (.int32 8)) ∧
      CallPrivate ⟨0, 0⟩ past m (.remove nameA) := by
  have hnew : objectFields zeroedSlot ⟨0, 0⟩ = [] := rfl
  have hcap : objectCap zeroedSlot ⟨0, 0⟩ = 0 := rfl
  refine ⟨(plain_writes_private_iff zeroedSlot_zeroed .init _).mpr ⟨?_, ?_⟩, ?_⟩
  · rintro ⟨s, f, _, hf, _⟩
    rw [hnew] at hf
    cases hf
  · simp only [WCall.Overflows, hnew, Keyed.find, hcap]
    rintro ⟨_, ⟨_, h⟩ | ⟨_, h, _⟩⟩
    · exact absurd h (by decide)
    · exact h
  · obtain ⟨past, m, hr, hf⟩ := seven_reachable
    refine ⟨past, m, hf, fun h => ?_, (plain_writes_private_iff zeroedSlot_zeroed hr _).mpr ?_⟩
    · exact ((plain_writes_private_iff zeroedSlot_zeroed hr _).mp h).1 ⟨.int32 8, _, rfl, hf, rfl⟩
    · exact ⟨id, id⟩

theorem seven_overwritten_by_eight :
    ¬ ∀ (slot : Addr) (m₀ m : Mem) (past : List Mem) (c : WCall), Zeroed m₀ slot →
      Reachable slot m₀ past m → (c.code slot).Along (PlainPrivate slot) past m := by
  intro h
  obtain ⟨past, m, hr, hf⟩ := seven_reachable
  obtain ⟨g, hI, _⟩ := hr.inv zeroedSlot_zeroed
  rw [hI.objectFields_eq] at hf
  have hp := h _ _ _ _ (.set nameA (.int32 8)) zeroedSlot_zeroed hr
  obtain ⟨st, k, hst, hcode⟩ := (Arg.int32 8).scalar_code rfl ⟨0, 0⟩ nameA
  have hp' : ((Arg.int32 8).code ⟨0, 0⟩ nameA).Along (PlainPrivate ⟨0, 0⟩) past m := hp
  rw [hcode] at hp'
  exact overwrite_not_private hst hI hf rfl k hp'

end Msm.Obj
