import Msm.Obj.Heap

/-! # The object a memory holds

The fields of a slot computed from the bytes of a memory alone, the way a reader
that runs undisturbed would find them. `Inv.objectFields_eq`: where the
invariant holds, they are the fields of the ghost state. -/
namespace Msm.Obj
open Msm.CMem Msm.Api

/-- The address of the slot's entries buffer. -/
def objectBuf (m : Mem) (slot : Addr) : Ptr := (m.load .ptr (slot + 8)).getD none

def objectCount (m : Mem) (slot : Addr) : Nat :=
  ((objectBuf m slot).bind (m.load .u32)).elim 0 UInt32.toNat

def objectCap (m : Mem) (slot : Addr) : Nat :=
  ((objectBuf m slot + 4).bind (m.load .u32)).elim 0 UInt32.toNat

/-- The value in the block at `v` of a field of type `t`. -/
def readValue (m : Mem) (v : Addr) (t : UInt16) : Value :=
  if t = typeBool then .scalar (.bool ((m.load .u32 (v + 4)).getD 0))
  else if t = typeInt32 then .scalar (.int32 ((m.load .u32 (v + 4)).getD 0))
  else if t = typeInt64 then .scalar (.int64 ((m.load .u64 (v + 8)).getD 0))
  else if t = typeFloat64 then .scalar (.float64 ((m.load .u64 (v + 8)).getD 0))
  else if t = typeString then .string (Str.stringValue m v)
  else .object

def readEntry (m : Mem) (e : Addr) : Option (UInt64 × Field) := do
  let h ← m.load .u64 e
  let t ← m.load .u16 (e + 8)
  let p ← m.load .ptr (e + 16)
  let v ← p
  pure (h, ⟨v.block, readValue m v t⟩)

/-- The fields of the object in `slot`, by name hash. -/
def objectFields (m : Mem) (slot : Addr) : Fields :=
  match objectBuf m slot with
  | none => []
  | some b => (List.range (objectCount m slot)).filterMap fun i => readEntry m (b + (8 + i * 24))

section view
variable {slot : Addr} {m : Mem} {g : State}

theorem Inv.objectBuf_eq (h : Inv slot m g) : objectBuf m slot = basePtr g.cur := by
  rw [objectBuf, h.repr.slot_ptr, Option.getD_some]

theorem BufAt.len_lt {b cap : Nat} {es : List Entry} (h : BufAt m b cap es) :
    es.length < 2 ^ 32 := Nat.lt_of_le_of_lt h.len_le h.cap_lt

theorem BufAt.count_toNat {b cap : Nat} {es : List Entry} (h : BufAt m b cap es) :
    (UInt32.ofNat es.length).toNat = es.length := by
  have := h.len_lt
  simp only [UInt32.toNat_ofNat']
  omega

theorem BufAt.cap_toNat {b cap : Nat} {es : List Entry} (h : BufAt m b cap es) :
    (UInt32.ofNat cap).toNat = cap := by
  have := h.cap_lt
  simp only [UInt32.toNat_ofNat']
  omega

theorem Inv.objectCount_eq (h : Inv slot m g) : objectCount m slot = (entries g).length := by
  rw [objectCount, h.objectBuf_eq]
  cases hc : g.cur with
  | none => rw [entries_none hc]; rfl
  | some b =>
    obtain ⟨cap, hb⟩ := h.cur_heap hc
    simp only [basePtr_some, Option.bind_some, (h.buf_at hb).count, Option.elim_some,
      (h.buf_at hb).count_toNat]

theorem Inv.objectCap_eq (h : Inv slot m g) {b cap : Nat} {es : List Entry} (hc : g.cur = some b)
    (hb : g.heap b = some (.buf cap es)) : objectCap m slot = cap := by
  rw [objectCap, h.objectBuf_eq, hc]
  simp only [basePtr_some, Ptr.some_add, Addr.mk_add, Nat.zero_add, Option.bind_some,
    (h.buf_at hb).capacity, Option.elim_some, (h.buf_at hb).cap_toNat]

theorem Inv.objectCap_none (h : Inv slot m g) (hc : g.cur = none) : objectCap m slot = 0 := by
  rw [objectCap, h.objectBuf_eq, hc]
  rfl

/-- The entries stay within the buffer. -/
theorem Inv.count_le_cap (h : Inv slot m g) : objectCount m slot ≤ objectCap m slot := by
  rw [h.objectCount_eq]
  cases hc : g.cur with
  | none => rw [entries_none hc]; exact Nat.zero_le _
  | some b =>
    obtain ⟨cap, hb⟩ := h.cur_heap hc
    rw [h.objectCap_eq hc hb]
    exact (h.buf_at hb).len_le

theorem Inv.readValue_eq (h : Inv slot m g) {v : Nat} {p : Payload}
    (hv : g.heap v = some (.val p)) : readValue m ⟨v, 0⟩ p.type = p.value g := by
  have hp := (h.payload_at hv).2
  cases p with
  | scalar s =>
    cases s with
    | bool b => exact congrArg (fun o => Value.scalar (.bool (Option.getD o 0))) hp
    | int32 b => exact congrArg (fun o => Value.scalar (.int32 (Option.getD o 0))) hp
    | int64 b => exact congrArg (fun o => Value.scalar (.int64 (Option.getD o 0))) hp
    | float64 b => exact congrArg (fun o => Value.scalar (.float64 (Option.getD o 0))) hp
  | string buf =>
    show Value.string (Str.stringValue m ⟨v, 0⟩) = _
    cases buf with
    | none => rw [Str.stringValue_null hp]; rfl
    | some s =>
      obtain ⟨bs, hs⟩ := h.val_str v s hv
      rw [(h.str_at hs).stringValue_eq hp]
      simp only [Payload.value, hs]
  | object => rfl

theorem Inv.readEntry_eq (h : Inv slot m g) {e : Entry} (he : e ∈ entries g) {a : Addr}
    (ha : EntryAt m a e) : readEntry m a = some (fieldOf g e) := by
  obtain ⟨p, hp, ht⟩ := h.entry_payload he
  have hval : readValue m ⟨e.val, 0⟩ e.type = valueAt g e.val := by
    rw [← ht, h.readValue_eq hp, valueAt, hp]
  simp [readEntry, ha.hash, ha.type, ha.val, hval, fieldOf]

/-- **The bytes of a slot hold the fields of its ghost state.** -/
theorem Inv.objectFields_eq (h : Inv slot m g) : objectFields m slot = fields g := by
  rw [objectFields, h.objectCount_eq, h.objectBuf_eq]
  cases hc : g.cur with
  | none => simp [fields, entries_none hc]
  | some b =>
    obtain ⟨cap, hb⟩ := h.cur_heap hc
    have hread (i : Nat) (e : Entry) (he : (entries g)[i]? = some e) :
        readEntry m ((⟨b, 0⟩ : Addr) + (8 + i * 24)) = some (fieldOf g e) := by
      refine h.readEntry_eq (List.mem_of_getElem? he) ?_
      rw [Addr.mk_add, Nat.zero_add]
      exact (h.buf_at hb).entry i e he
    have hall (n : Nat) (hn : n ≤ (entries g).length) :
        ((List.range n).filterMap fun i => readEntry m ((⟨b, 0⟩ : Addr) + (8 + i * 24))) =
          ((entries g).take n).map (fieldOf g) := by
      induction n with
      | zero => rfl
      | succ n ih =>
        have hget := List.getElem?_eq_getElem (show n < (entries g).length by omega)
        rw [List.range_succ, List.filterMap_append, ih (by omega), List.take_add_one, hget,
          List.map_append]
        congr 1
        exact List.filterMap_cons_some (hread n _ hget)
    simp only [basePtr_some]
    rw [hall _ (Nat.le_refl _), List.take_length]
    rfl

end view
end Msm.Obj
