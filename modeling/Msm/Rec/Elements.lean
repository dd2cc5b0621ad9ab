import Msm.Rec.Fields

/-! # Fields of the elements of an array of records -/
namespace Msm.Rec
open Msm.Exec Msm.CMem Msm.Api Msm.Arr Msm.Arr.Growable

/-- What a program does to an array of records. -/
inductive ArrayOp where
  /-- `emplace_back(args...)`; without arguments, `emplace_back()` -/
  | emplaceBack (args : List Scalar)
  /-- `arr[i].get<n₁>()...get<nₖ>() = v` -/
  | assign (i : UInt64) (path : Path) (v : Scalar)

namespace ArrayOp
variable (fields : Fields)

def code (slot : Addr) : ArrayOp → CProg Unit
  | .emplaceBack args => emplaceBackWith fields (some slot) args
  | .assign i path v => do
    let p ← arrayAt (.record fields) (some slot) i
    v.assign ((Ty.record fields).fieldAt p path)

/-- The writes that `emplace_back(args...)` makes, from field `i` on, as paths. -/
def argWrites : Nat → List Scalar → List Write
  | _, [] => []
  | i, v :: args => match fields.memberAt i with
    | some (name, _) => ([name], v) :: argWrites (i + 1) args
    | none => []

/-- The writes to each element since it was added, after one more operation. -/
def history (hs : List (List Write)) : ArrayOp → List (List Write)
  | .emplaceBack args => hs ++ [argWrites fields 0 args]
  | .assign i path v => hs.modify i.toNat (· ++ [(path, v)])

/-- The operation compiles: `emplace_back` takes no argument or more than one,
each for a primitive field in order. It stays inside the array: an index is
below the size, and a full array of 2^31 elements is not pushed to. -/
def Legal (hs : List (List Write)) : ArrayOp → Prop
  | .emplaceBack args => hs.length < 2 ^ 31 ∧ args.length ≠ 1 ∧
      ∀ i v, args[i]? = some v → fields.typeAt i = some (.prim v.prim)
  | .assign i path v => i.toNat < hs.length ∧ (Ty.record fields).Names path v.prim

end ArrayOp

def runOps (fields : Fields) (slot : Addr) : List ArrayOp → CProg Unit
  | [] => pure ()
  | op :: ops => do
    op.code fields slot
    runOps fields slot ops

def LegalRun (fields : Fields) : List (List Write) → List ArrayOp → Prop
  | _, [] => True
  | hs, op :: ops => op.Legal fields hs ∧ LegalRun fields (op.history fields hs) ops

/-- What a read of a field of element `i` returns. -/
def fetchAt (fields : Fields) (slot : Addr) (m : Mem) (i : UInt64) (path : Path) (k : Prim) :
    Except Fault Scalar :=
  returned (do
    let p ← arrayAt (.record fields) (some slot) i
    k.read ((Ty.record fields).fieldAt p path)) m

/-! ## The array holds its history -/

section holds
variable {fields : Fields} {slot : Addr} {m : Mem} {hs : List (List Write)}

/-- The bytes of an element after its writes. -/
def bytes (fields : Fields) (ws : List Write) : List Cell :=
  ws.foldl (written (.record fields)) (zeros (Ty.record fields).size)

theorem bytes_append {ws : List Write} {w : Write} {o : Nat} {ty : Ty}
    (ho : (Ty.record fields).resolve w.1 = some (o, ty)) :
    bytes fields (ws ++ [w]) = poke (bytes fields ws) o w.2 := by
  rw [bytes, List.foldl_append, List.foldl_cons, List.foldl_nil, written, ho, bytes]

abbrev AllName (fields : Fields) (ws : List Write) : Prop :=
  ∀ w ∈ ws, (Ty.record fields).Names w.1 w.2.prim

/-- The array holds one element for each history, with the bytes it makes. -/
structure Kept (fields : Fields) (slot : Addr) (m : Mem)
    (g : State (Ty.record fields).itemSize.toNat) (s : Model) (hs : List (List Write)) : Prop where
  holds : Holds slot (Ty.record fields).itemSize m g s
  items : s.items = hs.map (bytes fields)
  names : ∀ ws ∈ hs, AllName fields ws

theorem toNat_itemSize (hsize : (Ty.record fields).size < 2 ^ 32) :
    (Ty.record fields).itemSize.toNat = (Ty.record fields).size := by
  rw [Ty.itemSize, UInt64.toNat_toUInt32, Ty.toNat_slotSize (Nat.lt_trans hsize (by decide)),
    Nat.mod_eq_of_lt hsize]

theorem itemSize_ne_zero (hsize : (Ty.record fields).size < 2 ^ 32) :
    (Ty.record fields).itemSize ≠ 0 := by
  intro h0
  have h := toNat_itemSize hsize
  rw [h0, Ty.size, UInt32.toNat_zero] at h
  omega

theorem Kept.length {g : State (Ty.record fields).itemSize.toNat} {s : Model}
    (h : Kept fields slot m g s hs) : s.items.length = hs.length := by
  rw [h.items, List.length_map]

/-- One more write into element `i`, at its address. -/
theorem Kept.write {g : State (Ty.record fields).itemSize.toNat} {s : Model}
    (h : Kept fields slot m g s hs) (hsize : (Ty.record fields).size < 2 ^ 32) {i : Nat}
    (hi : i < hs.length) {w : Write} (hw : (Ty.record fields).Names w.1 w.2.prim) {o : Nat}
    (ho : (Ty.record fields).resolve w.1 = some (o, .prim w.2.prim)) :
    ∃ a m' g' s', elemPtr g i = some a ∧ (∀ j, elemPtr g' j = elemPtr g j) ∧
      (w.2.assign (some (a + o))).run m = .ok ((), m') ∧
      Kept fields slot m' g' s' (hs.modify i (· ++ [w])) := by
  have hle : o + w.2.prim.size ≤ (Ty.record fields).size := resolve_le ho
  have hp := w.2.prim.payload_add
  have hlen := w.2.length_encode
  have hget : s.items[i]? = some (bytes fields hs[i]) := by
    rw [h.items, List.getElem?_map, List.getElem?_eq_getElem hi]
    rfl
  have hd : o + w.2.prim.payload + w.2.encode.length ≤ (Ty.record fields).itemSize.toNat := by
    rw [toNat_itemSize hsize]
    omega
  obtain ⟨a, g', ha, hptr, hv, hput⟩ := h.holds.put (itemSize_ne_zero hsize) hget hd
  rw [hlen, ← Addr.add_add] at hv
  rw [← Addr.add_add] at hput
  refine ⟨a, _, g', _, ha, hptr, assign_run hv, hput, ?_, ?_⟩
  · show s.items.modify i _ = _
    rw [h.items]
    refine List.ext_getElem? fun j => ?_
    rw [List.getElem?_modify, List.getElem?_map, List.getElem?_map, List.getElem?_modify]
    by_cases hj : i = j
    · subst hj
      rw [List.getElem?_eq_getElem hi]
      refine congrArg some ?_
      simp only [if_true]
      exact (bytes_append ho).symm
    · cases hs[j]? <;> simp [hj]
  · intro ws hws
    obtain ⟨j, hj, rfl⟩ := List.getElem_of_mem hws
    rw [List.length_modify] at hj
    have hold := h.names hs[j] (List.getElem_mem hj)
    rw [List.getElem_modify]
    split
    · intro x hx
      rcases List.mem_append.mp hx with hx | hx
      · exact hold x hx
      · rw [List.mem_singleton.mp hx]
        exact hw
    · exact hold

theorem resolve_member (hu : fields.allNamesUnique = true) {i : Nat} {name : FixedString} {t : Ty}
    (hm : fields.memberAt i = some (name, t)) :
    (Ty.record fields).resolve [name] = some (8 + fields.before i, t) := by
  rw [Ty.resolve, Fields.findFieldIndex_eq hu hm 0, Option.bind_some, Nat.zero_add,
    Fields.typeAt_of_memberAt hm]
  rfl

theorem names_member (hu : fields.allNamesUnique = true) {i : Nat} {name : FixedString} {k : Prim}
    (hm : fields.memberAt i = some (name, .prim k)) : (Ty.record fields).Names [name] k := by
  have h := get_null [name] (Ty.record fields)
  rw [resolve_member hu hm] at h
  exact ⟨none, h⟩

/-- The arguments of `emplace_back` go to the fields in order. -/
theorem Kept.writeFields {g : State (Ty.record fields).itemSize.toNat} {s : Model}
    (h : Kept fields slot m g s hs) (hu : fields.allNamesUnique = true)
    (hsize : (Ty.record fields).size < 2 ^ 32) {j : Nat} (hj : j < hs.length) {a : Addr}
    (ha : elemPtr g j = some a) {i : Nat} {args : List Scalar}
    (hargs : ∀ d v, args[d]? = some v → fields.typeAt (i + d) = some (.prim v.prim)) :
    ∃ m' g' s', (writeFields fields (some a) i args).run m = .ok ((), m') ∧
      Kept fields slot m' g' s' (hs.modify j (· ++ ArrayOp.argWrites fields i args)) := by
  induction args generalizing i m g s hs with
  | nil =>
    have hid : (fun ws : List Write => ws ++ ArrayOp.argWrites fields i []) = id :=
      funext List.append_nil
    refine ⟨m, g, s, rfl, ?_⟩
    rw [hid, List.modify_id]
    exact h
  | cons v args ih =>
    obtain ⟨name, hm⟩ := Fields.memberAt_of_typeAt (hargs 0 v rfl)
    rw [Nat.add_zero] at hm
    have ho := resolve_member hu hm
    obtain ⟨a', m₁, g₁, s₁, ha', hptr, hrun, h₁⟩ :=
      h.write (w := ([name], v)) hsize hj (names_member hu hm) ho
    obtain rfl : a' = a := Option.some.inj (ha'.symm.trans ha)
    have hj₁ : j < (hs.modify j (· ++ [([name], v)])).length := by
      rw [List.length_modify]
      exact hj
    obtain ⟨m₂, g₂, s₂, hrun₂, h₂⟩ := ih h₁ hj₁ ((hptr j).trans ha') (i := i + 1) fun d x hx => by
      rw [Nat.add_assoc, Nat.add_comm 1]
      exact hargs (d + 1) x hx
    refine ⟨m₂, g₂, s₂, ?_, ?_⟩
    · rw [Api.writeFields, Ptr.some_add, Fields.toNat_fieldOffset hsize, Prog.run_bind_ok hrun]
      exact hrun₂
    · rw [List.modify_modify_eq] at h₂
      simpa [ArrayOp.argWrites, hm, Function.comp_def] using h₂

theorem Kept.push {g : State (Ty.record fields).itemSize.toNat} {s : Model}
    (h : Kept fields slot m g s hs) (hsize : (Ty.record fields).size < 2 ^ 32)
    (hlen : hs.length < 2 ^ 31) : ∃ p m' g' s', (emplaceBack (.record fields) (some slot)).run m =
      .ok (p, m') ∧ (∃ a, p = some a ∧ elemPtr g' hs.length = some a) ∧
      Kept fields slot m' g' s' (hs ++ [[]]) := by
  have hn := itemSize_ne_zero hsize
  rw [← h.length] at hlen
  obtain ⟨p, m', g', hrun, hp, h'⟩ := (pushBack_safe h.holds hn hlen).run_total
  have hnew : (s.push (zeros (Ty.record fields).itemSize.toNat)).items[s.items.length]? =
      some (zeros (Ty.record fields).itemSize.toNat) := by simp [Model.push]
  obtain ⟨b, _, ha, _⟩ := h'.elem hn hnew
  refine ⟨p, m', g', _, hrun, ⟨_, hp.trans ha, ?_⟩, h', ?_, ?_⟩
  · rw [← h.length]
    exact ha
  · show s.items ++ [_] = _
    rw [h.items, List.map_append, toNat_itemSize hsize]
    rfl
  · intro ws hws
    rcases List.mem_append.mp hws with hws | hws
    · exact h.names ws hws
    · rw [List.mem_singleton.mp hws]
      exact fun w hw => absurd hw List.not_mem_nil

theorem arrayAt_run {g : State (Ty.record fields).itemSize.toNat} {s : Model}
    (h : Kept fields slot m g s hs) (hsize : (Ty.record fields).size < 2 ^ 32)
    (hlen : hs.length ≤ 2 ^ 31) {i : UInt64} (hi : i.toNat < hs.length) :
    (arrayAt (.record fields) (some slot) i).run m = .ok (elemPtr g i.toNat, m) := by
  rw [arrayAt, get_run h.holds.idle.1 (itemSize_ne_zero hsize), UInt64.toNat_toUInt32,
    Nat.mod_eq_of_lt (by omega)]

/-- One operation takes the histories of the elements on. -/
theorem ArrayOp.code_run {g : State (Ty.record fields).itemSize.toNat} {s : Model}
    (h : Kept fields slot m g s hs) (hu : (Ty.record fields).Unique)
    (hsize : (Ty.record fields).size < 2 ^ 32) (hlen : hs.length ≤ 2 ^ 31) {op : ArrayOp}
    (hop : op.Legal fields hs) : ∃ m' g' s', (op.code fields slot).run m = .ok ((), m') ∧
      Kept fields slot m' g' s' (op.history fields hs) := by
  cases op with
  | emplaceBack args =>
    obtain ⟨hlt, _, hargs⟩ := hop
    obtain ⟨p, m₁, g₁, s₁, hrun, hpa, h₁⟩ := h.push hsize hlt
    obtain ⟨a, rfl, ha⟩ := hpa
    have hj : hs.length < (hs ++ [[]]).length := by simp
    obtain ⟨m₂, g₂, s₂, hrun₂, h₂⟩ := h₁.writeFields hu.1 hsize hj ha (i := 0) fun d v hd => by
      rw [Nat.zero_add]
      exact hargs d v hd
    refine ⟨m₂, g₂, s₂, ?_, ?_⟩
    · rw [code, emplaceBackWith, Prog.run_bind_ok hrun]
      exact hrun₂
    · have he : (hs ++ [[]]).modify hs.length (· ++ argWrites fields 0 args) =
          hs ++ [argWrites fields 0 args] := by
        clear * -
        induction hs with
        | nil => rfl
        | cons ws hs ih => exact congrArg (ws :: ·) ih
      rw [he] at h₂
      exact h₂
  | assign i path v =>
    obtain ⟨hi, hp⟩ := hop
    obtain ⟨o, ho⟩ := hp.resolve
    obtain ⟨a, m', g', s', ha, _, hrun, h'⟩ := h.write (w := (path, v)) hsize hi hp ho
    refine ⟨m', g', s', ?_, h'⟩
    rw [code, Prog.run_bind_ok (arrayAt_run h hsize hlen hi), ha, fieldAt_eq hu hsize ho]
    exact hrun

/-- The histories after a program has run. -/
def histories (fields : Fields) (hs : List (List Write)) (ops : List ArrayOp) : List (List Write) :=
  ops.foldl (fun hs op => op.history fields hs) hs

theorem length_history {op : ArrayOp} (hlen : hs.length ≤ 2 ^ 31) (hop : op.Legal fields hs) :
    (op.history fields hs).length ≤ 2 ^ 31 := by
  cases op with
  | emplaceBack args =>
    have hlt : hs.length < 2 ^ 31 := hop.1
    simp only [ArrayOp.history, List.length_append, List.length_singleton]
    omega
  | assign i path v =>
    rw [ArrayOp.history, List.length_modify]
    exact hlen

theorem runOps_run {g : State (Ty.record fields).itemSize.toNat} {s : Model}
    (h : Kept fields slot m g s hs) (hu : (Ty.record fields).Unique)
    (hsize : (Ty.record fields).size < 2 ^ 32) (hlen : hs.length ≤ 2 ^ 31) {ops : List ArrayOp}
    (hops : LegalRun fields hs ops) : ∃ m' g' s', (runOps fields slot ops).run m = .ok ((), m') ∧
      Kept fields slot m' g' s' (histories fields hs ops) ∧
      (histories fields hs ops).length ≤ 2 ^ 31 := by
  induction ops generalizing m g s hs with
  | nil => exact ⟨m, g, s, rfl, h, hlen⟩
  | cons op ops ih =>
    obtain ⟨hop, hops⟩ := hops
    obtain ⟨m₁, g₁, s₁, hrun, h₁⟩ := ArrayOp.code_run h hu hsize hlen hop
    obtain ⟨m₂, g₂, s₂, hrun₂, h₂⟩ := ih h₁ (length_history hlen hop) hops
    refine ⟨m₂, g₂, s₂, ?_, h₂⟩
    rw [runOps, Prog.run_bind_ok hrun]
    exact hrun₂

/-- A field of an element reads as last written, and as zero when it was not. -/
theorem Kept.fetchAt_eq {g : State (Ty.record fields).itemSize.toNat} {s : Model}
    (h : Kept fields slot m g s hs) (hu : (Ty.record fields).Unique)
    (hsize : (Ty.record fields).size < 2 ^ 32) (hlen : hs.length ≤ 2 ^ 31) {i : UInt64}
    {ws : List Write} (hi : hs[i.toNat]? = some ws) {path : Path} {k : Prim}
    (hp : (Ty.record fields).Names path k) :
    fetchAt fields slot m i path k = .ok ((lastWrite ws path).getD k.zero) := by
  have hlt := (List.getElem?_eq_some_iff.mp hi).1
  have hget : s.items[i.toNat]? = some (bytes fields ws) := by
    rw [h.items, List.getElem?_map, hi]
    rfl
  obtain ⟨b, _, ha, _, hv, hread⟩ := h.holds.elem (itemSize_ne_zero hsize) hget
  generalize (⟨b, 8 + i.toNat * (Ty.record fields).itemSize.toNat⟩ : Addr) = a at ha hv hread
  rw [toNat_itemSize hsize] at hv hread
  rw [fetchAt, returned, Prog.run_bind_ok (arrayAt_run h hsize hlen hlt), ha]
  refine (fetch_eq hu hsize hv hp).trans ?_
  have hnames := h.names ws (List.mem_of_getElem? hi)
  have hzero : (zeros (Ty.record fields).size).length = (Ty.record fields).size :=
    List.length_replicate ..
  rw [hread, bytes, valueAt_writes hzero hnames hp, valueAt_zeros hp]
  cases lastWrite ws path <;> rfl

end holds

/-- **Record fields are independent lenses below 4 GiB.** For every record type
with distinct names: at every level its fields tile the record, `get` finds the
one field of a name, and an array strides by the record's size, if and only if
the record needs less than 2^32 bytes; deallocation always visits the fields at
their offsets. And then any writes, through nested paths into a record or through
`emplace_back` and paths into an array of records, are read back: each field
reads as last written, and as before (as zero) if no write was to it. -/
theorem record_fields_are_lenses {fields : Fields} (hu : (Ty.record fields).Unique) :
    ((Ty.record fields).Every Fields.LayoutOk ↔ (Ty.record fields).size < 2 ^ 32) ∧
    (∀ ptr, fields.deallocateFields headerSize ptr =
      (List.range fields.length).forM (fields.deallocateField ptr)) ∧
    ((Ty.record fields).size < 2 ^ 32 →
      (∀ (m : Mem) (a : Addr) (ws : List Write), m.Valid a (Ty.record fields).size →
        (∀ w ∈ ws, (Ty.record fields).Names w.1 w.2.prim) →
        ∃ m', (assignAll (.record fields) (some a) ws).run m = .ok ((), m') ∧
          ∀ path k, (Ty.record fields).Names path k → fetch (.record fields) m' (some a) path k =
            match lastWrite ws path with
            | some v => .ok v
            | none => fetch (.record fields) m (some a) path k) ∧
      ∀ (m₀ : Mem) (slot : Addr) (ops : List ArrayOp), Zeroed m₀ slot → m₀.script = [] →
        LegalRun fields [] ops → ∃ m', (runOps fields slot ops).run m₀ = .ok ((), m') ∧
          ∀ (i : UInt64) path k ws, (histories fields [] ops)[i.toNat]? = some ws →
            (Ty.record fields).Names path k →
            fetchAt fields slot m' i path k = .ok ((lastWrite ws path).getD k.zero)) := by
  refine ⟨layoutOk_iff hu, fields.deallocateFields_header, fun hsize => ⟨fun m a ws hv hws => ?_, ?_⟩⟩
  · exact record_reads_back hu hsize hv hws
  · intro m₀ slot ops h0 hs hops
    have hinit : Kept fields slot m₀ (Ghost.empty _) .empty [] :=
      ⟨⟨⟨⟨h0.repr, fun _ hb => (nomatch hb), fun _ _ hx => (nomatch hx)⟩, rfl⟩, hs, rfl, rfl⟩, rfl,
        nofun⟩
    obtain ⟨m', g', s', hrun, h', hlen⟩ := runOps_run hinit hu hsize (Nat.zero_le _) hops
    exact ⟨m', hrun, fun i path k ws hi hp => h'.fetchAt_eq hu hsize hlen hi hp⟩

/-! A record `{id : int32, pos : {x : int32, y : int64}}`: one element is added,
and its `pos.y` and `id` are written. -/

def idName : FixedString := [105, 100]
def posName : FixedString := [112, 111, 115]
def xName : FixedString := [120]
def yName : FixedString := [121]

def entity : Fields :=
  .cons idName (.prim .int32) (.cons posName
    (.record (.cons xName (.prim .int32) (.cons yName (.prim .int64) .nil))) .nil)

def entityOps : List ArrayOp :=
  [.emplaceBack [], .assign 0 [posName, yName] (.int64 7), .assign 0 [idName] (.int32 1)]

theorem record_fields_are_lenses_entity : ∃ m',
    (runOps entity ⟨0, 0⟩ entityOps).run zeroedSlot = .ok ((), m') ∧
      fetchAt entity ⟨0, 0⟩ m' 0 [posName, yName] .int64 = .ok (.int64 7) ∧
      fetchAt entity ⟨0, 0⟩ m' 0 [posName, xName] .int32 = .ok (.int32 0) := by
  have hu : (Ty.record entity).Unique := ⟨rfl, trivial, ⟨rfl, trivial, trivial, trivial⟩, trivial⟩
  obtain ⟨_, _, h⟩ := record_fields_are_lenses hu
  obtain ⟨_, harr⟩ := h (by decide)
  have hlegal : LegalRun entity [] entityOps :=
    ⟨⟨by decide, by decide, nofun⟩, ⟨by decide, _, rfl⟩, ⟨by decide, _, rfl⟩, trivial⟩
  obtain ⟨m', hrun, hread⟩ := harr _ ⟨0, 0⟩ entityOps zeroedSlot_zeroed rfl hlegal
  exact ⟨m', hrun, hread 0 [posName, yName] .int64 _ rfl ⟨_, rfl⟩,
    hread 0 [posName, xName] .int32 _ rfl ⟨_, rfl⟩⟩

/-- `nest (n + 1)` has two fields of the record `nest n`. -/
def nest : Nat → Fields
  | 0 => .cons xName (.prim .int64) (.cons yName (.prim .int64) .nil)
  | n + 1 => .cons xName (.record (nest n)) (.cons yName (.record (nest n)) .nil)

theorem nest_unique (n : Nat) : (Ty.record (nest n)).Unique := by
  induction n with
  | zero => exact ⟨rfl, trivial, trivial, trivial⟩
  | succ n ih => exact ⟨rfl, ih, ih, trivial⟩

theorem size_nest (n : Nat) : (Ty.record (nest n)).size + 8 = 48 * 2 ^ n := by
  induction n with
  | zero => rfl
  | succ n ih =>
    have h : (Ty.record (nest (n + 1))).size = 8 + ((Ty.record (nest n)).size +
        ((Ty.record (nest n)).size + 0)) := rfl
    rw [h, Nat.pow_succ]
    omega

/-- The second field of `nest 28` stands at 6 GiB; `get` looks for it at 2 GiB. -/
theorem get_past_4GiB : ¬ ∀ fields : Fields, (Ty.record fields).Unique → ∀ i name t (a : Addr),
    fields.memberAt i = some (name, t) →
      fields.get name (some a) = some (some (a + (fields.fieldOffset i).toNat), t) := by
  intro h
  have hget := h (nest 28) (nest_unique 28) 1 yName (.record (nest 27)) ⟨0, 0⟩ rfl
  have hoff : (nest 28).fieldOffset 1 = 6442450944 := by
    have hs := size_nest 27
    have hb : 8 + (nest 28).before 1 = 8 + ((Ty.record (nest 27)).size + 0) := rfl
    have he : 8 + (nest 28).before 1 = 6442450944 := by omega
    rw [Fields.fieldOffset_eq, he]
    rfl
  have hfind : (nest 28).get yName (some ⟨0, 0⟩) =
      some (msmRecordGetField (some ⟨0, 0⟩) ((nest 28).fieldOffset 1).toUInt32,
        .record (nest 27)) := rfl
  rw [hfind, hoff] at hget
  have hp := congrArg (Option.map Prod.fst) hget
  revert hp
  decide

end Msm.Rec
