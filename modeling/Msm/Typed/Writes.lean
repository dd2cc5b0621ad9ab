import Msm.Typed.Route

/-! # What the operations leave in a slot

An operation of a typed view returns, changes nothing beside its slot and leaves a
value there. A push or a reserve may move the items to another buffer: their values
move with their bytes. -/
namespace Msm.Api
open Msm.Exec Msm.CMem Msm.Own

/-- The program returns, and leaves the value in the slot. -/
def Leaves (t : Ty) (a : Addr) (p : CProg Unit) (m : Mem) (w : t.Val) : Prop :=
  ∃ m', p.run m = .ok ((), m') ∧ t.shape.Evolves a m m' ∧ t.Shows m' a w

section writes
variable {m : Mem} {a : Addr}

theorem assign_leaves {v : Scalar} (h : (Ty.prim v.prim).shape.Held m a) :
    Leaves (.prim v.prim) a (v.assign (some a)) m v.val := by
  have hp := v.prim.payload_add
  have hv : m.Valid (a + v.prim.payload) v.prim.kind.size := h.valid.mono (Nat.le_of_eq hp)
  have hr := assign_run hv
  refine ⟨_, hr, assign_evolves h hr, ?_⟩
  show (Mem.load _ v.prim.kind (a + v.prim.payload)).map v.prim.ofVal = some v
  rw [Scalar.encode, Mem.load_write_same v.toVal hv, Option.map_some, Prim.ofVal_toVal v]

/-! ## Strings -/

theorem clearString_leaves (h : Ty.string.shape.Held m a) :
    Leaves .string a (msmStringClear (some a)) m [] := by
  have hv : m.Valid (a + 8) Kind.ptr.size := Shape.Held.valid_ptr h
  have hr : (msmStringClear (some a)).run m =
      .ok ((), m.write (a + 8) (Kind.ptr.encode none)) := by
    simp only [msmStringClear, reduceCtorEq, if_false, atomicStorePtr, store, Ptr.some_add,
      Prog.run, Mem.exec_store (o := .release) (k := .ptr) (v := none) hv]
  have hl := Mem.load_write_same (k := .ptr) (basePtr none) hv
  exact ⟨_, hr, clearString_evolves h hr, .inl ⟨rfl, Shape.pointee_of_load hl⟩⟩

theorem setString_leaves {str : CharPtr} {bs : List UInt8} (h : Ty.string.shape.Held m a)
    (hm : m.mallocOk = true) (hsrc : bs ≠ [] → Str.Source m str (bs.map .byte))
    (hlen : bs.length + 1 < 2 ^ 32) :
    Leaves .string a (msmStringSet (some a) str (UInt32.ofNat bs.length)) m bs := by
  have hv : m.Valid (a + 8) Kind.ptr.size := Shape.Held.valid_ptr h
  have hsafe : (msmStringSet (some a) str (UInt32.ofNat bs.length)).Safe
      (fun (_ : Unit) _ _ _ _ => True) (fun _ _ _ => False) (fun _ m' _ => StringAt m' a bs) m
        () := by
    refine Str.msmStringSet_safe (fun _ _ _ _ _ _ _ => trivial) (by omega) hsrc (fun hnil => ?_)
      (fun _ hf => ?_) (fun hwide => ?_) fun m' _ hk _ hat _ => ?_
    · have hl := Mem.load_write_same (k := .ptr) (basePtr none) hv
      exact Prog.safe_act () (Mem.exec_store hv) trivial (.inl ⟨hnil, Shape.pointee_of_load hl⟩)
    · rw [hm] at hf
      cases hf
    · omega
    · have hv' : m'.Valid (a + 8) Kind.ptr.size := hk.valid hv
      have hl := Mem.load_write_same (k := .ptr) (basePtr (some m.next)) hv'
      have hne : m.next ≠ a.block := (Nat.ne_of_lt h.valid.lt).symm
      have hb := m'.block_write_of_ne (a := a + 8) (Kind.ptr.encode (basePtr (some m.next))) hne
      refine Prog.safe_act () (Mem.exec_store hv') trivial
        (.inr ⟨m.next, Shape.pointee_of_load hl, ?_⟩)
      exact hat.congr (Mem.sizeOf_of_block hb) fun o _ => Mem.cellAt_of_block hb o
  obtain ⟨x, m', _, hr, hs⟩ := hsafe.run_total
  exact ⟨m', hr, setString_evolves h hm hr, hs⟩

/-- The bytes of an optional C string, none without one. -/
def chars (str : Option CStr) : List UInt8 := str.elim [] CStr.bytes

theorem stringAssign_leaves {str : Option CStr} (h : Ty.string.shape.Held m a)
    (hm : m.mallocOk = true) (hlen : (chars str).length + 1 < 2 ^ 32) :
    Leaves .string a (stringAssign (some a) str) m (chars str) := by
  cases str with
  | none => exact setString_leaves h hm (fun hne => absurd rfl hne) (by decide)
  | some s => exact setString_leaves h hm (fun _ => rfl) hlen

/-! ## Arrays -/

section arrays
variable {item : Ty} {vs : List item.Val} {m₁ : Mem} {c : Option Nat} {n cap : UInt32}

/-- The size in the header is the length of the value. -/
theorem length_of_bufferAt (hs : (Ty.array item).Shows m a vs)
    (hb : BufferAt m a item.shape.size (Shape.pointee m a) n cap) : n.toNat = vs.length := by
  rw [← hs.1]
  cases hp : Shape.pointee m a with
  | none =>
    rw [(hb.empty hp).1]
    rfl
  | some b => exact (hb.buffer b hp).count_eq.symm

/-- Items whose bytes are in another buffer have their values there. -/
theorem shows_carried (h : (Ty.array item).shape.Held m a) (hs : (Ty.array item).Shows m a vs)
    (hn : n.toNat = vs.length) (he : (Ty.array item).shape.Evolves a m m₁)
    (hc : Carried item.shape m a n m₁)
    (hcount : (Shape.pointee m₁ a).elim 0 (count m₁) = vs.length) :
    (Ty.array item).Shows m₁ a vs := by
  refine ⟨hcount, fun c i v hp₁ hv => ?_⟩
  have hi : i < vs.length := (List.getElem?_eq_some_iff.mp hv).1
  have hlen := hs.1
  cases hp : Shape.pointee m a with
  | none =>
    rw [hp, Option.elim_none] at hlen
    omega
  | some b =>
    rw [hp, Option.elim_some] at hlen
    rw [hp₁, Option.elim_some] at hcount
    have hib : i < count m b := by omega
    obtain ⟨hitem, _⟩ := Ty.shape_item h hp hib
    have hvalid := (Ty.shape_item he.held hp₁ (hcount ▸ hi)).1.valid
    rw [item.size_shape] at hvalid
    have hrow := hc.row b c hp hp₁
    rw [item.size_shape, hn] at hrow
    have hpart (m : Mem) (d : Nat) : m.read ⟨d, 8 + i * item.size⟩ item.size =
        ((m.read ⟨d, 8⟩ (vs.length * item.size)).drop (i * item.size)).take item.size := by
      have hle := Nat.mul_le_mul_right item.size (Nat.succ_le_of_lt hi)
      rw [Nat.succ_mul] at hle
      rw [Mem.read_part _ _ hle]
      rfl
    refine item.shows_move hitem hvalid ?_ (fun d hd => ?_) (hs.2 b i v hp hv)
    · rw [hpart, hpart, hrow]
    · refine hc.others d (hitem.lt hd) fun heq => h.apart ?_
      rw [← heq]
      exact blocks_item hp hib hd

theorem clear_leaves (h : (Ty.array item).shape.Held m a) :
    Leaves (.array item) a (msmArrayClear (some a)) m [] := by
  obtain ⟨n, cap, hb⟩ := Shape.Held.bufferAt h
  cases hp : Shape.pointee m a with
  | none =>
    rw [hp] at hb
    have hr : (msmArrayClear (some a)).run m = .ok ((), m) := by
      simp only [msmArrayClear, reduceCtorEq, if_false, atomicLoadPtr, loadPtr_bind, Ptr.some_add,
        Prog.run, Mem.exec_load hb.load]
      rfl
    refine ⟨m, hr, .refl h, ?_, fun c i v hc _ => ?_⟩
    · rw [hp]
      rfl
    · rw [hp] at hc
      cases hc
  | some b =>
    rw [hp] at hb
    have hbuf := hb.buffer b rfl
    have hv : m.Valid ⟨b, 0⟩ Kind.u32.size := Mem.load_valid hbuf.load_size
    have hr : (msmArrayClear (some a)).run m = .ok ((), m.write ⟨b, 0⟩ (Kind.u32.encode 0)) := by
      simp only [msmArrayClear, reduceCtorEq, if_false, atomicLoadPtr, loadPtr_bind, Ptr.some_add,
        Prog.run, Mem.exec_load hb.load, basePtr_some, arrBufSetSize, atomicStoreU32, store,
        Mem.exec_store (o := .release) (k := .u32) (v := 0) hv]
    have he := clear_evolves h hr
    obtain ⟨hbody, hne, _⟩ := Shape.Held.body h hp
    have hslot := m.block_write_of_ne (a := ⟨b, 0⟩) (Kind.u32.encode 0) hne
    have hp' : Shape.pointee (m.write ⟨b, 0⟩ (Kind.u32.encode 0)) a = some b := by
      rw [Shape.pointee, Mem.load_of_block (a := a + 8) hslot]
      exact hp
    have hcount : count (m.write ⟨b, 0⟩ (Kind.u32.encode 0)) b = 0 := by
      rw [count, Mem.load_write_same (k := .u32) 0 hv]
      rfl
    refine ⟨_, hr, he, ?_, fun c i v _ hnil => by cases hnil⟩
    rw [hp', Option.elim_some, hcount]
    rfl

/-- `destroy` frees the buffer and not what the items in it own. -/
theorem destroy_frees (h : (Ty.array item).shape.Held m a) :
    ∃ m', Ends (arrayDestroy (some a)) m (Shape.pointee m a).toList m' ∧
      (Ty.array item).shape.Evolves a m m' ∧ Shape.pointee m' a = none := by
  have hbox : (Shape.box .bytes).Held m a := Shape.held_box h.valid h.ok.1 fun b hb => by
    obtain ⟨hbody, hne, _⟩ := Shape.Held.body h hb
    exact ⟨⟨((items item.shape).live hbody.ok).1, List.nodup_nil, List.not_mem_nil⟩, hne,
      List.not_mem_nil⟩
  have hblocks : (Shape.box .bytes).blocks m a = (Shape.pointee m a).toList := by
    cases hp : Shape.pointee m a with
    | none => exact Shape.blocks_box_none hp
    | some b => exact Shape.blocks_box_some hp
  obtain ⟨m', hrun, he⟩ := Shape.Releases.box bytes_releases a m hbox
  have hnull : Shape.pointee m' a = none := by
    cases hp : Shape.pointee m' a with
    | none => rfl
    | some b =>
      have hempty := he.empty
      rw [Shape.blocks_box_some hp] at hempty
      cases hempty
  rw [hblocks] at hrun
  refine ⟨m', hrun, ⟨⟨he.sizeOf, he.outside, fun d hd hne hnot => ?_⟩, Mem.run_next_le hrun.run, ?_,
    fun d hd => ?_⟩, hnull⟩
  · refine he.other d hd hne fun hin => hnot ?_
    rw [hblocks, Option.mem_toList] at hin
    show d ∈ (Shape.box (items item.shape)).blocks m a
    rw [Shape.blocks_box_some hin]
    exact List.mem_append_right _ List.mem_cons_self
  · refine Shape.held_box he.held.valid he.held.ok.1 fun b hb => ?_
    rw [hnull] at hb
    cases hb
  · have hd' : d ∈ (Shape.box (items item.shape)).blocks m' a := hd
    rw [Shape.blocks_box_none hnull] at hd'
    cases hd'

theorem destroy_leaves (h : (Ty.array item).shape.Held m a) :
    Leaves (.array item) a (arrayDestroy (some a)) m [] := by
  obtain ⟨m', hrun, he, hp⟩ := destroy_frees h
  refine ⟨m', hrun.run, he, ?_, fun c i v hc _ => ?_⟩
  · rw [hp]
    rfl
  · rw [hp] at hc
    cases hc

theorem reserve_leaves {newCap : UInt32} (h : (Ty.array item).shape.Held m a)
    (hs : (Ty.array item).Shows m a vs) (hm : m.mallocOk = true) :
    Leaves (.array item) a (msmArrayReserve (some a) newCap item.itemSize) m vs := by
  obtain ⟨n, cap, hb⟩ := Shape.Held.bufferAt h
  have hn := length_of_bufferAt hs hb
  have hreserve : Gives (msmArrayReserve (some a) newCap item.itemSize) m fun _ m' =>
      (Ty.array item).shape.Evolves a m m' ∧ (Ty.array item).Shows m' a vs := by
    refine msmArrayReserve_gives h hb item.toNat_itemSize hm (fun _ => ⟨.refl h, hs⟩)
      fun m₁ _ hg hread => ?_
    obtain ⟨he, hb₁⟩ := hg.publish h
    have hp₁ := Shape.pointee_of_load hb₁.load
    refine ⟨he, shows_carried h hs hn he (.publish h hg hread) ?_⟩
    rw [hp₁, Option.elim_some, (hb₁.buffer m.next rfl).count_eq, hn]
  obtain ⟨x, m', hr, he, hs'⟩ := hreserve.run
  exact ⟨m', hr, he, hs'⟩

/-! ## Pushes -/

/-- A zero item behind the last one. -/
theorem shows_append {b : Nat} (h : (Ty.array item).shape.Held m a)
    (hs : (Ty.array item).Shows m a vs) (hb : BufferAt m a item.shape.size (some b) n cap)
    (hlt : n.toNat < cap.toNat) (hsmall : (n.toNat + 1) * item.size < 2 ^ 32)
    (hm' : m₁ = (m.write ⟨b, 8 + n.toNat * item.size⟩ (List.replicate item.size (.byte 0))).write
      ⟨b, 0⟩ (Kind.u32.encode (n + 1))) :
    (Ty.array item).shape.Evolves a m m₁ ∧ (Ty.array item).Shows m₁ a (vs ++ [item.zero]) ∧
      Shape.pointee m₁ a = some b ∧ vs.length < count m₁ b := by
  have hp : Shape.pointee m a = some b := Shape.pointee_of_load hb.load
  have hbuf := hb.buffer b rfl
  obtain ⟨hbody, hne, _⟩ := Shape.Held.body h hp
  rw [← hp] at hb
  have hn := length_of_bufferAt hs hb
  have hn1 : (n + 1).toNat = n.toNat + 1 := by
    have := cap.toNat_lt
    rw [UInt32.toNat_add, UInt32.toNat_one, Nat.mod_eq_of_lt (by omega)]
  have happend := items_append hbody hbuf hlt (by rw [item.size_shape]; exact hsmall)
  rw [item.size_shape, ← hm'] at happend
  have he : (Ty.array item).shape.Evolves a m m₁ := .box h hp happend
  have hother {d : Nat} (hd : d ≠ b) : m₁.block d = m.block d := by
    rw [hm', Mem.block_write_of_ne _ _ hd, Mem.block_write_of_ne _ _ hd]
  have hp₁ : Shape.pointee m₁ a = some b := by
    rw [Shape.pointee, Mem.load_of_block (a := a + 8) (hother hne)]
    exact hp
  have hhead : (Kind.u32.encode (n + 1)).length = 4 := Kind.length_encode .u32 _
  have hcount : count m₁ b = vs.length + 1 := by
    have hv : m.Valid ⟨b, 0⟩ Kind.u32.size := Mem.load_valid hbuf.load_size
    rw [count, hm', Mem.load_write_same (k := .u32) _ ((Mem.valid_write ..).mpr hv),
      Option.map_some, Option.getD_some, hn1, hn]
  refine ⟨he, ⟨?_, fun c i v hc hv => ?_⟩, hp₁, by omega⟩
  · rw [hp₁, Option.elim_some, hcount, List.length_append, List.length_singleton]
  · obtain rfl : b = c := Option.some.inj (hp₁.symm.trans hc)
    have hi : i < vs.length + 1 := by simpa using (List.getElem?_eq_some_iff.mp hv).1
    have hvalid := (Ty.shape_item he.held hp₁ (hcount ▸ hi)).1.valid
    rw [item.size_shape] at hvalid
    rcases Nat.lt_succ_iff_lt_or_eq.mp hi with hi | rfl
    · -- an item that was there
      rw [List.getElem?_append_left hi] at hv
      have hib : i < count m b := by rw [hbuf.count_eq, hn]; exact hi
      obtain ⟨hitem, _⟩ := Ty.shape_item h hp hib
      have hle := Nat.mul_le_mul_right item.size (Nat.succ_le_of_lt hi)
      rw [Nat.succ_mul] at hle
      refine item.shows_move hitem hvalid (Mem.read_congr fun o h1 h2 => ?_) (fun d hd => ?_)
        (hs.2 b i v hp hv)
      · simp only at h1 h2
        rw [hm', Mem.cellAt_write_of_not, Mem.cellAt_write_of_not]
        · rw [hn]
          rintro ⟨_, h3, _⟩
          simp only at h3
          omega
        · rw [hhead]
          rintro ⟨_, _, h3⟩
          simp only at h3
          omega
      · refine hother ?_
        rintro rfl
        exact hitem.apart hd
    · rw [List.getElem?_append_right (Nat.le_refl _), Nat.sub_self] at hv
      cases hv
      refine item.shows_zero hvalid ?_
      rw [hm', ← hn, Mem.read_write_apart]
      · have hnext := hbuf.next_item hlt (by rw [item.size_shape]; exact hsmall)
        rw [item.size_shape] at hnext
        exact Mem.read_write_all hnext List.length_replicate
      · rw [hhead]
        intro _
        left
        simp only
        omega

theorem push_run (h : (Ty.array item).shape.Held m a) (hs : (Ty.array item).Shows m a vs)
    (hw : item.itemSize.toNat = item.size) (hsmall : (vs.length + 1) * item.size < 2 ^ 32)
    (hm : m.mallocOk = true) : ∃ b m', (emplaceBack item (some a)).run m =
        .ok (some ⟨b, 8 + vs.length * item.size⟩, m') ∧ (Ty.array item).shape.Evolves a m m' ∧
      (Ty.array item).Shows m' a (vs ++ [item.zero]) ∧ Shape.pointee m' a = some b ∧
      vs.length < count m' b := by
  obtain ⟨n, cap, hb⟩ := Shape.Held.bufferAt h
  have hn := length_of_bufferAt hs hb
  rw [← hn] at hsmall ⊢
  have hw' : item.itemSize.toNat = item.shape.size := by rw [hw, item.size_shape]
  have h8 : 8 ≤ item.shape.size := by rw [item.size_shape]; exact eight_le_size item
  obtain ⟨p, m₂, hprep, m₁, b, cap₁, he, hc, hb₁, hlt, rfl, rfl⟩ := (msmArrayPreparePush_gives h hb
    hw' h8 (by rw [item.size_shape]; exact hsmall) hm).run
  have hbuf₁ := hb₁.buffer b rfl
  have hs₁ : (Ty.array item).Shows m₁ a vs := by
    refine shows_carried h hs hn he hc ?_
    rw [Shape.pointee_of_load hb₁.load, Option.elim_some, hbuf₁.count_eq, hn]
  rw [item.size_shape] at hprep
  obtain ⟨he₂, hs₂, hp₂, hcount⟩ := shows_append he.held hs₁ hb₁ hlt hsmall rfl
  rw [← hn] at hcount
  refine ⟨b, _, ?_, he.trans he₂, hs₂, hp₂, hcount⟩
  have hne : a.block ≠ b := (Shape.Held.body he.held (Shape.pointee_of_load hb₁.load)).2.1
  have hzero := @BufferOk.write_items _ _ _ _ _ _ (List.replicate item.size (.byte 0)) hbuf₁
    (Nat.le_add_right 8 (n.toNat * item.size))
  have hload : (m₁.write ⟨b, 8 + n.toNat * item.size⟩
      (List.replicate item.size (.byte 0))).load .ptr (a + 8) = some (some ⟨b, 0⟩) :=
    (Mem.load_of_block (a := a + 8) (m₁.block_write_of_ne _ hne)).trans hb₁.load
  rw [emplaceBack, msmArrayPushBack, Prog.run_bind_ok hprep]
  simp only [msmArrayCommitPush, reduceCtorEq, if_false, ne_eq, not_false_eq_true, if_true,
    atomicLoadPtr, loadPtr_bind, Ptr.some_add, Prog.act_bind, Prog.run, Mem.exec_load hload,
    arrBufSize, atomicLoadU32, loadU32_bind, Mem.exec_load hzero.load_size, arrBufSetSize,
    atomicStoreU32, store, Mem.exec_store (Mem.load_valid hzero.load_size)]
  rfl

/-- A push, and then the writes of the new element. -/
theorem pushThen_leaves {body : Ptr → CProg Unit} {w : item.Val}
    (h : (Ty.array item).shape.Held m a) (hs : (Ty.array item).Shows m a vs)
    (hw : item.itemSize.toNat = item.size) (hsmall : (vs.length + 1) * item.size < 2 ^ 32)
    (hm : m.script = []) (hbody : ∀ m₁ p, m₁.script = [] → item.shape.Held m₁ p →
      item.Shows m₁ p item.zero → Leaves item p (body (some p)) m₁ w) :
    Leaves (.array item) a (emplaceBack item (some a) >>= body) m (vs ++ [w]) := by
  have hok : m.mallocOk = true := by rw [Mem.mallocOk, hm]; rfl
  obtain ⟨b, m₁, hr, he, hs₁, hp₁, hcount⟩ := push_run h hs hw hsmall hok
  obtain ⟨hitem, hlift⟩ := Ty.shape_item he.held hp₁ hcount
  have hscript : m₁.script = [] := Prog.run_keep (P := fun m : Mem => m.script = [])
    (fun _ _ _ _ h he => Mem.exec_script_nil h he) hm hr
  have hzero := hs₁.2 b vs.length item.zero hp₁ (by simp)
  obtain ⟨m', hr', he', hw'⟩ := hbody m₁ _ hscript hitem hzero
  refine ⟨m', (Prog.run_bind_ok hr).trans hr', he.trans (hlift m' he'), ?_⟩
  have hset := shows_item he.held hs₁ hp₁ hcount he' hw'
  have hlist : (vs ++ [item.zero]).set vs.length w = vs ++ [w] := by
    rw [List.set_append_right _ _ (Nat.le_refl _), Nat.sub_self]
    rfl
  rw [hlist] at hset
  exact hset

end arrays

/-! ## The fields of a new record -/

/-- Arguments of `emplace_back(args...)`: values for the first fields of the record. -/
inductive Args : Fields → Type
  | nil {fs : Fields} : Args fs
  | cons {name : FixedString} {rest : Fields} (v : Scalar) (args : Args rest) :
      Args (.cons name (.prim v.prim) rest)

def Args.list {fs : Fields} : Args fs → List Scalar
  | .nil => []
  | .cons v args => v :: args.list

/-- The record with the arguments in its first fields. -/
def Args.fill {fs : Fields} : Args fs → fs.Vals → fs.Vals
  | .nil, vs => vs
  | .cons v args, vs => (v.val, args.fill vs.2)

/-- `write_fields` fills in the fields from `i` on. -/
theorem Args.write {fs fields : Fields} {i d : Nat} {vs : fs.Vals} (args : Args fs)
    (hoff : ∀ j, (fields.fieldOffset (i + j)).toNat = d + fs.before j)
    (h : fs.shape.Held m (a + d)) (hs : fs.Show m (a + d) vs) :
    ∃ m', (writeFields fields (some a) i args.list).run m = .ok ((), m') ∧
      fs.shape.Evolves (a + d) m m' ∧ fs.Show m' (a + d) (args.fill vs) := by
  induction args generalizing m i d with
  | nil => exact ⟨m, rfl, .refl h, hs⟩
  | @cons name rest v args ih =>
    obtain ⟨ht, _, _⟩ := Shape.held_seq.mp h
    obtain ⟨m₁, hr₁, he₁, hv₁⟩ := assign_leaves ht
    have hlift := he₁.seq_left h
    have hs₁ := Member.show_set (@Member.first name _ rest) h he₁ hs hv₁
    obtain ⟨ht₁, hrest₁, hd₁⟩ := Shape.held_seq.mp hlift.held
    rw [(Ty.prim v.prim).size_shape, Addr.add_add] at hrest₁ hd₁
    have hshow := hs₁.2
    rw [Addr.add_add] at hshow
    obtain ⟨m', hr', he', hs'⟩ := ih (i := i + 1) (d := d + (Ty.prim v.prim).size)
      (fun j => by
        have hj := hoff (j + 1)
        rw [← Nat.add_assoc, Nat.add_right_comm] at hj
        rw [hj, Nat.add_assoc]
        rfl) hrest₁ hshow
    have hfirst : a + (fields.fieldOffset i).toNat = a + d := by
      have h0 := hoff 0
      rw [Nat.add_zero] at h0
      rw [h0]
      rfl
    refine ⟨m', ?_, hlift.trans (Shape.Evolves.seq_right ?_ hlift.held), ?_, ?_⟩
    · rw [← hfirst] at hr₁
      exact (Prog.run_bind_ok hr₁).trans hr'
    · rw [(Ty.prim v.prim).size_shape, Addr.add_add]
      exact he'
    · refine Ty.shows_beside he'.toConfined ht₁ rfl (.inl ?_) (fun c hc hr => hd₁ hc hr) hv₁
      simp only [Addr.add_off]
      omega
    · rw [Addr.add_add]
      exact hs'

/-- The writes of `emplace_back(args...)` on the new record. -/
theorem writeFields_leaves {fs : Fields} {vs : fs.Vals} (args : Args fs)
    (hsize : (Ty.record fs).size < 2 ^ 64) (h : (Ty.record fs).shape.Held m a)
    (hs : (Ty.record fs).Shows m a vs) :
    Leaves (.record fs) a (writeFields fs (some a) 0 args.list) m (args.fill vs) := by
  obtain ⟨_, hf, _⟩ := Shape.held_seq.mp h
  have hoff (j : Nat) : (fs.fieldOffset (0 + j)).toNat = 8 + fs.before j := by
    rw [Nat.zero_add, Fields.fieldOffset_exact hsize]
  obtain ⟨m', hr, he, hs'⟩ := args.write hoff hf hs
  exact ⟨m', hr, he.seq_right h, hs'⟩

end writes
end Msm.Api
