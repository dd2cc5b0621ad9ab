import Msm.Typed.Heap
import Msm.Typed.Statements

/-! # What the operations do to a typed heap

An operation on a slot of its type is safe wherever the slot is, in a buffer that
has been replaced as well, and each single access of it keeps the memory to the
heap: a number is stored in one access, a new string or buffer gets its content at
the store that publishes it, and the size of an array counts elements that are
there. What is stored was given to the call. -/
namespace Msm.Typed
open Msm.Exec Msm.CMem Msm.Api Msm.Own

/-- A step of a call that was given `S` keeps the memory to the heap, whatever other
calls were given. -/
structure Step (S : Given) (h : Heap) (m m' : Mem) (h' : Heap) : Prop where
  store : ∀ A, S.Le A → Store A h m → Store A h' m'
  grows : h.Extends h'

def Moves (S : Given) (h : Heap) (m : Mem) (_ : Act) (m' : Mem) (h' : Heap) : Prop :=
  Step S h m m' h'

/-- The memory keeps to the heap and has room. -/
structure Point (A : Given) (h : Heap) (m : Mem) : Prop where
  store : Store A h m
  script : m.script = []

/-- A point after `h`, with at most `k` elements more. -/
structure After (A : Given) (h : Heap) (k : Nat) (m' : Mem) (h' : Heap) : Prop extends
    Point A h' m' where
  grows : h.Extends h'
  count : h'.pushes ≤ h.pushes + k

theorem After.trans {A : Given} {h h' h'' : Heap} {k l : Nat} {m' m'' : Mem}
    (h₁ : After A h k m' h') (h₂ : After A h' l m'' h'') : After A h (k + l) m'' h'' where
  toPoint := h₂.toPoint
  grows := h₁.grows.trans h₂.grows
  count := by
    have := h₁.count
    have := h₂.count
    omega

theorem Point.after {A : Given} {h : Heap} {m : Mem} (hp : Point A h m) : After A h 0 m h :=
  ⟨hp, .refl h, Nat.le_refl _⟩

section moves
variable {S A : Given} {h : Heap} {m m' : Mem} {t : Ty} {a : Addr}

theorem Step.refl : Step S h m m h := ⟨fun _ _ => id, .refl h⟩

theorem fresh_moves (hs : Store A h m) : FreshOk (Moves S) h m.next := by
  intro m₁ x m₂ r hN hx he
  exact ⟨fun A' _ hs' => hs'.of_blocks fun b c hc => hx.block_eq hN he (hs.lt hc), .refl h⟩

theorem Step.set {y : Addr} {cs : List Cell} (hat : At h t a) (hy : Inside y cs.length a t.size)
    (hok : ∀ A, S.Le A → Store A h m → SlotOk A h (m.write y cs) t a) :
    Step S h m (m.write y cs) h :=
  ⟨fun A hA hs => hs.set hat hy (hok A hA hs), .refl h⟩

/-- The type is one of a slot with a pointer, to such a content. -/
structure Pointer (t : Ty) (P : Content → Prop) : Prop where
  size : t.size = 16
  slot : ∀ {A : Given} {h : Heap} {m : Mem} {a : Addr}, PointsTo h m a P → SlotOk A h m t a

theorem pointer_string : Pointer .string Content.IsChars := ⟨rfl, fun hp => hp⟩

theorem pointer_array (item : Ty) : Pointer (.array item) (Content.IsItems item) :=
  ⟨rfl, fun hp => hp⟩

theorem Pointer.inside {P : Content → Prop} (ht : Pointer t P) (v : Ptr) :
    Inside (a + 8) (Kind.ptr.encode v).length a t.size :=
  .add (by rw [ht.size, Kind.length_encode]; decide)

theorem At.valid_ptr {P : Content → Prop} (hat : At h t a) (hs : Store A h m)
    (ht : Pointer t P) : m.Valid (a + 8) Kind.ptr.size :=
  (hat.located hs).valid.mono (by rw [ht.size]; decide)

theorem Step.null {P : Content → Prop} (hat : At h t a) (ht : Pointer t P) :
    Step S h m (m.write (a + 8) (Kind.ptr.encode none)) h :=
  Step.set hat (ht.inside none) fun A _ hs =>
    ht.slot (.store (c := none) (hat.valid_ptr hs ht) fun b hb => by cases hb)

/-- **The store that publishes** a block gives it its content. -/
theorem Step.publish {P : Content → Prop} {b : Nat} {c : Content} (hat : At h t a)
    (ht : Pointer t P) (hb : h.content b = none) (hP : P c)
    (hc : ∀ A, S.Le A → Store A h m → c.Ok A (h.add b c) m b) :
    Step S h m (m.write (a + 8) (Kind.ptr.encode (some ⟨b, 0⟩))) (h.add b c) := by
  have hext := Heap.extends_add c hb
  refine ⟨fun A hA hs => ?_, hext⟩
  refine (hs.add hb (hc A hA hs)).set (hat.mono hext) (ht.inside _) (ht.slot ?_)
  refine .store (c := some b) (hat.valid_ptr hs ht) fun b' hb' => ?_
  cases hb'
  exact ⟨c, Heap.add_content_self h b c, hP⟩

end moves

section operations
variable {α : Type} {S A : Given} {h : Heap} {m : Mem} {a : Addr} {F : Fault → Mem → Heap → Prop}

/-! ## Numbers -/

theorem assign_safe {Q : Unit → Mem → Heap → Prop} {v : Scalar} (hp : Point A h m) (hSA : S.Le A)
    (hat : At h (.prim v.prim) a) (hv : S.scalar v) (hQ : ∀ m', Point A h m' → Q () m' h) :
    (v.assign (some a)).Safe (Moves S) F Q m h := by
  have hsize := v.prim.payload_add
  have hvalid : m.Valid (a + v.prim.payload) v.prim.kind.size :=
    (hat.located hp.store).valid.mono (Nat.le_of_eq hsize)
  have hmove : Step S h m
      (m.write (a + v.prim.payload) (v.prim.kind.encode v.toVal)) h := by
    refine Step.set hat (.add ?_) fun A' hA hs => ⟨v.toVal, ?_, .inr ?_⟩
    · rw [Kind.length_encode]
      exact Nat.le_of_eq hsize
    · exact Mem.load_write_same v.toVal ((hat.located hs).valid.mono (Nat.le_of_eq hsize))
    · rw [Prim.ofVal_toVal]
      exact hA.scalar v hv
  rw [assign_eq]
  exact Prog.safe_act h (Mem.exec_store hvalid) hmove
    (hQ _ ⟨hmove.store A hSA hp.store, hp.script⟩)

/-! ## Strings -/

theorem storeNull_safe {Q : Unit → Mem → Heap → Prop} (hp : Point A h m) (hSA : S.Le A)
    (hat : At h .string a) (hQ : ∀ m', Point A h m' → Q () m' h) :
    (atomicStorePtr (some (a + 8)) none .release).Safe (Moves S) F Q m h := by
  have hmove : Step S h m (m.write (a + 8) (Kind.ptr.encode none)) h :=
    Step.null hat pointer_string
  refine Prog.safe_act h (Mem.exec_store (hat.valid_ptr hp.store pointer_string)) hmove ?_
  exact hQ _ ⟨hmove.store A hSA hp.store, hp.script⟩

theorem msmStringClear_safe {Q : Unit → Mem → Heap → Prop} (hp : Point A h m) (hSA : S.Le A)
    (hat : At h .string a) (hQ : ∀ m', Point A h m' → Q () m' h) :
    (msmStringClear (some a)).Safe (Moves S) F Q m h := by
  simp only [msmStringClear, reduceCtorEq, if_false]
  exact storeNull_safe hp hSA hat hQ

theorem stringAssign_safe {Q : Unit → Mem → Heap → Prop} {str : Option CStr} (hp : Point A h m)
    (hSA : S.Le A) (hat : At h .string a) (hS : S.chars (chars str))
    (hlen : (chars str).length + 1 < 2 ^ 32)
    (hQ : ∀ m' h', After A h 0 m' h' → Q () m' h') :
    (stringAssign (some a) str).Safe (Moves S) F Q m h := by
  have hnull : (atomicStorePtr (some (a + 8)) none .release).Safe (Moves S) F Q m h :=
    storeNull_safe hp hSA hat fun m' hp' => hQ m' h hp'.after
  cases str with
  | none => exact hnull
  | some s =>
    have hok : m.mallocOk = true := by rw [Mem.mallocOk, hp.script]; rfl
    have hshort : s.bytes.length + 1 < 2 ^ 32 := hlen
    refine Str.msmStringSet_safe (fresh_moves hp.store) (by omega) (fun _ => rfl) (fun _ => hnull)
      (fun _ hf => ?_) (fun hwide => ?_) fun m' _ hk hscript hat' _ => ?_
    · rw [hok] at hf
      cases hf
    · omega
    have hstore := hp.store.keeps hk
    have hscript' : m'.script = [] := by rw [hscript, hp.script, List.tail_nil]
    have hmove : Step S h m'
        (m'.write (a + 8) (Kind.ptr.encode (some ⟨m.next, 0⟩)))
        (h.add m.next (.chars s.bytes)) := by
      refine Step.publish hat pointer_string (hp.store.fresh (Nat.le_refl _)) ⟨_, rfl⟩ ?_
      exact fun A' hA _ => ⟨hA.chars _ hS, s.nul_free, hat'⟩
    refine Prog.safe_act _ (Mem.exec_store (hat.valid_ptr hstore pointer_string)) hmove ?_
    exact hQ _ _ ⟨⟨hmove.store A hSA hstore, hscript'⟩, hmove.grows, Nat.le_refl _⟩

/-! ## Arrays -/

/-- The buffer of an array slot and what its header says, zeros without a buffer. -/
structure Buffer (h : Heap) (m : Mem) (a : Addr) (item : Ty) (c : Option Nat) (n cap : UInt32) :
    Prop where
  load : m.load .ptr (a + 8) = some (basePtr c)
  empty : c = none → n = 0 ∧ cap = 0
  content : ∀ b, c = some b → h.content b = some (.items item cap)
  load_size : ∀ b, c = some b → m.load .u32 ⟨b, 0⟩ = some n
  load_cap : ∀ b, c = some b → m.load .u32 ⟨b, 4⟩ = some cap
  le : n.toNat ≤ cap.toNat
  pushes : n.toNat ≤ h.pushes

variable {item : Ty} {c : Option Nat} {n cap newCap : UInt32}

theorem At.buffer (hat : At h (.array item) a) (hs : Store A h m) :
    ∃ c n cap, Buffer h m a item c n cap := by
  obtain ⟨c, hl, hc⟩ := (hat.located hs).ok
  cases c with
  | none =>
    refine ⟨none, 0, 0, hl, fun _ => ⟨rfl, rfl⟩, ?_, ?_, ?_, Nat.le_refl _, Nat.zero_le _⟩ <;>
      exact fun b hb => by cases hb
  | some b =>
    obtain ⟨_, hx, cap, rfl⟩ := hc b rfl
    obtain ⟨n, hn, hle, hpush⟩ := (hs b _ hx).load_size
    have hcap := (hs b _ hx).load_cap
    refine ⟨some b, n, cap, hl, (fun hc => by cases hc), ?_, ?_, ?_, hle, hpush⟩ <;>
      · intro b' hb'
        cases hb'
        assumption

theorem Buffer.loadSize_safe {Q : α → Mem → Heap → Prop} (hb : Buffer h m a item c n cap)
    {o : Order} {k : UInt32 → CProg α} (hk : (k n).Safe (Moves S) F Q m h) :
    (if basePtr c = none then pure 0 >>= k else arrBufSize (basePtr c) o >>= k).Safe
      (Moves S) F Q m h := by
  cases c with
  | none =>
    obtain ⟨rfl, _⟩ := hb.empty rfl
    exact hk
  | some b => exact Prog.safe_act h (Mem.exec_load (hb.load_size b rfl)) .refl hk

theorem Buffer.loadCap_safe {Q : α → Mem → Heap → Prop} (hb : Buffer h m a item c n cap)
    {k : UInt32 → CProg α} (hk : (k cap).Safe (Moves S) F Q m h) :
    (if basePtr c = none then pure 0 >>= k else arrBufCap (basePtr c) >>= k).Safe
      (Moves S) F Q m h := by
  cases c with
  | none =>
    obtain ⟨_, rfl⟩ := hb.empty rfl
    exact hk
  | some b => exact Prog.safe_act h (Mem.exec_load (hb.load_cap b rfl)) .refl hk

/-- A block that is ready to be the buffer: a copy of the items, and clear behind it. -/
structure Copied (m : Mem) (new : Nat) (item : Ty) (c : Option Nat) (n cap : UInt32) : Prop where
  valid : m.Valid ⟨new, 0⟩ (8 + cap.toNat * item.size)
  load_size : m.load .u32 ⟨new, 0⟩ = some n
  load_cap : m.load .u32 ⟨new, 4⟩ = some cap
  copy : ∀ i, i < n.toNat → ∃ b, c = some b ∧
    m.read ⟨new, 8 + i * item.size⟩ item.size = m.read ⟨b, 8 + i * item.size⟩ item.size
  clear : ∀ i, n.toNat ≤ i → i < cap.toNat →
    m.read ⟨new, 8 + i * item.size⟩ item.size = List.replicate item.size (.byte 0)

/-- **The copy holds values of the type of the items.** -/
theorem Copied.ok {m₂ : Mem} {new : Nat} (hc : Copied m₂ new item c n newCap)
    (hsound : (Ty.array item).Sound) (hs : Store A h m₂) (hnew : h.content new = none)
    (hcontent : ∀ b, c = some b → h.content b = some (.items item cap)) (hle : n.toNat ≤ cap.toNat)
    (hlt : n.toNat ≤ newCap.toNat) (hpush : n.toNat ≤ h.pushes) :
    (Content.items item newCap).Ok A (h.add new (.items item newCap)) m₂ new := by
  refine ⟨hsound, hc.valid, hc.load_cap, ⟨n, hc.load_size, hlt, hpush⟩, fun i hi => ?_⟩
  have hv : m₂.Valid ⟨new, 8 + i * item.size⟩ item.size := by
    have hv := hc.valid.mono (item_inside hi)
    rwa [Addr.mk_add, Nat.zero_add] at hv
  rcases Nat.lt_or_ge i n.toNat with hin | hin
  · obtain ⟨b, hb, hread⟩ := hc.copy i hin
    have hold := hs b _ (hcontent b hb)
    have hi' : i < cap.toNat := Nat.lt_of_lt_of_le hin hle
    exact slotOk_mono (.refl A) (Heap.extends_add _ hnew) item
      (slotOk_move item (hold.valid_item hi') hv hread (hold.item i hi'))
  · exact slotOk_zero item hv (hc.clear i hin hi)

theorem Copied.buffer {m₂ : Mem} {new : Nat} (hc : Copied m₂ new item c n newCap)
    (hv : m₂.Valid (a + 8) Kind.ptr.size) (hne : new ≠ a.block) (hle : n.toNat ≤ newCap.toNat)
    (hpush : n.toNat ≤ h.pushes) : Buffer (h.add new (.items item newCap))
      (m₂.write (a + 8) (Kind.ptr.encode (some ⟨new, 0⟩))) a item (some new) n newCap := by
  have hblock : (m₂.write (a + 8) (Kind.ptr.encode (some ⟨new, 0⟩))).block new = m₂.block new :=
    m₂.block_write_of_ne _ hne
  refine ⟨Mem.load_write_same (k := .ptr) (basePtr (some new)) hv, (fun hc => by cases hc),
    fun b hb => ?_, fun b hb => ?_, fun b hb => ?_, hle, hpush⟩
  · cases hb
    exact Heap.add_content_self h new _
  · cases hb
    rw [Mem.load_of_block (a := ⟨new, 0⟩) hblock]
    exact hc.load_size
  · cases hb
    rw [Mem.load_of_block (a := ⟨new, 4⟩) hblock]
    exact hc.load_cap

/-- A reserve leaves the slot alone, or points it to a larger buffer with the items. -/
theorem msmArrayReserve_safe {Q : Unit → Mem → Heap → Prop} (hp : Point A h m) (hSA : S.Le A)
    (hat : At h (.array item) a) (hb : Buffer h m a item c n cap)
    (hsame : newCap.toNat ≤ cap.toNat → Q () m h)
    (hgrow : ∀ m', cap.toNat < newCap.toNat → Point A (h.add m.next (.items item newCap)) m' →
      Buffer (h.add m.next (.items item newCap)) m' a item (some m.next) n newCap →
      Q () m' (h.add m.next (.items item newCap))) :
    (msmArrayReserve (some a) newCap item.itemSize).Safe (Moves S) F Q m h := by
  have hsound := (hat.located hp.store).sound
  have h0 := itemSize_ne_zero_of_sound hsound
  have hw := toNat_itemSize_of_sound hsound
  have hok : m.mallocOk = true := by rw [Mem.mallocOk, hp.script]; rfl
  simp only [msmArrayReserve, reduceCtorEq, h0, or_self, if_false]
  refine Prog.safe_act h (Mem.exec_load hb.load) .refl (hb.loadCap_safe ?_)
  by_cases hcap : newCap ≤ cap
  · rw [if_pos hcap]
    exact hsame (UInt32.le_iff_toNat_le.mp hcap)
  rw [if_neg hcap]
  rw [UInt32.le_iff_toNat_le, Nat.not_le] at hcap
  have hle := hb.le
  refine hb.loadSize_safe ?_
  simp only [malloc_bind, memset0_bind, arrBufSetSize, arrBufSetCap, atomicStoreU32, store_bind,
    arrBufHeader, hw]
  have hT : FreshOk (Moves S) h m.next := fresh_moves hp.store
  have hfresh : h.content m.next = none := hp.store.fresh (Nat.le_refl _)
  refine hT.act (Mem.exec_malloc_ok hok) (Nat.le_refl _) trivial ?_
  refine newBuffer_clear_safe hT (Nat.le_add_right 8 _) fun m₁ hnew hclear => ?_
  have hvalid : m₁.Valid ⟨m.next, 0⟩ (8 + newCap.toNat * item.size) :=
    ⟨_, hnew.sizeOf, Nat.le_of_eq (Nat.zero_add _)⟩
  have hscript : m₁.script = [] := by rw [hnew.script, hp.script, List.tail_nil]
  have hpublish (m₂ : Mem) (hk : m.Keeps m₂) (hscript : m₂.script = [])
      (hc : Copied m₂ m.next item c n newCap) :
      (atomicStorePtr (some a + 8) (some ⟨m.next, 0⟩) .release).Safe (Moves S) F Q m₂ h := by
    have hstore := hp.store.keeps hk
    have hv := hat.valid_ptr hstore (pointer_array item)
    have hmove : Step S h m₂ (m₂.write (a + 8) (Kind.ptr.encode (some ⟨m.next, 0⟩)))
        (h.add m.next (.items item newCap)) := by
      refine .publish hat (pointer_array item) hfresh ⟨_, rfl⟩ fun A' _ hs => ?_
      exact hc.ok hsound hs hfresh hb.content hle (by omega) hb.pushes
    have hdone := hmove.store A hSA hstore
    have hne : m.next ≠ a.block := (Nat.ne_of_lt (hat.located hp.store).valid.lt).symm
    refine Prog.safe_act _ (Mem.exec_store hv) hmove (hgrow _ hcap ⟨hdone, hscript⟩ ?_)
    exact hc.buffer hv hne (by omega) hb.pushes
  have hclear' (i : Nat) (hi : i < newCap.toNat) :
      m₁.read ⟨m.next, 8 + i * item.size⟩ item.size = List.replicate item.size (.byte 0) :=
    hclear _ _ (Nat.le_add_right 8 _) (item_inside hi)
  by_cases hcopy : basePtr c ≠ none ∧ 0 < n
  · rw [if_pos hcopy]
    obtain ⟨b, rfl⟩ := Option.ne_none_iff_exists'.mp fun hc => hcopy.1 (congrArg basePtr hc)
    have hold := hp.store b _ (hb.content b rfl)
    have hmul : n.toNat * item.size ≤ cap.toNat * item.size := Nat.mul_le_mul_right _ hle
    have hmul' : n.toNat * item.size ≤ newCap.toNat * item.size :=
      Nat.mul_le_mul_right _ (by omega)
    have hsrc : m₁.Valid ⟨b, 8⟩ (n.toNat * item.size) := by
      have hv := (hnew.keeps.valid hold.valid).mono (d := 8) (k := n.toNat * item.size) (by omega)
      exact hv
    have hdst : m₁.Valid ⟨m.next, 8⟩ (n.toNat * item.size) := by
      have hv := hvalid.mono (d := 8) (k := n.toNat * item.size) (by omega)
      exact hv
    have hne : m.next ≠ b := (Nat.ne_of_lt (hp.store.lt (hb.content b rfl))).symm
    refine Prog.safe_act h (Mem.exec_memcpy hdst hsrc)
      (hT m₁ _ _ () hnew.keeps.next_le ⟨_, rfl, Nat.le_refl _⟩ (Mem.exec_memcpy hdst hsrc)) ?_
    have hheader {k : Kind} {o : Nat} (ho : o + k.size ≤ 8) :
        (m₁.write ⟨m.next, 8⟩ (m₁.read ⟨b, 8⟩ (n.toNat * item.size))).load k ⟨m.next, o⟩ =
          m₁.load k ⟨m.next, o⟩ := Mem.load_write_apart fun _ => .inr ho
    refine hpublish _ (hnew.keeps.write (Nat.le_refl _)) hscript ⟨(Mem.valid_write ..).mpr hvalid,
      (hheader (by decide)).trans hnew.load_count, (hheader (by decide)).trans hnew.load_cap,
      fun i hi => ⟨b, rfl, ?_⟩, fun i hi hi' => ?_⟩
    · have hin : 8 + i * item.size + item.size ≤ 8 + n.toNat * item.size := item_inside hi
      have hdst' : m₁.Valid ⟨m.next, 8⟩ (m₁.read ⟨b, 8⟩ (n.toNat * item.size)).length := by
        rwa [Mem.length_read]
      have hcopied := Mem.read_write_inside hdst' (d := i * item.size) (n := item.size)
        (by rw [Mem.length_read]; omega)
      rw [Mem.read_part _ _ (by omega)] at hcopied
      exact hcopied.trans (Mem.read_write_apart fun he => absurd he hne).symm
    · have hmul := Nat.mul_le_mul_right item.size hi
      rw [Mem.read_write_apart fun _ => .inl ?_]
      · exact hclear' i hi'
      · rw [Mem.length_read]
        exact Nat.add_le_add_left hmul 8
  · rw [if_neg hcopy]
    have hzero : n.toNat = 0 := by
      cases hc : c with
      | none => rw [(hb.empty hc).1, UInt32.toNat_zero]
      | some b =>
        rw [hc, UInt32.lt_iff_toNat_lt, UInt32.toNat_zero] at hcopy
        exact Nat.eq_zero_of_not_pos fun hpos => hcopy ⟨Option.some_ne_none _, hpos⟩
    refine hpublish m₁ hnew.keeps hscript ⟨hvalid, hnew.load_count, hnew.load_cap,
      fun i hi => ?_, fun i _ hi => hclear' i hi⟩
    omega

/-! ### Push -/

theorem sizeOf_typeAt {fs : Fields} {t : Ty} {i : Nat} (ht : fs.typeAt i = some t) :
    sizeOf t < sizeOf fs := by
  induction i generalizing fs with
  | zero =>
    cases fs with
    | nil => cases ht
    | cons name type rest =>
      cases ht
      simp only [Fields.cons.sizeOf_spec]
      omega
  | succ i ih =>
    cases fs with
    | nil => cases ht
    | cons name type rest =>
      have := ih ht
      simp only [Fields.cons.sizeOf_spec]
      omega

/-- A buffer holds slots of parts of the item type only, so no slot of an array is in
a buffer of its items. -/
theorem At.apart {b : Nat} (hat : At h (.array item) a)
    (hc : h.content b = some (.items item cap)) : a.block ≠ b := by
  have hpart {t : Ty} {x : Addr} (hx : At h t x) (hxb : x.block = b) : sizeOf t ≤ sizeOf item := by
    induction hx with
    | @root T b' hroot =>
      obtain rfl : b' = b := hxb
      rw [hc] at hroot
      cases hroot
    | @item item' cap' b' i hitem _ =>
      obtain rfl : b' = b := hxb
      rw [hc] at hitem
      cases hitem
      exact Nat.le_refl _
    | field _ ht ih =>
      have hle := ih hxb
      have hlt := sizeOf_typeAt ht
      simp only [Ty.record.sizeOf_spec] at hle
      omega
  intro hb
  have hle := hpart hat hb
  simp only [Ty.array.sizeOf_spec] at hle
  omega

/-- A write behind the header of the buffer. -/
theorem Buffer.write_items {b d : Nat} {cs : List Cell} (hb : Buffer h m a item (some b) n cap)
    (hne : a.block ≠ b) (hd : 8 ≤ d) : Buffer h (m.write ⟨b, d⟩ cs) a item (some b) n cap where
  load := (Mem.load_of_block (a := a + 8) (m.block_write_of_ne (a := ⟨b, d⟩) cs hne)).trans hb.load
  empty hnone := by cases hnone
  content := hb.content
  load_size b' hb' := by
    cases hb'
    rw [Mem.load_write_apart fun _ => .inr ?_]
    · exact hb.load_size b rfl
    · show 0 + 4 ≤ d
      omega
  load_cap b' hb' := by
    cases hb'
    rw [Mem.load_write_apart fun _ => .inr ?_]
    · exact hb.load_cap b rfl
    · show 4 + 4 ≤ d
      omega
  le := hb.le
  pushes := hb.pushes

/-- The item behind the last one is cleared. -/
theorem clearItem_safe {Q : Ptr → Mem → Heap → Prop} {b : Nat} (hp : Point A h m) (hSA : S.Le A)
    (hat : At h (.array item) a) (hb : Buffer h m a item (some b) n cap)
    (hlt : n.toNat < cap.toNat)
    (hQ : ∀ m', Point A h m' → Buffer h m' a item (some b) n cap →
      Q (some ⟨b, 8 + n.toNat * item.size⟩) m' h) :
    Prog.Safe (Moves S) F Q (do
      memset0 (arrBufData (some ⟨b, 0⟩) + n.toNat * item.itemSize.toNat) item.itemSize.toNat
      pure (arrBufData (some ⟨b, 0⟩) + n.toNat * item.itemSize.toNat)) m h := by
  have hcontent := hb.content b rfl
  have hslot : At h item ⟨b, 8 + n.toNat * item.size⟩ := .item hcontent hlt
  have hloc := hslot.located hp.store
  have hmove : Step S h m (m.write ⟨b, 8 + n.toNat * item.size⟩
      (List.replicate item.size (.byte 0))) h := by
    refine .set hslot ?_ fun A' _ hs => ?_
    · rw [List.length_replicate]
      exact Inside.add (a := ⟨b, 8 + n.toNat * item.size⟩) (d := 0) (Nat.le_of_eq (Nat.zero_add _))
    · have hv := (hslot.located hs).valid
      exact slotOk_zero item ((Mem.valid_write ..).mpr hv)
        (Mem.read_write_all hv List.length_replicate)
  rw [toNat_itemSize_of_sound (hat.located hp.store).sound]
  refine Prog.safe_act h (Mem.exec_zero hloc.valid) hmove ?_
  exact hQ _ ⟨hmove.store A hSA hp.store, hp.script⟩
    (hb.write_items (hat.apart hcontent) (Nat.le_add_right 8 _))

/-- `prepare_push` finds room for one item more. -/
theorem msmArrayPreparePush_safe {Q : Ptr → Mem → Heap → Prop} (hp : Point A h m) (hSA : S.Le A)
    (hat : At h (.array item) a) (hpush : h.pushes < 2 ^ 31)
    (hQ : ∀ m' h' b n cap, After A h 0 m' h' → Buffer h' m' a item (some b) n cap →
      n.toNat < cap.toNat → Q (some ⟨b, 8 + n.toNat * item.size⟩) m' h') :
    (msmArrayPreparePush (some a) item.itemSize).Safe (Moves S) F Q m h := by
  have h0 := itemSize_ne_zero_of_sound (hat.located hp.store).sound
  obtain ⟨c, n, cap, hb⟩ := hat.buffer hp.store
  simp only [msmArrayPreparePush, reduceCtorEq, h0, or_self, if_false]
  refine Prog.safe_act h (Mem.exec_load hb.load) .refl (hb.loadSize_safe (hb.loadCap_safe ?_))
  have hle := hb.le
  have hcount := hb.pushes
  split
  · rename_i hfull
    have hcap : cap.toNat = n.toNat := by
      rcases hfull with hnull | hle'
      · have hc : c = none := by
          cases c with
          | none => rfl
          | some b => cases hnull
        obtain ⟨rfl, rfl⟩ := hb.empty hc
        rfl
      · rw [UInt32.le_iff_toNat_le] at hle'
        omega
    -- below 2^31 elements the doubled capacity does not wrap
    have hgrows : cap.toNat < (if cap = 0 then 8 else cap * 2 : UInt32).toNat := by
      have hlarger := (Arr.doubled_le_iff cap.toNat_lt).not.mpr (by omega)
      rwa [UInt32.ofNat_toNat, Nat.not_le] at hlarger
    have hfresh : h.content m.next = none := hp.store.fresh (Nat.le_refl _)
    have hgrow := Heap.extends_add (.items item (if cap = 0 then 8 else cap * 2)) hfresh
    refine Prog.Safe.bind (msmArrayReserve_safe hp hSA hat hb (fun hsame => ?_)
      fun m₁ _ hp₁ hb₁ => ?_)
    · omega
    · refine Prog.safe_act _ (Mem.exec_load hb₁.load) .refl ?_
      refine clearItem_safe hp₁ hSA (hat.mono hgrow) hb₁ (by omega) fun m' hp' hb' => ?_
      exact hQ m' _ m.next n _ ⟨hp', hgrow, Nat.le_refl _⟩ hb' (by omega)
  · rename_i hroom
    rw [not_or, UInt32.le_iff_toNat_le, Nat.not_le] at hroom
    obtain ⟨b, rfl⟩ := Option.ne_none_iff_exists'.mp fun hc => hroom.1 (congrArg basePtr hc)
    exact clearItem_safe hp hSA hat hb hroom.2 fun m' hp' hb' =>
      hQ m' h b n cap hp'.after hb' hroom.2

/-- The size of a buffer is stored. -/
theorem setSize_safe {Q : Unit → Mem → Heap → Prop} {b : Nat} {k : UInt32} {h' : Heap} {o : Order}
    (hp : Point A h m) (hSA : S.Le A) (hc : h.content b = some (.items item cap))
    (hh : h.Extends h') (hcontent : h'.content = h.content) (hle : k.toNat ≤ cap.toNat)
    (hpush : k.toNat ≤ h'.pushes) (hQ : ∀ m', Point A h' m' → Q () m' h') :
    (arrBufSetSize (some ⟨b, 0⟩) k o).Safe (Moves S) F Q m h := by
  have hmove : Step S h m (m.write ⟨b, 0⟩ (Kind.u32.encode k)) h' :=
    ⟨fun A' _ hs => hs.setSize hh hcontent hc hle hpush, hh⟩
  have hv : m.Valid ⟨b, 0⟩ Kind.u32.size :=
    (hp.store b _ hc).valid.le (by simp only [Kind.size]; omega)
  exact Prog.safe_act h' (Mem.exec_store hv) hmove
    (hQ _ ⟨hmove.store A hSA hp.store, hp.script⟩)

theorem msmArrayPushBack_safe {Q : Ptr → Mem → Heap → Prop} (hp : Point A h m) (hSA : S.Le A)
    (hat : At h (.array item) a) (hpush : h.pushes < 2 ^ 31)
    (hQ : ∀ m' h' p, After A h 1 m' h' → At h' item p → Q (some p) m' h') :
    (msmArrayPushBack (some a) item.itemSize).Safe (Moves S) F Q m h := by
  refine .bind (msmArrayPreparePush_safe hp hSA hat hpush fun m₁ h₁ b n cap ha hb hlt => ?_)
  have hcontent := hb.content b rfl
  have hone : (n + 1).toNat = n.toNat + 1 := by
    have := cap.toNat_lt
    rw [UInt32.toNat_add, UInt32.toNat_one]
    omega
  have hcount := hb.pushes
  simp only [ne_eq, reduceCtorEq, not_false_eq_true, if_true, msmArrayCommitPush, if_false]
  refine Prog.safe_act _ (Mem.exec_load hb.load) .refl ?_
  refine Prog.safe_act _ (Mem.exec_load (hb.load_size b rfl)) .refl (Prog.Safe.bind ?_)
  refine setSize_safe ha.toPoint hSA hcontent (Heap.extends_push h₁) rfl (by omega)
    (by rw [hone]; exact Nat.succ_le_succ hcount) fun m' hp' => ?_
  refine hQ m' _ _ ⟨hp', ha.grows.trans (Heap.extends_push h₁), ?_⟩ (.item hcontent hlt)
  exact Nat.succ_le_succ ha.count

theorem msmArrayClear_safe {Q : Unit → Mem → Heap → Prop} (hp : Point A h m) (hSA : S.Le A)
    (hat : At h (.array item) a) (hQ : ∀ m', Point A h m' → Q () m' h) :
    (msmArrayClear (some a)).Safe (Moves S) F Q m h := by
  obtain ⟨c, n, cap, hb⟩ := hat.buffer hp.store
  simp only [msmArrayClear, reduceCtorEq, if_false]
  refine Prog.safe_act h (Mem.exec_load hb.load) .refl ?_
  cases c with
  | none => exact hQ m hp
  | some b =>
    exact setSize_safe hp hSA (hb.content b rfl) (.refl h) rfl (Nat.zero_le _) (Nat.zero_le _) hQ

/-! ## Any operation -/

/-- `write_fields` from field `i` on. -/
theorem writeFields_safe {Q : Unit → Mem → Heap → Prop} {fs fields : Fields} {i : Nat}
    (args : Args fs) (hp : Point A h m) (hSA : S.Le A) (hat : At h (.record fields) a)
    (hty : ∀ j t, fs.typeAt j = some t → fields.typeAt (i + j) = some t)
    (hS : ∀ v ∈ args.list, S.scalar v) (hQ : ∀ m', Point A h m' → Q () m' h) :
    (writeFields fields (some a) i args.list).Safe (Moves S) F Q m h := by
  induction args generalizing m i with
  | nil => exact hQ m hp
  | @cons name rest v args ih =>
    have hoff := Fields.toNat_fieldOffset (hat.located hp.store).small i
    have hfield : At h (.prim v.prim) (a + (fields.fieldOffset i).toNat) := by
      rw [hoff]
      exact hat.field (hty 0 _ rfl)
    refine Prog.Safe.bind (assign_safe hp hSA hfield (hS v List.mem_cons_self) fun m₁ hp₁ => ?_)
    refine ih hp₁ (fun j t ht => ?_) fun w hw => hS w (List.mem_cons_of_mem v hw)
    have hnext := hty (j + 1) t ht
    rwa [← Nat.add_assoc, Nat.add_right_comm] at hnext

end operations

/-- What an operation is given. -/
def Op.given {t : Ty} : Op t → Given
  | .assign v => ⟨(· = v), fun _ => False⟩
  | .setString str => ⟨fun _ => False, (· = Api.chars str)⟩
  | .pushScalar v => ⟨(· = v), fun _ => False⟩
  | .pushString str => ⟨fun _ => False, (· = Api.chars str)⟩
  | .emplaceWith args => ⟨(· ∈ args.list), fun _ => False⟩
  | _ => ⟨fun _ => False, fun _ => False⟩

/-- The operation frees nothing that other threads may read, and a string fits a
32-bit buffer size. -/
def Op.shareable {t : Ty} : Op t → Bool
  | .setString str => (Api.chars str).length + 1 < 2 ^ 32
  | .pushString str => (Api.chars str).length + 1 < 2 ^ 32
  | .destroy => false
  | _ => true

/-- The operation adds an element. -/
def Op.pushes {t : Ty} : Op t → Bool
  | .emplaceBack => true
  | .pushScalar _ => true
  | .pushString _ => true
  | .emplaceWith _ => true
  | _ => false

section any
variable {S A : Given} {h : Heap} {m : Mem} {a : Addr} {t : Ty} {F : Fault → Mem → Heap → Prop}

/-- **Every operation is safe on every slot of its type.** -/
theorem Op.safe {Q : Unit → Mem → Heap → Prop} (op : Op t) (hp : Point A h m) (hSA : S.Le A)
    (hat : At h t a) (hshare : op.shareable = true) (hS : op.given.Le S)
    (hpush : op.pushes = true → h.pushes < 2 ^ 31)
    (hQ : ∀ m' h', After A h op.pushes.toNat m' h' → Q () m' h') :
    (op.code (some a)).Safe (Moves S) F Q m h := by
  have hstay (m' : Mem) (hp' : Point A h m') : After A h op.pushes.toNat m' h :=
    ⟨hp', .refl h, Nat.le_add_right _ _⟩
  cases op with
  | assign v => exact assign_safe hp hSA hat (hS.scalar v rfl) fun m' hp' => hQ m' h (hstay m' hp')
  | setString str =>
    exact stringAssign_safe hp hSA hat (hS.chars _ rfl) (of_decide_eq_true hshare) hQ
  | clearString => exact msmStringClear_safe hp hSA hat fun m' hp' => hQ m' h (hstay m' hp')
  | @emplaceBack item =>
    refine Prog.Safe.bind (msmArrayPushBack_safe hp hSA hat (hpush rfl) fun m' h' p ha _ => ?_)
    exact hQ m' h' ha
  | pushScalar v =>
    refine Prog.Safe.bind (msmArrayPushBack_safe hp hSA hat (hpush rfl) fun m₁ h₁ p ha hp₁ => ?_)
    refine assign_safe ha.toPoint hSA hp₁ (hS.scalar v rfl) fun m' hp' => ?_
    exact hQ m' h₁ (ha.trans hp'.after)
  | pushString str =>
    refine Prog.Safe.bind (msmArrayPushBack_safe hp hSA hat (hpush rfl) fun m₁ h₁ p ha hp₁ => ?_)
    refine stringAssign_safe ha.toPoint hSA hp₁ (hS.chars _ rfl) (of_decide_eq_true hshare) ?_
    exact fun m' h' ha' => hQ m' h' (ha.trans ha')
  | @emplaceWith fs args =>
    refine Prog.Safe.bind (msmArrayPushBack_safe hp hSA hat (hpush rfl) fun m₁ h₁ p ha hp₁ => ?_)
    refine writeFields_safe args ha.toPoint hSA hp₁ (fun j t ht => ?_) hS.scalar fun m' hp' => ?_
    · rwa [Nat.zero_add]
    · exact hQ m' h₁ (ha.trans hp'.after)
  | @reserve item newCap =>
    obtain ⟨c, n, cap, hb⟩ := hat.buffer hp.store
    refine msmArrayReserve_safe hp hSA hat hb (fun _ => hQ m h (hstay m hp)) fun m' _ hp' _ => ?_
    exact hQ m' _ ⟨hp', Heap.extends_add _ (hp.store.fresh (Nat.le_refl _)), Nat.le_refl _⟩
  | clear => exact msmArrayClear_safe hp hSA hat fun m' hp' => hQ m' h (hstay m' hp')
  | destroy => cases hshare

/-- On a null view it does nothing, or ends the process. -/
theorem Op.safe_null {Q : Unit → Mem → Heap → Prop} (op : Op t) (hnull : op.nullOk = true)
    (hQ : Q () m h) : (op.code none).Safe (Moves S) F Q m h := by
  cases op with
  | assign v => cases hnull
  | setString str => cases str <;> exact hQ
  | pushScalar v => cases hnull
  | pushString str => cases str <;> exact hQ
  | @emplaceWith fs args =>
    cases args with
    | nil => exact hQ
    | cons v args => cases hnull
  | destroy => cases hnull
  | _ => exact hQ

end any
end Msm.Typed
