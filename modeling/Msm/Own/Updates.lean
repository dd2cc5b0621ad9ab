import Msm.Arr.Writer
import Msm.Own.Slots
import Msm.Rec.Lens

/-! # What the operations do to the slots they are called on

Each operation evolves its slot: a write inside plain bytes, the set and the clear
of a string, and of an array the clear, the reserve and the push. None of them
frees. A set or a reserve leaves the old buffer behind, and a push starts its
element anew, so what a slot owns later it owned before, or it is new. -/
namespace Msm.Own
open Msm.Exec Msm.CMem Msm.Api

/-! ## Programs that return -/

/-- If the program returns, `Q` holds of what it returns and of the memory. -/
def Ensures {α : Type} (p : CProg α) (m : Mem) (Q : α → Mem → Prop) : Prop :=
  p.Safe (fun _ _ _ _ _ => True) (fun _ _ _ => True) (fun x m' (_ : Unit) => Q x m') m ()

section ensures
variable {α β : Type} {p : CProg α} {m m' : Mem} {Q : α → Mem → Prop}

theorem Ensures.run (h : Ensures p m Q) {x : α} (hr : p.run m = .ok (x, m')) : Q x m' := by
  obtain ⟨_, hq, _⟩ := Prog.Safe.run_ok h hr
  exact hq

theorem Ensures.returned (h : Ensures p m Q) {x : α} (hr : CMem.returned p m = .ok x) :
    ∃ m', Q x m' := by
  cases hp : p.run m with
  | error f =>
    rw [CMem.returned, hp] at hr
    cases hr
  | ok y =>
    obtain ⟨y, m'⟩ := y
    rw [CMem.returned, hp] at hr
    cases hr
    exact ⟨m', h.run hp⟩

theorem Ensures.act {a : Act} {k : a.Res → CProg α} {r : a.Res} (he : m.exec a = .ok (r, m'))
    (hk : Ensures (k r) m' Q) : Ensures (Prog.act (M := cmachine) a k) m Q :=
  Prog.safe_act () he trivial hk

/-- The store that ends a program. -/
theorem Ensures.store {Q : Unit → Mem → Prop} {o : Order} {k : Kind} {v : k.Val} {a : Addr}
    (hv : m.Valid a k.size) (hQ : Q () (m.write a (k.encode v))) :
    Ensures (CMem.store o k (some a) v) m Q := .act (Mem.exec_store hv) hQ

/-- The program returns, and `Q` holds of what it returns and of the memory. -/
def Gives {α : Type} (p : CProg α) (m : Mem) (Q : α → Mem → Prop) : Prop :=
  p.Safe (fun _ _ _ _ _ => True) (fun _ _ _ => False) (fun x m' (_ : Unit) => Q x m') m ()

theorem Gives.ensures (h : Gives p m Q) : Ensures p m Q :=
  h.mono (fun _ _ _ _ _ => id) (fun _ _ _ hf => hf.elim) fun _ _ _ => id

theorem Gives.run (h : Gives p m Q) : ∃ x m', p.run m = .ok (x, m') ∧ Q x m' := by
  obtain ⟨x, m', _, hr, hq⟩ := h.run_total
  exact ⟨x, m', hr, hq⟩

theorem Gives.post {R : α → Mem → Prop} (h : Gives p m Q) (hQ : ∀ x m', Q x m' → R x m') :
    Gives p m R := Prog.Safe.post h fun x m' _ => hQ x m'

theorem Gives.act {a : Act} {k : a.Res → CProg α} {r : a.Res} (he : m.exec a = .ok (r, m'))
    (hk : Gives (k r) m' Q) : Gives (Prog.act (M := cmachine) a k) m Q :=
  Prog.safe_act () he trivial hk

theorem Gives.bind {f : α → CProg β} {R : β → Mem → Prop}
    (h : Gives p m fun x m₁ => Gives (f x) m₁ R) : Gives (p >>= f) m R := Prog.Safe.bind h

theorem Gives.store {Q : Unit → Mem → Prop} {o : Order} {k : Kind} {v : k.Val} {a : Addr}
    (hv : m.Valid a k.size) (hQ : Q () (m.write a (k.encode v))) :
    Gives (CMem.store o k (some a) v) m Q := .act (Mem.exec_store hv) hQ

/-- `m₁` is `m` with one more block, which is being filled. -/
def Adds (m m₁ : Mem) : Prop := m.Keeps m₁ ∧ m₁.sizeOf m.next ≠ none

/-- A write into the new block, if it does not fault. -/
theorem Ensures.fill {m₁ : Mem} {a : Act} {k : a.Res → CProg α} {o n : Nat} (h : Adds m m₁)
    (ha : a.range = some (⟨m.next, o⟩, n)) (hk : ∀ r m₂, Adds m m₂ → Ensures (k r) m₂ Q) :
    Ensures (Prog.act (M := cmachine) a k) m₁ Q := by
  cases he : m₁.exec a with
  | error f => exact Prog.safe_fault he trivial
  | ok r =>
    obtain ⟨x, m₂⟩ := r
    obtain ⟨cs, _, _, rfl⟩ := Mem.exec_write ha he
    refine .act he (hk x _ ⟨h.1.write (Nat.le_refl _), ?_⟩)
    rw [Mem.sizeOf_write]
    exact h.2

end ensures

/-! ## Plain bytes -/

/-- A write inside bytes that own nothing. -/
theorem Shape.Evolves.write {n d : Nat} {m : Mem} {a : Addr} {cs : List Cell}
    (h : (Shape.raw n).Held m a) (hd : d + cs.length ≤ n) :
    (Shape.raw n).Evolves a m (m.write (a + d) cs) := by
  have hnext : (m.write (a + d) cs).next = m.next := m.write_next (a + d) cs
  refine ⟨⟨m.sizeOf_write .., fun o ho => ?_, fun b _ hb _ => m.block_write_of_ne cs hb⟩,
    Nat.le_of_eq hnext.symm, ?_, fun b hb => .inl hb⟩
  · refine Mem.cellAt_write_of_not fun ⟨_, h1, h2⟩ => ho ?_
    rw [Addr.add_off] at h1 h2
    refine ⟨by omega, ?_⟩
    show o < a.off + n
    omega
  · exact ⟨(Mem.valid_write ..).mpr h.valid, trivial, h.nodup, h.apart⟩

theorem assign_evolves {v : Scalar} {m m' : Mem} {a : Addr} {x : Unit}
    (h : (Ty.prim v.prim).shape.Held m a) (hr : (v.assign (some a)).run m = .ok (x, m')) :
    (Ty.prim v.prim).shape.Evolves a m m' := by
  have hp := v.prim.payload_add
  have hsize : v.prim.payload + v.encode.length ≤ v.prim.size := by
    rw [v.length_encode]
    omega
  have hv : m.Valid (a + v.prim.payload) v.prim.kind.size := h.valid.mono (Nat.le_of_eq hp)
  rw [assign_run hv] at hr
  cases hr
  exact .write h hsize

/-! ## Strings -/

/-- The new buffer, if it can be filled, and nothing else. -/
theorem strBufNew_ensures {m : Mem} (str : CharPtr) (len : UInt32) (hm : m.mallocOk = true) :
    Ensures (strBufNew str len) m fun p m₁ => p = some ⟨m.next, 0⟩ ∧ Adds m m₁ := by
  have hs : (m.tick.alloc (8 + (len + 1).toNat)).sizeOf m.next ≠ none := by
    rw [← m.tick_next, Mem.sizeOf_alloc]
    exact Option.some_ne_none _
  have hadds : Adds m (m.tick.alloc (8 + (len + 1).toNat)) :=
    ⟨(Mem.Keeps.refl m).tick.alloc _, hs⟩
  refine .act (Mem.exec_malloc_ok hm) ?_
  refine .fill hadds rfl fun _ m₁ h₁ => .fill h₁ rfl fun _ m₂ h₂ => ?_
  have hend (m₃ : Mem) (h₃ : Adds m m₃) : Ensures
      (do store .plain .u8 (some ⟨m.next, 8 + len.toNat⟩) 0
          pure (some (⟨m.next, 0⟩ : Addr) : Ptr)) m₃
      fun p m₄ => p = some ⟨m.next, 0⟩ ∧ Adds m m₄ := by
    refine .fill h₃ rfl fun _ m₄ h₄ => ?_
    exact ⟨rfl, h₄⟩
  cases str with
  | null => exact .fill h₂ rfl fun _ m₃ h₃ => hend m₃ h₃
  | own bs => exact .fill h₂ rfl fun _ m₃ h₃ => hend m₃ h₃
  | shared a => exact .fill h₂ rfl fun _ m₃ h₃ => hend m₃ h₃

theorem clearString_evolves {m m' : Mem} {a : Addr} {x : Unit} (h : Ty.string.shape.Held m a)
    (hr : (msmStringClear (some a)).run m = .ok (x, m')) : Ty.string.shape.Evolves a m m' := by
  have hv : m.Valid (a + 8) Kind.ptr.size := Shape.Held.valid_ptr h
  rw [msmStringClear, if_neg (Option.some_ne_none a)] at hr
  have hstore : Ensures (store .release .ptr (some (a + 8)) none) m fun _ m₁ =>
      Ty.string.shape.Evolves a m m₁ := .store hv (.point h (.refl m) none fun b hb => by cases hb)
  exact hstore.run hr

theorem setString_evolves {m m' : Mem} {a : Addr} {str : CharPtr} {len : UInt32} {x : Unit}
    (h : Ty.string.shape.Held m a) (hm : m.mallocOk = true)
    (hr : (msmStringSet (some a) str len).run m = .ok (x, m')) :
    Ty.string.shape.Evolves a m m' := by
  rw [msmStringSet, if_neg (Option.some_ne_none a)] at hr
  simp only at hr
  generalize (if str = .null then 0 else len) = n at hr
  split at hr
  · refine clearString_evolves h (x := x) ?_
    rw [msmStringClear, if_neg (Option.some_ne_none a)]
    exact hr
  · obtain ⟨p, m₁, hnew, hr⟩ := Prog.run_of_bind hr
    obtain ⟨rfl, hk, hs⟩ := (strBufNew_ensures str n hm).run hnew
    have hv : m₁.Valid (a + 8) Kind.ptr.size := hk.valid (Shape.Held.valid_ptr h)
    have hbody : Body.bytes.Held m₁ m.next := ⟨hs, List.nodup_nil, List.not_mem_nil⟩
    have hstore : Ensures (store .release .ptr (some (a + 8)) (basePtr (some m.next))) m₁
        fun _ m₂ => Ty.string.shape.Evolves a m m₂ :=
      .store hv (.point h hk (some m.next) fun b hb => by
        cases hb
        exact ⟨hbody, Nat.le_refl _, fun d hd => by cases hd⟩)
    exact hstore.run hr

/-! ## Arrays -/

/-- The buffer of an array slot and what its header says, zeros without a buffer. -/
structure BufferAt (m : Mem) (a : Addr) (w : Nat) (c : Option Nat) (n cap : UInt32) : Prop where
  load : m.load .ptr (a + 8) = some (basePtr c)
  empty : c = none → n = 0 ∧ cap = 0
  buffer : ∀ b, c = some b → BufferOk m b w n cap

section arrays
variable {α : Type} {s : Shape} {m : Mem} {a : Addr} {w : Nat} {c : Option Nat} {n cap : UInt32}
  {Q : α → Mem → Prop}

theorem Shape.Held.bufferAt (h : (Shape.box (items s)).Held m a) :
    ∃ n cap, BufferAt m a s.size (Shape.pointee m a) n cap := by
  cases hp : Shape.pointee m a with
  | none =>
    have hl := h.ok.1
    rw [hp] at hl
    exact ⟨0, 0, hl, fun _ => ⟨rfl, rfl⟩, fun b hb => by cases hb⟩
  | some b =>
    have hl := h.ok.1
    rw [hp] at hl
    obtain ⟨n, cap, hbuf⟩ := (h.body hp).1.ok.1
    refine ⟨n, cap, hl, (fun hc => by cases hc), fun d hd => ?_⟩
    cases hd
    exact hbuf

theorem BufferAt.le (h : BufferAt m a w c n cap) : n.toNat ≤ cap.toNat := by
  cases c with
  | none =>
    obtain ⟨rfl, rfl⟩ := h.empty rfl
    exact Nat.le_refl _
  | some b => exact (h.buffer b rfl).le

theorem BufferAt.small (h : BufferAt m a w c n cap) : n.toNat * w < 2 ^ 32 := by
  cases c with
  | none =>
    obtain ⟨rfl, _⟩ := h.empty rfl
    rw [UInt32.toNat_zero, Nat.zero_mul]
    decide
  | some b => exact (h.buffer b rfl).small

theorem BufferAt.loadSize (h : BufferAt m a w c n cap) {o : Order} {k : UInt32 → CProg α}
    (hk : Ensures (k n) m Q) : Ensures (if basePtr c = none then pure 0 >>= k
      else arrBufSize (basePtr c) o >>= k) m Q := by
  cases c with
  | none =>
    obtain ⟨rfl, _⟩ := h.empty rfl
    exact hk
  | some b => exact .act (Mem.exec_load (h.buffer b rfl).load_size) hk

theorem BufferAt.givesSize (h : BufferAt m a w c n cap) {o : Order} {k : UInt32 → CProg α}
    (hk : Gives (k n) m Q) : Gives (if basePtr c = none then pure 0 >>= k
      else arrBufSize (basePtr c) o >>= k) m Q := by
  cases c with
  | none =>
    obtain ⟨rfl, _⟩ := h.empty rfl
    exact hk
  | some b => exact .act (Mem.exec_load (h.buffer b rfl).load_size) hk

theorem BufferAt.givesCap (h : BufferAt m a w c n cap) {k : UInt32 → CProg α}
    (hk : Gives (k cap) m Q) : Gives (if basePtr c = none then pure 0 >>= k
      else arrBufCap (basePtr c) >>= k) m Q := by
  cases c with
  | none =>
    obtain ⟨_, rfl⟩ := h.empty rfl
    exact hk
  | some b => exact .act (Mem.exec_load (h.buffer b rfl).load_cap) hk

/-- A new buffer with room for `cap` items, and the `n` items of the old one in it. -/
structure Grown (s : Shape) (m : Mem) (a : Addr) (n cap : UInt32) (m₁ : Mem) : Prop where
  keeps : m.Keeps m₁
  buffer : BufferOk m₁ m.next s.size n cap
  held : (items s).Held m₁ m.next
  blocks : ∀ d ∈ (items s).blocks m₁ m.next, d ∈ (Shape.box (items s)).blocks m a

theorem Grown.of_row {m₁ : Mem} (hk : m.Keeps m₁) (hbuf : BufferOk m₁ m.next s.size n cap)
    (hrow : (s.rep n.toNat).Held m₁ ⟨m.next, 8⟩)
    (hsub : ∀ d ∈ (s.rep n.toNat).blocks m₁ ⟨m.next, 8⟩, d ∈ (Shape.box (items s)).blocks m a) :
    Grown s m a n cap m₁ := by
  obtain ⟨hheld, hblocks⟩ := items_held hbuf hrow
  refine ⟨hk, hbuf, hheld, fun d hd => hsub d ?_⟩
  rwa [← hblocks]

/-- The buffer is published. -/
theorem Grown.publish {m₁ : Mem} (hg : Grown s m a n cap m₁) (h : (Shape.box (items s)).Held m a) :
    (Shape.box (items s)).Evolves a m (m₁.write (a + 8) (Kind.ptr.encode (basePtr (some m.next)))) ∧
      BufferAt (m₁.write (a + 8) (Kind.ptr.encode (basePtr (some m.next)))) a s.size (some m.next)
        n cap := by
  have hv : m₁.Valid (a + 8) Kind.ptr.size := hg.keeps.valid h.valid_ptr
  have hne : m.next ≠ a.block := (Nat.ne_of_lt h.valid.lt).symm
  refine ⟨.point h hg.keeps (some m.next) fun b hb => ?_, ?_, (fun hc => by cases hc),
    fun b hb => ?_⟩
  · cases hb
    exact ⟨hg.held, Nat.le_refl _, fun d hd => .inl (hg.blocks d hd)⟩
  · exact Mem.load_write_same (k := .ptr) (basePtr (some m.next)) hv
  · cases hb
    exact hg.buffer.of_block (m₁.block_write_of_ne _ hne)

theorem BufferOk.of_newBuffer {size : Nat} {newCap : UInt32} {m₁ : Mem}
    (hnew : m.NewBuffer size n newCap m₁) (hsize : size = 8 + newCap.toNat * (w % 2 ^ 32))
    (hle : n.toNat ≤ newCap.toNat) (hsmall : n.toNat * w < 2 ^ 32) :
    BufferOk m₁ m.next w n newCap where
  load_size := hnew.load_count
  load_cap := hnew.load_cap
  le := hle
  room := ⟨size, hnew.sizeOf, Nat.le_of_eq (by rw [hsize, Nat.zero_add])⟩
  small := hsmall

/-- A write behind the header of a buffer. -/
theorem BufferOk.write_items {b d : Nat} {cs : List Cell} (h : BufferOk m b w n cap) (hd : 8 ≤ d) :
    BufferOk (m.write ⟨b, d⟩ cs) b w n cap where
  load_size := (Mem.load_write_apart fun _ => .inr (by simp only [Kind.size]; omega)).trans
    h.load_size
  load_cap := (Mem.load_write_apart fun _ => .inr (by simp only [Kind.size]; omega)).trans
    h.load_cap
  le := h.le
  room := (Mem.valid_write ..).mpr h.room
  small := h.small

/-- A reserve leaves the slot alone, or points it to a larger buffer with a copy of
the bytes of its items. -/
theorem msmArrayReserve_gives {itemSize newCap : UInt32} {Q : Unit → Mem → Prop}
    (h : (Shape.box (items s)).Held m a) (hb : BufferAt m a s.size (Shape.pointee m a) n cap)
    (hw : itemSize.toNat = s.size % 2 ^ 32) (hm : m.mallocOk = true)
    (hsame : itemSize = 0 ∨ newCap ≤ cap → Q () m)
    (hgrow : ∀ m₁, cap < newCap → Grown s m a n newCap m₁ →
      (∀ b, Shape.pointee m a = some b →
        m₁.read ⟨m.next, 8⟩ (n.toNat * s.size) = m.read ⟨b, 8⟩ (n.toNat * s.size)) →
      Q () (m₁.write (a + 8) (Kind.ptr.encode (basePtr (some m.next))))) :
    Gives (msmArrayReserve (some a) newCap itemSize) m Q := by
  by_cases h0 : itemSize = 0
  · simp only [msmArrayReserve, h0, or_true, if_true]
    exact hsame (.inl h0)
  simp only [msmArrayReserve, reduceCtorEq, h0, or_self, if_false]
  refine .act (Mem.exec_load hb.load) (hb.givesCap ?_)
  by_cases hcap : newCap ≤ cap
  · rw [if_pos hcap]
    exact hsame (.inr hcap)
  rw [if_neg hcap]
  refine hb.givesSize ?_
  simp only [malloc_bind, memset0_bind, arrBufSetSize, arrBufSetCap, atomicStoreU32, store_bind,
    arrBufHeader]
  refine .act (Mem.exec_malloc_ok hm) ?_
  have hle := hb.le
  rw [UInt32.le_iff_toNat_le, Nat.not_le] at hcap
  refine newBuffer_safe (fun _ _ _ _ _ _ _ => trivial) (Nat.le_add_right 8 _) fun m₁ hnew => ?_
  have hbuf : BufferOk m₁ m.next s.size n newCap :=
    .of_newBuffer hnew (by rw [hw]) (by omega) hb.small
  have hpublish (m₂ : Mem) (hg : Grown s m a n newCap m₂)
      (hread : ∀ b, Shape.pointee m a = some b →
        m₂.read ⟨m.next, 8⟩ (n.toNat * s.size) = m.read ⟨b, 8⟩ (n.toNat * s.size)) :
      Gives (atomicStorePtr (some a + 8) (some ⟨m.next, 0⟩) .release) m₂ Q :=
    .store (hg.keeps.valid h.valid_ptr) (hgrow m₂ (UInt32.lt_iff_toNat_lt.mpr hcap) hg hread)
  by_cases hcopy : basePtr (Shape.pointee m a) ≠ none ∧ 0 < n
  · rw [if_pos hcopy]
    obtain ⟨b, hp⟩ := Option.ne_none_iff_exists'.mp fun hp => hcopy.1 (congrArg basePtr hp)
    have hold := hb.buffer b hp
    have hrow := items_row (h.body hp).1
    rw [hold.count_eq] at hrow
    have hstride : itemSize.toNat = s.size :=
      hw.trans (hold.stride (UInt32.lt_iff_toNat_lt.mp hcopy.2))
    have hsrc : m.Valid ⟨b, 8⟩ (n.toNat * s.size) := hold.elements
    have hdst : m₁.Valid ⟨m.next, 8⟩ (n.toNat * s.size) := hbuf.elements
    have hread : m₁.read ⟨b, 8⟩ (n.toNat * s.size) = m.read ⟨b, 8⟩ (n.toNat * s.size) :=
      Mem.read_congr fun o _ _ => hnew.keeps.cellAt_eq hsrc.lt o
    have hcopied : m.Keeps (m₁.write ⟨m.next, 8⟩ (m₁.read ⟨b, 8⟩ (n.toNat * s.size))) :=
      hnew.keeps.write (Nat.le_refl _)
    have hcopy : (m₁.write ⟨m.next, 8⟩ (m₁.read ⟨b, 8⟩ (n.toNat * s.size))).read ⟨m.next, 8⟩
        (n.toNat * s.size) = m.read ⟨b, 8⟩ (n.toNat * s.size) := by
      rw [Mem.read_write_all hdst (m₁.length_read ..), hread]
    have hmoved := hrow.moved (c := ⟨m.next, 8⟩) hcopied
      (by rw [Shape.size_rep]; exact (Mem.valid_write ..).mpr hdst)
      (by rw [Shape.size_rep]; exact hcopy) (Nat.le_refl _)
    have hgrown : Grown s m a n newCap
        (m₁.write ⟨m.next, 8⟩ (m₁.read ⟨b, 8⟩ (n.toNat * s.size))) := by
      refine .of_row hcopied (hbuf.write_items (Nat.le_refl 8)) hmoved.1 fun d hd => ?_
      rw [hmoved.2] at hd
      rw [Shape.blocks_box_some hp, (items_held hold hrow).2]
      exact List.mem_append_left _ hd
    rw [hp, hstride]
    refine Gives.act (Mem.exec_memcpy hdst (hnew.keeps.valid hsrc)) (hpublish _ hgrown ?_)
    intro c hc
    obtain rfl : b = c := Option.some.inj (hp.symm.trans hc)
    exact hcopy
  · rw [if_neg hcopy]
    have hzero : n.toNat = 0 := by
      cases hp : Shape.pointee m a with
      | none => rw [(hb.empty hp).1, UInt32.toNat_zero]
      | some b =>
        rw [hp, UInt32.lt_iff_toNat_lt, UInt32.toNat_zero] at hcopy
        exact Nat.eq_zero_of_not_pos fun hpos => hcopy ⟨Option.some_ne_none _, hpos⟩
    have hrow : (s.rep n.toNat).Held m₁ ⟨m.next, 8⟩ := by
      rw [hzero]
      exact Shape.held_none (hbuf.elements.le (Nat.zero_le _))
    refine hpublish m₁ (.of_row hnew.keeps hbuf hrow fun d hd => ?_) fun b _ => ?_
    · rw [hzero] at hd
      cases hd
    · rw [hzero, Nat.zero_mul]
      rfl

theorem msmArrayReserve_ensures {itemSize newCap : UInt32} {Q : Unit → Mem → Prop}
    (h : (Shape.box (items s)).Held m a) (hb : BufferAt m a s.size (Shape.pointee m a) n cap)
    (hw : itemSize.toNat = s.size % 2 ^ 32) (hm : m.mallocOk = true)
    (hsame : itemSize = 0 ∨ newCap ≤ cap → Q () m)
    (hgrow : ∀ m₁, cap < newCap → Grown s m a n newCap m₁ →
      Q () (m₁.write (a + 8) (Kind.ptr.encode (basePtr (some m.next))))) :
    Ensures (msmArrayReserve (some a) newCap itemSize) m Q :=
  (msmArrayReserve_gives h hb hw hm hsame fun m₁ hlt hg _ => hgrow m₁ hlt hg).ensures

theorem reserve_evolves {itemSize newCap : UInt32} {m' : Mem} {x : Unit}
    (h : (Shape.box (items s)).Held m a) (hw : itemSize.toNat = s.size % 2 ^ 32)
    (hm : m.mallocOk = true) (hr : (msmArrayReserve (some a) newCap itemSize).run m = .ok (x, m')) :
    (Shape.box (items s)).Evolves a m m' := by
  obtain ⟨n, cap, hb⟩ := h.bufferAt
  have hreserve : Ensures (msmArrayReserve (some a) newCap itemSize) m fun _ m' =>
      (Shape.box (items s)).Evolves a m m' :=
    msmArrayReserve_ensures h hb hw hm (fun _ => .refl h) fun m₁ _ hg => (hg.publish h).1
  exact hreserve.run hr

/-! ### The size -/

/-- The store of another size. -/
theorem BufferOk.write_size {b : Nat} {k : UInt32} (h : BufferOk m b w n cap)
    (hle : k.toNat ≤ cap.toNat) (hsmall : k.toNat * w < 2 ^ 32) :
    BufferOk (m.write ⟨b, 0⟩ (Kind.u32.encode k)) b w k cap where
  load_size := Mem.load_write_same (k := .u32) k (Mem.load_valid h.load_size)
  load_cap := (Mem.load_write_apart fun _ => .inl (by simp [Kind.size])).trans h.load_cap
  le := hle
  room := (Mem.valid_write ..).mpr h.room
  small := hsmall

/-- The items are dropped. -/
theorem items_drop {b : Nat} (hbuf : BufferOk m b s.size n cap) :
    (items s).Evolves b m (m.write ⟨b, 0⟩ (Kind.u32.encode 0)) := by
  have hempty : (0 : UInt32).toNat * s.size < 2 ^ 32 := by
    rw [UInt32.toNat_zero, Nat.zero_mul]
    decide
  have hbuf' := hbuf.write_size (k := 0) (Nat.zero_le _) hempty
  have hrow : (s.rep (0 : UInt32).toNat).Held (m.write ⟨b, 0⟩ (Kind.u32.encode 0)) ⟨b, 8⟩ :=
    Shape.held_none (hbuf'.elements.le (Nat.zero_le _))
  obtain ⟨hheld, hblocks⟩ := items_held hbuf' hrow
  refine ⟨fun d _ hne _ => m.block_write_of_ne _ hne, Nat.le_of_eq (m.write_next _ _).symm, hheld,
    fun d hd => ?_⟩
  rw [hblocks] at hd
  cases hd

theorem clear_evolves {m' : Mem} {x : Unit} (h : (Shape.box (items s)).Held m a)
    (hr : (msmArrayClear (some a)).run m = .ok (x, m')) : (Shape.box (items s)).Evolves a m m' := by
  obtain ⟨n, cap, hb⟩ := h.bufferAt
  have hclear : Ensures (msmArrayClear (some a)) m fun _ m' =>
      (Shape.box (items s)).Evolves a m m' := by
    rw [msmArrayClear, if_neg (Option.some_ne_none a)]
    refine .act (Mem.exec_load hb.load) ?_
    cases hp : Shape.pointee m a with
    | none => exact .refl h
    | some b =>
      have hbuf := hb.buffer b hp
      exact .store (Mem.load_valid hbuf.load_size) (.box h hp (items_drop hbuf))
  exact hclear.run hr

/-- The item behind the last one is in the buffer. -/
theorem BufferOk.next_item {b : Nat} (h : BufferOk m b w n cap) (hlt : n.toNat < cap.toNat)
    (hsmall : (n.toNat + 1) * w < 2 ^ 32) : m.Valid ⟨b, 8 + n.toNat * w⟩ w := by
  have hw : w % 2 ^ 32 = w := by
    have := Nat.le_mul_of_pos_left w (Nat.succ_pos n.toNat)
    exact Nat.mod_eq_of_lt (Nat.lt_of_le_of_lt this hsmall)
  have hroom := Nat.mul_le_mul_right w (Nat.succ_le_of_lt hlt)
  rw [Nat.succ_mul] at hroom
  have hitem := h.room.mono (d := 8 + n.toNat * w) (k := w) (by rw [hw]; omega)
  rwa [Addr.mk_add, Nat.zero_add] at hitem

/-- A zero item is appended: it owns nothing. -/
theorem items_append {b : Nat} (h : (items s).Held m b) (hbuf : BufferOk m b s.size n cap)
    (hlt : n.toNat < cap.toNat) (hsmall : (n.toNat + 1) * s.size < 2 ^ 32) :
    (items s).Evolves b m
      ((m.write ⟨b, 8 + n.toNat * s.size⟩ (List.replicate s.size (.byte 0))).write ⟨b, 0⟩
        (Kind.u32.encode (n + 1))) := by
  have hn : (n + 1).toNat = n.toNat + 1 := by
    have := cap.toNat_lt
    rw [UInt32.toNat_add, UInt32.toNat_one, Nat.mod_eq_of_lt (by omega)]
  have hv := hbuf.next_item hlt hsmall
  let m₁ := m.write ⟨b, 8 + n.toNat * s.size⟩ (List.replicate s.size (.byte 0))
  let m₂ := m₁.write ⟨b, 0⟩ (Kind.u32.encode (n + 1))
  have hhead : (Kind.u32.encode (n + 1)).length = 4 := Kind.length_encode .u32 _
  have hbuf₁ : BufferOk m₁ b s.size n cap := hbuf.write_items (Nat.le_add_right 8 _)
  have hbuf₂ : BufferOk m₂ b s.size (n + 1) cap :=
    hbuf₁.write_size (by omega) (by rw [hn]; exact hsmall)
  have hother {d : Nat} (hd : d ≠ b) : m₂.block d = m.block d :=
    (m₁.block_write_of_ne _ hd).trans (m.block_write_of_ne _ hd)
  have hsize : m₂.sizeOf b = m.sizeOf b := (m₁.sizeOf_write ..).trans (m.sizeOf_write ..)
  have hrow := items_row h
  rw [hbuf.count_eq] at hrow
  -- the items that are there keep their bytes and their blocks
  have hrow₂ : (s.rep n.toNat).Held m₂ ⟨b, 8⟩ ∧
      (s.rep n.toNat).blocks m₂ ⟨b, 8⟩ = (s.rep n.toNat).blocks m ⟨b, 8⟩ := by
    refine hrow.frame hsize (fun o h1 h2 => ?_) fun d hd => hother ?_
    · rw [Shape.size_rep] at h2
      simp only at h1 h2
      rw [Mem.cellAt_write_of_not, Mem.cellAt_write_of_not]
      · rintro ⟨_, h3, _⟩
        simp only at h3
        omega
      · rw [hhead]
        rintro ⟨_, _, h3⟩
        simp only at h3
        omega
    · rintro rfl
      exact hrow.apart hd
  have hnew : s.Held m₂ ⟨b, 8 + n.toNat * s.size⟩ ∧ s.blocks m₂ ⟨b, 8 + n.toNat * s.size⟩ = [] := by
    refine Shape.held_zero ?_ ?_
    · exact (Mem.valid_write ..).mpr ((Mem.valid_write ..).mpr hv)
    · have hread : m₁.read ⟨b, 8 + n.toNat * s.size⟩ s.size = List.replicate s.size (.byte 0) :=
        Mem.read_write_all hv List.length_replicate
      refine (Mem.read_write_apart fun _ => .inl ?_).trans hread
      rw [hhead]
      simp only
      omega
  obtain ⟨hboth, hrows⟩ := hrow₂.1.snoc hnew.1 hnew.2
  rw [← hn] at hboth hrows
  obtain ⟨hheld, hblocks⟩ := items_held hbuf₂ hboth
  refine ⟨fun d _ hne _ => hother hne, ?_, hheld, fun d hd => .inl ?_⟩
  · exact Nat.le_of_eq ((m₁.write_next _ _).trans (m.write_next _ _)).symm
  · rw [hblocks, hrows, hrow₂.2] at hd
    rwa [(items_held hbuf hrow).2]

/-! ### Push -/

/-- What `prepare_push` leaves: a buffer with room, and the item behind the last
one is zero. -/
def Prepared (s : Shape) (m : Mem) (a : Addr) (n : UInt32) (p : Ptr) (m' : Mem) : Prop :=
  ∃ m₁ b cap, (Shape.box (items s)).Evolves a m m₁ ∧ BufferAt m₁ a s.size (some b) n cap ∧
    n.toNat < cap.toNat ∧ p = some ⟨b, 8 + n.toNat * s.size⟩ ∧
    m' = m₁.write ⟨b, 8 + n.toNat * s.size⟩ (List.replicate s.size (.byte 0))

/-- The slot at `a` has a buffer with the bytes of the `n` items it had, and no
other block has changed. -/
structure Carried (s : Shape) (m : Mem) (a : Addr) (n : UInt32) (m' : Mem) : Prop where
  others : ∀ d, d < m.next → d ≠ a.block → m'.block d = m.block d
  row : ∀ b c, Shape.pointee m a = some b → Shape.pointee m' a = some c →
    m'.read ⟨c, 8⟩ (n.toNat * s.size) = m.read ⟨b, 8⟩ (n.toNat * s.size)

theorem Carried.refl (s : Shape) (m : Mem) (a : Addr) (n : UInt32) : Carried s m a n m where
  others _ _ _ := rfl
  row b c hb hc := by
    obtain rfl : b = c := Option.some.inj (hb.symm.trans hc)
    rfl

/-- A larger buffer with a copy of the bytes has been published. -/
theorem Carried.publish {m₁ : Mem} (h : (Shape.box (items s)).Held m a)
    (hg : Grown s m a n cap m₁)
    (hread : ∀ b, Shape.pointee m a = some b →
      m₁.read ⟨m.next, 8⟩ (n.toNat * s.size) = m.read ⟨b, 8⟩ (n.toNat * s.size)) :
    Carried s m a n (m₁.write (a + 8) (Kind.ptr.encode (basePtr (some m.next)))) := by
  have hother {d : Nat} (hne : d ≠ a.block) :
      (m₁.write (a + 8) (Kind.ptr.encode (basePtr (some m.next)))).block d = m₁.block d :=
    m₁.block_write_of_ne (a := a + 8) _ hne
  have hload := Mem.load_write_same (k := .ptr) (basePtr (some m.next))
    (hg.keeps.valid h.valid_ptr)
  refine ⟨fun d hd hne => (hother hne).trans (hg.keeps.block_eq d hd), fun b c hb hc => ?_⟩
  obtain rfl : m.next = c := Option.some.inj ((Shape.pointee_of_load hload).symm.trans hc)
  have hne : m.next ≠ a.block := (Nat.ne_of_lt h.valid.lt).symm
  exact (Mem.read_congr fun o _ _ => Mem.cellAt_of_block (hother hne) o).trans (hread b hb)

/-- `prepare_push` leaves the items as they are and zeroes the one behind them. -/
theorem msmArrayPreparePush_gives {itemSize : UInt32} (h : (Shape.box (items s)).Held m a)
    (hb : BufferAt m a s.size (Shape.pointee m a) n cap) (hw : itemSize.toNat = s.size)
    (h8 : 8 ≤ s.size) (hsmall : (n.toNat + 1) * s.size < 2 ^ 32) (hm : m.mallocOk = true) :
    Gives (msmArrayPreparePush (some a) itemSize) m fun p m' => ∃ m₁ b cap₁,
      (Shape.box (items s)).Evolves a m m₁ ∧ Carried s m a n m₁ ∧
      BufferAt m₁ a s.size (some b) n cap₁ ∧ n.toNat < cap₁.toNat ∧
      p = some ⟨b, 8 + n.toNat * s.size⟩ ∧
      m' = m₁.write ⟨b, 8 + n.toNat * s.size⟩ (List.replicate s.size (.byte 0)) := by
  have h0 : itemSize ≠ 0 := by
    rintro rfl
    rw [UInt32.toNat_zero] at hw
    omega
  have hle := hb.le
  have hzero {m₁ : Mem} {b : Nat} {cap₁ : UInt32} (he : (Shape.box (items s)).Evolves a m m₁)
      (hc : Carried s m a n m₁) (hb₁ : BufferAt m₁ a s.size (some b) n cap₁)
      (hlt : n.toNat < cap₁.toNat) : Gives (do
        memset0 (arrBufData (some ⟨b, 0⟩) + n.toNat * itemSize.toNat) itemSize.toNat
        pure (arrBufData (some ⟨b, 0⟩) + n.toNat * itemSize.toNat)) m₁ fun p m' =>
      ∃ m₁ b cap₁, (Shape.box (items s)).Evolves a m m₁ ∧ Carried s m a n m₁ ∧
        BufferAt m₁ a s.size (some b) n cap₁ ∧ n.toNat < cap₁.toNat ∧
        p = some ⟨b, 8 + n.toNat * s.size⟩ ∧
        m' = m₁.write ⟨b, 8 + n.toNat * s.size⟩ (List.replicate s.size (.byte 0)) := by
    rw [hw]
    refine .act (Mem.exec_zero ((hb₁.buffer b rfl).next_item hlt hsmall)) ?_
    exact ⟨m₁, b, cap₁, he, hc, hb₁, hlt, rfl, rfl⟩
  simp only [msmArrayPreparePush, reduceCtorEq, h0, or_self, if_false]
  refine .act (Mem.exec_load hb.load) (hb.givesSize (hb.givesCap ?_))
  split
  · rename_i hfull
    have hcap : cap.toNat = n.toNat := by
      rcases hfull with hp | hle'
      · have hp' : Shape.pointee m a = none := by
          cases hc : Shape.pointee m a with
          | none => rfl
          | some b => rw [hc] at hp; cases hp
        obtain ⟨rfl, rfl⟩ := hb.empty hp'
        rfl
      · rw [UInt32.le_iff_toNat_le] at hle'
        omega
    have hgrows : cap < if cap = 0 then 8 else cap * 2 := by
      have hlt : cap.toNat < 2 ^ 31 := by
        have := Nat.mul_le_mul_left (n.toNat + 1) h8
        omega
      have hle := (Arr.doubled_le_iff cap.toNat_lt).not.mpr (by omega)
      rw [UInt32.ofNat_toNat, Nat.not_le] at hle
      exact UInt32.lt_iff_toNat_lt.mpr hle
    have hw' : itemSize.toNat = s.size % 2 ^ 32 := by
      rw [← hw, Nat.mod_eq_of_lt itemSize.toNat_lt]
    refine .bind (msmArrayReserve_gives h hb hw' hm (fun hsame => ?_) fun m₁ _ hg hread => ?_)
    · rcases hsame with h | h
      · exact absurd h h0
      · exact absurd hgrows (UInt32.not_lt.mpr h)
    · obtain ⟨he, hb₁⟩ := hg.publish h
      rw [UInt32.lt_iff_toNat_lt, hcap] at hgrows
      refine Gives.act (Mem.exec_load hb₁.load) ?_
      exact hzero he (.publish h hg hread) hb₁ hgrows
  · rename_i hroom
    rw [not_or, UInt32.le_iff_toNat_le, Nat.not_le] at hroom
    obtain ⟨b, hp⟩ := Option.ne_none_iff_exists'.mp fun hp => hroom.1 (congrArg basePtr hp)
    rw [hp] at hb ⊢
    exact hzero (.refl h) (.refl s m a n) hb hroom.2

theorem msmArrayPreparePush_ensures {itemSize : UInt32} (h : (Shape.box (items s)).Held m a)
    (hb : BufferAt m a s.size (Shape.pointee m a) n cap) (hw : itemSize.toNat = s.size)
    (h8 : 8 ≤ s.size) (hsmall : (n.toNat + 1) * s.size < 2 ^ 32) (hm : m.mallocOk = true) :
    Ensures (msmArrayPreparePush (some a) itemSize) m (Prepared s m a n) := by
  refine ((msmArrayPreparePush_gives h hb hw h8 hsmall hm).post fun p m' hq => ?_).ensures
  obtain ⟨m₁, b, cap₁, he, -, hrest⟩ := hq
  exact ⟨m₁, b, cap₁, he, hrest⟩

theorem push_evolves {itemSize : UInt32} {m' : Mem} {p : Ptr} (h : (Shape.box (items s)).Held m a)
    (hb : BufferAt m a s.size (Shape.pointee m a) n cap) (hw : itemSize.toNat = s.size)
    (h8 : 8 ≤ s.size) (hsmall : (n.toNat + 1) * s.size < 2 ^ 32) (hm : m.mallocOk = true)
    (hr : (msmArrayPushBack (some a) itemSize).run m = .ok (p, m')) :
    (Shape.box (items s)).Evolves a m m' := by
  obtain ⟨p, m₂, hprepare, hr⟩ := Prog.run_of_bind hr
  obtain ⟨m₁, b, cap₁, he, hb₁, hlt, rfl, rfl⟩ :=
    (msmArrayPreparePush_ensures h hb hw h8 hsmall hm).run hprepare
  have hp : Shape.pointee m₁ a = some b := Shape.pointee_of_load hb₁.load
  obtain ⟨hbody, hne, _⟩ := he.held.body hp
  have hbuf := hb₁.buffer b rfl
  have hload : (m₁.write ⟨b, 8 + n.toNat * s.size⟩ (List.replicate s.size (.byte 0))).load .ptr
      (a + 8) = some (some ⟨b, 0⟩) :=
    (Mem.load_of_block (a := a + 8) (m₁.block_write_of_ne _ hne)).trans hb₁.load
  have hbuf₂ : BufferOk (m₁.write ⟨b, 8 + n.toNat * s.size⟩ (List.replicate s.size (.byte 0)))
      b s.size n cap₁ := hbuf.write_items (Nat.le_add_right 8 _)
  have hcommit : Ensures (msmArrayCommitPush (some a))
      (m₁.write ⟨b, 8 + n.toNat * s.size⟩ (List.replicate s.size (.byte 0)))
      fun _ m' => (Shape.box (items s)).Evolves a m m' := by
    rw [msmArrayCommitPush, if_neg (Option.some_ne_none a)]
    refine .act (Mem.exec_load hload) (.act (Mem.exec_load hbuf₂.load_size) ?_)
    refine .store (Mem.load_valid hbuf₂.load_size) (he.trans ?_)
    exact .box he.held hp (items_append hbody hbuf hlt hsmall)
  obtain ⟨_, m₃, hrun, hr⟩ := Prog.run_of_bind hr
  cases hr
  exact hcommit.run hrun

end arrays
end Msm.Own
