import Msm.Api.Array
import Msm.Arr.Buffer
import Msm.CMem.NewBuffer

/-! # The steps of the array writer

Each writer function is safe for the moves of its own call: reserve publishes a
grown copy, prepare_push zeroes element `size` and marks it as being filled,
commit_push commits it and clear takes every element back. The only fault is
prepare_push on a full buffer that could not grow. -/
namespace Msm.Arr
open Msm.Exec Msm.CMem Msm.Api

inductive Op where
  | reserve | prepare | fill | commit | clear
deriving DecidableEq

/-- The moves of one call. A push under way is filled or committed, nothing
else; what ends or begins one is the last move of its call. -/
def Op.Allowed {n : Nat} (g g' : State n) : Op → Prop
  | .reserve => (cur g).filling = false ∧ (g' = g ∨ Publish g g')
  | .prepare => (cur g).filling = false ∧
      (g' = g ∨ Publish g g' ∨ ∃ v h, Update g g' ((cur g).touch v h))
  | .fill => (cur g).filling = true ∧ ∃ v h, Update g g' ((cur g).touch v h)
  | .commit => (cur g).filling = true ∧ (g' = g ∨ ∃ h, Update g g' ((cur g).commit h))
  | .clear => (cur g).filling = false ∧ (g' = g ∨ Update g g' (cur g).clear)

theorem Op.Allowed.move {n : Nat} {g g' : State n} {o : Op} (h : o.Allowed g g') : Move g g' := by
  cases o with
  | reserve =>
    rcases h.2 with rfl | hp
    · exact .same
    · exact .publish hp
  | prepare =>
    rcases h.2 with rfl | hp | ⟨v, hx, hu⟩
    · exact .same
    · exact .publish hp
    · exact .touch v hx hu
  | fill =>
    obtain ⟨_, v, hx, hu⟩ := h
    exact .touch v hx hu
  | commit =>
    rcases h.2 with rfl | ⟨hf, hu⟩
    · exact .same
    · exact .commit hf hu
  | clear =>
    rcases h.2 with rfl | hu
    · exact .same
    · exact .clear h.1 hu

theorem Op.Allowed.grows {n : Nat} {g g' : State n} {o : Op} (h : o.Allowed g g')
    (ho : o ≠ .clear) : Grows g g' := by
  cases o with
  | reserve =>
    rcases h.2 with rfl | hp
    · exact .refl _
    · exact hp.grows
  | prepare =>
    rcases h.2 with rfl | hp | ⟨v, hx, hu⟩
    · exact .refl _
    · exact hp.grows
    · exact hu.touch_grows
  | fill =>
    obtain ⟨_, v, hx, hu⟩ := h
    exact hu.touch_grows
  | commit =>
    rcases h.2 with rfl | ⟨hf, hu⟩
    · exact .refl _
    · exact hu.commit_grows
  | clear => exact absurd rfl ho

/-- The contract of one writer step. -/
def T (slot : Addr) (n : Nat) (o : Op) (g : State n) (m : Mem) (_ : Act) (m' : Mem)
    (g' : State n) : Prop :=
  Inv slot n m g → Inv slot n m' g' ∧ o.Allowed g g'

section safe
variable {slot : Addr} {n : Nat} {o : Op} {m : Mem} {g : State n} {α : Type}
  {F : Fault → Mem → State n → Prop} {Q : α → Mem → State n → Prop}

theorem T_fresh (h : Inv slot n m g) (ho : o.Allowed g g) : FreshOk (T slot n o) g m.next := by
  intro m₁ a m₂ r _ ha he h₁
  refine ⟨⟨?_, h₁.cur_some, h₁.filling_cur⟩, ho⟩
  exact h₁.repr.exec_fresh (fun _ _ hb => h.repr.node_lt hb) h.repr.slot_lt ha he

/-- The writer's own load of the buffer pointer. -/
theorem loadBuf_safe (h : Inv slot n m g) (ho : o.Allowed g g) {r : Order} {k : Ptr → CProg α}
    (hk : (k (basePtr g.cur)).Safe (T slot n o) F Q m g) :
    (atomicLoadPtr (some slot + 8) r >>= k).Safe (T slot n o) F Q m g :=
  Prog.safe_act g (Mem.exec_load h.repr.slot_ptr) (fun h => ⟨h, ho⟩) hk

/-- The writer's own loads of size and capacity, zero for a null buffer. -/
theorem loadSize_safe (h : Inv slot n m g) (ho : o.Allowed g g) {r : Order} {k : UInt32 → CProg α}
    (hk : (k (UInt32.ofNat (cur g).size)).Safe (T slot n o) F Q m g) :
    (if basePtr g.cur = none then pure 0 >>= k else arrBufSize (basePtr g.cur) r >>= k).Safe
      (T slot n o) F Q m g := by
  cases hc : g.cur with
  | none =>
    rw [cur_none hc] at hk
    exact hk
  | some b =>
    simp only [basePtr_some, reduceCtorEq, if_false]
    exact Prog.safe_act g (Mem.exec_load (h.cur_at hc).size) (fun h => ⟨h, ho⟩) hk

theorem loadCap_safe (h : Inv slot n m g) (ho : o.Allowed g g) {k : UInt32 → CProg α}
    (hk : (k (UInt32.ofNat (cur g).cap)).Safe (T slot n o) F Q m g) :
    (if basePtr g.cur = none then pure 0 >>= k else arrBufCap (basePtr g.cur) >>= k).Safe
      (T slot n o) F Q m g := by
  cases hc : g.cur with
  | none =>
    rw [cur_none hc] at hk
    exact hk
  | some b =>
    simp only [basePtr_some, reduceCtorEq, if_false]
    exact Prog.safe_act g (Mem.exec_load (h.cur_at hc).cap) (fun h => ⟨h, ho⟩) hk

end safe

/-- The memory a successful reserve has built before it publishes: the header,
zeros, and the old elements copied in. -/
theorem bufAt_grow {n : Nat} {m m₁ : Mem} {b c : Nat} {x : Node} {cap : Nat} {hs : x.size ≤ cap}
    {hc : cap < 2 ^ 32} (hb : m₁.sizeOf b = some (8 + cap * n))
    (hsize : m₁.load .u32 ⟨b, 0⟩ = some (UInt32.ofNat x.size))
    (hcap : m₁.load .u32 ⟨b, 4⟩ = some (UInt32.ofNat cap))
    (hold : 0 < x.size → BufAt n m c x)
    (hdata : 0 < x.size → m₁.read ⟨b, 8⟩ (x.size * n) = m.read ⟨c, 8⟩ (x.size * n)) :
    BufAt n m₁ b (x.grow cap hs hc) where
  bytes := hb
  size := hsize
  cap := hcap
  elem i v hv := by
    have hi : i < x.size := by
      have := (List.getElem?_eq_some_iff.mp hv).1
      simpa [Node.grow] using this
    have hpos : 0 < x.size := by omega
    have hin : i * n + n ≤ x.size * n := by
      have := Nat.mul_le_mul_right n (show i + 1 ≤ x.size from hi)
      rwa [Nat.succ_mul] at this
    have hv' : x.elems[i]? = some v := (x.items_get hi).symm.trans hv
    calc m₁.read ⟨b, 8 + i * n⟩ n
        = ((m₁.read ⟨b, 8⟩ (x.size * n)).drop (i * n)).take n := (m₁.read_part ⟨b, 8⟩ hin).symm
      _ = ((m.read ⟨c, 8⟩ (x.size * n)).drop (i * n)).take n := by rw [hdata hpos]
      _ = m.read ⟨c, 8 + i * n⟩ n := m.read_part ⟨c, 8⟩ hin
      _ = v := (hold hpos).elem i v hv'

section functions
variable {slot : Addr} {itemSize : UInt32} {m : Mem} {g : State itemSize.toNat} {o : Op}
  {F : Fault → Mem → State itemSize.toNat → Prop}

/-- The slot after a successful reserve. -/
def grown (m : Mem) (g : State itemSize.toNat) (newCap : UInt32)
    (hs : (cur g).size ≤ newCap.toNat) : State itemSize.toNat :=
  (g.set m.next ((cur g).grow newCap.toNat hs newCap.toNat_lt)).point (some m.next)

theorem msmArrayReserve_safe {Q : Unit → Mem → State itemSize.toNat → Prop} {newCap : UInt32}
    (h : Inv slot itemSize.toNat m g) (hn : itemSize ≠ 0) (ho : o.Allowed g g)
    (hf : (cur g).filling = false)
    (hpub : ∀ g', Publish g g' → o.Allowed g g')
    (hle : newCap.toNat ≤ (cur g).cap → Q () m g)
    (hfail : (cur g).cap < newCap.toNat → m.mallocOk = false → Q () m.tick g)
    (hok : ∀ m' hs, (cur g).cap < newCap.toNat → m.mallocOk = true → m'.script = m.script.tail →
      Inv slot itemSize.toNat m' (grown m g newCap hs) → Q () m' (grown m g newCap hs)) :
    (msmArrayReserve (some slot) newCap itemSize).Safe (T slot itemSize.toNat o) F Q m g := by
  have hT := T_fresh h ho
  simp only [msmArrayReserve, reduceCtorEq, hn, or_self, if_false]
  refine loadBuf_safe h ho (loadCap_safe h ho ?_)
  by_cases hcap : newCap.toNat ≤ (cur g).cap
  · rw [if_pos (UInt32.le_iff_toNat_le.mpr (by rw [cap_toNat]; exact hcap))]
    exact hle hcap
  rw [if_neg (fun hle => hcap (by rw [UInt32.le_iff_toNat_le, cap_toNat] at hle; exact hle))]
  refine loadSize_safe h ho ?_
  simp only [malloc_bind, memset0_bind, arrBufSetSize, arrBufSetCap, atomicStoreU32, store_bind,
    size_toNat, arrBufHeader]
  cases hm : m.mallocOk with
  | false =>
    refine hT.act (Mem.exec_malloc_fail hm) (Nat.le_refl _) trivial ?_
    exact hfail (by omega) hm
  | true =>
    refine hT.act (Mem.exec_malloc_ok hm) (Nat.le_refl _) trivial ?_
    have hs : (cur g).size ≤ newCap.toNat := by
      have := (cur g).size_le; have := (cur g).elems_le; omega
    have h8 : 8 ≤ 8 + newCap.toNat * itemSize.toNat := Nat.le_add_right 8 _
    refine newBuffer_safe hT h8 fun m₃ hnew => ?_
    obtain ⟨hk3, hscript, hsz, hsize, hcap3⟩ := hnew
    -- both ways on, the slot is the one the copy has been made for
    have hpublish (m₄ : Mem) (hk4 : m.Keeps m₄) (hsc : m₄.script = m.script.tail)
        (hx : BufAt itemSize.toNat m₄ m.next ((cur g).grow newCap.toNat hs newCap.toNat_lt)) :
        (atomicStorePtr (some slot + 8) (some ⟨m.next, 0⟩) .release).Safe
          (T slot itemSize.toNat o) F Q m₄ g := by
      have h4 : Inv slot itemSize.toNat m₄ g := ⟨h.repr.keeps hk4, h.cur_some, h.filling_cur⟩
      have hb : m.next ≠ slot.block := by have := h.repr.slot_lt; omega
      have hdone := h4.publish hf hb hx
      refine Prog.safe_act (grown m g newCap hs)
        (Mem.exec_store (h4.repr.slot_valid.mono (by simp [Kind.size]))) ?_ ?_
      · exact fun _ => ⟨hdone, hpub _ ⟨m.next, _, _, _, h.repr.fresh (Nat.le_refl _), hf, rfl⟩⟩
      · exact hok _ hs (by omega) hm hsc hdone
    by_cases hcopy : 0 < (cur g).size
    · obtain ⟨c, hc⟩ : ∃ c, g.cur = some c := by
        cases hc : g.cur with
        | none => rw [cur_none hc] at hcopy; exact absurd hcopy (Nat.lt_irrefl 0)
        | some c => exact ⟨c, rfl⟩
      have hold := h.cur_at hc
      have hbytes : (cur g).size * itemSize.toNat ≤ newCap.toNat * itemSize.toNat :=
        Nat.mul_le_mul_right _ hs
      have hsrc : m.Valid ⟨c, 8⟩ ((cur g).size * itemSize.toNat) := by
        refine ⟨_, hold.bytes, ?_⟩
        have := Nat.mul_le_mul_right itemSize.toNat
          (Nat.le_trans (cur g).size_le (cur g).elems_le)
        simp only
        omega
      have hdst : m₃.Valid ⟨m.next, 8⟩ ((cur g).size * itemSize.toNat) := by
        exact ⟨_, hsz, by simp only; omega⟩
      have hread : m₃.read ⟨c, 8⟩ ((cur g).size * itemSize.toNat) =
          m.read ⟨c, 8⟩ ((cur g).size * itemSize.toNat) :=
        Mem.read_congr fun o _ _ => hk3.cellAt_eq hsrc.lt o
      have hcond : basePtr g.cur ≠ none ∧ 0 < UInt32.ofNat (cur g).size := by
        refine ⟨by rw [hc]; exact Option.some_ne_none _, UInt32.lt_iff_toNat_lt.mpr ?_⟩
        rw [size_toNat]; exact hcopy
      rw [if_pos hcond, hc]
      simp only [memcpy_bind, arrBufData, arrBufHeader, basePtr_some, Ptr.some_add, Addr.mk_add,
        Nat.zero_add]
      refine hT.act (Mem.exec_memcpy hdst (hk3.valid hsrc)) hk3.next_le ⟨_, rfl, Nat.le_refl _⟩ ?_
      refine hpublish _ (hk3.write (Nat.le_refl _)) hscript (bufAt_grow (m := m) (c := c) ?_ ?_ ?_
        (fun _ => hold) fun _ => ?_)
      · simpa using hsz
      · exact (Mem.load_write_apart fun _ => .inr (by simp [Kind.size])).trans hsize
      · refine (Mem.load_write_apart fun _ => .inr (by simp [Kind.size])).trans ?_
        simpa using hcap3
      · exact (Mem.read_write_all hdst (m₃.length_read ..)).trans hread
    · have hcond : ¬ (basePtr g.cur ≠ none ∧ 0 < UInt32.ofNat (cur g).size) := by
        rintro ⟨_, h0⟩
        rw [UInt32.lt_iff_toNat_lt, size_toNat] at h0
        exact hcopy h0
      rw [if_neg hcond]
      refine hpublish m₃ hk3 hscript (bufAt_grow (m := m) (c := 0) ?_ hsize ?_
        (fun h0 => absurd h0 hcopy) fun h0 => absurd h0 hcopy)
      · exact hsz
      · simpa using hcap3

/-- The end of prepare_push: element `size` is zeroed, if it is in the buffer. -/
theorem zeroElem_safe {Q : Ptr → Mem → State itemSize.toNat → Prop} {sz : UInt32}
    (h : Inv slot itemSize.toNat m g) (hn : itemSize ≠ 0) (hf : (cur g).filling = false)
    (hsz : sz.toNat = (cur g).size) (hnull : g.cur = none → Q none m g)
    (hfull : ∀ b, g.cur = some b → (cur g).cap ≤ (cur g).size → F .outOfBounds m g)
    (hok : ∀ m' g' b, g.cur = some b → m'.script = m.script → Inv slot itemSize.toNat m' g' →
      (∃ hx, Update g g' ((cur g).touch (List.replicate itemSize.toNat (.byte 0)) hx)) →
      Q (some ⟨b, 8 + (cur g).size * itemSize.toNat⟩) m' g') :
    (if basePtr g.cur = none then pure none else do
      memset0 (arrBufData (basePtr g.cur) + sz.toNat * itemSize.toNat) itemSize.toNat
      pure (arrBufData (basePtr g.cur) + sz.toNat * itemSize.toNat)).Safe
        (T slot itemSize.toNat .prepare) F Q m g := by
  have hpos : 0 < itemSize.toNat := Nat.pos_of_ne_zero fun h0 => hn (UInt32.toNat_inj.mp h0)
  cases hc : g.cur with
  | none => simpa using hnull hc
  | some b =>
    simp only [basePtr_some, reduceCtorEq, if_false, arrBufData, arrBufHeader, Ptr.some_add,
      Addr.mk_add, Nat.zero_add, hsz, memset0_bind]
    have hat := h.cur_at hc
    by_cases hx : (cur g).size < (cur g).cap
    · have hv := (hat.valid_elem hpos _).mpr hx
      have hzero : (m.write ⟨b, 8 + (cur g).size * itemSize.toNat⟩
          (List.replicate itemSize.toNat (.byte 0))).read
            ⟨b, 8 + (cur g).size * itemSize.toNat⟩ itemSize.toNat =
          List.replicate itemSize.toNat (.byte 0) := Mem.read_write_all hv List.length_replicate
      have hdone := h.touch hc hx (d := 0) (by simp) hzero
      refine Prog.safe_act _ (Mem.exec_zero hv) (fun _ => ⟨hdone, hf, ?_⟩) ?_
      · exact .inr (.inr ⟨_, hx, b, hc, rfl⟩)
      · exact hok _ _ b hc rfl hdone ⟨hx, b, hc, rfl⟩
    · refine Prog.safe_fault (Mem.exec_zero_invalid fun hv => hx ?_) (hfull b hc (by omega))
      exact (hat.valid_elem hpos _).mp hv

/-- The capacity a full buffer of capacity `c` grows to. -/
def doubled (c : Nat) : Nat := if c = 0 then 8 else 2 * c

/-- Below `2 ^ 31` it is computed exactly in 32 bits. -/
theorem doubled_toNat {c : Nat} (hc : c < 2 ^ 31) :
    (if UInt32.ofNat c = 0 then 8 else UInt32.ofNat c * 2 : UInt32).toNat = doubled c := by
  have hc' : (UInt32.ofNat c).toNat = c := by simp; omega
  unfold doubled
  by_cases hz : c = 0
  · subst hz; rfl
  · have h0 : UInt32.ofNat c ≠ 0 := fun h => hz (by rw [← hc', h]; rfl)
    rw [if_neg h0, if_neg hz, UInt32.toNat_mul, hc', show (2 : UInt32).toNat = 2 from rfl]
    omega

/-- The capacity a full buffer grows to, in 32 bits, is no larger from `2 ^ 31` on. -/
theorem doubled_le_iff {c : Nat} (hc : c < 2 ^ 32) :
    (if UInt32.ofNat c = 0 then 8 else UInt32.ofNat c * 2 : UInt32).toNat ≤ c ↔ 2 ^ 31 ≤ c := by
  have hc' : (UInt32.ofNat c).toNat = c := by simp; omega
  split
  · rename_i h0
    have h8 : (8 : UInt32).toNat = 8 := rfl
    have hz := congrArg UInt32.toNat h0
    simp only [hc', UInt32.toNat_zero] at hz
    omega
  · rename_i h0
    have hz : c ≠ 0 := fun h => h0 (by rw [h]; rfl)
    rw [UInt32.toNat_mul, hc', show (2 : UInt32).toNat = 2 from rfl]
    omega

theorem msmArrayPreparePush_safe {Q : Ptr → Mem → State itemSize.toNat → Prop}
    (h : Inv slot itemSize.toNat m g) (hn : itemSize ≠ 0) (hf : (cur g).filling = false)
    (hnull : g.cur = none → m.mallocOk = false → Q none m.tick g)
    (hfull : ∀ m', g.cur ≠ none → (cur g).cap ≤ (cur g).size →
      (2 ^ 31 ≤ (cur g).cap ∨ m.mallocOk = false) → F .outOfBounds m' g)
    (hok : ∀ m' g' b, ((cur g).size < (cur g).cap ∨
        ((cur g).cap < 2 ^ 31 ∧ m.mallocOk = true)) →
      Inv slot itemSize.toNat m' g' → g'.cur = some b → contents g' = contents g →
      (cur g').size = (cur g).size → (cur g').filling = true →
      (cur g').elems[(cur g').size]? = some (List.replicate itemSize.toNat (.byte 0)) →
      (m'.script = m.script ∨ m'.script = m.script.tail) →
      (cur g').cap = (if (cur g).size < (cur g).cap then (cur g).cap else doubled (cur g).cap) →
      ((cur g).size < (cur g).cap → g'.cur = g.cur) →
      Q (some ⟨b, 8 + (cur g').size * itemSize.toNat⟩) m' g') :
    (msmArrayPreparePush (some slot) itemSize).Safe (T slot itemSize.toNat .prepare) F Q m g := by
  have ho : Op.prepare.Allowed g g := ⟨hf, .inl rfl⟩
  simp only [msmArrayPreparePush, reduceCtorEq, hn, or_self, if_false]
  refine loadBuf_safe h ho (loadSize_safe h ho (loadCap_safe h ho ?_))
  have htouched {m' : Mem} {g₁ g' : State itemSize.toNat} {b : Nat} {v : List Cell}
      (hb : g₁.cur = some b) (hI : Inv slot itemSize.toNat m' g') (hx)
      (hu : Update g₁ g' ((cur g₁).touch v hx)) : g'.cur = some b ∧ contents g' = contents g₁ ∧
        (cur g').size = (cur g₁).size ∧ (cur g').filling = true ∧
        (cur g').cap = (cur g₁).cap ∧ (cur g').elems[(cur g').size]? = some v := by
    have hcur := hu.cur_eq
    refine ⟨?_, by simp [contents, hcur], by rw [hcur]; rfl, by rw [hcur]; rfl,
      by rw [hcur]; rfl, ?_⟩
    · obtain ⟨c, hc, rfl⟩ := hu; exact hb
    · rw [hcur, Node.touch_get]; exact if_pos rfl
  by_cases hgrow : g.cur = none ∨ (cur g).cap ≤ (cur g).size
  · have hcond : basePtr g.cur = none ∨ UInt32.ofNat (cur g).cap ≤ UInt32.ofNat (cur g).size := by
      rcases hgrow with hc | hle
      · exact .inl (by rw [hc]; rfl)
      · exact .inr (UInt32.le_iff_toNat_le.mpr (by rw [cap_toNat, size_toNat]; exact hle))
    rw [if_pos hcond]
    refine Prog.Safe.bind (msmArrayReserve_safe h hn ho hf (fun g' hp => ⟨hf, .inr (.inl hp)⟩)
      ?_ ?_ ?_)
    · intro hle
      have hbig := (doubled_le_iff (cur g).cap_lt).mp hle
      have hcur : g.cur ≠ none := fun hc => by rw [cur_none hc] at hbig; simp [Node.empty] at hbig
      refine loadBuf_safe h ho (zeroElem_safe h hn hf (size_toNat _) (fun hc => absurd hc hcur)
        (fun b _ hx => hfull _ hcur hx (.inl hbig)) ?_)
      rintro m' g' b hb - - ⟨hx, -⟩
      rcases hgrow with hc | hle
      · exact absurd hc hcur
      · omega
    · intro _ hm
      have ht : Inv slot itemSize.toNat m.tick g := ⟨h.repr.tick, h.cur_some, h.filling_cur⟩
      refine loadBuf_safe ht ho (zeroElem_safe ht hn hf (size_toNat _) (fun hc => hnull hc hm)
        (fun b hb hx => hfull _ (by rw [hb]; exact Option.some_ne_none b) hx (.inr hm)) ?_)
      rintro m' g' b hb - - ⟨hx, -⟩
      rcases hgrow with hc | hle
      · rw [hc] at hb; cases hb
      · omega
    · intro m₁ hs hlt hm hscript hI
      have hroom : (cur g).cap < 2 ^ 31 :=
        Nat.lt_of_not_le fun hbig => absurd ((doubled_le_iff (cur g).cap_lt).mpr hbig) (by omega)
      have hcur : cur (grown m g _ hs) = (cur g).grow _ hs (UInt32.toNat_lt _) := by
        simp [grown, cur]
      have hf' : (cur (grown m g _ hs)).filling = false := by rw [hcur]; rfl
      have hsize : (cur (grown m g _ hs)).size = (cur g).size := by rw [hcur]; rfl
      have hcap : (cur (grown m g _ hs)).size < (cur (grown m g _ hs)).cap := by
        have h1 := (cur g).size_le
        have h2 := (cur g).elems_le
        rw [hcur]
        exact Nat.lt_of_le_of_lt (Nat.le_trans h1 h2) hlt
      have ho' : Op.prepare.Allowed (grown m g _ hs) (grown m g _ hs) := ⟨hf', .inl rfl⟩
      refine loadBuf_safe hI ho' (zeroElem_safe hI hn hf'
        ((size_toNat _).trans hsize.symm) (fun hc => by cases hc) (fun b _ hx => by omega) ?_)
      intro m' g' b hb hsc hI' hu
      obtain ⟨hx, hu⟩ := hu
      obtain ⟨h1, h2, h3, h4, h5, h6⟩ := htouched hb hI' hx hu
      have hfull : ¬ (cur g).size < (cur g).cap := by
        rcases hgrow with hc | hle
        · rw [cur_none hc]; exact Nat.lt_irrefl 0
        · omega
      rw [← h3]
      refine hok m' g' b (.inr ⟨hroom, hm⟩) hI' h1 (h2.trans ?_) (h3.trans hsize) h4 h6
        (.inr (hsc.trans hscript)) ?_ fun hlt => absurd hlt hfull
      · simp [contents, hcur]
      · rw [if_neg hfull, h5, hcur]
        exact doubled_toNat hroom
  · have hcond : ¬ (basePtr g.cur = none ∨
        UInt32.ofNat (cur g).cap ≤ UInt32.ofNat (cur g).size) := by
      rw [UInt32.le_iff_toNat_le, cap_toNat, size_toNat]
      rintro (hc | hle)
      · exact hgrow (.inl (by cases hg : g.cur with
          | none => rfl
          | some b => rw [hg] at hc; cases hc))
      · exact hgrow (.inr hle)
    rw [if_neg hcond]
    refine zeroElem_safe h hn hf (size_toNat _) (fun hc => absurd (.inl hc) hgrow)
      (fun b _ hx => absurd (.inr hx) hgrow) ?_
    intro m' g' b hb hsc hI' hu
    obtain ⟨hx, hu⟩ := hu
    obtain ⟨h1, h2, h3, h4, h5, h6⟩ := htouched hb hI' hx hu
    rw [← h3]
    exact hok m' g' b (.inl hx) hI' h1 h2 h3 h4 h6 (.inl hsc) (by rw [if_pos hx, h5])
      fun _ => h1.trans hb.symm

theorem msmArrayCommitPush_safe {Q : Unit → Mem → State itemSize.toNat → Prop} {b : Nat}
    (h : Inv slot itemSize.toNat m g) (hb : g.cur = some b) (hf : (cur g).filling = true)
    (hok : ∀ m' g', m'.script = m.script → Inv slot itemSize.toNat m' g' →
      Update g g' ((cur g).commit hf) → Q () m' g') :
    (msmArrayCommitPush (some slot)).Safe (T slot itemSize.toNat .commit) F Q m g := by
  have ho : Op.commit.Allowed g g := ⟨hf, .inl rfl⟩
  have hat := h.cur_at hb
  have hone : UInt32.ofNat (cur g).size + 1 = UInt32.ofNat ((cur g).size + 1) := by
    simp [UInt32.ofNat_add]
  simp only [msmArrayCommitPush, reduceCtorEq, if_false]
  refine loadBuf_safe h ho ?_
  rw [hb]
  simp only [basePtr_some, reduceCtorEq, if_false, arrBufSize, arrBufSetSize, atomicLoadU32,
    atomicStoreU32, loadU32_bind]
  refine Prog.safe_act g (Mem.exec_load hat.size) (fun h => ⟨h, ho⟩) ?_
  have hdone := h.commit hb hf
  rw [hone]
  refine Prog.safe_act _ (Mem.exec_store (hat.valid_header 0 4 (by omega)))
    (fun _ => ⟨hdone, hf, .inr ⟨hf, b, hb, rfl⟩⟩) ?_
  exact hok _ _ rfl hdone ⟨b, hb, rfl⟩

theorem msmArrayClear_safe {Q : Unit → Mem → State itemSize.toNat → Prop}
    (h : Inv slot itemSize.toNat m g) (hf : (cur g).filling = false)
    (hok : ∀ m' g', m'.script = m.script → Inv slot itemSize.toNat m' g' →
      (g' = g ∧ g.cur = none ∨ Update g g' (cur g).clear) → Q () m' g') :
    (msmArrayClear (some slot)).Safe (T slot itemSize.toNat .clear) F Q m g := by
  have ho : Op.clear.Allowed g g := ⟨hf, .inl rfl⟩
  simp only [msmArrayClear, reduceCtorEq, if_false]
  refine loadBuf_safe h ho ?_
  cases hb : g.cur with
  | none => exact hok m g rfl h (.inl ⟨rfl, hb⟩)
  | some b =>
    have hdone := h.clear hb
    simp only [basePtr_some, reduceCtorEq, if_false, arrBufSetSize, atomicStoreU32]
    refine Prog.safe_act _ (Mem.exec_store ((h.cur_at hb).valid_header 0 4 (by omega)))
      (fun _ => ⟨hdone, hf, .inr ⟨b, hb, rfl⟩⟩) ?_
    exact hok _ _ rfl hdone (.inr ⟨b, hb, rfl⟩)

/-- The caller's own write into the element it has been given. -/
theorem fill_safe {Q : Unit → Mem → State itemSize.toNat → Prop} {b d : Nat} {cs v : List Cell}
    (h : Inv slot itemSize.toNat m g) (hn : itemSize ≠ 0) (hb : g.cur = some b)
    (hf : (cur g).filling = true) (hv : (cur g).elems[(cur g).size]? = some v)
    (hd : d + cs.length ≤ itemSize.toNat)
    (hok : ∀ m' g' hx, m'.script = m.script → Inv slot itemSize.toNat m' g' →
      Update g g' ((cur g).touch (Mem.splice v d cs) hx) → Q () m' g') :
    (copyIn (some ((⟨b, 8 + (cur g).size * itemSize.toNat⟩ : Addr) + d)) cs).Safe
      (T slot itemSize.toNat .fill) F Q m g := by
  have hpos : 0 < itemSize.toNat := Nat.pos_of_ne_zero fun h0 => hn (UInt32.toNat_inj.mp h0)
  have hat := h.cur_at hb
  have hx : (cur g).size < (cur g).cap := Nat.lt_of_lt_of_le ((cur g).filling_lt hf) (cur g).elems_le
  have hvalid := (hat.valid_elem hpos _).mpr hx
  have hread : (m.write ((⟨b, 8 + (cur g).size * itemSize.toNat⟩ : Addr) + d) cs).read
      ⟨b, 8 + (cur g).size * itemSize.toNat⟩ itemSize.toNat = Mem.splice v d cs := by
    rw [Mem.read_write_splice hvalid hd, hat.elem _ v hv]
  have hdone := h.touch hb hx hd hread
  refine Prog.safe_act _ (Mem.exec_copyIn (hvalid.mono hd))
    (fun _ => ⟨hdone, hf, _, hx, b, hb, rfl⟩) ?_
  exact hok _ _ hx rfl hdone ⟨b, hb, rfl⟩

end functions
end Msm.Arr
