import Msm.Api.Capi
import Msm.Arr.Reads

/-! # The FFI array of int32, pushed to and read at the same time

`msm_array_push_int32` commits a zeroed element and stores its payload after
that, so a reader can find the element before the payload is there. The ghost
state keeps the values whose payload is stored and the one, if any, that is
committed without it. -/
namespace Msm.Arr.Int32
open Msm.Exec Msm.CMem Msm.Api

/-! ## The two clients -/

/-- Fewer than 2^31 pushes. -/
abbrev writer (slot : Addr) : Client cmachine where
  Call := UInt32
  Val := Unit
  code log v := if log.length + 1 < 2 ^ 31 then some (msmArrayPushInt32 (some slot) v) else none

inductive RCall where
  | size
  | get (i : UInt32)

inductive RVal where
  | size (n : UInt32)
  | value (v : UInt32)

def RVal.observed : RVal → Option UInt32
  | .size n => some n
  | .value _ => none

/-- A reader gets elements below a size it has observed. -/
abbrev reader (slot : Addr) : Client cmachine where
  Call := RCall
  Val := RVal
  code log
    | .size => some do
      let n ← msmArraySize (some slot)
      pure (.size n)
    | .get i => if ∃ s ∈ sizes RVal.observed log, i.toNat < s then some do
        let v ← msmArrayGetInt32 (some slot) i
        pure (.value v)
      else none

/-- The values pushed, that of a push under way included. -/
def pushed {slot : Addr} (x : Thread (writer slot)) : List UInt32 :=
  x.log.map Prod.fst ++ (x.cur.map Prod.fst).toList

/-- The next action of the writer stores the payload `v` at `p`. -/
def Stores {slot : Addr} (x : Thread (writer slot)) (p : Ptr) (v : UInt32) : Prop :=
  ∃ c k, x.cur = some (c, .act (.store .plain .u32 p v) k)

/-- Element `i` of the slot's buffer has been committed, and a payload other
than the zero it holds is still to be stored there. -/
def Unfilled {ι : Type} {slot : Addr} (x : Sys (writer slot) (reader slot) ι) (i : UInt32) : Prop :=
  ∃ v, v ≠ 0 ∧ Stores x.writer (bufPtr x.state slot + (8 + i.toNat * 8 + 4)) v

/-! ## Elements and their payloads -/

/-- An element with the payload `v`. -/
def enc (v : UInt32) : List Cell := Mem.splice (zeros 8) 4 (Kind.u32.encode v)

theorem enc_payload (v : UInt32) : ((enc v).drop 4).take 4 = Kind.u32.encode v := by
  have hlen : (Kind.u32.encode v).length = 4 := Kind.length_encode .u32 v
  simp [enc, Mem.splice, zeros, hlen]

/-- The payload of an element is the load at its offset 4. -/
theorem load_payload {m : Mem} {b i : Nat} {x : Node} {cs : List Cell}
    (h : BufAt int32SlotSize.toNat m b x) (hi : x.elems[i]? = some cs) :
    m.load .u32 ⟨b, 8 + i * 8 + 4⟩ = Kind.u32.decode ((cs.drop 4).take 4) := by
  have hlt : i < x.cap := Nat.lt_of_lt_of_le (List.getElem?_eq_some_iff.mp hi).1 x.elems_le
  have hv : m.Valid ⟨b, 8 + i * 8⟩ 8 := (h.valid_elem (by decide) i).mpr hlt
  have hread : m.read ⟨b, 8 + i * 8⟩ 8 = cs := h.elem i cs hi
  have hv4 : m.Valid ⟨b, 8 + i * 8 + 4⟩ Kind.u32.size := hv.mono (d := 4) (by simp [Kind.size])
  rw [Mem.load, if_pos hv4, ← hread, Mem.read_part _ _ (by decide)]
  rfl

theorem load_enc {m : Mem} {b i : Nat} {x : Node} {v : UInt32}
    (h : BufAt int32SlotSize.toNat m b x) (hi : x.elems[i]? = some (enc v)) :
    m.load .u32 ⟨b, 8 + i * 8 + 4⟩ = some v := by
  rw [load_payload h hi, enc_payload, Kind.decode_encode]

theorem load_zeros {m : Mem} {b i : Nat} {x : Node}
    (h : BufAt int32SlotSize.toNat m b x) (hi : x.elems[i]? = some (zeros 8)) :
    m.load .u32 ⟨b, 8 + i * 8 + 4⟩ = some 0 := by
  rw [load_payload h hi]
  rfl

/-- The store of the payload of a zeroed element. -/
theorem store_payload {slot : Addr} {m : Mem} {g : State int32SlotSize.toNat}
    (h : Inv slot int32SlotSize.toNat m g) {b i : Nat} (hb : g.cur = some b)
    (hz : (cur g).elems[i]? = some (zeros 8)) (v : UInt32) :
    m.Valid ⟨b, 8 + i * 8 + 4⟩ Kind.u32.size ∧
    Inv slot int32SlotSize.toNat (m.write ⟨b, 8 + i * 8 + 4⟩ (Kind.u32.encode v))
      (g.set b ((cur g).put i (enc v))) := by
  have hat := h.cur_at hb
  have hlt : i < (cur g).elems.length := (List.getElem?_eq_some_iff.mp hz).1
  have hvalid : m.Valid ⟨b, 8 + i * 8⟩ 8 :=
    (hat.valid_elem (by decide) _).mpr (Nat.lt_of_lt_of_le hlt (cur g).elems_le)
  have hlen : (Kind.u32.encode v).length = 4 := Kind.length_encode .u32 v
  have hread : (m.write ((⟨b, 8 + i * 8⟩ : Addr) + 4) (Kind.u32.encode v)).read
      ⟨b, 8 + i * 8⟩ 8 = enc v := by
    rw [Mem.read_write_splice hvalid (by rw [hlen])]
    exact congrArg (Mem.splice · 4 _) (hat.elem _ _ hz)
  exact ⟨hvalid.mono (d := 4) (by simp [Kind.size]),
    h.put hb (i := i) (d := 4) (by rw [hlen]; decide) hread⟩

/-! ## The ghost state -/

structure Pushed where
  arr : State int32SlotSize.toNat
  vals : List UInt32
  pend : Option UInt32

/-- The values committed, in order. -/
def Pushed.all (G : Pushed) : List UInt32 := G.vals ++ G.pend.toList

structure Ok (slot : Addr) (m : Mem) (G : Pushed) : Prop where
  inv : Inv slot int32SlotSize.toNat m G.arr
  size : (cur G.arr).size = G.all.length
  size_le : ∀ b x, G.arr.heap b = some x → x.size ≤ G.vals.length ∨
    (G.arr.cur = some b ∧ G.pend ≠ none)
  elems : ∀ b x, G.arr.heap b = some x → ∀ i v, i < x.size → G.vals[i]? = some v →
    x.elems[i]? = some (enc v)
  pend : ∀ v, G.pend = some v → (cur G.arr).elems[G.vals.length]? = some (zeros 8)

/-- Buffers stay, with the elements they have. -/
def Later (g g' : State int32SlotSize.toNat) : Prop :=
  ∀ b x, g.heap b = some x →
    ∃ x', g'.heap b = some x' ∧ x.size ≤ x'.size ∧ x.elems.length ≤ x'.elems.length

theorem Later.refl (g : State int32SlotSize.toNat) : Later g g :=
  fun _ x hx => ⟨x, hx, Nat.le_refl _, Nat.le_refl _⟩

theorem Later.trans {g g' g'' : State int32SlotSize.toNat} (h : Later g g') (h' : Later g' g'') :
    Later g g'' := by
  intro b x hx
  obtain ⟨y, hy, h1, h2⟩ := h b x hx
  obtain ⟨z, hz, h3, h4⟩ := h' b y hy
  exact ⟨z, hz, Nat.le_trans h1 h3, Nat.le_trans h2 h4⟩

theorem later_update {g g' : State int32SlotSize.toNat} {y : Node} (hu : Update g g' y)
    (hs : (cur g).size ≤ y.size) (he : (cur g).elems.length ≤ y.elems.length) : Later g g' := by
  intro b x hx
  obtain ⟨x', hx', h⟩ := hu.keeps
    (P := fun x y => x.size ≤ y.size ∧ x.elems.length ≤ y.elems.length)
    (fun _ => ⟨Nat.le_refl _, Nat.le_refl _⟩) ⟨hs, he⟩ hx
  exact ⟨x', hx', h.1, h.2⟩

/-- The action does not store a payload: a store of it is atomic. -/
def Atomic : Act → Prop
  | .store o _ _ _ => o ≠ .plain
  | _ => True

/-- The next action stores the payload of the element committed without it, if
there is one. -/
def Poised (G : Pushed) (a : Act) : Prop :=
  match G.pend with
  | none => Atomic a
  | some v => ∃ b, G.arr.cur = some b ∧
      a = .store .plain .u32 (some ⟨b, 8 + G.vals.length * 8 + 4⟩) v

structure Moved (slot : Addr) (G : Pushed) (a : Act) (m' : Mem) (G' : Pushed) : Prop where
  ok : Ok slot m' G'
  all : G.all <+: G'.all
  vals : G.vals <+: G'.vals
  later : Later G.arr G'.arr
  poised : Poised G a

def T (slot : Addr) (G : Pushed) (m : Mem) (a : Act) (m' : Mem) (G' : Pushed) : Prop :=
  Ok slot m G → Moved slot G a m' G'

section moves
variable {slot : Addr} {m m' : Mem} {g g' : State int32SlotSize.toNat} {vals : List UInt32}

theorem Ok.cur_elem {G : Pushed} (h : Ok slot m G) {i : Nat} {v : UInt32} (hv : G.vals[i]? = some v) :
    (cur G.arr).elems[i]? = some (enc v) := by
  have hi : i < (cur G.arr).size := by
    have := (List.getElem?_eq_some_iff.mp hv).1
    rw [h.size, Pushed.all, List.length_append]
    omega
  cases hc : G.arr.cur with
  | none => rw [cur_none hc] at hi; exact absurd hi (Nat.not_lt_zero i)
  | some b => exact h.elems b _ (h.inv.cur_node hc) i v hi hv

theorem all_none : (⟨g, vals, none⟩ : Pushed).all = vals := List.append_nil _

theorem Ok.size_none (h : Ok slot m ⟨g, vals, none⟩) {b : Nat} {x : Node}
    (hx : g.heap b = some x) : x.size ≤ vals.length := by
  rcases h.size_le b x hx with hle | ⟨_, hne⟩
  · exact hle
  · exact absurd rfl hne

/-- prepare_push changes no committed element. -/
theorem Ok.prepare (h : Ok slot m ⟨g, vals, none⟩) (hI : Inv slot int32SlotSize.toNat m' g')
    (ha : Op.prepare.Allowed g g') : Ok slot m' ⟨g', vals, none⟩ ∧ Later g g' := by
  have hsize : (cur g).size = vals.length := h.size.trans (congrArg List.length all_none)
  rcases ha.2 with rfl | hp | ⟨w, hw, hu⟩
  · exact ⟨⟨hI, h.size, h.size_le, h.elems, h.pend⟩, Later.refl g'⟩
  · refine ⟨⟨hI, ?_, ?_, ?_, nofun⟩, fun b x hx => ⟨x, hp.heap_of hx, Nat.le_refl _, Nat.le_refl _⟩⟩
    · rw [all_none]
      obtain ⟨b, cap, hs, hc, _, _, rfl⟩ := hp
      simpa [cur, Node.grow] using hsize
    · intro b x hx
      obtain ⟨c, cap, hs, hc, _, _, rfl⟩ := hp
      refine .inl ?_
      rw [Ghost.point_heap] at hx
      rcases Ghost.set_heap_cases hx with ⟨_, rfl⟩ | ⟨_, hx⟩
      · exact Nat.le_of_eq hsize
      · exact h.size_none hx
    · intro b x hx i v hi hv
      obtain ⟨c, cap, hs, hc, _, _, rfl⟩ := hp
      rw [Ghost.point_heap] at hx
      rcases Ghost.set_heap_cases hx with ⟨_, rfl⟩ | ⟨_, hx⟩
      · exact ((cur g).items_get hi).trans (h.cur_elem hv)
      · exact h.elems b x hx i v hi hv
  · have hlater := later_update hu (Nat.le_refl _) ((cur g).length_touch w hw)
    refine ⟨⟨hI, ?_, ?_, ?_, nofun⟩, hlater⟩
    · rw [all_none, hu.cur_eq]
      exact hsize
    · intro b x hx
      rcases hu.heap hx with ⟨_, rfl⟩ | ⟨_, hx⟩
      · exact .inl (Nat.le_of_eq hsize)
      · exact .inl (h.size_none hx)
    · intro b x hx i v hi hv
      rcases hu.heap hx with ⟨_, rfl⟩ | ⟨_, hx⟩
      · have hne : i ≠ (cur g).size := Nat.ne_of_lt hi
        rw [Node.touch_get, if_neg hne]
        exact h.cur_elem hv
      · exact h.elems b x hx i v hi hv

/-- The commit of a zeroed element, whose payload is to be `v`. -/
theorem Ok.commit (h : Ok slot m ⟨g, vals, none⟩) (hI : Inv slot int32SlotSize.toNat m' g')
    {hf : (cur g).filling = true} (hu : Update g g' ((cur g).commit hf))
    (hz : (cur g).elems[(cur g).size]? = some (zeros 8)) (v : UInt32) :
    Ok slot m' ⟨g', vals, some v⟩ ∧ Later g g' := by
  have hsize : (cur g).size = vals.length := h.size.trans (congrArg List.length all_none)
  refine ⟨⟨hI, ?_, ?_, ?_, ?_⟩, later_update hu (Nat.le_succ _) (Nat.le_refl _)⟩
  · rw [hu.cur_eq, Pushed.all, List.length_append]
    exact congrArg (· + 1) hsize
  · intro b x hx
    rcases hu.heap hx with ⟨hb, _⟩ | ⟨_, hx⟩
    · refine .inr ⟨?_, by simp⟩
      obtain ⟨c, _, rfl⟩ := hu
      exact hb
    · exact .inl (h.size_none hx)
  · intro b x hx i w hi hw
    rcases hu.heap hx with ⟨_, rfl⟩ | ⟨_, hx⟩
    · exact h.cur_elem hw
    · exact h.elems b x hx i w hi hw
  · intro w _
    rw [hu.cur_eq, ← hsize]
    exact hz

/-- The store of the payload. -/
theorem Ok.store {v : UInt32} (h : Ok slot m ⟨g, vals, some v⟩) {b : Nat} (hb : g.cur = some b) :
    m.Valid ⟨b, 8 + vals.length * 8 + 4⟩ Kind.u32.size ∧
    Ok slot (m.write ⟨b, 8 + vals.length * 8 + 4⟩ (Kind.u32.encode v))
      ⟨g.set b ((cur g).put vals.length (enc v)), vals ++ [v], none⟩ ∧
    Later g (g.set b ((cur g).put vals.length (enc v))) := by
  have hz := h.pend v rfl
  have hlt : vals.length < (cur g).elems.length := (List.getElem?_eq_some_iff.mp hz).1
  obtain ⟨hvalid, hI⟩ := store_payload h.inv hb hz v
  have hu : Update g (g.set b ((cur g).put vals.length (enc v)))
      ((cur g).put vals.length (enc v)) := ⟨b, hb, rfl⟩
  have hsize : (cur g).size = vals.length + 1 := by
    rw [h.size, Pushed.all, List.length_append]
    rfl
  refine ⟨hvalid, ⟨hI, ?_, ?_, ?_, nofun⟩,
    later_update hu (Nat.le_refl _) (by simp [Node.put])⟩
  · rw [hu.cur_eq, all_none, List.length_append]
    exact hsize
  · intro c x hx
    refine .inl ?_
    rw [List.length_append, List.length_singleton]
    rcases hu.heap hx with ⟨_, rfl⟩ | ⟨hne, hx⟩
    · exact Nat.le_of_eq hsize
    · rcases h.size_le c x hx with hle | ⟨hc, _⟩
      · exact Nat.le_succ_of_le hle
      · exact absurd hc hne
  · intro c x hx i w hi hw
    -- the element stored to, or one that is there already
    rcases Nat.lt_or_ge i vals.length with hold | hnew
    · rw [List.getElem?_append_left hold] at hw
      rcases hu.heap hx with ⟨_, rfl⟩ | ⟨_, hx⟩
      · rw [Node.put, List.getElem?_set_ne (by omega)]
        exact h.cur_elem hw
      · exact h.elems c x hx i w hi hw
    · have hi' : i = vals.length := by
        have := (List.getElem?_eq_some_iff.mp hw).1
        rw [List.length_append, List.length_singleton] at this
        omega
      subst hi'
      rw [List.getElem?_append_right (Nat.le_refl _), Nat.sub_self] at hw
      cases hw
      rcases hu.heap hx with ⟨_, rfl⟩ | ⟨hne, hx⟩
      · rw [Node.put, List.getElem?_set_self hlt]
      · rcases h.size_le c x hx with hle | ⟨hc, _⟩
        · exact absurd hi (Nat.not_lt.mpr hle)
        · exact absurd hc hne

end moves

/-! ## A push -/

/-- The loads of size and capacity, zero for a null buffer. -/
theorem loadOr_only {β : Type} {o : Order} {buf q : Ptr} {k : UInt32 → CProg β}
    (hk : ∀ x, (k x).Only Atomic) :
    (if buf = none then pure 0 >>= k else loadU32 o q >>= k).Only Atomic := by
  split
  · exact hk 0
  · exact ⟨trivial, hk⟩

theorem reserve_only (slot : Ptr) (newCap itemSize : UInt32) :
    (msmArrayReserve slot newCap itemSize).Only Atomic := by
  unfold msmArrayReserve
  split
  · trivial
  refine ⟨trivial, fun buf => loadOr_only fun oldCap => ?_⟩
  dsimp only
  split
  · trivial
  refine loadOr_only fun oldSize => ⟨trivial, fun p => ?_⟩
  simp only [Prog.bind]
  split
  · trivial
  refine ⟨trivial, fun _ => ⟨Order.noConfusion, fun _ => ⟨Order.noConfusion, fun _ => ?_⟩⟩⟩
  simp only [Prog.bind]
  split
  · exact ⟨trivial, fun _ => ⟨Order.noConfusion, fun _ => trivial⟩⟩
  · exact ⟨Order.noConfusion, fun _ => trivial⟩

theorem prepare_only (slot : Ptr) (itemSize : UInt32) :
    (msmArrayPreparePush slot itemSize).Only Atomic := by
  unfold msmArrayPreparePush
  split
  · trivial
  refine ⟨trivial, fun buf => loadOr_only fun sz => loadOr_only fun cap => ?_⟩
  have hend (q : Ptr) : (if q = none then pure none else do
      memset0 (arrBufData q + sz.toNat * itemSize.toNat) itemSize.toNat
      pure (arrBufData q + sz.toNat * itemSize.toNat)).Only Atomic := by
    split
    · trivial
    · exact ⟨trivial, fun _ => trivial⟩
  dsimp only
  split
  · exact Prog.only_bind (reserve_only ..) fun _ => ⟨trivial, hend⟩
  · exact hend buf

theorem commit_only (slot : Ptr) : (msmArrayCommitPush slot).Only Atomic := by
  unfold msmArrayCommitPush
  split
  · trivial
  refine ⟨trivial, fun buf => ?_⟩
  simp only [Prog.bind]
  split
  · trivial
  · exact ⟨trivial, fun sz => ⟨Order.noConfusion, fun _ => trivial⟩⟩

abbrev noFault : Fault → Mem → Pushed → Prop := fun _ _ _ => False

/-- Between pushes: every committed element has its payload. -/
structure Idle (slot : Addr) (vals : List UInt32) (m : Mem) (G : Pushed) : Prop where
  ok : Ok slot m G
  script : m.script = []
  filling : (cur G.arr).filling = false
  vals : G.vals = vals
  pend : G.pend = none

section push
variable {slot : Addr} {m : Mem} {g : State int32SlotSize.toNat} {vals : List UInt32}

/-- After prepare_push: a zeroed element, not committed. -/
structure Prepared (b : Nat) (m : Mem) (g : State int32SlotSize.toNat) : Prop where
  script : m.script = []
  cur_eq : g.cur = some b
  filling : (cur g).filling = true
  zero : (cur g).elems[(cur g).size]? = some (zeros 8)

/-- A safe program of the array, with the values pushed beside it. -/
theorem lift_ok {α : Type} {p : CProg α} {F : Fault → Mem → Pushed → Prop}
    {Q : α → Mem → Pushed → Prop} {G : Pushed} (h : Ok slot m G) (hs : p.Safe (T slot) F Q m G) :
    p.Safe (T slot) F (fun x m' G' => Ok slot m' G' ∧ Q x m' G') m G :=
  (hs.inv (I := Ok slot) (fun _ _ _ _ _ hI ht => (ht hI).ok) h).mono (fun _ _ _ _ _ h => h.2)
    (fun _ _ _ h => h.2) fun _ _ _ => id

theorem prepare_safe (h : Idle slot vals m ⟨g, vals, none⟩) (hfew : vals.length + 1 < 2 ^ 31) :
    (msmArrayPreparePush (some slot) int32SlotSize).Safe (T slot) noFault
      (fun p m' G' => Ok slot m' G' ∧ ∃ b g', p = some ⟨b, 8 + vals.length * 8⟩ ∧
        G' = ⟨g', vals, none⟩ ∧ Prepared b m' g') m ⟨g, vals, none⟩ := by
  have hm : m.mallocOk = true := by rw [Mem.mallocOk, h.script]; rfl
  have hsize : (cur g).size = vals.length := h.ok.size.trans (congrArg List.length all_none)
  have hsafe : (msmArrayPreparePush (some slot) int32SlotSize).Safe
      (Arr.T slot int32SlotSize.toNat .prepare) (fun _ _ _ => False)
      (fun p m' g' => ∃ b, p = some ⟨b, 8 + vals.length * 8⟩ ∧ Prepared b m' g') m g := by
    refine msmArrayPreparePush_safe h.ok.inv (by decide) h.filling ?_ ?_ ?_
    · intro _ hfail
      rw [hm] at hfail
      cases hfail
    · intro _ _ hle hbad
      rcases hbad with hbig | hfail
      · omega
      · rw [hm] at hfail; cases hfail
    · intro m' g' b _ _ hb _ hsz hf hz hsc _ _
      refine ⟨b, by rw [hsz, hsize]; rfl, ?_, hb, hf, hz⟩
      rcases hsc with hsc | hsc
      · rw [hsc, h.script]
      · rw [hsc, h.script]; rfl
  refine lift_ok h.ok ((hsafe.only (prepare_only ..)).map (fun g => (⟨g, vals, none⟩ : Pushed))
    ?_ (fun _ _ _ => id) ?_)
  · intro g₁ s a s' g₂ hmove hok
    obtain ⟨hI, ha⟩ := hmove.2 hok.inv
    obtain ⟨hok', hl⟩ := hok.prepare hI ha
    exact ⟨hok', List.prefix_refl _, List.prefix_refl _, hl, hmove.1⟩
  · intro p m' g' hq
    obtain ⟨b, hp, hq⟩ := hq
    exact ⟨b, g', hp, rfl, hq⟩

/-- The ghost state along a commit: the value becomes pending when the element
is no longer being filled. -/
def committing (vals : List UInt32) (v : UInt32) (g : State int32SlotSize.toNat) : Pushed :=
  ⟨g, vals, if (cur g).filling then none else some v⟩

theorem committing_filling {v : UInt32} (hf : (cur g).filling = true) :
    committing vals v g = ⟨g, vals, none⟩ := by simp [committing, hf]

theorem committing_done {v : UInt32} (hf : (cur g).filling = false) :
    committing vals v g = ⟨g, vals, some v⟩ := by simp [committing, hf]

theorem commit_safe {b : Nat} (hok : Ok slot m ⟨g, vals, none⟩) (h : Prepared b m g) (v : UInt32) :
    (msmArrayCommitPush (some slot)).Safe (T slot) noFault
      (fun _ (m' : Mem) G' => Ok slot m' G' ∧ m'.script = [] ∧ ∃ g', G' = ⟨g', vals, some v⟩ ∧
        (cur g').filling = false ∧ g'.cur = some b) m ⟨g, vals, none⟩ := by
  have hsafe : (msmArrayCommitPush (some slot)).Safe (Arr.T slot int32SlotSize.toNat .commit)
      (fun _ _ _ => False) (fun _ (m' : Mem) g' => m'.script = [] ∧ (cur g').filling = false ∧
        g'.cur = some b) m g := by
    refine msmArrayCommitPush_safe hok.inv h.cur_eq h.filling ?_
    intro m' g' hsc _ hu
    refine ⟨hsc.trans h.script, by rw [hu.cur_eq]; rfl, ?_⟩
    obtain ⟨c, _, rfl⟩ := hu
    exact h.cur_eq
  -- the element is zero for as long as it is not committed
  have hzero := (hsafe.only (commit_only ..)).inv
    (I := fun s g => Inv slot int32SlotSize.toNat s g ∧
      ((cur g).filling = true → (cur g).elems[(cur g).size]? = some (zeros 8))) (by
      intro g₁ s a s' g₂ hI ht
      obtain ⟨hI', ha⟩ := ht.2 hI.1
      refine ⟨hI', fun hf => ?_⟩
      rcases ha.2 with rfl | ⟨_, hu⟩
      · exact hI.2 hf
      · rw [hu.cur_eq] at hf
        cases hf) ⟨hok.inv, fun _ => h.zero⟩
  rw [← committing_filling (v := v) h.filling]
  refine lift_ok (by rw [committing_filling h.filling]; exact hok)
    (hzero.map (committing vals v) ?_ (fun _ _ _ h => h.2) ?_)
  · intro g₁ s a s' g₂ hmove hok
    obtain ⟨⟨hI, hz⟩, hnp, ht⟩ := hmove
    obtain ⟨hI', hf, ha⟩ := ht hI
    rw [committing_filling hf] at hok ⊢
    rcases ha with rfl | ⟨hf', hu⟩
    · rw [committing_filling hf]
      exact ⟨⟨hI', hok.size, hok.size_le, hok.elems, hok.pend⟩, List.prefix_refl _,
        List.prefix_refl _, Later.refl _, hnp⟩
    · have hdone : (cur g₂).filling = false := by rw [hu.cur_eq]; rfl
      obtain ⟨hok', hl⟩ := hok.commit hI' hu (hz hf) v
      rw [committing_done hdone]
      exact ⟨hok', List.prefix_append_right_inj _ |>.mpr List.nil_prefix, List.prefix_refl _, hl, hnp⟩
  · intro _ m' g' hq
    obtain ⟨_, hsc, hf, hb⟩ := hq
    exact ⟨hsc, g', committing_done hf, hf, hb⟩

/-- One push adds its value. -/
theorem push_safe {G : Pushed} (h : Idle slot vals m G) (hfew : vals.length + 1 < 2 ^ 31)
    (v : UInt32) : (msmArrayPushInt32 (some slot) v).Safe (T slot) noFault
      (fun _ m' G' => Idle slot (vals ++ [v]) m' G') m G := by
  obtain ⟨g, vals', pend⟩ := G
  obtain rfl : vals' = vals := h.vals
  obtain rfl : pend = none := h.pend
  refine Prog.Safe.bind (Prog.Safe.bind ((prepare_safe h hfew).post ?_))
  intro p m' G' hp
  obtain ⟨hok, b, g', rfl, rfl, hprep⟩ := hp
  rw [if_pos (Option.some_ne_none _)]
  refine Prog.Safe.bind ((commit_safe hok hprep v).post ?_)
  intro _ m'' G'' hq
  obtain ⟨hok, hsc, g'', rfl, hf, hb⟩ := hq
  obtain ⟨hvalid, hok', hl⟩ := hok.store hb
  refine Prog.safe_act ⟨g''.set b ((cur g'').put vals'.length (enc v)), vals' ++ [v], none⟩
    (Mem.exec_store hvalid) ?_ ?_
  · exact fun _ => ⟨hok', by simp [Pushed.all], List.prefix_append _ _, hl, b, hb, rfl⟩
  · have hu : Update g'' (g''.set b ((cur g'').put vals'.length (enc v)))
        ((cur g'').put vals'.length (enc v)) := ⟨b, hb, rfl⟩
    exact ⟨hok', hsc, by rw [hu.cur_eq]; exact hf, rfl, rfl⟩

end push

def contract (slot : Addr) : Contract (writer slot) Pushed where
  Idle log m G := Idle slot (log.map Prod.fst) m G
  T _ := T slot
  F := noFault

theorem contract_holds (slot : Addr) : (contract slot).Holds fun _ => True := by
  intro log v p m G h _ hp
  simp only [writer] at hp
  split at hp
  · rename_i hfew
    cases hp
    refine (push_safe h (by simpa using hfew) v).post ?_
    intro _ m' G' h'
    simpa [contract] using h'
  · cases hp

theorem reader_only (slot : Addr) : (reader slot).Only Act.IsRead := by
  intro log c p hp
  cases c with
  | size =>
    cases hp
    exact Prog.only_bind (msmArraySize_only slot) fun _ => trivial
  | get i =>
    simp only [reader] at hp
    split at hp
    · cases hp
      refine Prog.only_bind ?_ fun _ => trivial
      simp only [msmArrayGetInt32, reduceCtorEq, if_false]
      exact Prog.only_bind (msmArrayGet_only slot i int32SlotSize) fun _ => ⟨trivial, fun _ => trivial⟩
    · cases hp

/-! ## Every run -/

variable {ι : Type} {slot : Addr} {m₀ : Mem}

/-- The writer's contract along a run. -/
structure Trail (ρ : Run (writer slot) (reader slot) ι m₀) (γ : Nat → Pushed) : Prop where
  ok : ∀ t, Ok slot (ρ.state t) (γ t)
  at_writer : ∀ t, (contract slot).At (ρ.sys t).writer (ρ.state t) (γ t)
  moves : ∀ t, γ (t + 1) = γ t ∨ ∃ a, Moved slot (γ t) a (ρ.state (t + 1)) (γ (t + 1))

theorem exists_trail (h0 : Zeroed m₀ slot) (hs : m₀.script = [])
    (ρ : Run (writer slot) (reader slot) ι m₀) : ∃ γ, Trail ρ γ := by
  have hok : Ok slot m₀ ⟨Ghost.empty _, [], none⟩ :=
    ⟨inv_empty h0, rfl,
      fun _ _ hx => (nomatch hx), fun _ _ hx => (nomatch hx), nofun⟩
  obtain ⟨γ, hγ0, hγ⟩ := ρ.ghost (reader_only slot) (fun a ha _ _ _ he => ha.state_eq he)
    (contract_holds slot) (⟨hok, hs, rfl, rfl, rfl⟩ : Idle slot [] m₀ _) fun _ => trivial
  have hall (t : Nat) : Ok slot (ρ.state t) (γ t) := by
    induction t with
    | zero => rw [hγ0, ρ.state_zero]; exact hok
    | succ t ih =>
      rcases (hγ t).2.moves with ⟨hst, hg⟩ | ⟨c, a, k, _, ht⟩
      · rw [hst, hg]; exact ih
      · exact (ht ih).ok
  refine ⟨γ, hall, fun t => (hγ t).1, fun t => ?_⟩
  rcases (hγ t).2.moves with ⟨_, hg⟩ | ⟨c, a, k, _, ht⟩
  · exact .inl hg
  · exact .inr ⟨a, ht (hall t)⟩

/-- What a payload load finds: the value pushed, or the zero of an element whose
payload is still to be stored. -/
def Found (G : Pushed) (i : Nat) (v : UInt32) : Prop :=
  G.vals[i]? = some v ∨ ∃ w, G.pend = some w ∧ i = G.vals.length ∧ v = 0

section ok
variable {m : Mem} {G : Pushed}

theorem Ok.size_le_all (h : Ok slot m G) {b : Nat} {x : Node} (hx : G.arr.heap b = some x) :
    x.size ≤ G.all.length := by
  rcases h.size_le b x hx with hle | ⟨hc, _⟩
  · rw [Pushed.all, List.length_append]
    omega
  · rw [← h.size, cur_eq hc hx]

theorem Ok.load (h : Ok slot m G) {b i : Nat} {x : Node} (hx : G.arr.heap b = some x)
    (hi : i < x.size) : ∃ v, m.load .u32 ⟨b, 8 + i * 8 + 4⟩ = some v ∧ Found G i v := by
  have hat := h.inv.repr.node b x hx
  rcases Nat.lt_or_ge i G.vals.length with hlt | hge
  · have hv := List.getElem?_eq_getElem hlt
    exact ⟨_, load_enc hat (h.elems b x hx i _ hi hv), .inl hv⟩
  · rcases h.size_le b x hx with hle | ⟨hc, hne⟩
    · omega
    · obtain ⟨w, hw⟩ := Option.ne_none_iff_exists'.mp hne
      have hlen : G.all.length = G.vals.length + 1 := by
        rw [Pushed.all, hw, List.length_append]
        rfl
      have hle := h.size_le_all hx
      have hi' : i = G.vals.length := by omega
      have hz := h.pend w hw
      rw [cur_eq hc hx, ← hi'] at hz
      exact ⟨0, load_zeros hat hz, .inr ⟨w, hw, hi', rfl⟩⟩

end ok

namespace Trail
variable {ρ : Run (writer slot) (reader slot) ι m₀} {γ : Nat → Pushed} (h : Trail ρ γ)
include h

theorem later {t u : Nat} (htu : t ≤ u) : Later (γ t).arr (γ u).arr := by
  induction u, htu using Nat.le_induction with
  | base => exact Later.refl _
  | succ u _ ih =>
    rcases h.moves u with hg | ⟨a, hm⟩
    · rw [hg]; exact ih
    · exact ih.trans hm.later

theorem all_mono {t u : Nat} (htu : t ≤ u) : (γ t).all <+: (γ u).all := by
  induction u, htu using Nat.le_induction with
  | base => exact List.prefix_refl _
  | succ u _ ih =>
    rcases h.moves u with hg | ⟨a, hm⟩
    · rw [hg]; exact ih
    · exact ih.trans hm.all

theorem shown : Shown slot int32SlotSize.toNat ρ.state fun t => (γ t).arr where
  inv t := (h.ok t).inv
  elems_le _ _ b x htu hx := by
    obtain ⟨x', hx', _, hle⟩ := h.later htu b x hx
    exact ⟨x', hx', hle⟩

/-! ## The writer's thread and the ghost state -/

/-- What has been committed was pushed. -/
theorem all_le (t : Nat) : (γ t).all <+: pushed (ρ.sys t).writer := by
  have hat := h.at_writer t
  rcases hw : (ρ.sys t).writer with ⟨log, _ | ⟨c, p⟩⟩
  · rw [hw] at hat
    have hidle : Idle slot (log.map Prod.fst) (ρ.state t) (γ t) := hat
    rw [Pushed.all, hidle.vals, hidle.pend]
    exact List.prefix_refl _
  · rw [hw] at hat
    -- what is left of the push takes it to its end, and commits only more
    have hsafe : p.Safe (T slot) noFault
        (fun x s G => Idle slot ((log ++ [(c, x)]).map Prod.fst) s G) (ρ.state t) (γ t) := hat
    have hinv := hsafe.inv (I := fun s G => Ok slot s G ∧ (γ t).all <+: G.all)
      (fun _ _ _ _ _ hI ht => ⟨(ht hI.1).ok, hI.2.trans (ht hI.1).all⟩)
      ⟨h.ok t, List.prefix_refl _⟩
    obtain ⟨x, s, G, _, ⟨_, hpre⟩, hidle⟩ := (hinv.mono (fun _ _ _ _ _ => id)
      (fun _ _ _ h => h.2) fun _ _ _ => id).run_total
    have hG : G.all = @pushed slot ⟨log, some (c, p)⟩ := by
      rw [Pushed.all, hidle.vals, hidle.pend]
      simp [pushed]
    rwa [hG] at hpre

theorem not_faults (t : Nat) : ¬ (ρ.sys t).writer.Faults (ρ.state t) :=
  (h.at_writer t).not_faults fun _ => id

/-- A payload that is still to be stored is what the writer stores next. -/
theorem stores_of_pend {t : Nat} {w : UInt32} (hw : (γ t).pend = some w) :
    ∃ b, (γ t).arr.cur = some b ∧ Stores (ρ.sys t).writer
      (some ⟨b, 8 + (γ t).vals.length * 8 + 4⟩) w := by
  have hat := h.at_writer t
  rcases hx : (ρ.sys t).writer with ⟨log, _ | ⟨c, p⟩⟩
  · rw [hx] at hat
    have hidle : Idle slot (log.map Prod.fst) (ρ.state t) (γ t) := hat
    rw [hidle.pend] at hw
    cases hw
  · rw [hx] at hat
    cases p with
    | ret v =>
      have hidle : Idle slot ((log ++ [(c, v)]).map Prod.fst) (ρ.state t) (γ t) := hat
      rw [hidle.pend] at hw
      cases hw
    | act a k =>
      obtain ⟨s', G', ht⟩ := hat.act_ok fun _ => id
      have hp := (ht (h.ok t)).poised
      rw [Poised, hw] at hp
      obtain ⟨b, hb, rfl⟩ := hp
      exact ⟨b, hb, c, k, rfl⟩

/-- A payload store of the writer is of the element committed without it. -/
theorem pend_of_stores {t : Nat} {p : Ptr} {v : UInt32} (hs : Stores (ρ.sys t).writer p v) :
    (γ t).pend = some v ∧ ∃ b, (γ t).arr.cur = some b ∧
      p = some ⟨b, 8 + (γ t).vals.length * 8 + 4⟩ := by
  obtain ⟨c, k, hc⟩ := hs
  have hat := h.at_writer t
  rcases hx : (ρ.sys t).writer with ⟨log, cur⟩
  rw [hx] at hat hc
  obtain rfl : cur = some (c, .act (.store .plain .u32 p v) k) := hc
  obtain ⟨s', G', ht⟩ := hat.act_ok fun _ => id
  have hp := (ht (h.ok t)).poised
  rw [Poised] at hp
  cases hpend : (γ t).pend with
  | none =>
    rw [hpend] at hp
    exact absurd rfl hp
  | some w =>
    rw [hpend] at hp
    obtain ⟨b, hb, he⟩ := hp
    cases he
    exact ⟨rfl, b, hb, rfl⟩

/-! ## The readers -/

/-- The sizes a reader has observed are sizes the array has had. -/
def SizesOk (γ : Nat → Pushed) (log : List (RCall × RVal)) (t : Nat) : Prop :=
  ∀ s ∈ sizes RVal.observed log, s ≤ (γ t).all.length

/-- What a call after `log` returns. -/
def Result (γ : Nat → Pushed) (log : List (RCall × RVal)) (c : RCall) (v : RVal) (t : Nat) : Prop :=
  SizesOk γ log t ∧ match c, v with
    | .size, .size n => n.toNat ≤ (γ t).all.length
    | .get i, .value v => Found (γ t) i.toNat v
    | _, _ => False

theorem sizesOk_mono {log : List (RCall × RVal)} {t u : Nat} (hl : SizesOk γ log t)
    (htu : t ≤ u) : SizesOk γ log u :=
  fun s hs => Nat.le_trans (hl s hs) (h.all_mono htu).length_le

omit h in
theorem Result.sizesOk {log : List (RCall × RVal)} {c : RCall} {v : RVal} {t : Nat}
    (hr : Result γ log c v t) : SizesOk γ (log ++ [(c, v)]) t := by
  obtain ⟨hl, hv⟩ := hr
  intro s hs
  rw [sizes_append] at hs
  rcases List.mem_append.mp hs with hs | hs
  · exact hl s hs
  · cases v with
    | value w => cases hs
    | size n =>
      obtain rfl : s = n.toNat := List.mem_singleton.mp hs
      cases c with
      | size => exact hv
      | get i => exact hv.elim

theorem call_sampled {log : List (RCall × RVal)} {c : RCall} {p : CProg RVal} {t : Nat}
    (hl : SizesOk γ log t) (hp : (reader slot).code log c = some p) :
    p.Sampled ρ.state (Result γ log c) t := by
  cases c with
  | size =>
    cases hp
    refine Prog.Sampled.bind ((h.shown.size_sampled t).mono ?_)
    intro n u htu hw
    obtain ⟨w, _, _, hv⟩ := hw
    refine ⟨h.sizesOk_mono hl htu, ?_⟩
    show n.toNat ≤ (γ u).all.length
    cases hc : (γ w).arr.cur with
    | none => rw [hc] at hv; omega
    | some b =>
      rw [hc] at hv
      obtain ⟨x, hx, hv⟩ := hv
      rw [hv]
      exact (h.ok u).size_le_all hx
  | get i =>
    simp only [reader] at hp
    split at hp
    · rename_i hobs
      cases hp
      obtain ⟨s, hs, his⟩ := hobs
      simp only [msmArrayGetInt32, reduceCtorEq, if_false]
      refine Prog.Sampled.bind (Prog.Sampled.bind ((h.shown.get_sampled (by decide) i t).mono ?_))
      intro q u _ hw
      obtain ⟨w, htw, hwu, hq⟩ := hw
      have hsize : i.toNat < (cur (γ w).arr).size := by
        have h1 := hl s hs
        have h2 := (h.all_mono htw).length_le
        rw [(h.ok w).size]
        omega
      cases hc : (γ w).arr.cur with
      | none => rw [cur_none hc] at hsize; exact absurd hsize (Nat.not_lt_zero _)
      | some b =>
        rw [hc] at hq
        obtain ⟨x, hx, rfl⟩ := hq
        obtain ⟨y, hy, hle, _⟩ := h.later hwu b _ ((h.ok w).inv.cur_node hc)
        obtain rfl : x = y := Option.some.inj (hx.symm.trans hy)
        rw [if_pos (Nat.lt_of_lt_of_le hsize hle)]
        refine sampled_load fun v hv => ?_
        obtain ⟨z, hz, hle', _⟩ := h.later hv b x hx
        obtain ⟨val, hval, hfound⟩ := (h.ok v).load hz
          (Nat.lt_of_lt_of_le hsize (Nat.le_trans hle hle'))
        exact ⟨val, hval, h.sizesOk_mono hl (by omega), hfound⟩
    · cases hp

theorem call_inv (i : ι) (t : Nat) :
    SizesOk γ ((ρ.sys t).reader i).log t ∧ ∀ c p, ((ρ.sys t).reader i).cur = some (c, p) →
      ∃ u, u ≤ t ∧ p.Sampled ρ.state (Result γ ((ρ.sys t).reader i).log c) u :=
  ρ.call_inv (I := SizesOk γ) (fun _ hs => (nomatch hs)) (fun _ _ _ hl htu => h.sizesOk_mono hl htu)
    (fun _ _ _ _ hl hp => h.call_sampled hl hp) (fun _ _ _ _ hr => hr.sizesOk) i t

theorem found {i : ι} {t : Nat} {k v : UInt32} (hr : ρ.Returns i t (.get k) (.value v)) :
    Found (γ t) k.toNat v := (hr.sampled (h.call_inv i t).2).2

/-- A value is right exactly when the payload is there, or is the zero that is. -/
theorem right_iff {t : Nat} {k v : UInt32} (hf : Found (γ t) k.toNat v) :
    (pushed (ρ.sys t).writer)[k.toNat]? = some v ↔ ¬ Unfilled (ρ.sys t) k := by
  have hbuf := (h.ok t).inv.bufPtr_eq
  have hpre {w : UInt32} (hw : (γ t).all[k.toNat]? = some w) :
      (pushed (ρ.sys t).writer)[k.toNat]? = some w := by
    obtain ⟨r, hr⟩ := h.all_le t
    rw [← hr, List.getElem?_append_left (List.getElem?_eq_some_iff.mp hw).1, hw]
  -- the payload store of element `k` is of the element committed without it
  have hunfilled {w : UInt32} (hs : Stores (ρ.sys t).writer
      (bufPtr (ρ.sys t).state slot + (8 + k.toNat * 8 + 4)) w) :
      (γ t).pend = some w ∧ k.toNat = (γ t).vals.length := by
    obtain ⟨hw, b, hb, he⟩ := h.pend_of_stores hs
    refine ⟨hw, ?_⟩
    rw [show bufPtr (ρ.sys t).state slot = some ⟨b, 0⟩ by rw [← basePtr_some, ← hb]; exact hbuf] at he
    simp only [Ptr.some_add, Addr.mk_add, Option.some.injEq, Addr.mk.injEq, true_and] at he
    omega
  rcases hf with hv | ⟨w, hw, hk, rfl⟩
  · have hright := hpre (w := v) (by
      rw [Pushed.all, List.getElem?_append_left (List.getElem?_eq_some_iff.mp hv).1, hv])
    refine iff_of_true hright ?_
    rintro ⟨w, _, hs⟩
    have := (List.getElem?_eq_some_iff.mp hv).1
    have := (hunfilled hs).2
    omega
  · have hright := hpre (w := w) (by
      rw [Pushed.all, hw, hk, List.getElem?_append_right (Nat.le_refl _), Nat.sub_self]; rfl)
    rw [hright]
    constructor
    · intro h0
      rintro ⟨w', hw', hs⟩
      have := (hunfilled hs).1
      rw [hw, h0] at this
      exact hw' (Option.some.inj this).symm
    · intro hno
      by_cases h0 : w = 0
      · rw [h0]
      · obtain ⟨b, hb, hs⟩ := h.stores_of_pend hw
        refine absurd ⟨w, h0, ?_⟩ hno
        rw [show bufPtr (ρ.sys t).state slot = some ⟨b, 0⟩ by rw [← basePtr_some, ← hb]; exact hbuf,
          hk]
        simpa [Nat.add_assoc] using hs

end Trail

/-- **FFI reads are exact unless they meet an element without its payload.** In
any interleaving of pushes and reads from a zeroed slot: no thread accesses
memory outside a block; and every `msm_array_get_int32` returns the value pushed
at its index if and only if none gets its value while the writer still has to
store the (nonzero) payload of that very element, after its commit. -/
theorem int32_reads_exact_iff (h0 : Zeroed m₀ slot) (hs : m₀.script = [])
    (ρ : Run (writer slot) (reader slot) ι m₀) :
    (∀ t, ¬ (ρ.sys t).writer.Faults (ρ.state t) ∧
      ∀ i, ¬ ((ρ.sys t).reader i).Faults (ρ.state t)) ∧
    ((∀ i t k v, ρ.Returns i t (.get k) (.value v) →
      (pushed (ρ.sys t).writer)[k.toNat]? = some v) ↔
    ∀ i t k v, ρ.Returns i t (.get k) (.value v) → ¬ Unfilled (ρ.sys t) k) := by
  obtain ⟨γ, h⟩ := exists_trail h0 hs ρ
  refine ⟨fun t => ⟨h.not_faults t, fun i => ρ.not_faults_of_sampled (h.call_inv i t).2⟩, ?_, ?_⟩
  · intro hall i t k v hr
    exact (h.right_iff (h.found hr)).mp (hall i t k v hr)
  · intro hall i t k v hr
    exact (h.right_iff (h.found hr)).mpr (hall i t k v hr)

/-! Two runs that push 7, which a reader gets: in the first after the push, in the
second between its commit and the store of its payload. -/

def getAfter (t : Nat) : Choice (writer ⟨0, 0⟩) (reader ⟨0, 0⟩) Unit :=
  if t < 15 then .writer (7 : UInt32)
  else if t < 19 then .reader () .size
  else .reader () (.get 0)

def getEarly (t : Nat) : Choice (writer ⟨0, 0⟩) (reader ⟨0, 0⟩) Unit :=
  if t < 13 then .writer (7 : UInt32)
  else if t < 17 then .reader () .size
  else .reader () (.get 0)

theorem int32_reads_exact_iff_after :
    (Run.ofSchedule zeroedSlot getAfter).Returns () 22 (.get 0) (.value 7) ∧
      (pushed ((Run.ofSchedule zeroedSlot getAfter).sys 22).writer)[(0 : UInt32).toNat]? =
        some 7 := by
  have hfull : ∀ i t k v, (Run.ofSchedule zeroedSlot getAfter).Returns i t (.get k) (.value v) →
      ¬ Unfilled ((Run.ofSchedule zeroedSlot getAfter).sys t) k := by
    rintro i t k v ⟨log, a, p, hr, _⟩ ⟨w, _, c, q, hw⟩
    rcases Nat.lt_or_ge t 15 with ht | ht
    · rw [Run.ofSchedule_reader (fun u hu => ?_) i] at hr
      · cases hr
      · simp only [getAfter, show u < 15 by omega, if_true]
        exact ⟨_, rfl⟩
    · rw [Run.ofSchedule_writer ht fun u hu => ?_] at hw
      · cases hw
      · simp only [getAfter, show ¬ u < 15 by omega, if_false]
        split_ifs <;> exact ⟨_, _, rfl⟩
  have hret : (Run.ofSchedule zeroedSlot getAfter).Returns () 22 (.get 0) (.value 7) :=
    ⟨_, _, _, rfl, rfl⟩
  have h := (int32_reads_exact_iff zeroedSlot_zeroed rfl (Run.ofSchedule zeroedSlot getAfter)).2
  exact ⟨hret, h.mpr hfull () 22 0 7 hret⟩

theorem get_before_payload :
    ¬ ∀ (slot : Addr) (m₀ : Mem), Zeroed m₀ slot → m₀.script = [] →
      ∀ (ρ : Run (writer slot) (reader slot) Unit m₀) (i : Unit) (t : Nat) (k v : UInt32),
        ρ.Returns i t (.get k) (.value v) → (pushed (ρ.sys t).writer)[k.toNat]? = some v := by
  intro h
  have hv := h ⟨0, 0⟩ zeroedSlot zeroedSlot_zeroed rfl
    (Run.ofSchedule zeroedSlot getEarly) () 20 0 0
    ⟨_, _, _, rfl, rfl⟩
  exact absurd hv (by decide)

end Msm.Arr.Int32
