import Msm.Arr.Growable
import Msm.Arr.Int32

/-! # The FFI array of int32, when memory may run out

`msm_array_get_int32` reads the payload of whatever `msm_array_get` returns, and
`msm_array_push_int32` stores one into whatever `msm_array_push_back` returns.
Neither looks whether that is null. -/
namespace Msm.Arr.Ffi
open Msm.Exec Msm.CMem Msm.Api Msm.Arr.Int32

inductive Call where
  | push (v : UInt32)
  | reserve (newCap : UInt32)
  | clear

def Call.code (slot : Addr) : Call → CProg Unit
  | .push v => msmArrayPushInt32 (some slot) v
  | .reserve newCap => msmArrayReserve (some slot) newCap int32SlotSize
  | .clear => msmArrayClear (some slot)

def runCalls (slot : Addr) : List Call → CProg Unit
  | [] => pure ()
  | c :: cs => do
    c.code slot
    runCalls slot cs

/-- The values that a call leaves of `vs`. -/
def Call.apply (vs : List UInt32) : Call → List UInt32
  | .push v => vs ++ [v]
  | .reserve _ => vs
  | .clear => []

/-- The values pushed since the last clear. -/
def values (cs : List Call) : List UInt32 := cs.foldl Call.apply []

/-- The array holds the values `vs`. -/
def Stored (slot : Addr) (vs : List UInt32) (m : Mem) : Prop :=
  arraySize m slot = vs.length ∧ arrayElems m slot int32SlotSize.toNat = vs.map enc

/-- Getting element `i` of `vs` returns the value there, and nothing at all is
touched beyond the end. -/
def GetOk (slot : Addr) (vs : List UInt32) (m : Mem) (i : UInt32) : Prop :=
  match (msmArrayGetInt32 (some slot) i).run m with
  | .error _ => False
  | .ok (v, m') => m' = m ∧ ∀ w, vs[i.toNat]? = some w → v = w

/-- Pushing `v` appends it, or returns with the memory as it was. -/
def PushOk (slot : Addr) (vs : List UInt32) (m : Mem) (v : UInt32) : Prop :=
  match (msmArrayPushInt32 (some slot) v).run m with
  | .error _ => False
  | .ok (_, m') => Stored slot (vs ++ [v]) m' ∨ m'.blocks = m.blocks

/-- There is a free element, or the array can grow in 32 bits and in memory. -/
def Room (slot : Addr) (m : Mem) : Prop :=
  arraySize m slot < arrayCap m slot ∨ (arrayCap m slot < 2 ^ 31 ∧ m.mallocOk = true)

/-- Between calls the array holds the values `vs`. -/
structure Holds (slot : Addr) (vs : List UInt32) (m : Mem) (g : State int32SlotSize.toNat) :
    Prop where
  idle : Arr.Idle slot int32SlotSize m g
  items : contents g = vs.map enc

section calls
variable {slot : Addr} {vs : List UInt32} {m : Mem} {g : State int32SlotSize.toNat}
  {F : Fault → Mem → State int32SlotSize.toNat → Prop}

theorem Holds.length (h : Holds slot vs m g) : (cur g).size = vs.length := by
  rw [← (cur g).length_items, show (cur g).items = _ from h.items, List.length_map]

theorem Holds.stored (h : Holds slot vs m g) : Stored slot vs m :=
  ⟨h.idle.1.arraySize_eq.trans h.length, h.idle.1.arrayElems_eq.trans h.items⟩

/-! ## Getting -/

theorem Holds.get_elem (h : Holds slot vs m g) {i : UInt32} {v : UInt32}
    (hv : vs[i.toNat]? = some v) : (msmArrayGetInt32 (some slot) i).run m = .ok (v, m) := by
  have hi : i.toNat < (cur g).size := by
    rw [h.length]
    exact (List.getElem?_eq_some_iff.mp hv).1
  obtain ⟨b, hb⟩ : ∃ b, g.cur = some b := by
    cases hc : g.cur with
    | none => rw [cur_none hc] at hi; exact absurd hi (Nat.not_lt_zero _)
    | some b => exact ⟨b, rfl⟩
  have helem : (cur g).elems[i.toNat]? = some (enc v) := by
    rw [← Node.items_get hi, show (cur g).items = _ from h.items, List.getElem?_map, hv]
    rfl
  have hload := Mem.exec_load (o := .plain) (load_enc (h.idle.1.cur_at hb) helem)
  have hget := Growable.get_run h.idle.1 (by decide) i
  rw [Growable.elemPtr, if_pos hi, hb] at hget
  rw [msmArrayGetInt32, if_neg (Option.some_ne_none _), Prog.run_bind_ok hget]
  simp only [Option.map_some, int32Load, loadU32, Ptr.some_add, Addr.mk_add, Prog.run]
  rw [show (8 : Nat) + i.toNat * int32SlotSize.toNat + 4 = 8 + i.toNat * 8 + 4 from rfl, hload]

/-- Beyond the end the payload is read through null. -/
theorem Holds.get_past (h : Holds slot vs m g) {i : UInt32} (hi : vs.length ≤ i.toNat) :
    (msmArrayGetInt32 (some slot) i).run m = .error .nullDeref := by
  have hget := Growable.get_run h.idle.1 (by decide) i
  rw [Growable.elemPtr, if_neg (by rw [h.length]; omega)] at hget
  rw [msmArrayGetInt32, if_neg (Option.some_ne_none _), Prog.run_bind_ok hget]
  rfl

theorem getOk_iff (h : Holds slot vs m g) (i : UInt32) :
    GetOk slot vs m i ↔ i.toNat < arraySize m slot := by
  rw [h.stored.1, GetOk]
  rcases Nat.lt_or_ge i.toNat vs.length with hi | hi
  · obtain ⟨v, hv⟩ : ∃ v, vs[i.toNat]? = some v := ⟨_, List.getElem?_eq_getElem hi⟩
    rw [h.get_elem hv]
    refine iff_of_true ⟨rfl, fun w hw => ?_⟩ hi
    exact Option.some.inj (hv.symm.trans hw)
  · rw [h.get_past hi]
    exact iff_of_false id (Nat.not_lt.mpr hi)

/-! ## Pushing -/

/-- A push under way: element `size` is zeroed and not committed. -/
structure Prepared (slot : Addr) (vs : List UInt32) (b : Nat) (m : Mem)
    (g : State int32SlotSize.toNat) : Prop where
  inv : Inv slot int32SlotSize.toNat m g
  cur_eq : g.cur = some b
  filling : (cur g).filling = true
  items : contents g = vs.map enc
  zero : (cur g).elems[(cur g).size]? = some (zeros 8)

/-- The commit, and the store of the payload after it. -/
theorem finish_safe {b : Nat} (h : Prepared slot vs b m g) (v : UInt32) :
    (do
      msmArrayCommitPush (some slot)
      int32Store (some ⟨b, 8 + (cur g).size * 8⟩) v).Safe anyMove F
      (fun _ m' g' => Holds slot (vs ++ [v]) m' g') m g := by
  refine Prog.Safe.bind (msmArrayCommitPush_safe h.inv h.cur_eq h.filling ?_).any
  intro m₁ g₁ _ hI hu
  have hcur := hu.cur_eq
  have hb : g₁.cur = some b := by
    obtain ⟨c, _, rfl⟩ := hu
    exact h.cur_eq
  have hz : (cur g₁).elems[(cur g).size]? = some (zeros 8) := by rw [hcur]; exact h.zero
  obtain ⟨hvalid, hI'⟩ := store_payload hI hb hz v
  have hcur' : cur (g₁.set b ((cur g₁).put (cur g).size (enc v))) =
      (cur g₁).put (cur g).size (enc v) := cur_eq hb (g₁.set_heap_self ..)
  refine Prog.safe_act _ (Mem.exec_store hvalid) trivial ⟨⟨hI', ?_⟩, ?_⟩
  · rw [hcur', hcur]
    rfl
  · have hsize : (cur g).size = (vs.map enc).length := by
      rw [← (cur g).length_items, show (cur g).items = _ from h.items]
    rw [contents, hcur', Node.items_put, hcur,
      Node.items_commit _ h.filling h.zero, show (cur g).items = _ from h.items, hsize,
      List.set_append_right _ _ (Nat.le_refl _), Nat.sub_self, List.map_append]
    rfl

/-- A push with room, or one that finds none. -/
theorem push_safe {Q : Mem → State int32SlotSize.toNat → Prop} (h : Holds slot vs m g) (v : UInt32)
    (hnull : g.cur = none → m.mallocOk = false → F .nullDeref m.tick g)
    (hfull : ∀ m', g.cur ≠ none → (cur g).cap ≤ (cur g).size →
      (2 ^ 31 ≤ (cur g).cap ∨ m.mallocOk = false) → F .outOfBounds m' g)
    (hok : ∀ m' g', ((cur g).size < (cur g).cap ∨
      ((cur g).cap < 2 ^ 31 ∧ m.mallocOk = true)) → Holds slot (vs ++ [v]) m' g' → Q m' g') :
    (msmArrayPushInt32 (some slot) v).Safe anyMove F (fun _ m' g' => Q m' g') m g := by
  rw [msmArrayPushInt32, if_neg (Option.some_ne_none _), arrayPushBack, msmArrayPushBack,
    Prog.bind_assoc]
  refine Prog.Safe.bind (msmArrayPreparePush_safe h.idle.1 (by decide) h.idle.2 ?_ hfull ?_).any
  · intro hc hm
    exact Prog.safe_fault rfl (hnull hc hm)
  · intro m' g' b hroom hI hb hcont hsize hf hz _ _ _
    have hprep : Prepared slot vs b m' g' := ⟨hI, hb, hf, hcont.trans h.items, hz⟩
    simp only [ne_eq, reduceCtorEq, not_false_eq_true, if_true]
    rw [Prog.bind_assoc]
    exact (finish_safe hprep v).post fun _ m'' g'' h' => hok m'' g'' hroom h'

theorem room_iff (h : Holds slot vs m g) : Room slot m ↔
    (cur g).size < (cur g).cap ∨ ((cur g).cap < 2 ^ 31 ∧ m.mallocOk = true) := by
  rw [Room, h.idle.1.arraySize_eq, h.idle.1.arrayCap_eq]

theorem pushOk_of_room (h : Holds slot vs m g) (v : UInt32) (hr : Room slot m) :
    PushOk slot vs m v := by
  have hroom := (room_iff h).mp hr
  have hsafe : (msmArrayPushInt32 (some slot) v).Safe anyMove (fun _ _ _ => False)
      (fun _ m' _ => Stored slot (vs ++ [v]) m') m g := by
    refine push_safe h v ?_ ?_ fun _ _ _ h' => h'.stored
    · intro hc hm
      rcases hroom with hlt | ⟨_, hok⟩
      · rw [cur_none hc] at hlt; exact Nat.lt_irrefl 0 hlt
      · rw [hm] at hok; cases hok
    · intro _ _ hle hbad
      rcases hroom with hlt | ⟨hsmall, hok⟩
      · omega
      · rcases hbad with hbig | hm
        · omega
        · rw [hm] at hok; cases hok
  obtain ⟨_, m', _, hrun, hstored⟩ := hsafe.run_total
  rw [PushOk, hrun]
  exact .inl hstored

theorem room_of_pushOk (h : Holds slot vs m g) (v : UInt32) (hp : PushOk slot vs m v) :
    Room slot m := by
  rw [room_iff h]
  by_contra hr
  have hsafe : (msmArrayPushInt32 (some slot) v).Safe anyMove
      (fun (_ : Fault) (_ : Mem) (_ : State int32SlotSize.toNat) => True)
      (fun _ _ _ => False) m g :=
    push_safe h v (fun _ _ => trivial) (fun _ _ _ _ => trivial) fun _ _ hroom _ => hr hroom
  rw [PushOk] at hp
  split at hp
  · exact hp
  · rename_i hrun
    obtain ⟨_, hq, _⟩ := hsafe.run_ok hrun
    exact hq

/-! ## Any sequence of calls -/

/-- A call that returns leaves the values that the model says. -/
theorem Call.code_safe (h : Holds slot vs m g) (c : Call) :
    (c.code slot).Safe anyMove (fun _ _ _ => True) (fun _ m' g' => Holds slot (c.apply vs) m' g')
      m g := by
  cases c with
  | push v => exact push_safe h v (fun _ _ => trivial) (fun _ _ _ _ => trivial) fun _ _ _ h' => h'
  | reserve newCap =>
    refine (msmArrayReserve_safe (o := .reserve) h.idle.1 (by decide) ⟨h.idle.2, .inl rfl⟩ h.idle.2
      (fun g' hp => ⟨h.idle.2, .inr hp⟩) (fun _ => h)
      (fun _ _ => ⟨⟨⟨h.idle.1.repr.tick, h.idle.1.cur_some, h.idle.1.filling_cur⟩, h.idle.2⟩,
        h.items⟩) ?_).any
    intro m' hs _ _ _ hI
    have hcur : cur (grown m g newCap hs) = (cur g).grow newCap.toNat hs newCap.toNat_lt := by
      simp [grown, cur]
    refine ⟨⟨hI, by rw [hcur]; rfl⟩, ?_⟩
    rw [contents, hcur, Node.items_grow]
    exact h.items
  | clear =>
    refine (msmArrayClear_safe h.idle.1 h.idle.2 ?_).any
    intro m' g' _ hI hu
    rcases hu with ⟨rfl, hc⟩ | hu
    · refine ⟨⟨hI, h.idle.2⟩, ?_⟩
      rw [contents, cur_none hc]
      rfl
    · refine ⟨⟨hI, by rw [hu.cur_eq]; rfl⟩, ?_⟩
      rw [contents, hu.cur_eq]
      rfl

theorem runCalls_safe (h : Holds slot vs m g) (cs : List Call) :
    (runCalls slot cs).Safe anyMove (fun _ _ _ => True)
      (fun _ m' g' => Holds slot (cs.foldl Call.apply vs) m' g') m g := by
  induction cs generalizing m g vs with
  | nil => exact h
  | cons c cs ih => exact Prog.Safe.bind ((c.code_safe h).post fun _ _ _ h' => ih h')

/-- **The accessors stay off null exactly when there is an element.** After any
calls that return, each allocation granted or not, the array holds the values
pushed since the last clear; getting one is as promised if and only if the index
is below the size, and pushing one if and only if there is a free element or the
array can grow. -/
theorem accessors_ok_iff {m₀ : Mem} (h0 : Zeroed m₀ slot) (cs : List Call)
    (hr : (runCalls slot cs).run m₀ = .ok ((), m)) :
    Stored slot (values cs) m ∧
      (∀ i, GetOk slot (values cs) m i ↔ i.toNat < arraySize m slot) ∧
      ∀ v, PushOk slot (values cs) m v ↔ Room slot m := by
  have hinit : Holds slot [] m₀ (Ghost.empty _) := ⟨⟨inv_empty h0, rfl⟩, rfl⟩
  obtain ⟨g, h, _⟩ := (runCalls_safe hinit cs).run_ok hr
  exact ⟨h.stored, getOk_iff h, fun v => ⟨room_of_pushOk h v, pushOk_of_room h v⟩⟩

end calls

/-- The scalar accessors do check their pointer: on any slot, or none, what
`msm_write_int32` has written `msm_read_int32` reads. -/
theorem scalar_accessors (m : Mem) (p : Ptr) (hp : ∀ a, p = some a → m.Valid a 8) (v : UInt32) :
    ∃ m', (msmWriteInt32 p v).run m = .ok ((), m') ∧
      (msmReadInt32 p).run m' = .ok (if p = none then 0 else v, m') := by
  cases p with
  | none => exact ⟨m, rfl, rfl⟩
  | some a =>
    have hv : m.Valid (a + 4) Kind.u32.size := (hp a rfl).mono (d := 4) (by simp [Kind.size])
    have hload := Mem.load_write_same (k := .u32) v hv
    refine ⟨m.write (a + 4) (Kind.u32.encode v), ?_, ?_⟩
    · simp [msmWriteInt32, store, Prog.run, Mem.exec_store hv]
    · simp [msmReadInt32, loadU32, Prog.run, Mem.exec_load hload]

/-! A slot to which 7 has been pushed, and one whose first allocation fails. -/

theorem accessors_ok_iff_seven : ∃ m, (runCalls ⟨0, 0⟩ [.push 7]).run zeroedSlot = .ok ((), m) ∧
    Stored ⟨0, 0⟩ [7] m ∧ GetOk ⟨0, 0⟩ [7] m 0 ∧ ¬ GetOk ⟨0, 0⟩ [7] m 1 ∧
      PushOk ⟨0, 0⟩ [7] m 8 := by
  have hrun : ∃ m, (runCalls ⟨0, 0⟩ [.push 7]).run zeroedSlot = .ok ((), m) ∧
      arraySize m ⟨0, 0⟩ = 1 ∧ arrayCap m ⟨0, 0⟩ = 8 := ⟨_, rfl, rfl, rfl⟩
  obtain ⟨m, hr, hsize, hcap⟩ := hrun
  obtain ⟨hstored, hget, hpush⟩ := accessors_ok_iff zeroedSlot_zeroed [.push 7] hr
  refine ⟨m, hr, hstored, (hget 0).mpr ?_, fun h => ?_, (hpush 8).mpr ?_⟩
  · rw [hsize]
    decide
  · have hlt := (hget 1).mp h
    rw [hsize] at hlt
    exact absurd hlt (by decide)
  · exact .inl (by rw [hsize, hcap]; decide)

def firstFails : Mem := { zeroedSlot with script := [false] }

theorem firstFails_zeroed : Zeroed firstFails ⟨0, 0⟩ := zeroedSlot_zeroed

/-- Both go through the null element pointer there. -/
theorem accessors_through_null :
    (msmArrayGetInt32 (some ⟨0, 0⟩) 0).run firstFails = .error .nullDeref ∧
    (msmArrayPushInt32 (some ⟨0, 0⟩) 7).run firstFails = .error .nullDeref ∧
    ¬ ∀ (slot : Addr) (m₀ m : Mem) (cs : List Call), Zeroed m₀ slot →
      (runCalls slot cs).run m₀ = .ok ((), m) →
        (∀ i, GetOk slot (values cs) m i) ∧ ∀ v, PushOk slot (values cs) m v := by
  refine ⟨rfl, rfl, fun h => ?_⟩
  exact (h ⟨0, 0⟩ firstFails firstFails [] firstFails_zeroed rfl).1 0

end Msm.Arr.Ffi
