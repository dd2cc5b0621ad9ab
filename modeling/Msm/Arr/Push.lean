import Msm.Arr.Writer

/-! # Pushing, when memory may run out

An array slot as any sequence of reserve, push_back and clear calls leaves it,
each allocation succeeding or failing. prepare_push stays inside the buffer
exactly when it has room or can grow: it does not look at the capacity again
after the growth has failed. -/
namespace Msm.Arr
open Msm.Exec Msm.CMem Msm.Api

inductive Call where
  | reserve (newCap : UInt32)
  | pushBack
  | clear

def Call.code (slot : Addr) (itemSize : UInt32) : Call → CProg Unit
  | .reserve newCap => msmArrayReserve (some slot) newCap itemSize
  | .pushBack => do
    let _ ← msmArrayPushBack (some slot) itemSize
    pure ()
  | .clear => msmArrayClear (some slot)

/-- The states that calls which do not fault reach from `m₀`. -/
inductive Reachable (slot : Addr) (itemSize : UInt32) (m₀ : Mem) : Mem → Prop
  | init : Reachable slot itemSize m₀ m₀
  | call {m m' : Mem} {c : Call} : Reachable slot itemSize m₀ m →
      (c.code slot itemSize).run m = .ok ((), m') → Reachable slot itemSize m₀ m'

/-- What prepare_push promises: null and an unchanged array, or the address of
element `size` of the current buffer, with `size` below the capacity. -/
def PrepareOk (slot : Addr) (itemSize : UInt32) (m : Mem) : Prop :=
  match (msmArrayPreparePush (some slot) itemSize).run m with
  | .error _ => False
  | .ok (p, m') => arraySize m' slot = arraySize m slot ∧
      arrayElems m' slot itemSize.toNat = arrayElems m slot itemSize.toNat ∧
      match p with
      | none => arrayCap m' slot = arrayCap m slot
      | some a => some a = bufPtr m' slot + (8 + arraySize m slot * itemSize.toNat) ∧
          arraySize m' slot < arrayCap m' slot ∧ m'.Valid a itemSize.toNat

/-- Pushing stays inside the buffer, and keeps the size within the capacity. -/
def PushOk (slot : Addr) (itemSize : UInt32) (m : Mem) : Prop :=
  PrepareOk slot itemSize m ∧ match (msmArrayPushBack (some slot) itemSize).run m with
    | .error _ => False
    | .ok (_, m') => arraySize m' slot ≤ arrayCap m' slot

/-- The buffer is null, has room, or can grow in 32 bits and in memory. -/
def HasRoom (slot : Addr) (m : Mem) : Prop :=
  bufPtr m slot = none ∨ arraySize m slot < arrayCap m slot ∨
    (arrayCap m slot < 2 ^ 31 ∧ m.mallocOk = true)

/-- Between calls: the slot is well formed and no push is under way. -/
def Idle (slot : Addr) (itemSize : UInt32) (m : Mem) (g : State itemSize.toNat) : Prop :=
  Inv slot itemSize.toNat m g ∧ (cur g).filling = false

section calls
variable {slot : Addr} {itemSize : UInt32} {m : Mem} {g : State itemSize.toNat}
  {F : Fault → Mem → State itemSize.toNat → Prop}

/-- A sequential caller asks nothing of the moves in between. -/
abbrev anyMove {n : Nat} : State n → Mem → Act → Mem → State n → Prop := fun _ _ _ _ _ => True

theorem not_hasRoom (h : Idle slot itemSize m g) (hr : HasRoom slot m) (hc : g.cur ≠ none)
    (hle : (cur g).cap ≤ (cur g).size) (hbad : 2 ^ 31 ≤ (cur g).cap ∨ m.mallocOk = false) :
    False := by
  rw [HasRoom, h.1.bufPtr_eq, h.1.arraySize_eq, h.1.arrayCap_eq] at hr
  rcases hr with hn | hlt | ⟨hsmall, hm⟩
  · cases hg : g.cur with
    | none => exact hc hg
    | some b => rw [hg] at hn; cases hn
  · omega
  · rcases hbad with hbig | hfail
    · omega
    · rw [hm] at hfail; cases hfail

/-- push_back: prepare_push, then the commit of the zeroed element. -/
theorem msmArrayPushBack_safe {Q : Ptr → Mem → State itemSize.toNat → Prop}
    (h : Idle slot itemSize m g) (hn : itemSize ≠ 0)
    (hfull : ∀ m', g.cur ≠ none → (cur g).cap ≤ (cur g).size →
      (2 ^ 31 ≤ (cur g).cap ∨ m.mallocOk = false) → F .outOfBounds m' g)
    (hQ : ∀ p m' g', Idle slot itemSize m' g' → Q p m' g') :
    (msmArrayPushBack (some slot) itemSize).Safe anyMove F Q m g := by
  refine Prog.Safe.bind ?_
  refine (msmArrayPreparePush_safe h.1 hn h.2 ?_ hfull ?_).any
  · intro _ _
    exact hQ _ _ _ ⟨⟨h.1.repr.tick, h.1.cur_some, h.1.filling_cur⟩, h.2⟩
  · intro m' g' b _ hI hb _ _ hf _ _ _ _
    simp only [ne_eq, reduceCtorEq, not_false_eq_true, if_true]
    refine Prog.Safe.bind ?_
    refine (msmArrayCommitPush_safe hI hb hf ?_).any
    intro m'' g'' _ hI' hu
    exact hQ _ _ _ ⟨hI', by rw [hu.cur_eq]; rfl⟩

theorem Call.code_safe (h : Idle slot itemSize m g) (hn : itemSize ≠ 0) (c : Call) :
    (c.code slot itemSize).Safe anyMove (fun _ _ _ => True)
      (fun _ m' g' => Idle slot itemSize m' g') m g := by
  cases c with
  | reserve newCap =>
    refine (msmArrayReserve_safe (o := .reserve) h.1 hn ⟨h.2, .inl rfl⟩ h.2
      (fun g' hp => ⟨h.2, .inr hp⟩) (fun _ => h)
      (fun _ _ => ⟨⟨h.1.repr.tick, h.1.cur_some, h.1.filling_cur⟩, h.2⟩) ?_).any
    intro m' hs _ _ _ hI
    exact ⟨hI, by simp [grown, cur, Node.grow]⟩
  | pushBack =>
    refine Prog.Safe.bind ?_
    exact msmArrayPushBack_safe h hn (fun _ _ _ _ => trivial) fun _ _ _ h' => h'
  | clear =>
    refine (msmArrayClear_safe h.1 h.2 ?_).any
    intro m' g' _ hI hu
    refine ⟨hI, ?_⟩
    rcases hu with ⟨rfl, _⟩ | hu
    · exact h.2
    · rw [hu.cur_eq]; rfl

/-- Every reachable state is a well-formed array with no push under way. -/
theorem Reachable.idle {m₀ : Mem} (h0 : Zeroed m₀ slot) (hn : itemSize ≠ 0)
    (h : Reachable slot itemSize m₀ m) : ∃ g, Idle slot itemSize m g := by
  induction h with
  | init => exact ⟨_, inv_empty h0, rfl⟩
  | call _ hr ih =>
    obtain ⟨g, hg⟩ := ih
    obtain ⟨g', hg', _⟩ := (Call.code_safe hg hn _).run_ok hr
    exact ⟨g', hg'⟩

theorem prepareOk_of_hasRoom (h : Idle slot itemSize m g) (hn : itemSize ≠ 0)
    (hr : HasRoom slot m) : PrepareOk slot itemSize m := by
  have hsafe : (msmArrayPreparePush (some slot) itemSize).Safe (T slot itemSize.toNat .prepare)
      (fun _ _ _ => False) (fun p m' _ => arraySize m' slot = arraySize m slot ∧
        arrayElems m' slot itemSize.toNat = arrayElems m slot itemSize.toNat ∧
        match p with
        | none => arrayCap m' slot = arrayCap m slot
        | some a => some a = bufPtr m' slot + (8 + arraySize m slot * itemSize.toNat) ∧
            arraySize m' slot < arrayCap m' slot ∧ m'.Valid a itemSize.toNat) m g := by
    refine msmArrayPreparePush_safe h.1 hn h.2 ?_ (fun _ => not_hasRoom h hr) ?_
    · intro _ _
      exact ⟨rfl, rfl, rfl⟩
    · intro m' g' b _ hI hb hcont hsize hf _ _ _ _
      have hpos : 0 < itemSize.toNat := Nat.pos_of_ne_zero fun h0 => hn (UInt32.toNat_inj.mp h0)
      have hlt : (cur g').size < (cur g').cap :=
        Nat.lt_of_lt_of_le ((cur g').filling_lt hf) (cur g').elems_le
      rw [hI.arraySize_eq, h.1.arraySize_eq, hI.arrayElems_eq, h.1.arrayElems_eq, hI.bufPtr_eq,
        hI.arrayCap_eq, hb]
      refine ⟨hsize, hcont, ?_, hlt, ((hI.cur_at hb).valid_elem hpos _).mpr hlt⟩
      simp [hsize]
  obtain ⟨p, m', _, hrun, hq⟩ := hsafe.run_total
  rw [PrepareOk, hrun]
  exact hq

theorem hasRoom_of_prepareOk (h : Idle slot itemSize m g) (hn : itemSize ≠ 0)
    (hp : PrepareOk slot itemSize m) : HasRoom slot m := by
  by_contra hr
  rw [HasRoom, h.1.bufPtr_eq, h.1.arraySize_eq, h.1.arrayCap_eq] at hr
  have hfaults : (msmArrayPreparePush (some slot) itemSize).Safe (T slot itemSize.toNat .prepare)
      (fun _ _ _ => True) (fun _ _ _ => False) m g := by
    refine msmArrayPreparePush_safe h.1 hn h.2 ?_ (fun _ _ _ _ => trivial) ?_
    · intro hc _
      exact hr (.inl (by rw [hc]; rfl))
    · intro _ _ _ hroom _ _ _ _ _ _ _ _ _
      exact hr (.inr hroom)
  cases hrun : (msmArrayPreparePush (some slot) itemSize).run m with
  | error f => rw [PrepareOk, hrun] at hp; exact hp
  | ok r =>
    obtain ⟨_, hq, _⟩ := hfaults.run_ok hrun
    exact hq

/-- **Pushing stays inside the buffer exactly when there is room.** In every
reachable state, prepare_push keeps its promise, and push_back with it, if and
only if the buffer is null, has a free element, or can be doubled: its capacity
is below 2^31 and the allocation succeeds. -/
theorem push_stays_inside_iff {m₀ : Mem} (h0 : Zeroed m₀ slot) (hn : itemSize ≠ 0)
    (h : Reachable slot itemSize m₀ m) : PushOk slot itemSize m ↔ HasRoom slot m := by
  obtain ⟨g, hg⟩ := h.idle h0 hn
  constructor
  · intro hp
    exact hasRoom_of_prepareOk hg hn hp.1
  · intro hr
    refine ⟨prepareOk_of_hasRoom hg hn hr, ?_⟩
    have hsafe : (msmArrayPushBack (some slot) itemSize).Safe anyMove (fun _ _ _ => False)
        (fun _ m' g' => Idle slot itemSize m' g') m g :=
      msmArrayPushBack_safe hg hn (fun _ => not_hasRoom hg hr) fun _ _ _ h' => h'
    obtain ⟨p, m', g', hrun, hg'⟩ := hsafe.run_total
    rw [hrun]
    simp only [hg'.1.arraySize_eq, hg'.1.arrayCap_eq]
    exact Nat.le_trans (cur g').size_le (cur g').elems_le

end calls

/-! A slot whose second allocation fails: one element is reserved and pushed,
and the next prepare_push zeroes the byte after the buffer. -/

def secondFails : Mem := { zeroedSlot with script := [true, false] }

theorem secondFails_zeroed : Zeroed secondFails ⟨0, 0⟩ := zeroedSlot_zeroed

theorem full_reachable : ∃ m, Reachable ⟨0, 0⟩ 1 secondFails m ∧
    arraySize m ⟨0, 0⟩ = arrayCap m ⟨0, 0⟩ ∧ ¬ PushOk ⟨0, 0⟩ 1 m := by
  have h1 : Reachable ⟨0, 0⟩ 1 secondFails _ := .call (c := .reserve 1) .init rfl
  exact ⟨_, .call (c := .pushBack) h1 rfl, rfl, fun h => h.1⟩

theorem push_stays_inside_iff_full : ∃ m, Reachable ⟨0, 0⟩ 1 secondFails m ∧
    arraySize m ⟨0, 0⟩ = arrayCap m ⟨0, 0⟩ ∧ (PushOk ⟨0, 0⟩ 1 m ↔ HasRoom ⟨0, 0⟩ m) := by
  obtain ⟨m, hr, hfull, _⟩ := full_reachable
  exact ⟨m, hr, hfull, push_stays_inside_iff secondFails_zeroed (by decide) hr⟩

theorem push_outside_full_buffer :
    ¬ ∀ (slot : Addr) (itemSize : UInt32) (m₀ m : Mem), Zeroed m₀ slot → itemSize ≠ 0 →
      Reachable slot itemSize m₀ m → PushOk slot itemSize m := by
  intro h
  obtain ⟨m, hr, _, hbad⟩ := full_reachable
  exact hbad (h _ _ _ _ secondFails_zeroed (by decide) hr)

end Msm.Arr
