import Mathlib.Algebra.GroupWithZero.Nat
import Mathlib.Data.List.Nodup
import Msm.Arr.Growable

/-! # What growth leaves behind

Growth never frees the buffer it replaces. A full buffer is replaced by one of
twice its capacity, so the capacities left behind add up to the current one less
the first. -/
namespace Msm.Arr.Growable
open Msm.Exec Msm.CMem Msm.Api Msm.Arr

/-- The buffer the slot points to in `m` and no longer in `m'`. -/
def replaced (slot : Addr) (m m' : Mem) : List Addr :=
  match bufPtr m slot with
  | none => []
  | some a => if bufPtr m' slot = some a then [] else [a]

/-- The capacity of the buffer at `a`. -/
def bufCap (m : Mem) (a : Addr) : Nat := (m.load .u32 (a + 4)).elim 0 UInt32.toNat

/-- One push: prepare_push gives an element, the caller writes `fs` into it, and
commit_push counts it. -/
def Push (slot : Addr) (itemSize : UInt32) (fs : List (Nat × List Cell)) (m m' : Mem) : Prop :=
  ∃ a m₁ m₂, (msmArrayPreparePush (some slot) itemSize).run m = .ok (some a, m₁) ∧
    (fill (some a) fs).run m₁ = .ok ((), m₂) ∧ (msmArrayCommitPush (some slot)).run m₂ = .ok ((), m')

/-- `n` pushes from `m₀`, each written inside its element, and the buffers they
have replaced. -/
inductive Pushes (slot : Addr) (itemSize : UInt32) (m₀ : Mem) : Nat → List Addr → Mem → Prop
  | zero : Pushes slot itemSize m₀ 0 [] m₀
  | push {n : Nat} {rs : List Addr} {m m' : Mem} {fs : List (Nat × List Cell)} :
      Pushes slot itemSize m₀ n rs m → (Call.append fs).Fits itemSize.toNat →
      Push slot itemSize fs m m' → Pushes slot itemSize m₀ (n + 1) (rs ++ replaced slot m m') m'

/-! ## Buffers are kept -/

/-- Every buffer published is still there with its capacity; the slot points to
the same one, or to one published since. -/
structure Keeps {n : Nat} (g g' : State n) : Prop where
  cap : ∀ b x, g.heap b = some x → ∃ x', g'.heap b = some x' ∧ x'.cap = x.cap
  cur : g'.cur = g.cur ∨ ∀ b, g'.cur = some b → g.heap b = none

section keeps
variable {n : Nat} {slot : Addr} {o : Op} {m m' : Mem} {g g' g'' : State n}

theorem Keeps.refl (g : State n) : Keeps g g := ⟨fun _ x hx => ⟨x, hx, rfl⟩, .inl rfl⟩

theorem Keeps.trans (h : Keeps g g') (h' : Keeps g' g'') : Keeps g g'' := by
  refine ⟨fun b x hx => ?_, ?_⟩
  · obtain ⟨x', hx', hc⟩ := h.cap b x hx
    obtain ⟨x'', hx'', hc'⟩ := h'.cap b x' hx'
    exact ⟨x'', hx'', hc'.trans hc⟩
  · rcases h'.cur with he | hnew
    · rw [he]
      exact h.cur
    · refine .inr fun b hb => ?_
      cases hx : g.heap b with
      | none => rfl
      | some x =>
        obtain ⟨x', hx', _⟩ := h.cap b x hx
        rw [hnew b hb] at hx'
        cases hx'

theorem Update.keepsCap {y : Node} (h : Update g g' y) (hy : y.cap = (Arr.cur g).cap) :
    Keeps g g' := by
  refine ⟨fun b x hx => ?_, ?_⟩
  · exact h.keeps (P := fun x y => y.cap = x.cap) (fun _ => rfl) hy hx
  · obtain ⟨c, _, rfl⟩ := h
    exact .inl rfl

theorem Move.keepsCap (h : Arr.Move g g') : Keeps g g' := by
  cases h with
  | same => exact .refl g
  | publish h =>
    refine ⟨fun b x hx => ⟨x, h.heap_of hx, rfl⟩, .inr fun b hb => ?_⟩
    obtain ⟨c, cap, hs, hc, hnone, _, rfl⟩ := h
    cases hb
    exact hnone
  | touch v hv h => exact Update.keepsCap h rfl
  | commit hf h => exact Update.keepsCap h rfl
  | clear _ h => exact Update.keepsCap h rfl

/-- A call of the writer keeps every buffer. -/
theorem keeps_of_run (hI : Inv slot n m g)
    (h : Relation.ReflTransGen (Prog.Move (M := cmachine) (T slot n o)) (m, g) (m', g')) :
    Inv slot n m' g' ∧ Keeps g g' := by
  have hgen {x y : Mem × State n}
      (h : Relation.ReflTransGen (Prog.Move (M := cmachine) (T slot n o)) x y)
      (hI : Inv slot n x.1 x.2) : Inv slot n y.1 y.2 ∧ Keeps x.2 y.2 := by
    induction h with
    | refl => exact ⟨hI, .refl _⟩
    | tail _ hm ih =>
      obtain ⟨hI', hk⟩ := ih
      obtain ⟨_, hT⟩ := hm
      obtain ⟨hI'', hall⟩ := hT hI'
      exact ⟨hI'', hk.trans (Move.keepsCap hall.move)⟩
  exact hgen h hI

/-- A slot that points to the buffer it pointed to has its capacity. -/
theorem Keeps.cap_eq (h : Keeps g g') (hI : Inv slot n m g) (hc : g'.cur = g.cur) :
    (Arr.cur g').cap = (Arr.cur g).cap := by
  cases hb : g.cur with
  | none => rw [cur_none hb, cur_none (hc.trans hb)]
  | some b =>
    obtain ⟨x', hx', hcap⟩ := h.cap b _ (hI.cur_node hb)
    rw [cur_eq (hc.trans hb) hx', hcap]

end keeps

/-! ## One push -/

variable {slot : Addr} {itemSize : UInt32} {m m' : Mem} {g g' : State itemSize.toNat} {s : Model}

/-- A push that has room keeps the buffer; any push keeps every buffer's capacity. -/
structure Pushed (slot : Addr) (itemSize : UInt32) (s : Model) (g : State itemSize.toNat) (m' : Mem)
    (g' : State itemSize.toNat) : Prop where
  holds : ∃ v, Holds slot itemSize m' g' (s.push v)
  keeps : Keeps g g'
  cur_some : ∃ b, g'.cur = some b
  room : s.items.length < s.cap → g'.cur = g.cur

theorem Push.pushed {fs : List (Nat × List Cell)} (h : Holds slot itemSize m g s)
    (hlen : s.items.length < 2 ^ 31) (hfit : (Call.append fs).Fits itemSize.toNat)
    (hp : Push slot itemSize fs m m') : ∃ g', Pushed slot itemSize s g m' g' := by
  obtain ⟨a, m₁, m₂, hprep, hfill, hcommit⟩ := hp
  have hn : itemSize ≠ 0 := by
    intro h0
    simp [msmArrayPreparePush, h0, Prog.run] at hprep
  obtain ⟨g₁, ⟨b, hb, hroom, h₁⟩, hmoves₁⟩ := (prepare_safe h hn hlen).run_ok hprep
  obtain ⟨hI₁, hk₁⟩ := keeps_of_run h.idle.1 hmoves₁
  rw [hb] at hfill
  obtain ⟨g₂, h₂, hmoves₂⟩ := (writes_safe h₁ hn hfit).run_ok hfill
  obtain ⟨hI₂, hk₂⟩ := keeps_of_run hI₁ hmoves₂
  obtain ⟨g₃, ⟨hcur, h₃⟩, hmoves₃⟩ := (commit_safe h₂).run_ok hcommit
  obtain ⟨_, hk₃⟩ := keeps_of_run hI₂ hmoves₃
  refine ⟨g₃, ⟨_, h₃⟩, (hk₁.trans hk₂).trans hk₃, ⟨b, hcur⟩, fun hlt => ?_⟩
  rw [hcur, ← h₁.cur_eq, hroom hlt]

/-- No push is refused and none faults, up to 2^31 elements. -/
theorem push_total {fs : List (Nat × List Cell)} (h : Holds slot itemSize m g s)
    (hn : itemSize ≠ 0) (hlen : s.items.length < 2 ^ 31)
    (hfit : (Call.append fs).Fits itemSize.toNat) : ∃ m', Push slot itemSize fs m m' := by
  obtain ⟨_, m₁, g₁, hprep, b, rfl, _, h₁⟩ := (prepare_safe h hn hlen).run_total
  obtain ⟨_, m₂, g₂, hfill, h₂⟩ := (writes_safe h₁ hn hfit).run_total
  obtain ⟨_, m₃, _, hcommit, _⟩ := (commit_safe h₂).run_total
  exact ⟨m₃, _, m₁, m₂, hprep, hfill, hcommit⟩

/-! ## Any number of pushes -/

/-- The capacity the ghost state has for the buffer at `a`. -/
def nodeCap (g : State itemSize.toNat) (a : Addr) : Nat := (g.heap a.block).elim 0 Node.cap

/-- After `n` pushes that have replaced the buffers `rs`. -/
structure Wasted (slot : Addr) (itemSize : UInt32) (n : Nat) (rs : List Addr) (m : Mem)
    (g : State itemSize.toNat) (s : Model) : Prop where
  holds : Holds slot itemSize m g s
  length : s.items.length = n
  kept : ∀ a ∈ rs, a.off = 0 ∧ g.cur ≠ some a.block ∧ ∃ x, g.heap a.block = some x
  nodup : rs.Nodup
  first : n = 0 → rs = [] ∧ g.cur = none
  total : 0 < n → (rs.map (nodeCap g)).sum + 8 = s.cap
  cap_le : s.cap ≤ 8 ∨ s.cap < 2 * n

theorem Keeps.nodeCap_eq (h : Keeps g g') {a : Addr} (ha : ∃ x, g.heap a.block = some x) :
    nodeCap g' a = nodeCap g a := by
  obtain ⟨x, hx⟩ := ha
  obtain ⟨x', hx', hc⟩ := h.cap _ _ hx
  simp [nodeCap, hx, hx', hc]

theorem replaced_eq (h : Holds slot itemSize m g s) {s' : Model} (h' : Holds slot itemSize m' g' s') :
    replaced slot m m' = match g.cur with
      | none => []
      | some b => if g'.cur = some b then [] else [⟨b, 0⟩] := by
  rw [replaced, h.idle.1.bufPtr_eq, h'.idle.1.bufPtr_eq]
  cases g.cur with
  | none => rfl
  | some b =>
    cases g'.cur with
    | none => simp
    | some c => simp

/-- A push with room replaces nothing; a full buffer is replaced by one of twice
its capacity. -/
theorem Wasted.push {n : Nat} {rs : List Addr} (h : Wasted slot itemSize n rs m g s)
    {fs : List (Nat × List Cell)} (hn : n < 2 ^ 31) (hfit : (Call.append fs).Fits itemSize.toNat)
    (hp : Push slot itemSize fs m m') :
    ∃ g' s', Wasted slot itemSize (n + 1) (rs ++ replaced slot m m') m' g' s' := by
  obtain ⟨g', ⟨v, h'⟩, hk, ⟨b, hb⟩, hroom⟩ := hp.pushed h.holds (by rw [h.length]; exact hn) hfit
  have hI := h.holds.idle.1
  have hlen : (s.push v).items.length = n + 1 := by simp [Model.push, h.length]
  have hle : n ≤ s.cap := by
    rw [← h.length, ← h.holds.length, ← h.holds.cap]
    exact Nat.le_trans (Arr.cur g).size_le (Arr.cur g).elems_le
  have hmap : rs.map (nodeCap g') = rs.map (nodeCap g) :=
    List.map_congr_left fun a ha => hk.nodeCap_eq (h.kept a ha).2.2
  have hheap (a : Addr) (ha : ∃ x, g.heap a.block = some x) : ∃ x, g'.heap a.block = some x := by
    obtain ⟨x, hx⟩ := ha
    obtain ⟨x', hx', _⟩ := hk.cap _ _ hx
    exact ⟨x', hx'⟩
  refine ⟨g', s.push v, ?_⟩
  rw [replaced_eq h.holds h']
  by_cases hlt : n < s.cap
  · -- the element lies in the buffer there is
    have hcur : g'.cur = g.cur := hroom (by rw [h.length]; exact hlt)
    have hcap : (s.push v).cap = s.cap := by
      rw [Model.push, Model.room, if_pos (by rw [h.length]; exact hlt)]
    have hpos : 0 < n := by
      refine Nat.pos_of_ne_zero fun h0 => ?_
      rw [← h.holds.cap, cur_none (h.first h0).2] at hlt
      exact absurd hlt (Nat.not_lt_zero n)
    rw [← hcur, hb]
    simp only [if_true, List.append_nil]
    refine ⟨h', hlen, fun a ha => ?_, h.nodup, fun h0 => absurd h0 (Nat.succ_ne_zero n),
      fun _ => ?_, ?_⟩
    · obtain ⟨h0, hne, hx⟩ := h.kept a ha
      exact ⟨h0, by rw [hcur]; exact hne, hheap a hx⟩
    · rw [hmap, hcap]
      exact h.total hpos
    · rw [hcap]
      rcases h.cap_le with h8 | h2
      · exact .inl h8
      · exact .inr (by omega)
  · have hfull : s.cap = n := by omega
    have hcap : (s.push v).cap = doubled n := by
      rw [Model.push, Model.room, if_neg (by rw [h.length]; exact hlt), hfull]
    rcases Nat.eq_zero_or_pos n with rfl | hpos
    · -- the first push allocates the first buffer
      obtain ⟨rfl, hnone⟩ := h.first rfl
      rw [hnone]
      refine ⟨h', hlen, by simp, List.nodup_nil, by simp, fun _ => ?_, .inl ?_⟩
      · rw [hcap]; rfl
      · rw [hcap]; exact Nat.le_refl 8
    · obtain ⟨c, hc⟩ : ∃ c, g.cur = some c := by
        cases hc : g.cur with
        | none =>
          have hzero := h.holds.cap
          rw [cur_none hc, hfull] at hzero
          exact absurd hzero (Nat.ne_of_lt hpos)
        | some c => exact ⟨c, rfl⟩
      have hdouble : doubled n = 2 * n := if_neg (Nat.ne_of_gt hpos)
      have hne : g'.cur ≠ g.cur := by
        intro he
        have hsame := hk.cap_eq hI he
        rw [h'.cap, h.holds.cap, hcap, hdouble, hfull] at hsame
        omega
      have hcnode : nodeCap g' ⟨c, 0⟩ = n := by
        rw [hk.nodeCap_eq ⟨_, hI.cur_node hc⟩, nodeCap, hI.cur_node hc, ← hfull, ← h.holds.cap]
        rfl
      have hnew (a : Addr) (ha : ∃ x, g.heap a.block = some x) : g'.cur ≠ some a.block := by
        obtain ⟨x, hx⟩ := ha
        intro he
        rcases hk.cur with hsame | hfresh
        · exact hne hsame
        · rw [hfresh _ he] at hx
          cases hx
      rw [hc] at hne ⊢
      simp only [if_neg hne]
      refine ⟨h', hlen, fun a ha => ?_, ?_, fun h0 => absurd h0 (Nat.succ_ne_zero n),
        fun _ => ?_, ?_⟩
      · rcases List.mem_append.mp ha with ha | ha
        · obtain ⟨h0, _, hx⟩ := h.kept a ha
          exact ⟨h0, hnew a hx, hheap a hx⟩
        · rw [List.mem_singleton.mp ha]
          have hx : ∃ x, g.heap c = some x := ⟨_, hI.cur_node hc⟩
          exact ⟨rfl, hnew ⟨c, 0⟩ hx, hheap ⟨c, 0⟩ hx⟩
      · refine List.nodup_append.mpr ⟨h.nodup, List.nodup_singleton _, ?_⟩
        intro a ha d hd he
        rw [List.mem_singleton.mp hd] at he
        exact (h.kept a ha).2.1 (by rw [hc, he])
      · have htotal := h.total hpos
        rw [hfull] at htotal
        rw [List.map_append, List.sum_append, hmap, hcap, hdouble, List.map_singleton, hcnode,
          List.sum_singleton]
        omega
      · rw [hcap, hdouble]
        exact .inr (by omega)

theorem Pushes.wasted {m₀ : Mem} {n : Nat} {rs : List Addr} (h0 : Zeroed m₀ slot)
    (hs : m₀.script = []) (h : Pushes slot itemSize m₀ n rs m) (hn : n ≤ 2 ^ 31) :
    ∃ g s, Wasted slot itemSize n rs m g s := by
  induction h with
  | zero =>
    exact ⟨_, _, holds_empty h0 hs, rfl, fun a ha => (by cases ha), List.nodup_nil,
      fun _ => ⟨rfl, rfl⟩, fun hpos => absurd hpos (Nat.lt_irrefl 0), .inl (Nat.zero_le 8)⟩
  | push _ hfit hp ih =>
    obtain ⟨g, s, hw⟩ := ih (by omega)
    exact hw.push (by omega) hfit hp

theorem Wasted.bufCap_eq {n : Nat} {rs : List Addr} (h : Wasted slot itemSize n rs m g s) {a : Addr}
    (ha : a ∈ rs) : bufCap m a = nodeCap g a := by
  obtain ⟨h0, _, x, hx⟩ := h.kept a ha
  have hcap := (h.holds.idle.1.repr.node _ x hx).cap
  obtain ⟨b, o⟩ := a
  cases h0
  rw [bufCap, Addr.mk_add, Nat.zero_add, hcap, nodeCap, hx, Option.elim_some, cap_toNat,
    Option.elim_some]

/-- **Growth leaves behind less than twice the live elements.** In the first 2^31
pushes into a zeroed slot none is refused and none faults. After `n` of them the
buffers left behind are distinct, none is the current one, and their capacities
add up to the current capacity less 8, which is less than `2 * n`. -/
theorem replaced_less_than_twice {m₀ : Mem} (h0 : Zeroed m₀ slot) (hs : m₀.script = [])
    (itemSize : UInt32) {n : Nat} (h1 : 1 ≤ n) (hn : n ≤ 2 ^ 31) :
    (itemSize ≠ 0 → ∀ k < n, ∀ rs m fs, Pushes slot itemSize m₀ k rs m →
      (Call.append fs).Fits itemSize.toNat → ∃ m', Push slot itemSize fs m m') ∧
    ∀ rs m, Pushes slot itemSize m₀ n rs m → rs.Nodup ∧ (∀ a ∈ rs, bufPtr m slot ≠ some a) ∧
      (rs.map (bufCap m)).sum + 8 = arrayCap m slot ∧ (rs.map (bufCap m)).sum < 2 * n ∧
      (arrayCap m slot = 8 ∨ arrayCap m slot < 2 * n) := by
  refine ⟨fun hne k hk rs m fs hp hfit => ?_, fun rs m hp => ?_⟩
  · obtain ⟨g, s, hw⟩ := hp.wasted h0 hs (by omega)
    exact push_total hw.holds hne (by rw [hw.length]; omega) hfit
  · obtain ⟨g, s, hw⟩ := hp.wasted h0 hs hn
    have htotal := hw.total h1
    have hsum : rs.map (bufCap m) = rs.map (nodeCap g) :=
      List.map_congr_left fun a ha => hw.bufCap_eq ha
    rw [hw.holds.idle.1.arrayCap_eq, hw.holds.idle.1.bufPtr_eq, hw.holds.cap, hsum]
    have hcap := hw.cap_le
    refine ⟨hw.nodup, fun a ha he => ?_, htotal, by omega, by omega⟩
    obtain ⟨_, hne, _⟩ := hw.kept a ha
    cases hc : g.cur with
    | none => rw [hc] at he; cases he
    | some b => rw [hc] at he hne; cases he; exact hne rfl

/-! Nine one-byte elements: the buffer of 8 is left behind for one of 16. -/

theorem nine_pushes : ∃ m, Pushes ⟨0, 0⟩ 1 zeroedSlot 9 [⟨1, 0⟩] m ∧ arrayCap m ⟨0, 0⟩ = 16 := by
  have step {n : Nat} {rs : List Addr} {m m' : Mem} (h : Pushes ⟨0, 0⟩ 1 zeroedSlot n rs m)
      (hp : Push ⟨0, 0⟩ 1 [(0, [.byte 7])] m m') :
      Pushes ⟨0, 0⟩ 1 zeroedSlot (n + 1) (rs ++ replaced ⟨0, 0⟩ m m') m' :=
    .push h (by simp [Call.Fits]) hp
  have h1 := step .zero ⟨_, _, _, rfl, rfl, rfl⟩
  have h2 := step h1 ⟨_, _, _, rfl, rfl, rfl⟩
  have h3 := step h2 ⟨_, _, _, rfl, rfl, rfl⟩
  have h4 := step h3 ⟨_, _, _, rfl, rfl, rfl⟩
  have h5 := step h4 ⟨_, _, _, rfl, rfl, rfl⟩
  have h6 := step h5 ⟨_, _, _, rfl, rfl, rfl⟩
  have h7 := step h6 ⟨_, _, _, rfl, rfl, rfl⟩
  have h8 := step h7 ⟨_, _, _, rfl, rfl, rfl⟩
  exact ⟨_, step h8 ⟨_, _, _, rfl, rfl, rfl⟩, rfl⟩

theorem replaced_less_than_twice_nine : ∃ m, Pushes ⟨0, 0⟩ 1 zeroedSlot 9 [⟨1, 0⟩] m ∧
    bufPtr m ⟨0, 0⟩ ≠ some ⟨1, 0⟩ ∧ bufCap m ⟨1, 0⟩ = 8 := by
  obtain ⟨m, hp, hcap⟩ := nine_pushes
  obtain ⟨_, hne, hsum, _⟩ :=
    (replaced_less_than_twice zeroedSlot_zeroed rfl 1 (n := 9) (by omega) (by omega)).2 _ m hp
  simp only [List.map_cons, List.map_nil, List.sum_cons, List.sum_nil, hcap] at hsum
  exact ⟨m, hp, hne _ (List.mem_singleton.mpr rfl), by omega⟩

end Msm.Arr.Growable
