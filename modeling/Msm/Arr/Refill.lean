import Msm.Arr.Reads

/-! # Readers of an array that is cleared and refilled

A clear keeps the buffer, so the next push zeroes and fills an element that a
reader may have got before. What such a reader copies is a committed value
unless the copy falls between the zeroing and the commit. -/
namespace Msm.Arr
open Msm.Exec Msm.CMem Msm.Api

variable {ι : Type} {slot : Addr} {itemSize : UInt32} {clears : Bool} {m₀ : Mem}

/-- The writer has zeroed the element at `a` and not committed it yet. -/
def Filling (x : Thread (writer slot itemSize clears)) (a : Addr) : Prop :=
  (pushes itemSize.toNat x.settled).pending.map Prod.fst = some a

/-- Reader `i` copies the element it got at `a` for index `k`, and gets `cs`. -/
def Copies (ρ : Run (writer slot itemSize clears) (reader slot itemSize) ι m₀) (i : ι) (t : Nat)
    (k : UInt32) (a : Addr) (cs : List Cell) : Prop :=
  ∃ log, (ρ.sys t).reader i = ⟨log, some (.copy k a, copyElem a itemSize)⟩ ∧
    (ρ.sys (t + 1)).reader i = ⟨log, some (.copy k a, .ret (.bytes cs))⟩

/-- Element `k` of buffer `b` is the one being filled. -/
def Dirty (g : State itemSize.toNat) (b k : Nat) : Prop :=
  g.cur = some b ∧ (cur g).filling = true ∧ k = (cur g).size

theorem not_dirty {g : State itemSize.toNat} (hf : (cur g).filling = false) (b k : Nat) :
    ¬ Dirty g b k := by
  intro hd
  have := hd.2.1
  rw [hf] at this
  cases this

namespace Trail
variable {ρ : Run (writer slot itemSize clears) (reader slot itemSize) ι m₀}
  {γ : Nat → State itemSize.toNat} (h : Trail ρ γ)
include h

/-! ## The writer's log says which element is being filled -/

theorem settled_of_idle {t : Nat} {log : List (WCall × WVal)}
    (hw : (ρ.sys t).writer = ⟨log, none⟩) :
    (pushes itemSize.toNat (ρ.sys t).writer.settled).pending.map Prod.fst = fillAddr (γ t) := by
  have hat := h.at_writer t
  rw [hw] at hat ⊢
  exact hat.2.2.addr

theorem settled_of_ret {t : Nat} {log : List (WCall × WVal)} {c : WCall} {v : WVal}
    (hw : (ρ.sys t).writer = ⟨log, some (c, .ret v)⟩) :
    (pushes itemSize.toNat (ρ.sys t).writer.settled).pending.map Prod.fst = fillAddr (γ t) := by
  have hat := h.at_writer t
  rw [hw] at hat ⊢
  exact hat.2.2.addr

/-- A call with an action left to perform has not come to the end of its moves. -/
theorem not_last {t : Nat} {log : List (WCall × WVal)} {c : WCall} {a : Act}
    {f : a.Res → CProg WVal} (hw : (ρ.sys t).writer = ⟨log, some (c, .act a f)⟩) :
    ∃ g', c.op.Allowed (γ t) g' := by
  have hat := h.at_writer t
  rw [hw] at hat
  obtain ⟨s', g', _, ht⟩ := hat.act_ok fun _ => id
  exact ⟨g', (ht (h.inv t)).2⟩

/-- Between two actions of one call, what is being filled stays. -/
theorem fillAddr_eq {t : Nat} {log : List (WCall × WVal)} {c : WCall} {a : Act}
    {f : a.Res → CProg WVal} (hw : (ρ.sys (t + 1)).writer = ⟨log, some (c, .act a f)⟩)
    (ha : c.op.Allowed (γ t) (γ (t + 1))) : fillAddr (γ (t + 1)) = fillAddr (γ t) := by
  obtain ⟨g', hlast⟩ := h.not_last hw
  cases hc : c.op with
  | reserve =>
    rw [hc] at ha hlast
    rw [fillAddr_none ha.1, fillAddr_none hlast.1]
  | prepare =>
    rw [hc] at ha hlast
    rw [fillAddr_none ha.1, fillAddr_none hlast.1]
  | clear =>
    rw [hc] at ha hlast
    rw [fillAddr_none ha.1, fillAddr_none hlast.1]
  | fill =>
    rw [hc] at ha
    obtain ⟨hf, v, hx, b, hb, hg⟩ := ha
    have hu : Update (γ t) (γ (t + 1)) ((cur (γ t)).touch v hx) := ⟨b, hb, hg⟩
    have hb' : (γ (t + 1)).cur = some b := by rw [hg]; exact hb
    rw [fillAddr_some hf hb, fillAddr_some (by rw [hu.cur_eq]; rfl) hb', hu.cur_eq]
    rfl
  | commit =>
    rw [hc] at ha hlast
    rcases ha.2 with hg | ⟨hf, hu⟩
    · rw [hg]
    · have hlast := hlast.1
      rw [hu.cur_eq] at hlast
      cases hlast

theorem settled_eq (t : Nat) :
    (pushes itemSize.toNat (ρ.sys t).writer.settled).pending.map Prod.fst = fillAddr (γ t) := by
  induction t with
  | zero =>
    have h0 : (ρ.sys 0).writer = ⟨[], none⟩ := by rw [ρ.sys_zero]; rfl
    exact h.settled_of_idle h0
  | succ t ih =>
    rcases hx' : (ρ.sys (t + 1)).writer with ⟨log, _ | ⟨c, p⟩⟩
    · rw [← hx']; exact h.settled_of_idle hx'
    · cases p with
      | ret v => rw [← hx']; exact h.settled_of_ret hx'
      | act a f =>
        have htr := h.tracks t
        have hlast : c.op.Allowed (γ t) (γ (t + 1)) →
            fillAddr (γ (t + 1)) = fillAddr (γ t) := h.fillAddr_eq hx'
        generalize hy : (ρ.sys (t + 1)).writer = y at htr hx'
        generalize hx : (ρ.sys t).writer = x at htr ih
        generalize hs : ρ.state (t + 1) = s at htr
        generalize hs₀ : ρ.state t = s₀ at htr
        generalize hg' : γ (t + 1) = g' at htr hlast
        generalize hg : γ t = g at htr hlast ih
        have hI : Inv slot itemSize.toNat s₀ g := by rw [← hs₀, ← hg]; exact h.inv t
        cases htr with
        | rest => rw [← hx']; exact ih
        | start _ => cases hx'; exact ih
        | act he ht =>
          simp only [Thread.mk.injEq, Option.some.injEq, Prod.mk.injEq] at hx'
          obtain ⟨rfl, rfl, _⟩ := hx'
          rw [hlast (ht.2 hI).2]
          exact ih
        | finish => cases hx'

/-! ## Every other element holds a committed value -/

/-- What an element holds was committed at its index before, unless it is being filled. -/
theorem committed (t : Nat) {b k : Nat} {x : Node} {v : List Cell} (hx : (γ t).heap b = some x)
    (hv : x.elems[k]? = some v) :
    (∃ t', t' ≤ t ∧ (contents (γ t'))[k]? = some v) ∨ Dirty (γ t) b k := by
  induction t generalizing b x with
  | zero => rw [h.zero] at hx; cases hx
  | succ t ih =>
    -- an element that the step has not written to
    have hold {b' : Nat} {y : Node} (hy : (γ t).heap b' = some y) (hyv : y.elems[k]? = some v)
        (hd : ¬ Dirty (γ t) b' k) : ∃ t', t' ≤ t + 1 ∧ (contents (γ t'))[k]? = some v := by
      rcases ih hy hyv with ⟨t', ht', hc⟩ | hdirty
      · exact ⟨t', by omega, hc⟩
      · exact absurd hdirty hd
    have hmove := h.move t
    generalize hg' : γ (t + 1) = g' at hmove hx ⊢
    cases hmove with
    | same =>
      rcases ih hx hv with ⟨t', ht', hc⟩ | hd
      · exact .inl ⟨t', by omega, hc⟩
      · exact .inr hd
    | publish hp =>
      obtain ⟨c, cap, hs, hcap, _, hf, hgp⟩ := hp
      rw [hgp, Ghost.point_heap] at hx
      by_cases he : b = c
      · subst he
        rw [Ghost.set_heap_self] at hx
        cases hx
        exact .inl ⟨t, by omega, hv⟩
      · rw [Ghost.set_heap_of_ne _ _ he] at hx
        exact .inl (hold hx hv (not_dirty hf b k))
    | touch w hw hu =>
      have hcur : g'.cur = (γ t).cur := by obtain ⟨c, _, rfl⟩ := hu; rfl
      rcases hu.heap hx with ⟨hb, rfl⟩ | ⟨hb, hx⟩
      · rw [Node.touch_get] at hv
        split at hv
        · rename_i hk
          exact .inr ⟨hcur.trans hb, by rw [hu.cur_eq]; rfl, by rw [hu.cur_eq]; exact hk⟩
        · rename_i hk
          exact .inl (hold ((h.inv t).cur_node hb) hv fun hd => hk hd.2.2)
      · exact .inl (hold hx hv fun hd => hb hd.1)
    | commit hf hu =>
      rcases hu.heap hx with ⟨hb, rfl⟩ | ⟨hb, hx⟩
      · by_cases hk : k = (cur (γ t)).size
        · refine .inl ⟨t + 1, Nat.le_refl _, ?_⟩
          have hl := (cur (γ t)).length_items
          rw [hg', contents, hu.cur_eq, Node.items_commit _ hf (hk ▸ hv), hk,
            List.getElem?_append_right (by omega), hl, Nat.sub_self]
          rfl
        · exact .inl (hold ((h.inv t).cur_node hb) hv fun hd => hk hd.2.2)
      · exact .inl (hold hx hv fun hd => hb hd.1)
    | clear hf hu =>
      rcases hu.heap hx with ⟨hb, rfl⟩ | ⟨hb, hx⟩
      · exact .inl (hold ((h.inv t).cur_node hb) hv (not_dirty hf b k))
      · exact .inl (hold hx hv (not_dirty hf b k))

/-! ## The readers -/

/-- Every pointer a reader has been given points to a written element. -/
def AllHeld (γ : Nat → State itemSize.toNat) (log : List (RCall × RVal)) (t : Nat) : Prop :=
  ∀ k a, (.get k, .elem (some a)) ∈ log → Held (γ t) k a

theorem call_held (hn : itemSize ≠ 0) {log : List (RCall × RVal)} {c : RCall} {p : CProg RVal}
    {t : Nat} (hl : AllHeld γ log t) (hp : (reader slot itemSize).code log c = some p) :
    p.Sampled ρ.state (fun v u => AllHeld γ (log ++ [(c, v)]) u) t := by
  -- results that are no pointer leave the pointers as they were
  have hkeep {x : RCall × RVal} {u : Nat} (htu : t ≤ u)
      (hx : ∀ k a, x ≠ (.get k, .elem (some a))) : AllHeld γ (log ++ [x]) u := by
    intro k a hm
    rcases List.mem_append.mp hm with hm | hm
    · exact h.held_mono (hl k a hm) htu
    · exact absurd (List.mem_singleton.mp hm).symm (hx k a)
  cases c with
  | size =>
    cases hp
    refine Prog.Sampled.bind ((h.shown.size_sampled t).mono ?_)
    rintro n u htu -
    exact hkeep htu nofun
  | get i =>
    cases hp
    refine Prog.Sampled.bind ((h.shown.get_sampled hn i t).mono ?_)
    rintro q u htu ⟨w, _, _, hq⟩ k a hm
    rcases List.mem_append.mp hm with hm | hm
    · exact h.held_mono (hl k a hm) htu
    · cases List.mem_singleton.mp hm
      cases hc : (γ w).cur with
      | none => rw [hc] at hq; cases hq
      | some b =>
        rw [hc] at hq
        obtain ⟨x, hx, ha⟩ := hq
        split at ha
        · rename_i hi
          cases ha
          exact ⟨rfl, x, hx, Nat.lt_of_lt_of_le hi x.size_le⟩
        · cases ha
  | copy i a =>
    simp only [reader] at hp
    split at hp
    · rename_i hm
      cases hp
      refine (h.copy_sampled hn (hl i a hm)).mono ?_
      rintro r u htu -
      exact hkeep htu nofun
    · cases hp

theorem log_held (hn : itemSize ≠ 0) (i : ι) (t : Nat) :
    AllHeld γ ((ρ.sys t).reader i).log t ∧ ¬ ((ρ.sys t).reader i).Faults (ρ.state t) :=
  ρ.log_inv (I := AllHeld γ) (fun _ _ hm => by cases hm)
    (fun _ _ _ hl htu k a hm => h.held_mono (hl k a hm) htu)
    (fun _ _ _ _ hl hp => h.call_held hn hl hp) i t

/-- The bytes of a copy are those the element holds at that instant. -/
theorem copy_step (hn : itemSize ≠ 0) {i : ι} {t : Nat} {k : UInt32} {a : Addr} {cs : List Cell}
    (hc : Copies ρ i t k a cs) : a.off = 8 + k.toNat * itemSize.toNat ∧
      ∃ x, (γ t).heap a.block = some x ∧ x.elems[k.toNat]? = some cs := by
  obtain ⟨log, hr, hr'⟩ := hc
  have hstarted := ρ.reader_started i t
  have hheld := (h.log_held hn i t).1
  rw [hr] at hstarted hheld
  obtain ⟨q, hq⟩ := hstarted _ _ rfl
  simp only [reader] at hq
  split at hq
  · rename_i hm
    obtain ⟨hvalid, x, v, hx, hv, hread⟩ := h.copy_reads hn (hheld k a hm)
    refine ⟨(hheld k a hm).1, x, hx, ?_⟩
    rcases ρ.reader_succ i t with hsame | hstep
    · rw [hr, hr'] at hsame
      cases hsame
    · rw [hr, hr'] at hstep
      generalize ρ.state (t + 1) = s' at hstep
      cases hstep with
      | act he =>
        have he' := (Mem.exec_copyOut hvalid).symm.trans he
        cases he'
        rw [hv, hread]
  · cases hq

end Trail

/-- **A copied element was committed, unless it was copied while being filled.**
In every run, with clears, in which no reader copies an element between its
zeroing and its commit: no thread accesses memory outside a block, and what any
copy of an element got for index `k` gives was committed at index `k` at some
instant no later than the copy. -/
theorem copied_elements_committed (h0 : Zeroed m₀ slot) (hs : m₀.script = []) (hn : itemSize ≠ 0)
    (ρ : Run (writer slot itemSize clears) (reader slot itemSize) ι m₀)
    (hfill : ∀ i t k a cs, Copies ρ i t k a cs → ¬ Filling (ρ.sys t).writer a) :
    (∀ t, ¬ (ρ.sys t).writer.Faults (ρ.state t) ∧
      ∀ i, ¬ ((ρ.sys t).reader i).Faults (ρ.state t)) ∧
    ∀ i t k a cs, Copies ρ i t k a cs →
      ∃ t', t' ≤ t ∧ (arrayElems (ρ.state t') slot itemSize.toNat)[k.toNat]? = some cs := by
  obtain ⟨γ, h⟩ := exists_trail (reader_only slot itemSize) h0 hs hn ρ
  refine ⟨fun t => ⟨h.writer_not_faults t, fun i => (h.log_held hn i t).2⟩, ?_⟩
  intro i t k a cs hc
  obtain ⟨ho, x, hx, hv⟩ := h.copy_step hn hc
  rcases h.committed t hx hv with ⟨t', ht', hcont⟩ | ⟨hb, hf, hk⟩
  · exact ⟨t', ht', by rw [(h.inv t').arrayElems_eq]; exact hcont⟩
  · refine absurd ?_ (hfill i t k a cs hc)
    rw [Filling, h.settled_eq, fillAddr_some hf hb, ← hk, ← ho]

/-! Two runs that push the one-byte element 7, which a reader gets. In the
first the reader copies it at once. In the second the writer clears the array
and prepares the next push before the reader copies. -/

def copyAtOnce (t : Nat) : Choice (writer ⟨0, 0⟩ 1 true) (reader ⟨0, 0⟩ 1) Unit :=
  if t < 11 then .writer .prepare
  else if t < 14 then .writer (.fill 0 [.byte 7])
  else if t < 19 then .writer .commit
  else if t < 23 then .reader () (.get 0)
  else .reader () (.copy 0 ⟨1, 8⟩)

def copyLate (t : Nat) : Choice (writer ⟨0, 0⟩ 1 true) (reader ⟨0, 0⟩ 1) Unit :=
  if t < 11 then .writer .prepare
  else if t < 14 then .writer (.fill 0 [.byte 7])
  else if t < 19 then .writer .commit
  else if t < 23 then .reader () (.get 0)
  else if t < 27 then .writer .clear
  else if t < 33 then .writer .prepare
  else .reader () (.copy 0 ⟨1, 8⟩)

theorem copied_elements_committed_at_once : ∃ t', t' ≤ 24 ∧
    (arrayElems ((Run.ofSchedule zeroedSlot copyAtOnce).state t') ⟨0, 0⟩ 1)[0]? =
      some [.byte 7] := by
  have hfill : ∀ i t k a cs, Copies (Run.ofSchedule zeroedSlot copyAtOnce) i t k a cs →
      ¬ Filling ((Run.ofSchedule zeroedSlot copyAtOnce).sys t).writer a := by
    intro i t k a cs hc
    rcases Nat.lt_or_ge t 19 with ht | ht
    · obtain ⟨log, hr, _⟩ := hc
      rw [Run.ofSchedule_reader (fun u hu => ?_) i] at hr
      · cases hr
      · simp only [copyAtOnce, show u < 19 by omega, if_true]
        split_ifs <;> exact ⟨_, rfl⟩
    · rw [Run.ofSchedule_writer ht fun u hu => ?_]
      · exact fun hf => by cases hf
      · simp only [copyAtOnce, show ¬ u < 11 by omega, show ¬ u < 14 by omega,
          show ¬ u < 19 by omega, if_false]
        split_ifs <;> exact ⟨_, _, rfl⟩
  exact (copied_elements_committed zeroedSlot_zeroed rfl (by decide)
    (Run.ofSchedule zeroedSlot copyAtOnce) hfill).2 () 24 0 ⟨1, 8⟩ [.byte 7] ⟨_, rfl, rfl⟩

theorem cleared_element_copied_zeroed :
    ¬ ∀ (slot : Addr) (itemSize : UInt32) (m₀ : Mem), Zeroed m₀ slot → m₀.script = [] →
      itemSize ≠ 0 → ∀ (ρ : Run (writer slot itemSize true) (reader slot itemSize) Unit m₀)
        (i : Unit) (t : Nat) (k : UInt32) (a : Addr) (cs : List Cell), Copies ρ i t k a cs →
      ∃ t', t' ≤ t ∧ (arrayElems (ρ.state t') slot itemSize.toNat)[k.toNat]? = some cs := by
  intro h
  obtain ⟨t', ht', hcs⟩ := h ⟨0, 0⟩ 1 zeroedSlot zeroedSlot_zeroed rfl (by decide)
    (Run.ofSchedule zeroedSlot copyLate) () 34 0 ⟨1, 8⟩ [.byte 0] ⟨_, rfl, rfl⟩
  have hnone : ∀ t', t' < 35 →
      (arrayElems ((Run.ofSchedule zeroedSlot copyLate).state t') ⟨0, 0⟩ 1)[0]? ≠
        some [.byte 0] := by decide +kernel
  exact hnone t' (by omega) hcs

end Msm.Arr
