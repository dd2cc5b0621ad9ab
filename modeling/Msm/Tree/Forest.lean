import Msm.Tree.Call

/-! # The objects under a root

An object slot has been published for the root and for every nested object field
there ever was. `Forest` keeps a ghost state for each of them: no two objects
share a block, and no two fields a string; every slot but the root is a value
block of one other object; and blocks of an object are allocated after its slot. A
call on one object leaves the ghost states of all others as they are (`Forest.call`). -/
namespace Msm.Tree
open Msm.Exec Msm.CMem Msm.Api Msm.Obj

/-- The ghost state of every object slot. -/
abbrev Ghosts := Addr → Option State

structure Forest (root : Addr) (m : Mem) (F : Ghosts) : Prop where
  inv : ∀ s g, F s = some g → Inv s m g
  rooted : ∃ g, F root = some g
  child : ∀ s g v, F s = some g → g.heap v = some (.val .object) → ∃ h, F ⟨v, 0⟩ = some h
  parent : ∀ s g, F s = some g → s = root ∨
    s.off = 0 ∧ ∃ t h, F t = some h ∧ h.heap s.block = some (.val .object)
  apart : ∀ s t g h b n n', F s = some g → F t = some h → g.heap b = some n →
    h.heap b = some n' → s = t
  above : ∀ s g b n, F s = some g → g.heap b = some n → s.block < b
  strings : ∀ s g v v' b, F s = some g → g.heap v = some (.val (.string (some b))) →
    g.heap v' = some (.val (.string (some b))) → v = v'

section forest
variable {root s t : Addr} {m m' : Mem} {F : Ghosts} {g g' h : State}

/-- A zeroed slot is the root of a tree without fields. -/
theorem Forest.init (h0 : Zeroed m root) :
    Forest root m fun s => if s = root then some (Ghost.empty layout) else none where
  inv s g hs := by
    obtain ⟨rfl, rfl⟩ := Option.ite_none_right_eq_some.mp hs |>.imp id Option.some.inj
    exact Inv.empty h0
  rooted := ⟨_, if_pos rfl⟩
  child s g v hs hv := by
    obtain ⟨_, rfl⟩ := Option.ite_none_right_eq_some.mp hs |>.imp id Option.some.inj
    cases hv
  parent s g hs := .inl (Option.ite_none_right_eq_some.mp hs).1
  apart s t g h b n n' hs ht _ _ := by
    rw [(Option.ite_none_right_eq_some.mp hs).1, (Option.ite_none_right_eq_some.mp ht).1]
  above s g b n hs hb := by
    obtain ⟨_, rfl⟩ := Option.ite_none_right_eq_some.mp hs |>.imp id Option.some.inj
    cases hb
  strings s g v v' b hs hv := by
    obtain ⟨_, rfl⟩ := Option.ite_none_right_eq_some.mp hs |>.imp id Option.some.inj
    cases hv

theorem Forest.root_le (hF : Forest root m F) (hs : F s = some g) : root.block ≤ s.block := by
  induction hb : s.block using Nat.strongRecOn generalizing s g with
  | ind b ih =>
    rcases hF.parent s g hs with rfl | ⟨_, t, h, ht, hv⟩
    · exact Nat.le_of_eq hb
    · have hlt := hF.above t h _ _ ht hv
      exact Nat.le_of_lt (Nat.lt_of_le_of_lt (ih _ (hb ▸ hlt) ht rfl) (hb ▸ hlt))

theorem Forest.root_apart (hF : Forest root m F) (hs : F s = some g) {n : Node} :
    g.heap root.block ≠ some n := by
  intro hb
  have := hF.above s g _ _ hs hb
  have := hF.root_le hs
  omega

/-- A slot lies in a block of no object, or is a nested slot of one. -/
theorem Forest.slot_node (hF : Forest root m F) (hs : F s = some g) (ht : F t = some h) {n : Node}
    (hb : h.heap s.block = some n) : n = .val .object := by
  rcases hF.parent s g hs with rfl | ⟨_, p, hp, hpp, hv⟩
  · exact absurd hb (hF.root_apart ht)
  · obtain rfl := hF.apart p t hp h _ _ _ hpp ht hv hb
    obtain rfl : hp = h := Option.some.inj (hpp.symm.trans ht)
    exact Option.some.inj (hb.symm.trans hv)

theorem Forest.slot_inj (hF : Forest root m F) (hs : F s = some g) (ht : F t = some h)
    (hb : s.block = t.block) : s = t := by
  rcases hF.parent s g hs with rfl | ⟨hs0, p, hp, hpp, hv⟩
  · rcases hF.parent t h ht with rfl | ⟨_, q, hq, hqq, hw⟩
    · rfl
    · rw [← hb] at hw
      exact absurd hw (hF.root_apart hqq)
  · rcases hF.parent t h ht with rfl | ⟨ht0, _⟩
    · rw [hb] at hv
      exact absurd hv (hF.root_apart hpp)
    · cases s
      cases t
      simp_all

/-! ## A call on one of the objects -/

/-- Memory may change but for the reachable bytes of the blocks that are not
slots of nested objects. -/
theorem inv_frame (hI : Inv s m g) (hv : m'.Valid s 16)
    (hs : ∀ b n, g.heap b = some n → m'.sizeOf b = m.sizeOf b)
    (hc : ∀ b n o, g.heap b = some n → ¬ n.IsSlot → m'.cellAt b o = m.cellAt b o)
    (hp : m'.load .ptr (s + 8) = m.load .ptr (s + 8)) : Inv s m' g := by
  refine hI.of_repr ⟨hv, hp.trans hI.repr.slot_ptr, hI.repr.slot_apart, fun b n hb => ?_⟩
  have hat : NodeAt m b n := hI.repr.node b n hb
  by_cases hn : n.IsSlot
  · obtain rfl := isSlot_iff.mp hn
    exact ⟨(hs b _ hb).trans hat.1, trivial⟩
  · exact hat.congr (hs b n hb) fun o _ => hc b n o hb hn

/-- The other objects are where they were. -/
theorem Forest.frame (hF : Forest root m F) (hs : F s = some g) (hl : Left s m g m' g')
    (ht : F t = some h) (hne : t ≠ s) : Inv t m' h := by
  have hI := hF.inv t h ht
  have hlt : t.block < m.next := hI.repr.slot_lt
  have hf := hl.footprint
  have hslot (o : Nat) : ¬ Owns s g t.block o := by
    rintro (⟨hb, _⟩ | ⟨n, hn, hno⟩)
    · exact hne (hF.slot_inj ht hs hb)
    · exact hno (isSlot_iff.mpr (hF.slot_node ht hs hn))
  refine inv_frame hI ?_ (fun b n hb => hf.size b (.inl (hI.repr.node_lt hb))) ?_ ?_
  · obtain ⟨sz, hsz, hle⟩ := hI.repr.slot_valid
    exact ⟨sz, (hf.size _ (.inl hlt)).trans hsz, hle⟩
  · intro b n o hb hno
    refine hf.cell b o (.inl (hI.repr.node_lt hb)) ?_
    rintro (⟨rfl, _⟩ | ⟨n', hn', _⟩)
    · exact hno (isSlot_iff.mpr (hF.slot_node hs ht hb))
    · exact hne (hF.apart t s h g b n n' ht hs hb hn')
  · exact Mem.load_congr (hf.size _ (.inl hlt)) fun o _ _ => hf.cell _ o (.inl hlt) (hslot o)

open Classical in
/-- The ghost states after a call on `s` that left `g'`: those of new nested
objects are empty. -/
noncomputable def Ghosts.call (F : Ghosts) (s : Addr) (g' : State) : Ghosts := fun t =>
  if t = s then some g'
  else match F t with
    | some h => some h
    | none => if t.off = 0 ∧ g'.heap t.block = some (.val .object) then some (Ghost.empty layout)
      else none

theorem Ghosts.call_self (F : Ghosts) (s : Addr) (g' : State) : F.call s g' s = some g' := if_pos rfl

theorem Ghosts.call_of_ne (F : Ghosts) (g' : State) (hne : t ≠ s) (ht : F t = some h) :
    F.call s g' t = some h := by
  rw [Ghosts.call, if_neg hne, ht]

theorem Ghosts.call_cases (hc : F.call s g' t = some h) :
    (t = s ∧ h = g') ∨ (t ≠ s ∧ F t = some h) ∨
      (t ≠ s ∧ F t = none ∧ t.off = 0 ∧ g'.heap t.block = some (.val .object) ∧
        h = Ghost.empty layout) := by
  unfold Ghosts.call at hc
  split at hc
  · rename_i he
    exact .inl ⟨he, (Option.some.inj hc).symm⟩
  · rename_i hne
    split at hc
    · rename_i h' ht
      exact .inr (.inl ⟨hne, ht.trans hc⟩)
    · rename_i ht
      obtain ⟨⟨h0, hv⟩, he⟩ := Option.ite_none_right_eq_some.mp hc
      exact .inr (.inr ⟨hne, ht, h0, hv, (Option.some.inj he).symm⟩)

/-- The objects there were are still there. -/
theorem Ghosts.call_keeps (ht : F t = some h) :
    ∃ h', F.call s g' t = some h' := by
  by_cases he : t = s
  · exact ⟨g', he ▸ F.call_self s g'⟩
  · exact ⟨h, F.call_of_ne g' he ht⟩

/-- The nested slots stay nested slots. -/
theorem Ghosts.call_slot (hs : F s = some g) (hk : Kept g g') {b : Nat}
    (ht : F t = some h) (hb : h.heap b = some (.val .object)) :
    ∃ h', F.call s g' t = some h' ∧ h'.heap b = some (.val .object) := by
  by_cases he : t = s
  · subst he
    obtain rfl : g = h := Option.some.inj (hs.symm.trans ht)
    exact ⟨g', F.call_self t g', hk.slot hb⟩
  · exact ⟨h, F.call_of_ne g' he ht, hb⟩

/-- **A call works on one object of the tree.** The ghost states of the others
are as they were, and the nested objects that are new have no fields. -/
theorem Forest.call (hF : Forest root m F) (hs : F s = some g) (hl : Left s m g m' g') :
    Forest root m' (F.call s g') where
  inv t h ht := by
    rcases Ghosts.call_cases ht with ⟨rfl, rfl⟩ | ⟨hne, ht⟩ | ⟨hne, hnone, h0, hv, rfl⟩
    · exact hl.inv
    · exact hF.frame hs hl ht hne
    · obtain ⟨b, o⟩ := t
      obtain rfl : o = 0 := h0
      rcases hl.footprint.zeroed b hv with hold | hz
      · obtain ⟨h', hh⟩ := hF.child s g b hs hold
        exact absurd (hnone.symm.trans hh) (Option.some_ne_none _).symm
      · exact Inv.empty hz
  rooted := by
    obtain ⟨h, hr⟩ := hF.rooted
    exact Ghosts.call_keeps hr
  child t h v ht hv := by
    rcases Ghosts.call_cases ht with ⟨rfl, rfl⟩ | ⟨_, ht⟩ | ⟨_, _, _, _, rfl⟩
    · by_cases he : (⟨v, 0⟩ : Addr) = t
      · exact ⟨h, he ▸ F.call_self t h⟩
      · cases hv' : F ⟨v, 0⟩ with
        | some h' => exact ⟨h', F.call_of_ne h he hv'⟩
        | none => exact ⟨Ghost.empty layout, by rw [Ghosts.call, if_neg he, hv', if_pos ⟨rfl, hv⟩]⟩
    · obtain ⟨h', hh⟩ := hF.child t h v ht hv
      exact Ghosts.call_keeps hh
    · cases hv
  parent t h ht := by
    have hold (p : Addr) (q : State) (hp : F p = some q) (hv : q.heap t.block = some (.val .object)) :
        ∃ p q, F.call s g' p = some q ∧ q.heap t.block = some (.val .object) := by
      obtain ⟨q', hq', hv'⟩ := Ghosts.call_slot hs hl.kept hp hv
      exact ⟨p, q', hq', hv'⟩
    rcases Ghosts.call_cases ht with ⟨rfl, rfl⟩ | ⟨_, ht⟩ | ⟨_, _, h0, hv, rfl⟩
    · refine (hF.parent t g hs).imp id fun hp => ⟨hp.1, ?_⟩
      obtain ⟨_, p, q, hp, hv⟩ := hp
      exact hold p q hp hv
    · refine (hF.parent t h ht).imp id fun hp => ⟨hp.1, ?_⟩
      obtain ⟨_, p, q, hp, hv⟩ := hp
      exact hold p q hp hv
    · exact .inr ⟨h0, s, g', F.call_self s g', hv⟩
  apart t u h k b n n' ht hu hb hb' := by
    -- what `s` has published is its own, or new
    have hown {u : Addr} {k : State} {n n' : Node} (hne : u ≠ s) (hu : F u = some k)
        (hb : g'.heap b = some n) (hb' : k.heap b = some n') : False := by
      rcases hl.footprint.fresh b n hb with hn | hn
      · obtain ⟨n'', hn''⟩ := Option.ne_none_iff_exists'.mp hn
        exact hne (hF.apart u s k g b n' n'' hu hs hb' hn'')
      · have := (hF.inv u k hu).repr.node_lt hb'
        omega
    rcases Ghosts.call_cases ht with ⟨rfl, rfl⟩ | ⟨hne, ht'⟩ | ⟨_, _, _, _, rfl⟩
    · rcases Ghosts.call_cases hu with ⟨rfl, _⟩ | ⟨hne, hu'⟩ | ⟨_, _, _, _, rfl⟩
      · rfl
      · exact (hown hne hu' hb hb').elim
      · cases hb'
    · rcases Ghosts.call_cases hu with ⟨rfl, rfl⟩ | ⟨_, hu'⟩ | ⟨_, _, _, _, rfl⟩
      · exact (hown hne ht' hb' hb).elim
      · exact hF.apart t u h k b n n' ht' hu' hb hb'
      · cases hb'
    · cases hb
  above t h b n ht hb := by
    rcases Ghosts.call_cases ht with ⟨rfl, rfl⟩ | ⟨_, ht⟩ | ⟨_, _, _, _, rfl⟩
    · rcases hl.footprint.fresh b n hb with hn | hn
      · obtain ⟨n', hn'⟩ := Option.ne_none_iff_exists'.mp hn
        exact hF.above t g b n' hs hn'
      · exact Nat.lt_of_lt_of_le (hF.inv t g hs).repr.slot_lt hn
    · exact hF.above t h b n ht hb
    · cases hb
  strings t h v v' b ht hv hv' := by
    rcases Ghosts.call_cases ht with ⟨rfl, rfl⟩ | ⟨_, ht⟩ | ⟨_, _, _, _, rfl⟩
    · rcases hl.footprint.string v b hv with hold | hnew
      · rcases hl.footprint.string v' b hv' with hold' | hnew'
        · exact hF.strings t g v v' b hs hold hold'
        · exact hnew'.2 v hv
      · exact (hnew.2 v' hv').symm
    · exact hF.strings t h v v' b ht hv hv'
    · cases hv

end forest
end Msm.Tree
