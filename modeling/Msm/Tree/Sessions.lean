import Msm.Tree.Forest

/-! # Sessions on a tree of objects

A caller gets to a nested object by the names of the fields that lead to it, and
may call on any slot it has got to so far, also after the field, or one around
it, has been removed. Every session has a forest for the slots it has got to. -/
namespace Msm.Tree
open Msm.Exec Msm.CMem Msm.Api Msm.Obj

/-- The objects one gets to from `root` through fields. -/
inductive ObjectAt (m : Mem) (root : Addr) : Addr → Prop
  | here : ObjectAt m root root
  | field {s : Addr} {k : UInt64} {v : Nat} : ObjectAt m root s →
      (k, ⟨v, .object⟩) ∈ objectFields m s → ObjectAt m root ⟨v, 0⟩

/-- The memory between two calls, and those before it. -/
structure Session where
  past : List Mem
  now : Mem

def Session.start (m₀ : Mem) : Session := ⟨[], m₀⟩

/-- The caller has got to the object at some time. -/
def Session.Has (root : Addr) (σ : Session) (s : Addr) : Prop :=
  ∃ u ∈ σ.now :: σ.past, ObjectAt u root s

/-- Calls that return, each with property `P` of the memory it is made on, its
slot and the call. -/
inductive Steps (root : Addr) (P : Mem → Addr → WCall → Prop) (σ : Session) : Session → Prop
  | refl : Steps root P σ σ
  | call {τ : Session} {s : Addr} {c : WCall} {r : WVal} {m' : Mem} : Steps root P σ τ →
      τ.Has root s → P τ.now s c → (c.code s).run τ.now = .ok (r, m') →
      Steps root P σ ⟨τ.now :: τ.past, m'⟩

/-- Any calls. -/
abbrev Reaches (root : Addr) (σ τ : Session) : Prop := Steps root (fun _ _ _ => True) σ τ

section sessions
variable {root s : Addr} {m m₀ : Mem} {F : Ghosts} {g : State} {σ τ : Session}
  {P : Mem → Addr → WCall → Prop}

/-- The block of a nested object field is published as a slot. -/
theorem slot_of_mem (hI : Inv s m g) {k : UInt64} {v : Nat}
    (hk : (k, ⟨v, .object⟩) ∈ fields g) : g.heap v = some (.val .object) := by
  obtain ⟨e, he, heq⟩ := List.mem_map.mp hk
  obtain ⟨p, hp, _⟩ := hI.entry_payload he
  obtain ⟨hv, hval⟩ : e.val = v ∧ valueAt g e.val = .object := by
    simpa [fieldOf] using congrArg Prod.snd heq
  rw [hv] at hp
  rw [hv, valueAt, hp] at hval
  have hval' : p.value g = .object := hval
  cases p with
  | scalar x => cases hval'
  | object => exact hp
  | string buf =>
    have ht := congrArg Value.type hval'
    rw [Payload.value_type] at ht
    cases ht

theorem Forest.child_of_mem (hF : Forest root m F) (hs : F s = some g) {k : UInt64} {v : Nat}
    (hk : (k, ⟨v, .object⟩) ∈ objectFields m s) : ∃ h, F ⟨v, 0⟩ = some h := by
  have hI := hF.inv s g hs
  rw [hI.objectFields_eq] at hk
  exact hF.child s g v hs (slot_of_mem hI hk)

theorem Forest.objectAt (hF : Forest root m F) (hs : ObjectAt m root s) : ∃ g, F s = some g := by
  induction hs with
  | here => exact hF.rooted
  | field _ hk ih =>
    obtain ⟨g, hg⟩ := ih
    exact hF.child_of_mem hg hk

/-- The forest of a session covers every slot the caller has got to. -/
structure Tended (root : Addr) (σ : Session) (F : Ghosts) : Prop where
  forest : Forest root σ.now F
  covers : ∀ s, σ.Has root s → ∃ g, F s = some g

theorem Tended.start (h0 : Zeroed m₀ root) : ∃ F, Tended root (.start m₀) F := by
  refine ⟨_, Forest.init h0, fun s hs => ?_⟩
  obtain ⟨u, hu, hat⟩ := hs
  obtain rfl : u = m₀ := List.mem_singleton.mp hu
  exact (Forest.init h0).objectAt hat

/-- **One call of a session**: the object called on has taken its effect, and the
other objects have the ghost states they had. -/
theorem Tended.call (h : Tended root σ F) (hs : σ.Has root s) {c : WCall} {r : WVal}
    {m' : Mem} (hr : (c.code s).run σ.now = .ok (r, m')) :
    ∃ g g', F s = some g ∧ Effect s σ.now (fields g) c r (fields g') ∧ Left s σ.now g m' g' ∧
      Tended root ⟨σ.now :: σ.past, m'⟩ (F.call s g') := by
  obtain ⟨g, hg⟩ := h.covers s hs
  obtain ⟨g', heff, hl⟩ := call_left (h.forest.inv s g hg) hr
  have hF := h.forest.call hg hl
  refine ⟨g, g', hg, heff, hl, hF, fun t ht => ?_⟩
  obtain ⟨u, hu, hat⟩ := ht
  rcases List.mem_cons.mp hu with rfl | hu
  · exact hF.objectAt hat
  · obtain ⟨k, hk⟩ := h.covers t ⟨u, hu, hat⟩
    exact Ghosts.call_keeps hk

theorem Tended.steps (h : Tended root σ F) (hst : Steps root P σ τ) : ∃ F', Tended root τ F' := by
  induction hst with
  | refl => exact ⟨F, h⟩
  | call _ hs _ hr ih =>
    obtain ⟨F', h'⟩ := ih
    obtain ⟨_, _, _, _, _, h''⟩ := h'.call hs hr
    exact ⟨_, h''⟩

/-- Every session that begins with a zeroed root has a forest. -/
theorem Steps.tended (h0 : Zeroed m₀ root) (h : Steps root P (.start m₀) σ) :
    ∃ F, Tended root σ F := by
  obtain ⟨F, hF⟩ := Tended.start h0
  exact hF.steps h

end sessions
end Msm.Tree
