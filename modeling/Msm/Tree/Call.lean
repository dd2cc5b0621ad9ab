import Msm.Obj.Names

/-! # What one call leaves behind

A call on an object seen from outside: the memory it may have changed when it
returns, the blocks it has published, and what it has made of the fields. -/
namespace Msm.Tree
open Msm.Exec Msm.CMem Msm.Api Msm.Obj

theorem isSlot_iff {n : Node} : n.IsSlot ↔ n = .val .object := by
  constructor
  · intro h
    cases n with
    | val p =>
      cases p with
      | object => rfl
      | _ => exact h.elim
    | _ => exact h.elim
  · rintro rfl
    trivial

/-- Published blocks stay published, and the slots of nested objects stay such. -/
def Kept (g g' : State) : Prop :=
  ∀ b n, g.heap b = some n → ∃ n', g'.heap b = some n' ∧ (n'.IsSlot ↔ n.IsSlot)

theorem Kept.refl (g : State) : Kept g g := fun _ n hb => ⟨n, hb, Iff.rfl⟩

theorem Kept.trans {g g₁ g₂ : State} (h : Kept g g₁) (h' : Kept g₁ g₂) : Kept g g₂ := by
  intro b n hb
  obtain ⟨n₁, hb₁, h₁⟩ := h b n hb
  obtain ⟨n₂, hb₂, h₂⟩ := h' b n₁ hb₁
  exact ⟨n₂, hb₂, h₂.trans h₁⟩

theorem Kept.of_rely {g g' : State} (h : Rely g g') : Kept g g' := by
  intro b n hb
  cases n with
  | buf cap es =>
    obtain ⟨es', hb', _⟩ := h.buf b cap es hb
    exact ⟨_, hb', Iff.rfl⟩
  | str bs => exact ⟨_, h.str b bs hb, Iff.rfl⟩
  | val p =>
    obtain ⟨p', hb', ht, _⟩ := h.val b p hb
    refine ⟨_, hb', ?_⟩
    have hobj {q q' : Payload} (ht : q'.type = q.type) (hq : q = .object) : q' = .object := by
      subst hq
      cases q' with
      | scalar s => cases s <;> cases ht
      | string _ => cases ht
      | object => rfl
    rw [isSlot_iff, isSlot_iff]
    constructor
    · intro hp
      cases hp
      rw [hobj ht.symm rfl]
    · intro hp
      cases hp
      rw [hobj ht rfl]

theorem Kept.slot {g g' : State} (h : Kept g g') {b : Nat}
    (hb : g.heap b = some (.val .object)) : g'.heap b = some (.val .object) := by
  obtain ⟨n, hn, hs⟩ := h b _ hb
  rw [hn, isSlot_iff.mp (hs.mpr trivial)]

section footprint
variable {slot : Addr} {top : Nat} {m m₁ m₂ : Mem} {g g₁ g₂ : State}

theorem owns_of_kept (hk : Kept g g₁) (hf : Footprint slot top g m m₁ g₁) {b o : Nat}
    (hb : b < top ∨ g.heap b ≠ none) (h : Owns slot g₁ b o) : Owns slot g b o := by
  rcases h with h | ⟨n₁, hn₁, hs⟩
  · exact .inl h
  · cases hn : g.heap b with
    | some n =>
      obtain ⟨n', hn', hiff⟩ := hk b n hn
      obtain rfl : n' = n₁ := Option.some.inj (hn'.symm.trans hn₁)
      exact .inr ⟨n, hn, fun h => hs (hiff.mpr h)⟩
    | none =>
      rcases hf.fresh b n₁ hn₁ with h | h
      · exact absurd hn h
      · rcases hb with hb | hb
        · omega
        · exact absurd hn hb

theorem footprint_trans (hf : Footprint slot top g m m₁ g₁) (hk : Kept g g₁) (hI : Inv slot m₁ g₁)
    (hf' : Footprint slot top g₁ m₁ m₂ g₂) : Footprint slot top g m m₂ g₂ := by
  have hstill {b : Nat} (hb : b < top ∨ g.heap b ≠ none) : b < top ∨ g₁.heap b ≠ none := by
    refine hb.imp id fun hn => ?_
    obtain ⟨n, hn⟩ := Option.ne_none_iff_exists'.mp hn
    obtain ⟨n', hn', _⟩ := hk b n hn
    exact fun h => Option.some_ne_none _ (hn'.symm.trans h)
  refine ⟨fun b hb => ?_, fun b o hb ho => ?_, fun b n hb => ?_, fun b hb => ?_, fun e he => ?_,
    fun v s hv => ?_⟩
  · exact (hf'.size b (hstill hb)).trans (hf.size b hb)
  · exact (hf'.cell b o (hstill hb) fun h => ho (owns_of_kept hk hf hb h)).trans (hf.cell b o hb ho)
  · rcases hf'.fresh b n hb with h | h
    · obtain ⟨n₁, hn₁⟩ := Option.ne_none_iff_exists'.mp h
      exact hf.fresh b n₁ hn₁
    · exact .inr h
  · rcases hf'.zeroed b hb with h | h
    · refine (hf.zeroed b h).imp id fun hz => ?_
      have hne : g₁.heap b ≠ none := fun hn => Option.some_ne_none _ (h.symm.trans hn)
      refine hz.congr (hf'.size b (.inr hne)) fun o => hf'.cell b o (.inr hne) ?_
      rintro (⟨rfl, _⟩ | ⟨n, hn, hs⟩)
      · exact hne hI.repr.slot_apart
      · obtain rfl : Node.val .object = n := Option.some.inj (h.symm.trans hn)
        exact hs trivial
    · exact .inr h
  · exact (hf'.entry e he).elim (hf.entry e) .inr
  · rcases hf'.string v s hv with hv₁ | hnew
    · refine (hf.string v s hv₁).imp id fun hnew => ⟨hnew.1, fun v' hv' => ?_⟩
      rcases hf'.string v' s hv' with hv'₁ | hnew'
      · exact hnew.2 v' hv'₁
      · exact (hnew'.2 v hv).symm
    · exact .inr hnew

end footprint

/-- A call on `slot` that began in `m` with `g` has left `m'`. -/
structure Left (slot : Addr) (m : Mem) (g : State) (m' : Mem) (g' : State) : Prop where
  inv : Inv slot m' g'
  kept : Kept g g'
  footprint : Footprint slot m.next g m m' g'

section left
variable {slot : Addr} {m m' : Mem} {g : State} {M : Obj.Fields} {inPlace : Bool}

theorem Left.of_moves (hI : Inv slot m g) {x : Mem × State}
    (h : Relation.ReflTransGen (Prog.Move (M := cmachine) (T slot inPlace m.next M)) (m, g) x) :
    Left slot m g x.1 x.2 := by
  induction h with
  | refl => exact ⟨hI, .refl g, .refl ..⟩
  | tail _ hmove ih =>
    obtain ⟨a, ht⟩ := hmove
    obtain ⟨hI', hrely, _, _, hf⟩ := ht.2 ih.inv
    exact ⟨hI', ih.kept.trans (.of_rely hrely), footprint_trans ih.footprint ih.kept ih.inv hf⟩

/-- A safe program that returns leaves the object in order. -/
theorem Left.of_safe {α : Type} {p : CProg α} {F : Fault → Mem → State → Prop}
    {Q : α → Mem → State → Prop} {x : α} (hI : Inv slot m g)
    (h : p.Safe (T slot inPlace m.next M) F Q m g) (hr : p.run m = .ok (x, m')) :
    ∃ g', Q x m' g' ∧ Left slot m g m' g' := by
  obtain ⟨g', hq, hmoves⟩ := h.run_ok hr
  exact ⟨g', hq, .of_moves hI hmoves⟩

/-- What a call that returns `r` has made of the fields: a set comes to its
outcome, and a remove fails without memory for the copy. -/
def Effect (slot : Addr) (m : Mem) (M : Obj.Fields) (c : WCall) (r : WVal) (M' : Obj.Fields) : Prop :=
  match c with
  | .set name x => (x.outcome slot m M name = .failed ∧ r = x.failed ∧ M' = M) ∨
      ∃ y v, x.outcome slot m M name = .stored y ∧ r = x.done v ∧
        (∀ f, Keyed.find M (key16 name) = some f → f.slot = v) ∧
        (Keyed.find M (key16 name) = none → ∀ z ∈ M, z.2.slot ≠ v) ∧
        M' = Keyed.set M (key16 name) ⟨v, y⟩
  | .remove name =>
      if key name ∈ Keyed.keys M ∧ (1 < M.length → m.mallocOk = true) then
        r = .status 0 ∧ M' = Keyed.remove M (key name)
      else r = .status (-1) ∧ M' = M

/-- **A call that returns** has worked on its own object only, with its effect. -/
theorem call_left {c : WCall} {r : WVal} (hI : Inv slot m g)
    (hr : (c.code slot).run m = .ok (r, m')) :
    ∃ g', Effect slot m (fields g) c r (fields g') ∧ Left slot m g m' g' := by
  suffices hsafe : (c.code slot).Safe (T slot true m.next (fields g)) (fun _ _ _ => True)
      (fun r _ g' => Effect slot m (fields g) c r (fields g')) m g from Left.of_safe hI hsafe hr
  cases c with
  | set name x =>
    refine (x.code_safe name hI rfl Nat.le.refl (fun _ => rfl) (fun _ _ _ _ _ => trivial)
      (fun ho _ _ => ?_) fun m₁ g₁ y v ho _ hkept hfresh hfields => ?_)
    · exact .inl ⟨ho, rfl, rfl⟩
    · exact .inr ⟨y, v, ho, rfl, hkept, hfresh, hfields⟩
  | remove name =>
    refine Prog.Safe.bind (msmObjectRemove_safe hI rfl Nat.le.refl (fun hk => ?_)
      (fun _ hlt hm => ?_) fun m₁ g₁ hk hm _ hfields => ?_)
    · exact (if_neg fun hh => hk hh.1).mpr ⟨rfl, rfl⟩
    · refine (if_neg fun hh => ?_).mpr ⟨rfl, rfl⟩
      rw [hh.2 hlt] at hm
      cases hm
    · exact (if_pos ⟨hk, hm⟩).mpr ⟨rfl, hfields⟩

end left
end Msm.Tree
