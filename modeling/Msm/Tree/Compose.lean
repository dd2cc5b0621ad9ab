import Msm.Tree.Paths

/-! # Slots keep their identity, and nested writes compose

Over sessions: a field that a path leads to keeps its slot through any calls on
any objects of the tree, until a field on the path is removed; so a slot got
earlier is the one a fresh lookup finds, and a write through it is what the
lookup reads. -/
namespace Msm.Tree
open Msm.Exec Msm.CMem Msm.Api Msm.Obj

section sessions
variable {N : Vocabulary} {root s : Addr} {m₀ : Mem} {F : Ghosts} {n : CStr} {names : List CStr}
  {σ τ : Session} {P : Mem → Addr → WCall → Prop}

theorem Steps.script_nil (h : Steps root P σ τ) (hs : σ.now.script = []) : τ.now.script = [] := by
  induction h with
  | refl => exact hs
  | call _ _ _ hr ih => exact run_script_nil ih hr

/-- The slot of a path, while no field on the path is removed. -/
theorem Steps.slotOf_kept (h : Tended root σ F) (hst : Steps root (Sparing N root names) σ τ)
    (hN : ∀ a ∈ names, N.Has a) (hs : slotOf σ.now root names = some s) :
    slotOf τ.now root names = some s := by
  induction hst with
  | refl => exact hs
  | call hst hhas hP hr ih =>
    obtain ⟨F', h'⟩ := h.steps hst
    obtain ⟨g, g', hg, heff, hl, _⟩ := h'.call hhas hr
    obtain ⟨g₀, hg₀⟩ := h'.forest.rooted
    refine Tree.slotOf_kept h'.forest hg hl heff hP.1 hg₀ hN ih fun pre a ha hpre hpath => ?_
    subst ha
    exact hP.2 ⟨pre, hpre, hpath⟩

/-- The field of a path, while no field on the path is removed. -/
theorem Steps.lookup_kept (h : Tended root σ F)
    (hst : Steps root (Sparing N root (names ++ [n])) σ τ) (hN : ∀ a ∈ names, N.Has a)
    (hn : N.Has n) {f : Field} (hf : lookup σ.now root names n = some f) :
    ∃ f', lookup τ.now root names n = some f' ∧ f'.slot = f.slot ∧ f'.value.type = f.value.type := by
  induction hst with
  | refl => exact ⟨f, hf, rfl, rfl⟩
  | call hst hhas hP hr ih =>
    obtain ⟨f₁, hf₁, hslot, hty⟩ := ih
    obtain ⟨F', h'⟩ := h.steps hst
    obtain ⟨g, g', hg, heff, hl, _⟩ := h'.call hhas hr
    obtain ⟨g₀, hg₀⟩ := h'.forest.rooted
    obtain ⟨f₂, hf₂, hslot', hty'⟩ :=
      Tree.lookup_kept h'.forest hg hl heff hP.1 hg₀ hN hn hf₁ fun pre a ha hpre hpath => by
        subst ha
        exact hP.2 ⟨pre, hpre, hpath⟩
    exact ⟨f₂, hf₂, hslot'.trans hslot, hty'.trans hty⟩

/-- What a path leads to, as the calls see it: a walk finds the object, and each
call of a reader on it answers by its fields. -/
structure Found (N : Vocabulary) (root : Addr) (m : Mem) (names : List CStr) : Prop where
  walks : (walk (some root) names).run m = .ok (slotOf m root names, m)
  answers : ∀ s, slotOf m root names = some s → ∀ c : RCall, c.Within N →
    Sees s m c (c.answer key (objectFields m s))

/-- The field is found again in the block it had: `get_slot` and, on a nested
object, `ensure_object` return the pointer they returned. -/
def SlotKept (root : Addr) (m m' : Mem) (names : List CStr) (n : CStr) : Prop :=
  ∀ f, lookup m root names n = some f → ∃ s f', slotOf m' root names = some s ∧
    lookup m' root names n = some f' ∧ f'.slot = f.slot ∧
    (msmObjectGetSlot (some s) (some n)).run m' = .ok (some ⟨f.slot, 0⟩, m') ∧
    (f.value = .object → (msmObjectEnsureObject (some s) (some n)).run m' =
      .ok (some ⟨f.slot, 0⟩, m'))

/-- The set through `s` returns; its path reads the value, and every other path
reads what it read. -/
def WriteFound (N : Vocabulary) (root : Addr) (m : Mem) (s : Addr) (names : List CStr) (n : CStr)
    (x : Arg) : Prop :=
  ∃ v m', ((WCall.set n x).code s).run m = .ok (x.done v, m') ∧
    slotOf m' root names = some s ∧ lookup m' root names n = some ⟨v, x.value⟩ ∧
    ∀ names' n', (∀ a ∈ names', N.Has a) → N.Has n' → (names', n') ≠ (names, n) →
      lookup m' root names' n' = lookup m root names' n'

theorem Tended.found (h : Tended root σ F) (hN : ∀ a ∈ names, N.Has a) :
    Found N root σ.now names where
  walks := by
    obtain ⟨g, hg⟩ := h.forest.rooted
    exact walk_run h.forest hg hN
  answers s hs c hc := by
    obtain ⟨g, hg⟩ := h.forest.rooted
    obtain ⟨k, hk⟩ := h.forest.slotOf hg hs
    have hI := h.forest.inv s k hk
    have hsees := hI.sees c
    rw [← hI.objectFields_eq] at hsees
    cases c with
    | count => exact hsees
    | get q a =>
      rw [RCall.answer, key16_eq (N.short a hc)] at hsees
      exact hsees

theorem Tended.slotKept (h : Tended root τ F) {m : Mem} {f' : Field} (hn : N.Has n) {f : Field}
    (hf' : lookup τ.now root names n = some f') (hslot : f'.slot = f.slot)
    (hty : f'.value.type = f.value.type) (hf : lookup m root names n = some f) :
    SlotKept root m τ.now names n := by
  intro f₁ hf₁
  obtain rfl : f = f₁ := Option.some.inj (hf.symm.trans hf₁)
  obtain ⟨s, hs, hfind⟩ := Option.bind_eq_some_iff.mp hf'
  obtain ⟨g₀, hg₀⟩ := h.forest.rooted
  obtain ⟨g, hg⟩ := h.forest.slotOf hg₀ hs
  have hI := h.forest.inv s g hg
  have hkey : key16 n = key n := key16_eq (N.short n hn)
  refine ⟨s, f', hs, hf', hslot, ?_, fun ho => ?_⟩
  · rw [getSlot_run hI n, hkey, hfind, Option.map_some, hslot]
  · obtain ⟨v, y⟩ := f'
    obtain rfl : v = f.slot := hslot
    obtain rfl : y = .object := type_object_iff.mp (hty.trans (type_object_iff.mpr ho))
    rw [hI.objectFields_eq, ← hkey] at hfind
    exact ensure_existing hI hfind

theorem Tended.writeFound (h : Tended root τ F) (hscript : τ.now.script = [])
    (hN : ∀ a ∈ names, N.Has a) (hs : slotOf τ.now root names = some s) {x : Arg} (hn : N.Has n)
    (hw : ¬ x.value.Wraps) (hty : ¬ Obj.Mismatch (objectFields τ.now s) (key n) x.value)
    (hcount : objectCount τ.now s < 2 ^ 31) : WriteFound N root τ.now s names n x := by
  obtain ⟨g₀, hg₀⟩ := h.forest.rooted
  obtain ⟨g, hg⟩ := h.forest.slotOf hg₀ hs
  have hI := h.forest.inv s g hg
  have hkey : key16 n = key n := key16_eq (N.short n hn)
  have ho : x.outcome s τ.now (fields g) n = .stored x.value := by
    refine Arg.outcome_granted hscript (fun hfull => Nat.lt_of_le_of_lt hfull hcount) hw ?_
    rw [hkey, ← hI.objectFields_eq]
    exact hty
  have hrun := x.run_outcome n hI
  simp only [ho] at hrun
  obtain ⟨m', _, v, hr, -, -, -, -⟩ := hrun
  have hr' : ((WCall.set n x).code s).run τ.now = .ok (x.done v, m') := hr
  obtain ⟨g', heff, hl⟩ := call_left hI hr'
  have hspares (pre : List CStr) (a : CStr) : WCall.set n x = .remove a →
      slotOf τ.now root pre = some s → ¬ pre ++ [a] <+: names := fun hc => by cases hc
  have hs' := Tree.slotOf_kept h.forest hg hl heff (N := N) ⟨hn, hw⟩ hg₀ hN hs hspares
  have heff' := heff
  rcases heff' with ⟨hfail, _⟩ | ⟨y, w, ho', hdone, _, _, hM⟩
  · rw [ho] at hfail
    cases hfail
  · obtain rfl : x.value = y := Outcome.stored.inj (ho.symm.trans ho')
    refine ⟨w, m', hdone ▸ hr', hs', ?_, fun names' n' hN' hn' hne => ?_⟩
    · rw [lookup, hs', Option.bind_some, hl.inv.objectFields_eq, hM, hkey]
      exact Keyed.find_set_self
    · refine lookup_other h.forest hg hl heff hn hg₀ hN' hn' fun hh => hne ?_
      rw [slotOf_inj h.forest hN' hN hh.1 hs, hh.2]

/-- **Slots keep their identity and nested writes compose.** In every state of a
session that begins with a zeroed root and memory for all: a walk along a path
finds the object it leads to; a field keeps its slot through any further calls
that remove no field on its path; and a set through the slot of a path, got
before any such calls, returns unless the field has another type, is what a
fresh lookup of the path finds, and leaves every other path as it was. -/
theorem paths_keep_slots_and_compose (h0 : Zeroed m₀ root) (hscript : m₀.script = [])
    (hσ : Steps root (fun _ _ c => c.Within N) (.start m₀) σ) (hN : ∀ a ∈ names, N.Has a) :
    Found N root σ.now names ∧
    (∀ n τ, N.Has n → Steps root (Sparing N root (names ++ [n])) σ τ →
      SlotKept root σ.now τ.now names n) ∧
    ∀ s τ, slotOf σ.now root names = some s → Steps root (Sparing N root names) σ τ →
      ∀ n x, (WCall.set n x).Within N →
        ¬ Obj.Mismatch (objectFields τ.now s) (key n) x.value → objectCount τ.now s < 2 ^ 31 →
        WriteFound N root τ.now s names n x := by
  obtain ⟨F, hF⟩ := hσ.tended h0
  refine ⟨hF.found hN, fun n τ hn hst f hf => ?_, fun s τ hs hst n x hc hty hcount => ?_⟩
  · obtain ⟨f', hf', hslot, hty⟩ := Steps.lookup_kept hF hst hN hn hf
    obtain ⟨F', hF'⟩ := hF.steps hst
    exact hF'.slotKept hn hf' hslot hty hf f hf
  · obtain ⟨F', hF'⟩ := hF.steps hst
    have hnil := hst.script_nil (hσ.script_nil hscript)
    exact hF'.writeFound hnil hN (Steps.slotOf_kept hF hst hN hs) hc.1 hc.2 hty hcount

end sessions

/-! An object under "a", then a number under "b" beside it: a write through the
slot of "a" goes to the path "a", "b". -/

theorem two_calls_reachable : ∃ σ τ, Steps ⟨0, 0⟩ (fun _ _ c => c.Within twoNames)
      (.start zeroedSlot) σ ∧ slotOf σ.now ⟨0, 0⟩ [nameA] = some ⟨2, 0⟩ ∧
    Steps ⟨0, 0⟩ (Sparing twoNames ⟨0, 0⟩ [nameA]) σ τ ∧ objectFields τ.now ⟨2, 0⟩ = [] ∧
    objectCount τ.now ⟨2, 0⟩ = 0 := by
  refine ⟨_, _, .call (c := .set nameA .object) .refl ⟨_, List.mem_singleton_self _, .here⟩
    ⟨.inl rfl, fun h => h⟩ rfl, by decide +kernel,
    .call (c := .set nameB (.int32 7)) .refl ⟨_, List.mem_cons_self, .here⟩
      ⟨⟨.inr rfl, fun h => h⟩, fun h => h⟩ rfl, by decide +kernel, by decide +kernel⟩

theorem paths_keep_slots_and_compose_two :
    ∃ m, WriteFound twoNames ⟨0, 0⟩ m ⟨2, 0⟩ [nameA] nameB (.int32 8) := by
  obtain ⟨σ, τ, hσ, hs, hτ, hf, hn⟩ := two_calls_reachable
  have hN : ∀ a ∈ [nameA], twoNames.Has a := fun a ha => .inl (List.mem_singleton.mp ha)
  refine ⟨τ.now, (paths_keep_slots_and_compose zeroedSlot_zeroed rfl hσ hN).2.2 ⟨2, 0⟩ τ hs hτ nameB
    (.int32 8) ⟨.inr rfl, fun h => h⟩ ?_ (by rw [hn]; decide)⟩
  rw [hf]
  intro hm
  obtain ⟨f, hf, _⟩ := hm
  cases hf

end Msm.Tree
