import Msm.Obj.Map
import Msm.Tree.Brackets

/-! # Paths

A path is a list of names from the root. A slot that a path leads to is the one
it leads to for as long as no field on the path is removed, and a write through
it changes what this path reads and what no other path reads. -/
namespace Msm.Tree
open Msm.Exec Msm.CMem Msm.Api Msm.Obj

/-- The slot of the object that `names` lead to from `s`. -/
def slotOf (m : Mem) (s : Addr) : List CStr → Ptr
  | [] => some s
  | n :: names => match Keyed.find (objectFields m s) (key n) with
    | some ⟨v, .object⟩ => slotOf m ⟨v, 0⟩ names
    | _ => none

/-- The field `n` of the object that `names` lead to. -/
def lookup (m : Mem) (s : Addr) (names : List CStr) (n : CStr) : Option Field :=
  (slotOf m s names).bind fun t => Keyed.find (objectFields m t) (key n)

/-- A caller's walk along a path that creates nothing: one `msm_object_get_slot` a
name, as long as the field is an object. -/
def walk (slot : Ptr) : List CStr → CProg Ptr
  | [] => pure slot
  | n :: names => do
    let t ← msmObjectGetType slot (some n)
    if t = typeObject then do
      let nested ← msmObjectGetSlot slot (some n)
      walk nested names
    else pure none

/-- The call removes a field on the path `names`. -/
def RemovesOn (root : Addr) (names : List CStr) (m : Mem) (s : Addr) : WCall → Prop
  | .set _ _ => False
  | .remove n => ∃ pre, slotOf m root pre = some s ∧ pre ++ [n] <+: names

/-- Calls within the vocabulary, none of which removes a field on the path. -/
def Sparing (N : Vocabulary) (root : Addr) (names : List CStr) (m : Mem) (s : Addr) (c : WCall) :
    Prop := c.Within N ∧ ¬ RemovesOn root names m s c

section paths
variable {N : Vocabulary} {root s t : Addr} {m m' m₀ : Mem} {F : Ghosts} {g : State}
  {n n' : CStr} {names : List CStr} {c : WCall} {r : WVal} {σ τ : Session}

theorem slotOf_cons_of_find {v : Nat}
    (h : Keyed.find (objectFields m s) (key n) = some ⟨v, .object⟩) :
    slotOf m s (n :: names) = slotOf m ⟨v, 0⟩ names := by
  simp only [slotOf, h]

/-- A path with a first name goes through an object field. -/
theorem slotOf_cons (h : slotOf m s (n :: names) = some t) :
    ∃ v, Keyed.find (objectFields m s) (key n) = some ⟨v, .object⟩ ∧
      slotOf m ⟨v, 0⟩ names = some t := by
  unfold slotOf at h
  split at h
  · rename_i v hf
    exact ⟨v, hf, h⟩
  · cases h

theorem slotOf_append (m : Mem) (s : Addr) (names rest : List CStr) :
    slotOf m s (names ++ rest) = (slotOf m s names).bind fun t => slotOf m t rest := by
  induction names generalizing s with
  | nil => rfl
  | cons n names ih =>
    rw [List.cons_append, slotOf, slotOf]
    split
    · exact ih _
    · rfl

theorem Forest.slotOf (hF : Forest root m F) (hs : F s = some g)
    (h : Tree.slotOf m s names = some t) : ∃ k, F t = some k := by
  induction names generalizing s g with
  | nil =>
    obtain rfl : s = t := Option.some.inj h
    exact ⟨g, hs⟩
  | cons n names ih =>
    obtain ⟨v, hf, hrest⟩ := slotOf_cons h
    obtain ⟨k, hk⟩ := hF.child_of_mem hs (Keyed.mem_of_find hf)
    exact ih hk hrest

/-! ## Lookups by the code -/

theorem run_query {q : Query} {a : Answer (List UInt8)} (hI : Inv s m g)
    (ha : q.answer (Keyed.find (objectFields m s) (key16 n)) = a) :
    ∃ r : Answer CharPtr, (q.code s n).run m = .ok (r, m) ∧ r.Shows m a := by
  have hs := hI.sees (.get q n)
  rw [← hI.objectFields_eq] at hs
  simp only [RCall.answer, ha] at hs
  exact hs

theorem getType_run (hI : Inv s m g) (n : CStr) : (msmObjectGetType (some s) (some n)).run m =
    .ok ((Keyed.find (objectFields m s) (key16 n)).elim 0 fun f => f.value.type, m) := by
  obtain ⟨r, hr, hshow⟩ := run_query (q := .type) (n := n) hI rfl
  obtain ⟨x, m₁, hx, hp⟩ := Prog.run_of_bind hr
  obtain ⟨rfl, rfl⟩ : Answer.type x = r ∧ m₁ = m := by simpa [Prog.run] using hp
  have hx' : x = (Keyed.find (objectFields m₁ s) (key16 n)).elim 0 fun f => f.value.type := hshow
  rw [hx, hx']

theorem getSlot_run (hI : Inv s m g) (n : CStr) : (msmObjectGetSlot (some s) (some n)).run m =
    .ok ((Keyed.find (objectFields m s) (key16 n)).map fun f => ⟨f.slot, 0⟩, m) := by
  obtain ⟨r, hr, hshow⟩ := run_query (q := .slot) (n := n) hI rfl
  obtain ⟨x, m₁, hx, hp⟩ := Prog.run_of_bind hr
  obtain ⟨rfl, rfl⟩ : Answer.slot x = r ∧ m₁ = m := by simpa [Prog.run] using hp
  have hx' : x = (Keyed.find (objectFields m₁ s) (key16 n)).map fun f => (⟨f.slot, 0⟩ : Addr) := hshow
  rw [hx, hx']

theorem type_object_iff {x : Value} : x.type = typeObject ↔ x = .object := by
  constructor
  · intro h
    cases x with
    | scalar y => cases y <;> cases h
    | string _ => cases h
    | object => rfl
  · rintro rfl
    rfl

/-- **A walk finds the slot the path leads to**, and changes nothing. -/
theorem walk_run (hF : Forest root m F) (hs : F s = some g) (hN : ∀ a ∈ names, N.Has a) :
    (walk (some s) names).run m = .ok (slotOf m s names, m) := by
  induction names generalizing s g with
  | nil => rfl
  | cons n names ih =>
    have hI := hF.inv s g hs
    have hk : key16 n = key n := key16_eq (N.short n (hN n List.mem_cons_self))
    rw [walk, Prog.run_bind_ok (getType_run hI n), hk]
    cases hf : Keyed.find (objectFields m s) (key n) with
    | none =>
      rw [slotOf, hf]
      rfl
    | some f =>
      by_cases ht : f.value.type = typeObject
      · obtain ⟨v, x⟩ := f
        obtain rfl := type_object_iff.mp ht
        obtain ⟨k, hk'⟩ := hF.child_of_mem hs (Keyed.mem_of_find hf)
        rw [Option.elim_some, if_pos ht, Prog.run_bind_ok (getSlot_run hI n), hk, hf,
          slotOf_cons_of_find hf]
        exact ih hk' fun a ha => hN a (List.mem_cons_of_mem n ha)
      · rw [Option.elim_some, if_neg ht, slotOf, hf]
        split
        · rename_i v heq
          cases heq
          exact absurd rfl ht
        · rfl

/-! ## One call and the paths -/

theorem outcome_stored_type {x : Arg} {M : Obj.Fields} {y : Value}
    (h : x.outcome s m M n = .stored y) :
    y.type = x.value.type ∧ ∀ f, Keyed.find M (key16 n) = some f → f.value.type = x.value.type := by
  have hst (ok : Bool) (old : Value) (hold : x.value.Allocates → old.type = x.value.type) :
      (x.value.stored ok old).type = x.value.type := by
    unfold Value.stored
    split
    · rename_i ha
      exact hold ha.1
    · rfl
  simp only [Arg.outcome, setOutcome] at h
  generalize (if Full m s then 1 else 0) = i at h
  cases hf : Keyed.find M (key16 n) with
  | some f =>
    simp only [hf] at h
    split at h
    · cases h
    · rename_i ht
      have ht' : f.value.type = x.value.type := not_not.mp ht
      split at h
      · cases h
      · refine ⟨by rw [← Outcome.stored.inj h, hst _ _ fun _ => ht'], fun f' hf' => ?_⟩
        rw [← Option.some.inj hf', ht']
  | none =>
    simp only [hf] at h
    refine ⟨?_, fun f' hf' => by cases hf'⟩
    split at h
    · cases h
    · split at h
      · cases h
      · split at h
        · cases h
        · split at h
          · cases h
          · rw [← Outcome.stored.inj h, hst]
            intro ha
            cases x with
            | string bs _ => rfl
            | nullString len => rfl
            | _ => exact ha.elim

section call
variable {g' h : State} (hF : Forest root m F) (hs : F s = some g) (hl : Left s m g m' g')
include hF hs hl

/-- The fields of the other objects are the same. -/
theorem fields_other (ht : F t = some h) (hne : t ≠ s) : objectFields m' t = objectFields m t :=
  (hF.frame hs hl ht hne).objectFields_eq.trans (hF.inv t h ht).objectFields_eq.symm

variable (heff : Effect s m (fields g) c r (fields g'))
include heff

/-- A field that the call does not remove keeps its slot and its type. -/
theorem find_kept (ht : F t = some h) {k : UInt64} {f : Field}
    (hf : Keyed.find (objectFields m t) k = some f)
    (hno : ∀ a, c = .remove a → t = s → key a ≠ k) :
    ∃ f', Keyed.find (objectFields m' t) k = some f' ∧ f'.slot = f.slot ∧
      f'.value.type = f.value.type := by
  by_cases he : t = s
  · subst he
    rw [(hF.inv t g hs).objectFields_eq] at hf
    rw [hl.inv.objectFields_eq]
    cases c with
    | set a x =>
      rcases heff with ⟨_, _, hM⟩ | ⟨y, v, ho, _, hkept, _, hM⟩
      · rw [hM]
        exact ⟨f, hf, rfl, rfl⟩
      · rw [hM]
        by_cases hk : k = key16 a
        · subst hk
          refine ⟨⟨v, y⟩, Keyed.find_set_self, (hkept f hf).symm, ?_⟩
          obtain ⟨hy, hx⟩ := outcome_stored_type ho
          exact hy.trans (hx f hf).symm
        · exact ⟨f, (Keyed.find_set_of_ne hk).trans hf, rfl, rfl⟩
    | remove a =>
      simp only [Effect] at heff
      split at heff
      · rw [heff.2]
        exact ⟨f, (Keyed.find_remove_of_ne (Ne.symm (hno a rfl rfl))).trans hf, rfl, rfl⟩
      · rw [heff.2]
        exact ⟨f, hf, rfl, rfl⟩
  · rw [fields_other hF hs hl ht he]
    exact ⟨f, hf, rfl, rfl⟩

variable (hc : c.Within N)
include hc

/-- A path leads where it led, unless the call removes a field on it. -/
theorem slotOf_kept (ht : F t = some h) (hN : ∀ a ∈ names, N.Has a) {u : Addr}
    (hq : slotOf m t names = some u)
    (hno : ∀ pre a, c = .remove a → slotOf m t pre = some s → ¬ pre ++ [a] <+: names) :
    slotOf m' t names = some u := by
  induction names generalizing t h with
  | nil => exact hq
  | cons n names ih =>
    obtain ⟨v, hf, hrest⟩ := slotOf_cons hq
    obtain ⟨f, hf', hv, hty⟩ := find_kept hF hs hl heff ht hf fun a ha he hk => by
      subst ha he
      have hn : a = n := N.inj a n hc (hN n List.mem_cons_self) hk
      refine hno [] a rfl rfl ?_
      rw [hn]
      exact List.prefix_append [n] names
    obtain ⟨w, x⟩ := f
    obtain rfl : w = v := hv
    obtain rfl : x = .object := type_object_iff.mp hty
    rw [slotOf_cons_of_find hf']
    obtain ⟨k, hk⟩ := hF.child_of_mem ht (Keyed.mem_of_find hf)
    refine ih hk (fun a ha => hN a (List.mem_cons_of_mem n ha)) hrest fun pre a ha hpre => ?_
    intro hpath
    refine hno (n :: pre) a ha ?_ ?_
    · rw [slotOf_cons_of_find hf]
      exact hpre
    · exact (List.prefix_cons_inj n).mpr hpath

theorem lookup_kept (ht : F t = some h) (hN : ∀ a ∈ names, N.Has a) (hn : N.Has n) {f : Field}
    (hq : lookup m t names n = some f)
    (hno : ∀ pre a, c = .remove a → slotOf m t pre = some s → ¬ pre ++ [a] <+: names ++ [n]) :
    ∃ f', lookup m' t names n = some f' ∧ f'.slot = f.slot ∧ f'.value.type = f.value.type := by
  obtain ⟨u, hu, hf⟩ := Option.bind_eq_some_iff.mp hq
  have hu' := slotOf_kept hF hs hl heff hc ht hN hu fun pre a ha hpre hpath =>
    hno pre a ha hpre (hpath.trans (List.prefix_append ..))
  obtain ⟨k, hk⟩ := hF.slotOf ht hu
  obtain ⟨f', hf', hkept⟩ := find_kept hF hs hl heff hk hf fun a ha he hka => by
    subst ha he
    have han : a = n := N.inj a n hc hn hka
    refine hno names a rfl hu ?_
    rw [han]
  exact ⟨f', by rw [lookup, hu', Option.bind_some, hf'], hkept⟩

end call

/-! ## One path to a slot -/

/-- No two fields of an object share a value block. -/
theorem find_slot_inj (hI : Inv s m g) {k k' : UInt64} {f f' : Field}
    (hf : Keyed.find (fields g) k = some f) (hf' : Keyed.find (fields g) k' = some f')
    (h : f.slot = f'.slot) : k = k' := by
  obtain ⟨e, he, rfl, rfl⟩ := find_some hf
  obtain ⟨e', he', rfl, rfl⟩ := find_some hf'
  rw [hI.val_inj e e' (hI.published he) (hI.published he') h]

theorem slotOf_last (h : slotOf m s (names ++ [n]) = some t) : ∃ u v, slotOf m s names = some u ∧
    Keyed.find (objectFields m u) (key n) = some ⟨v, .object⟩ ∧ t = ⟨v, 0⟩ := by
  rw [slotOf_append] at h
  obtain ⟨u, hu, hlast⟩ := Option.bind_eq_some_iff.mp h
  obtain ⟨v, hf, hv⟩ := slotOf_cons hlast
  exact ⟨u, v, hu, hf, (Option.some.inj hv).symm⟩

/-- The root is not in an object, so no path with a name leads to it. -/
theorem slotOf_ne_root (hF : Forest root m F) (h : slotOf m root (names ++ [n]) = some t) :
    t ≠ root := by
  obtain ⟨u, v, hu, hf, rfl⟩ := slotOf_last h
  obtain ⟨g₀, hg₀⟩ := hF.rooted
  obtain ⟨k, hk⟩ := hF.slotOf hg₀ hu
  have hI := hF.inv u k hk
  rw [hI.objectFields_eq] at hf
  rintro rfl
  exact hF.root_apart hk (slot_of_mem hI (Keyed.mem_of_find hf))

/-- **The objects form a tree**: two paths to one slot are the same. -/
theorem slotOf_inj (hF : Forest root m F) {names' : List CStr} (hN : ∀ a ∈ names, N.Has a)
    (hN' : ∀ a ∈ names', N.Has a) (h : slotOf m root names = some t)
    (h' : slotOf m root names' = some t) : names = names' := by
  induction names using List.reverseRecOn generalizing t names' with
  | nil =>
    obtain rfl : root = t := Option.some.inj h
    induction names' using List.reverseRecOn with
    | nil => rfl
    | append_singleton pre' a' _ => exact absurd rfl (slotOf_ne_root hF h')
  | append_singleton pre a ih =>
    induction names' using List.reverseRecOn with
    | nil =>
      obtain rfl : root = t := Option.some.inj h'
      exact absurd rfl (slotOf_ne_root hF h)
    | append_singleton pre' a' _ =>
      obtain ⟨u, v, hu, hf, rfl⟩ := slotOf_last h
      obtain ⟨u', v', hu', hf', hv⟩ := slotOf_last h'
      obtain rfl : v = v' := by simpa using hv
      obtain ⟨g₀, hg₀⟩ := hF.rooted
      obtain ⟨k, hk⟩ := hF.slotOf hg₀ hu
      obtain ⟨k', hk'⟩ := hF.slotOf hg₀ hu'
      have hI := hF.inv u k hk
      have hI' := hF.inv u' k' hk'
      rw [hI.objectFields_eq] at hf
      rw [hI'.objectFields_eq] at hf'
      obtain rfl := hF.apart u u' k k' v _ _ hk hk' (slot_of_mem hI (Keyed.mem_of_find hf))
        (slot_of_mem hI' (Keyed.mem_of_find hf'))
      obtain rfl : k = k' := Option.some.inj (hk.symm.trans hk')
      have hpre := ih (fun x hx => hN x (List.mem_append_left _ hx))
        (fun x hx => hN' x (List.mem_append_left _ hx)) hu hu'
      have ha : a = a' := N.inj a a' (hN a (by simp)) (hN' a' (by simp))
        (find_slot_inj hI hf hf' rfl)
      rw [hpre, ha]

/-! ## A write and the other paths -/

theorem lookup_cons_object {v : Nat}
    (h : Keyed.find (objectFields m s) (key n) = some ⟨v, .object⟩) :
    lookup m s (n :: names) n' = lookup m ⟨v, 0⟩ names n' := by
  rw [lookup, slotOf_cons_of_find h, lookup]

theorem lookup_cons_none (h : Keyed.find (objectFields m s) (key n) = none) :
    lookup m s (n :: names) n' = none := by
  rw [lookup, slotOf, h]
  rfl

theorem lookup_cons_value {f : Field} (h : Keyed.find (objectFields m s) (key n) = some f)
    (ho : f.value ≠ .object) : lookup m s (n :: names) n' = none := by
  rw [lookup, slotOf, h]
  split
  · rename_i v hf
    cases hf
    exact absurd rfl ho
  · rfl

theorem lookup_empty (h : objectFields m s = []) : lookup m s names n = none := by
  cases names with
  | nil => simp [lookup, slotOf, h, Keyed.find]
  | cons a names => exact lookup_cons_none (by simp [h, Keyed.find])

section write
variable {g' h : State} {x : Arg} (hF : Forest root m F) (hs : F s = some g)
  (hl : Left s m g m' g')
include hF hs hl

/-- An object that a call has added has no fields. -/
theorem fields_added {k : UInt64} {v : Nat} (hf : Keyed.find (fields g) k = none)
    (hf' : Keyed.find (fields g') k = some ⟨v, .object⟩) : objectFields m' ⟨v, 0⟩ = [] := by
  have hF' := hF.call hs hl
  have hfresh : m.next ≤ v := by
    obtain ⟨e, he, rfl, hev⟩ := find_some hf'
    obtain rfl : v = e.val := congrArg Field.slot hev
    exact (hl.footprint.entry e he).resolve_left fun hold => (find_none_iff g _).mp hf e hold rfl
  obtain ⟨k', hk'⟩ := hF'.child s g' v (F.call_self s g') (slot_of_mem hl.inv (Keyed.mem_of_find hf'))
  have hempty : k' = Ghost.empty layout := by
    rcases Ghosts.call_cases hk' with ⟨hvs, _⟩ | ⟨_, hold⟩ | ⟨_, _, _, _, he⟩
    · have := (hF.inv s g hs).repr.slot_lt
      rw [← hvs] at this
      simp only at this
      omega
    · have := (hF.inv _ _ hold).repr.slot_lt
      simp only at this
      omega
    · exact he
  rw [(hF'.inv _ _ hk').objectFields_eq, hempty]
  rfl

variable (heff : Effect s m (fields g) (.set n x) r (fields g'))
include heff

/-- A set changes what its own path reads only. -/
theorem lookup_other (hn : N.Has n) {names' : List CStr} (ht : F t = some h)
    (hN' : ∀ a ∈ names', N.Has a) (hn' : N.Has n')
    (hne : ¬ (slotOf m t names' = some s ∧ n' = n)) :
    lookup m' t names' n' = lookup m t names' n' := by
  have hkey : key16 n = key n := key16_eq (N.short n hn)
  -- any other field of the object is what it was
  have hfind {u : Addr} {k : State} {a : CStr} (hu : F u = some k) (ha : N.Has a)
      (hua : ¬ (u = s ∧ a = n)) : Keyed.find (objectFields m' u) (key a) =
        Keyed.find (objectFields m u) (key a) := by
    by_cases he : u = s
    · subst he
      rw [hl.inv.objectFields_eq, (hF.inv u g hs).objectFields_eq]
      rcases heff with ⟨_, _, hM⟩ | ⟨y, v, _, _, _, _, hM⟩
      · rw [hM]
      · rw [hM, hkey]
        exact Keyed.find_set_of_ne fun hk => hua ⟨rfl, N.inj a n ha hn hk⟩
    · rw [fields_other hF hs hl hu he]
  induction names' generalizing t h with
  | nil =>
    refine hfind ht hn' fun hh => hne ⟨?_, hh.2⟩
    rw [hh.1]
    rfl
  | cons a names' ih =>
    have ha := hN' a List.mem_cons_self
    have hrest : ∀ b ∈ names', N.Has b := fun b hb => hN' b (List.mem_cons_of_mem a hb)
    cases hf : Keyed.find (objectFields m t) (key a) with
    | some f =>
      obtain ⟨f', hf', hv, hty⟩ := find_kept hF hs hl heff ht hf fun b hb => by cases hb
      by_cases ho : f.value = .object
      · obtain ⟨v, y⟩ := f
        obtain ⟨w, y'⟩ := f'
        obtain rfl : y = .object := ho
        obtain rfl : w = v := hv
        obtain rfl : y' = .object := type_object_iff.mp hty
        obtain ⟨k, hk⟩ := hF.child_of_mem ht (Keyed.mem_of_find hf)
        rw [lookup_cons_object hf, lookup_cons_object hf']
        refine ih hk hrest fun hh => hne ⟨?_, hh.2⟩
        rw [slotOf_cons_of_find hf]
        exact hh.1
      · rw [lookup_cons_value hf ho, lookup_cons_value hf' fun ho' => ?_]
        exact ho (type_object_iff.mp (hty.symm.trans (type_object_iff.mpr ho')))
    | none =>
      rw [lookup_cons_none hf]
      by_cases hta : t = s ∧ a = n
      · obtain ⟨rfl, rfl⟩ := hta
        cases hf' : Keyed.find (objectFields m' t) (key a) with
        | none => exact lookup_cons_none hf'
        | some f' =>
          by_cases ho : f'.value = .object
          · obtain ⟨v, y⟩ := f'
            obtain rfl : y = .object := ho
            rw [lookup_cons_object hf']
            rw [(hF.inv t g hs).objectFields_eq] at hf
            rw [hl.inv.objectFields_eq] at hf'
            exact lookup_empty (fields_added hF hs hl hf hf')
          · exact lookup_cons_value hf' ho
      · exact lookup_cons_none ((hfind ht ha hta).trans hf)

end write

end paths
end Msm.Tree
