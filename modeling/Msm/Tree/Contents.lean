import Msm.Data.Nested
import Msm.Tree.Compose

/-! # What stands at each path

The tree under a root as a nested map: the value at a path of names. A set
through the slot of a path is a `put`, a remove is an `erase`. -/
namespace Msm.Tree
open Msm.Exec Msm.CMem Msm.Api Msm.Obj

/-- What a tree of objects is for: values under paths of names. -/
abbrev Document := Nested CStr Value .object

/-- The value at the path `names` from `s`. -/
def contents (m : Mem) (s : Addr) (names : List CStr) : Option Value :=
  match names.getLast? with
  | none => some .object
  | some n => (lookup m s names.dropLast n).map Field.value

section contents
variable {N : Vocabulary} {root s t : Addr} {m m' : Mem} {F : Ghosts} {g g' h : State}
  {n n' : CStr} {names names' : List CStr}

theorem contents_concat (m : Mem) (s : Addr) (names : List CStr) (n : CStr) :
    contents m s (names ++ [n]) = (lookup m s names n).map Field.value := by
  simp [contents]

theorem slotOf_concat_of_find {v : Nat} (hs : slotOf m s names = some t)
    (hf : Keyed.find (objectFields m t) (key n) = some ⟨v, .object⟩) :
    slotOf m s (names ++ [n]) = some ⟨v, 0⟩ := by
  rw [slotOf_append, hs, Option.bind_some, slotOf_cons_of_find hf]
  rfl

/-- A path leads to an object exactly when one stands there. -/
theorem contents_object_iff :
    contents m s names = some .object ↔ ∃ t, slotOf m s names = some t := by
  induction names using List.reverseRecOn with
  | nil => exact ⟨fun _ => ⟨s, rfl⟩, fun _ => rfl⟩
  | append_singleton names n _ =>
    rw [contents_concat]
    constructor
    · intro hc
      obtain ⟨f, hf, hv⟩ := Option.map_eq_some_iff.mp hc
      obtain ⟨t, ht, hfind⟩ := Option.bind_eq_some_iff.mp hf
      obtain ⟨v, x⟩ := f
      obtain rfl : x = .object := hv
      exact ⟨_, slotOf_concat_of_find ht hfind⟩
    · rintro ⟨t, ht⟩
      obtain ⟨u, v, hu, hf, rfl⟩ := slotOf_last ht
      rw [lookup, hu, Option.bind_some, hf]
      rfl

/-- What stands under a name of an object. -/
theorem contents_field (hs : slotOf m root names = some s) :
    contents m root (names ++ [n]) =
      (Keyed.find (objectFields m s) (key n)).map Field.value := by
  rw [contents_concat, lookup, hs, Option.bind_some]

/-- Nothing stands below a name that an object does not have. -/
theorem contents_below_missing (hs : slotOf m root names = some s)
    (hf : Keyed.find (objectFields m s) (key n) = none) (rest : List CStr) :
    contents m root (names ++ n :: rest) = none := by
  cases rest using List.reverseRecOn with
  | nil => rw [contents_field hs, hf, Option.map_none]
  | append_singleton rest n' =>
    rw [← List.cons_append, ← List.append_assoc, contents_concat, lookup, slotOf_append, hs,
      Option.bind_some, slotOf, hf]
    rfl

/-! ## A set -/

section call
variable (hF : Forest root m F) (hs : F s = some g) (hl : Left s m g m' g')
include hF hs hl

section set
variable {x : Arg} {r : WVal} (heff : Effect s m (fields g) (.set n x) r (fields g'))
  (hc : (WCall.set n x).Within N) (hN : ∀ a ∈ names, N.Has a)
  (hpath : slotOf m root names = some s)
include heff hc hN hpath

theorem slotOf_after_set : slotOf m' root names = some s := by
  obtain ⟨g₀, hg₀⟩ := hF.rooted
  exact slotOf_kept hF hs hl heff hc hg₀ hN hpath fun pre a ha => by cases ha

/-- A set through the slot of a path changes what stands at one path. -/
theorem contents_after_set (hN' : ∀ a ∈ names', N.Has a) (hne : names' ≠ names ++ [n]) :
    contents m' root names' = contents m root names' := by
  obtain ⟨g₀, hg₀⟩ := hF.rooted
  cases names' using List.reverseRecOn with
  | nil => rfl
  | append_singleton names' n' =>
    rw [contents_concat, contents_concat]
    rw [lookup_other hF hs hl heff hc.1 hg₀ (fun a ha => hN' a (List.mem_append_left _ ha))
      (hN' n' (by simp)) fun hh => hne ?_]
    rw [slotOf_inj hF (fun a ha => hN' a (List.mem_append_left _ ha)) hN hh.1 hpath, hh.2]

theorem contents_set {v : Nat} {y : Value}
    (hM : fields g' = Keyed.set (fields g) (key16 n) ⟨v, y⟩) :
    contents m' root (names ++ [n]) = some y := by
  rw [contents_field (slotOf_after_set hF hs hl heff hc hN hpath), hl.inv.objectFields_eq, hM,
    key16_eq (N.short n hc.1), Keyed.find_set_self]
  rfl

end set

/-! ## A remove -/

section remove
variable (hM : fields g' = Keyed.remove (fields g) (key n))
include hM

/-- A path that does not go through the removed field reads what it read. -/
theorem lookup_unremoved (hn : N.Has n) (ht : F t = some h) (hN' : ∀ a ∈ names', N.Has a)
    (hn' : N.Has n') (hoff : ∀ pre, slotOf m t pre = some s → ¬ pre ++ [n] <+: names' ++ [n']) :
    lookup m' t names' n' = lookup m t names' n' := by
  have hfind {u : Addr} {k : State} {a : CStr} (hu : F u = some k) (ha : N.Has a)
      (hua : ¬ (u = s ∧ a = n)) : Keyed.find (objectFields m' u) (key a) =
        Keyed.find (objectFields m u) (key a) := by
    by_cases he : u = s
    · subst he
      rw [hl.inv.objectFields_eq, (hF.inv u g hs).objectFields_eq, hM]
      exact Keyed.find_remove_of_ne fun hk => hua ⟨rfl, N.inj a n ha hn hk⟩
    · rw [fields_other hF hs hl hu he]
  induction names' generalizing t h with
  | nil =>
    refine hfind ht hn' fun hh => hoff [] (congrArg some hh.1) ?_
    rw [hh.2]
  | cons a names' ih =>
    have ha := hN' a List.mem_cons_self
    have hsame := hfind ht ha fun hh => hoff [] (congrArg some hh.1) (by
      rw [hh.2]
      exact List.prefix_append [n] _)
    cases hf : Keyed.find (objectFields m t) (key a) with
    | none => rw [lookup_cons_none hf, lookup_cons_none (hsame.trans hf)]
    | some f =>
      by_cases ho : f.value = .object
      · obtain ⟨v, y⟩ := f
        obtain rfl : y = .object := ho
        obtain ⟨k, hk⟩ := hF.child_of_mem ht (Keyed.mem_of_find hf)
        rw [lookup_cons_object hf, lookup_cons_object (hsame.trans hf)]
        refine ih hk (fun b hb => hN' b (List.mem_cons_of_mem a hb)) fun pre hpre hpath => ?_
        refine hoff (a :: pre) ?_ ((List.prefix_cons_inj a).mpr hpath)
        rw [slotOf_cons_of_find hf]
        exact hpre
      · rw [lookup_cons_value hf ho, lookup_cons_value (hsame.trans hf) ho]

variable {r : WVal} (heff : Effect s m (fields g) (.remove n) r (fields g')) (hn : N.Has n)
  (hN : ∀ a ∈ names, N.Has a) (hpath : slotOf m root names = some s)
include heff hn hN hpath

/-- A remove through the slot of a path leaves nothing at the path and below it,
and everything else as it was. -/
theorem contents_after_remove (hN' : ∀ a ∈ names', N.Has a) : contents m' root names' =
    if names ++ [n] <+: names' then none else contents m root names' := by
  obtain ⟨g₀, hg₀⟩ := hF.rooted
  have honly {pre : List CStr} (hpre : ∀ a ∈ pre, N.Has a) (h : slotOf m root pre = some s) :
      pre = names := slotOf_inj hF hpre hN h hpath
  have hkept : slotOf m' root names = some s := by
    refine slotOf_kept hF hs hl heff hn hg₀ hN hpath fun pre a ha hpre hpath' => ?_
    cases ha
    have hle := hpath'.length_le
    rw [honly (fun b hb => hN b (hpath'.subset (List.mem_append_left _ hb))) hpre,
      List.length_append, List.length_singleton] at hle
    omega
  split
  · rename_i hpre
    obtain ⟨rest, rfl⟩ := hpre
    rw [List.append_assoc]
    refine contents_below_missing hkept ?_ rest
    rw [hl.inv.objectFields_eq, hM]
    exact Keyed.find_remove_self
  · rename_i hoff
    cases names' using List.reverseRecOn with
    | nil => rfl
    | append_singleton names' n' =>
      rw [contents_concat, contents_concat]
      rw [lookup_unremoved hF hs hl hM hn hg₀ (fun a ha => hN' a (List.mem_append_left _ ha))
        (hN' n' (by simp)) fun pre hpre hpath' => hoff ?_]
      rw [← honly (fun b hb => hN' b (hpath'.subset (List.mem_append_left _ hb))) hpre]
      exact hpath'

end remove
end call
end contents
end Msm.Tree
