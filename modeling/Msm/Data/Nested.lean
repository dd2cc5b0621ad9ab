import Mathlib.Data.List.Infix

/-! # Nested maps by their paths

A map whose values may be maps again, as the partial function that says what
stands at a path. `branch` is the value that says "a map": the root is one, and
nothing stands below a path but where a branch is. A `put` at a path of the tree
makes the branches on the way. -/
namespace Msm

structure Nested (K V : Type) (branch : V) where
  get : List K → Option V
  root : get [] = some branch
  closed : ∀ p k, get (p ++ [k]) ≠ none → get p = some branch

namespace Nested
variable {K V : Type} {branch : V}

@[ext] theorem ext {d d' : Nested K V branch} (h : ∀ p, d.get p = d'.get p) : d = d' := by
  cases d
  cases d'
  congr
  exact funext h

/-- What has something below it is a branch. -/
theorem branch_of_below (d : Nested K V branch) {p q : List K} (hq : q ≠ [])
    (h : d.get (p ++ q) ≠ none) : d.get p = some branch := by
  induction q using List.reverseRecOn with
  | nil => exact absurd rfl hq
  | append_singleton q k ih =>
    rw [← List.append_assoc] at h
    have hp := d.closed _ k h
    by_cases hnil : q = []
    · rwa [hnil, List.append_nil] at hp
    · exact ih hnil (by rw [hp]; exact Option.some_ne_none _)

theorem get_below (d : Nested K V branch) {p q : List K} (hq : q ≠ [])
    (h : d.get p ≠ some branch) : d.get (p ++ q) = none := by
  by_contra hne
  exact h (d.branch_of_below hq hne)

/-- The map without entries. -/
def empty : Nested K V branch where
  get p := if p = [] then some branch else none
  root := if_pos rfl
  closed p k h := absurd (if_neg (by simp)) h

theorem get_empty {p : List K} (hp : p ≠ []) : (empty : Nested K V branch).get p = none :=
  if_neg hp

/-! ## Walking down a path

The proper prefixes of a path have to be missing or branches, to be made or gone
through. -/

section walk
variable [DecidableEq V]

/-- The first name of `names` under which, starting from `p`, a value stands that
is not a branch. -/
def obstacle (d : Nested K V branch) (p : List K) : List K → Option K
  | [] => none
  | k :: names => match d.get (p ++ [k]) with
    | none => none
    | some x => if x = branch then d.obstacle (p ++ [k]) names else some k

theorem obstacle_of_branch {d : Nested K V branch} {p : List K} {k : K}
    (h : d.get (p ++ [k]) = some branch) (names : List K) :
    d.obstacle p (k :: names) = d.obstacle (p ++ [k]) names := by
  rw [obstacle, h]
  exact if_pos rfl

theorem obstacle_of_value {d : Nested K V branch} {p : List K} {k : K} {x : V}
    (h : d.get (p ++ [k]) = some x) (hx : x ≠ branch) (names : List K) :
    d.obstacle p (k :: names) = some k := by
  rw [obstacle, h]
  exact if_neg hx

theorem obstacle_cons_missing {d : Nested K V branch} {p : List K} {k : K}
    (h : d.get (p ++ [k]) = none) (names : List K) : d.obstacle p (k :: names) = none := by
  rw [obstacle, h]

end walk

/-! ## Changing it -/

section decidable
variable [DecidableEq K]

/-- `x` at `p`, and branches at the proper prefixes of `p`. A branch is replaced
by a branch only, so that nothing is left below a value. -/
def put (d : Nested K V branch) (p : List K) (x : V) (hx : d.get p = some branch → x = branch) :
    Nested K V branch where
  get q := if q = p then some x else if q <+: p then some branch else d.get q
  root := by
    by_cases hp : [] = p
    · rw [if_pos hp, hx (hp ▸ d.root)]
    · rw [if_neg hp, if_pos (List.nil_prefix)]
  closed q k h := by
    by_cases hpre : q ++ [k] <+: p
    · have hq : q <+: p := (List.prefix_append q [k]).trans hpre
      have hne : q ≠ p := by
        rintro rfl
        have := hpre.length_le
        rw [List.length_append, List.length_singleton] at this
        omega
      rw [if_neg hne, if_pos hq]
    · have hne : q ++ [k] ≠ p := fun he => hpre (he ▸ List.prefix_rfl)
      rw [if_neg hne, if_neg hpre] at h
      have hq := d.closed q k h
      by_cases he : q = p
      · rw [if_pos he, hx (he ▸ hq)]
      · rw [if_neg he]
        split
        · rfl
        · exact hq

/-- The map without what stands at `p` and below it. -/
def erase (d : Nested K V branch) (p : List K) (hp : p ≠ []) : Nested K V branch where
  get q := if p <+: q then none else d.get q
  root := by
    rw [if_neg fun h => hp (List.prefix_nil.mp h)]
    exact d.root
  closed q k h := by
    by_cases hpre : p <+: q ++ [k]
    · exact absurd (if_pos hpre) h
    · rw [if_neg hpre] at h
      rw [if_neg fun hq => hpre (hq.trans (List.prefix_append q [k]))]
      exact d.closed q k h

variable {d : Nested K V branch} {p q : List K} {x : V}

theorem get_put_self (hx : d.get p = some branch → x = branch) : (d.put p x hx).get p = some x :=
  if_pos rfl

theorem get_put_above (hx : d.get p = some branch → x = branch) (hq : q <+: p) (hne : q ≠ p) :
    (d.put p x hx).get q = some branch := by
  simp only [put, if_neg hne, if_pos hq]

theorem get_put_other (hx : d.get p = some branch → x = branch) (hq : ¬ q <+: p) :
    (d.put p x hx).get q = d.get q := by
  have hne : q ≠ p := fun he => hq (he ▸ List.prefix_rfl)
  simp only [put, if_neg hne, if_neg hq]

/-- Under a branch a `put` changes one path. -/
theorem get_put_of_ne {k : K} (hp : d.get p = some branch)
    (hx : d.get (p ++ [k]) = some branch → x = branch) (hne : q ≠ p ++ [k]) :
    (d.put (p ++ [k]) x hx).get q = d.get q := by
  by_cases hq : q <+: p ++ [k]
  · rw [get_put_above hx hq hne]
    obtain ⟨r, hr⟩ := hq
    have hrn : r ≠ [] := by
      rintro rfl
      exact hne (by rw [← hr, List.append_nil])
    obtain ⟨l, rfl⟩ : ∃ l, p = q ++ l := by
      obtain ⟨l, y, rfl⟩ : ∃ l y, r = l ++ [y] := ⟨_, _, (List.dropLast_concat_getLast hrn).symm⟩
      rw [← List.append_assoc] at hr
      exact ⟨l, (List.append_inj_left' hr rfl).symm⟩
    by_cases hl : l = []
    · rw [hl, List.append_nil] at hp
      exact hp.symm
    · exact (d.branch_of_below hl (by rw [hp]; exact Option.some_ne_none _)).symm
  · exact get_put_other hx hq

/-- A `put` of what is there is no change. -/
theorem put_of_get (h : d.get p = some x) (hx : d.get p = some branch → x = branch) :
    d.put p x hx = d := by
  refine ext fun q => ?_
  by_cases hq : q <+: p
  · by_cases he : q = p
    · rw [he, get_put_self, h]
    · rw [get_put_above hx hq he]
      obtain ⟨r, rfl⟩ := hq
      have hr : r ≠ [] := fun hr => he (by rw [hr, List.append_nil])
      exact (d.branch_of_below hr (by rw [h]; exact Option.some_ne_none _)).symm
  · exact get_put_other hx hq

/-- A `put` may be made after one of a branch on its way. -/
theorem put_put_branch (hb : d.get q = some branch → branch = branch) (hq : q <+: p)
    (hx : d.get p = some branch → x = branch)
    (hx' : (d.put q branch hb).get p = some branch → x = branch) :
    (d.put q branch hb).put p x hx' = d.put p x hx := by
  refine ext fun r => ?_
  by_cases hr : r <+: p
  · by_cases he : r = p
    · rw [he, get_put_self, get_put_self]
    · rw [get_put_above hx' hr he, get_put_above hx hr he]
  · rw [get_put_other hx' hr, get_put_other hx hr, get_put_other hb fun h => hr (h.trans hq)]

theorem get_erase_self (hp : p ≠ []) (h : p <+: q) : (d.erase p hp).get q = none := if_pos h

theorem get_erase_other (hp : p ≠ []) (h : ¬ p <+: q) : (d.erase p hp).get q = d.get q := if_neg h

/-- Making a branch clears the way through it, and does not change the rest of the way. -/
theorem obstacle_put [DecidableEq V] {d : Nested K V branch} {p : List K} {k : K}
    (h : ∀ x, d.get (p ++ [k]) = some x → x = branch)
    (hb : d.get (p ++ [k]) = some branch → branch = branch) (names : List K) :
    (d.put (p ++ [k]) branch hb).obstacle (p ++ [k]) names = d.obstacle p (k :: names) := by
  rcases Option.eq_none_or_eq_some (d.get (p ++ [k])) with hget | ⟨x, hget⟩
  · rw [obstacle_cons_missing hget]
    cases names with
    | nil => rfl
    | cons a names =>
      refine obstacle_cons_missing ?_ names
      rw [get_put_other hb fun hpre => ?_]
      · refine d.get_below (List.cons_ne_nil a []) ?_
        rw [hget]
        exact (Option.some_ne_none _).symm
      · have := hpre.length_le
        rw [List.length_append, List.length_singleton] at this
        omega
  · obtain rfl := h x hget
    rw [obstacle_of_branch hget, put_of_get hget]

end decidable
end Nested
end Msm
