import Mathlib.Data.List.Nodup

/-! # Finite maps as lists of pairs

The pairs of a finite map in the order their keys were first set. `find`, `set`
and `remove` are the operations; with distinct keys (`Distinct`) they obey the
laws of a finite partial map, and renaming the keys by a function that is
injective on them commutes with all three. -/
namespace Msm.Keyed
variable {K V : Type} [DecidableEq K]

def keys (l : List (K × V)) : List K := l.map Prod.fst

def Distinct (l : List (K × V)) : Prop := (l.map Prod.fst).Nodup

def find (l : List (K × V)) (k : K) : Option V := (l.find? fun x => x.1 = k).map Prod.snd

/-- Replaces the value of `k` where it stands, or adds `k` at the end. -/
def set (l : List (K × V)) (k : K) (v : V) : List (K × V) :=
  if k ∈ keys l then l.map fun x => if x.1 = k then (k, v) else x else l ++ [(k, v)]

def remove (l : List (K × V)) (k : K) : List (K × V) := l.filter fun x => x.1 ≠ k

variable {l : List (K × V)} {k k' : K} {v w : V}

omit [DecidableEq K] in
theorem mem_keys_of_mem (h : (k, v) ∈ l) : k ∈ keys l := List.mem_map.mpr ⟨_, h, rfl⟩

theorem find_eq_none_iff : find l k = none ↔ k ∉ keys l := by
  rw [find, Option.map_eq_none_iff, List.find?_eq_none, keys, List.mem_map]
  constructor
  · rintro h ⟨x, hx, rfl⟩
    exact absurd (h x hx) (by simp)
  · intro h x hx
    simpa using fun he => h ⟨x, hx, he⟩

theorem mem_of_find (h : find l k = some v) : (k, v) ∈ l := by
  obtain ⟨x, hx, rfl⟩ := Option.map_eq_some_iff.mp h
  have hk : x.1 = k := by simpa using List.find?_some hx
  rw [← hk]
  exact List.mem_of_find?_eq_some hx

omit [DecidableEq K] in
theorem unique (hd : Distinct l) (hv : (k, v) ∈ l) (hw : (k, w) ∈ l) : v = w := by
  have h := List.inj_on_of_nodup_map hd hv hw rfl
  exact (Prod.mk.inj h).2

theorem find_of_mem (hd : Distinct l) (h : (k, v) ∈ l) : find l k = some v := by
  cases hf : find l k with
  | none => exact absurd (mem_keys_of_mem h) (find_eq_none_iff.mp hf)
  | some w => rw [unique hd h (mem_of_find hf)]

theorem set_of_mem (h : k ∈ keys l) :
    set l k v = l.map fun x => if x.1 = k then (k, v) else x := if_pos h

theorem set_of_not_mem (h : k ∉ keys l) : set l k v = l ++ [(k, v)] := if_neg h

theorem keys_set_of_mem (h : k ∈ keys l) : keys (set l k v) = keys l := by
  rw [set_of_mem h, keys, List.map_map]
  refine List.map_congr_left fun x _ => ?_
  by_cases hx : x.1 = k
  · simp [hx]
  · simp [hx]

theorem keys_set_of_not_mem (h : k ∉ keys l) : keys (set l k v) = keys l ++ [k] := by
  rw [set_of_not_mem h, keys, List.map_append]
  rfl

theorem keys_remove : keys (remove l k) = (keys l).filter fun x => x ≠ k := by
  rw [keys, remove, keys, List.filter_map]
  rfl

theorem find_append_of_ne (h : k' ≠ k) : find (l ++ [(k, v)]) k' = find l k' := by
  simp [find, List.find?_append, Ne.symm h]

theorem find_set_self : find (set l k v) k = some v := by
  by_cases h : k ∈ keys l
  · rw [set_of_mem h]
    induction l with
    | nil => cases h
    | cons x l ih =>
      by_cases hx : x.1 = k
      · simp [find, hx]
      · have hk : k ∈ keys l := by
          rcases List.mem_cons.mp h with he | hm
          · exact absurd he.symm hx
          · exact hm
        have := ih hk
        simp only [find, List.map_cons, hx, if_false, List.find?_cons, decide_false] at this ⊢
        exact this
  · rw [set_of_not_mem h]
    have hnone : l.find? (fun x => x.1 = k) = none := by
      have := find_eq_none_iff.mpr h
      rwa [find, Option.map_eq_none_iff] at this
    simp [find, List.find?_append, hnone]

theorem find_set_of_ne (h : k' ≠ k) : find (set l k v) k' = find l k' := by
  by_cases hk : k ∈ keys l
  · rw [set_of_mem hk]
    clear hk
    induction l with
    | nil => rfl
    | cons x l ih =>
      simp only [find, List.map_cons, List.find?_cons] at ih ⊢
      by_cases hx : x.1 = k
      · simp only [hx, if_true, Ne.symm h, decide_false]
        exact ih
      · simp only [hx, if_false]
        split
        · rfl
        · exact ih
  · rw [set_of_not_mem hk, find_append_of_ne h]

theorem find_remove_self : find (remove l k) k = none := by
  rw [find_eq_none_iff, keys_remove]
  simp

theorem find_remove_of_ne (h : k' ≠ k) : find (remove l k) k' = find l k' := by
  induction l with
  | nil => rfl
  | cons x l ih =>
    by_cases hx : x.1 = k
    · simp only [remove, List.filter_cons, hx, ne_eq, not_true_eq_false, decide_false,
        Bool.false_eq_true, if_false] at ih ⊢
      rw [ih]
      simp [find, hx, Ne.symm h]
    · simp only [remove, List.filter_cons, hx, ne_eq, not_false_eq_true, decide_true, if_true,
        find, List.find?_cons] at ih ⊢
      split
      · rfl
      · exact ih

/-- Setting a key to the value it has. -/
theorem set_of_find (hd : Distinct l) (h : find l k = some v) : set l k v = l := by
  have hm := mem_of_find h
  rw [set_of_mem (mem_keys_of_mem hm)]
  refine (List.map_congr_left fun x hx => ?_).trans (List.map_id l)
  by_cases hk : x.1 = k
  · obtain ⟨k', w⟩ := x
    subst hk
    rw [if_pos rfl, unique hd hx hm]
    rfl
  · rw [if_neg hk]
    rfl

theorem length_set_of_mem (h : k ∈ keys l) : (set l k v).length = l.length := by
  rw [set_of_mem h, List.length_map]

theorem length_set_of_not_mem (h : k ∉ keys l) : (set l k v).length = l.length + 1 := by
  rw [set_of_not_mem h, List.length_append, List.length_singleton]

theorem length_le_set : l.length ≤ (set l k v).length := by
  by_cases h : k ∈ keys l
  · exact Nat.le_of_eq (length_set_of_mem h).symm
  · rw [length_set_of_not_mem h]
    exact Nat.le_succ _

theorem remove_of_not_mem (h : k ∉ keys l) : remove l k = l := by
  refine List.filter_eq_self.mpr fun x hx => ?_
  have hk : x.1 ≠ k := fun he => h (he ▸ mem_keys_of_mem hx)
  simpa using hk

theorem length_remove_of_mem (hd : Distinct l) (h : k ∈ keys l) :
    (remove l k).length + 1 = l.length := by
  have hkeys : (keys (remove l k)).length + 1 = (keys l).length := by
    have hnodup : (keys l).Nodup := hd
    have he : (keys l).filter (fun x => x ≠ k) = (keys l).erase k := by
      rw [hnodup.erase_eq_filter k]
      refine List.filter_congr fun x _ => ?_
      by_cases hx : x = k
      · simp [hx]
      · simp [hx]
    rw [keys_remove, he, List.length_erase_of_mem h]
    have := List.length_pos_of_mem h
    omega
  simpa [keys] using hkeys

/-- Removing a key is erasing the one position it has. -/
theorem remove_eq_eraseIdx {i : Nat} (hd : Distinct l) (h : l[i]? = some (k, v)) :
    remove l k = l.eraseIdx i := by
  induction l generalizing i with
  | nil => cases h
  | cons x l ih =>
    have hd' : x.1 ∉ keys l ∧ Distinct l := List.nodup_cons.mp hd
    cases i with
    | zero =>
      obtain rfl : x = (k, v) := by simpa using h
      have hl : remove l k = l := remove_of_not_mem hd'.1
      simp only [remove, List.filter_cons, ne_eq, not_true_eq_false, decide_false,
        Bool.false_eq_true, if_false, List.eraseIdx_cons_zero] at hl ⊢
      exact hl
    | succ i =>
      have hl : l[i]? = some (k, v) := by simpa using h
      have hx : x.1 ≠ k := fun he => hd'.1 (he ▸ mem_keys_of_mem (List.mem_of_getElem? hl))
      have := ih hd'.2 hl
      simp only [remove, List.filter_cons, ne_eq, hx, not_false_eq_true, decide_true, if_true,
        List.eraseIdx_cons_succ] at this ⊢
      rw [this]

/-! ## Renaming the keys -/

section rename
variable {K' : Type} [DecidableEq K'] {f : K → K'}

def rename (f : K → K') (l : List (K × V)) : List (K' × V) := l.map fun x => (f x.1, x.2)

omit [DecidableEq K] [DecidableEq K'] in
@[simp] theorem keys_rename (f : K → K') (l : List (K × V)) : keys (rename f l) = (keys l).map f := by
  simp [keys, rename]

omit [DecidableEq K] [DecidableEq K'] in
theorem mem_keys_rename (h : ∀ x ∈ keys l, f x = f k → x = k) :
    f k ∈ keys (rename f l) ↔ k ∈ keys l := by
  rw [keys_rename, List.mem_map]
  constructor
  · rintro ⟨x, hx, he⟩
    rwa [← h x hx he]
  · exact fun hk => ⟨k, hk, rfl⟩

theorem find_rename (h : ∀ x ∈ keys l, f x = f k → x = k) : find (rename f l) (f k) = find l k := by
  induction l with
  | nil => rfl
  | cons x l ih =>
    have ih' := ih fun y hy => h y (List.mem_cons_of_mem _ hy)
    simp only [find, rename, List.map_cons, List.find?_cons] at ih' ⊢
    by_cases hx : x.1 = k
    · simp [hx]
    · have hf : f x.1 ≠ f k := fun he => hx (h x.1 (List.mem_cons_self ..) he)
      simp only [hx, hf, decide_false]
      exact ih'

theorem set_rename (h : ∀ x ∈ keys l, f x = f k → x = k) :
    set (rename f l) (f k) v = rename f (set l k v) := by
  by_cases hk : k ∈ keys l
  · rw [set_of_mem hk, set_of_mem ((mem_keys_rename h).mpr hk), rename, rename, List.map_map,
      List.map_map]
    refine List.map_congr_left fun x hx => ?_
    by_cases he : x.1 = k
    · simp [he]
    · have hf : f x.1 ≠ f k := fun hf => he (h x.1 (mem_keys_of_mem hx) hf)
      simp [he, hf]
  · rw [set_of_not_mem hk, set_of_not_mem (fun hm => hk ((mem_keys_rename h).mp hm)), rename, rename,
      List.map_append]
    rfl

theorem remove_rename (h : ∀ x ∈ keys l, f x = f k → x = k) :
    remove (rename f l) (f k) = rename f (remove l k) := by
  rw [remove, rename, remove, rename, List.filter_map]
  congr 1
  refine List.filter_congr fun x hx => ?_
  by_cases he : x.1 = k
  · simp [he]
  · have hf : f x.1 ≠ f k := fun hf => he (h x.1 (mem_keys_of_mem hx) hf)
    simp [he, hf]

end rename
end Msm.Keyed
