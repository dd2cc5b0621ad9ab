import Msm.Obj.Names

/-! # The object is a finite map from names to values

Over names that are short and told apart by their hashes, calls act on a bag
keyed by the names themselves, and every observer agrees with it. The abstract
map is `Bag CStr`; what a call does to it is `WCall.Takes` at the names. -/
namespace Msm.Obj
open Msm.Exec Msm.CMem Msm.Api

/-- A set of names no two of which share a hash, all of 16-bit length. -/
structure Vocabulary where
  Has : CStr → Prop
  short : ∀ n, Has n → n.bytes.length < 65536
  inj : ∀ n n', Has n → Has n' → key n = key n' → n = n'

/-- A call with a name of the vocabulary and a string whose buffer size is a
32-bit number. -/
def WCall.Within (N : Vocabulary) : WCall → Prop
  | .set name x => N.Has name ∧ ¬ x.value.Wraps
  | .remove name => N.Has name

def RCall.Within (N : Vocabulary) : RCall → Prop
  | .get _ name => N.Has name
  | .count => True

/-- Calls of the writer and what they returned, from `m₀` to a memory, each made
on fewer than 2^31 fields. -/
inductive Calls (N : Vocabulary) (slot : Addr) (m₀ : Mem) : List (WCall × WVal) → Mem → Prop
  | nil : Calls N slot m₀ [] m₀
  | snoc {h : List (WCall × WVal)} {m m' : Mem} {c : WCall} {r : WVal} : Calls N slot m₀ h m →
      c.Within N → objectCount m slot < 2 ^ 31 → (c.code slot).run m = .ok (r, m') →
      Calls N slot m₀ (h ++ [(c, r)]) m'

/-- The same calls on the abstract map, from the empty one. -/
inductive Spec : List (WCall × WVal) → Bag CStr → Prop
  | nil : Spec [] []
  | snoc {h : List (WCall × WVal)} {B B' : Bag CStr} {c : WCall} {r : WVal} : Spec h B →
      c.Takes id B r B' → Spec (h ++ [(c, r)]) B'

/-- The memory holds the map: as entries within the buffer's capacity, with
distinct hashes, and to every observer. -/
structure Refines (N : Vocabulary) (slot : Addr) (m : Mem) (B : Bag CStr) : Prop where
  names : ∀ n ∈ Keyed.keys B, N.Has n
  distinct : Keyed.Distinct B
  count_le : objectCount m slot ≤ objectCap m slot
  hashes : Keyed.Distinct (objectFields m slot)
  fields : objectFields m slot = Keyed.rename key B
  answers : ∀ c : RCall, c.Within N → Sees slot m c (c.answer id B)

/-! ## Names for keys -/

section rename
variable {N : Vocabulary} {B : Bag CStr} {name : CStr}

theorem Vocabulary.inj_on (N : Vocabulary) (hB : ∀ n ∈ Keyed.keys B, N.Has n) (hn : N.Has name) :
    ∀ n ∈ Keyed.keys B, key n = key name → n = name :=
  fun n hm hk => N.inj n name (hB n hm) hn hk

theorem RCall.answer_rename {c : RCall} (hc : c.Within N) (hB : ∀ n ∈ Keyed.keys B, N.Has n) :
    c.answer key16 (Keyed.rename key B) = c.answer id B := by
  cases c with
  | count => simp only [RCall.answer, Keyed.rename, List.length_map]
  | get q name =>
    simp only [RCall.answer, key16_eq (N.short name hc), Keyed.find_rename (N.inj_on hB hc), id]

theorem WCall.mismatch_rename {c : WCall} (hc : c.Within N) (hB : ∀ n ∈ Keyed.keys B, N.Has n) :
    c.Mismatch key16 (Keyed.rename key B) ↔ c.Mismatch id B := by
  cases c with
  | remove name => exact Iff.rfl
  | set name x =>
    simp only [WCall.Mismatch, Obj.Mismatch, key16_eq (N.short name hc.1),
      Keyed.find_rename (N.inj_on hB hc.1), id]

theorem WCall.takes_rename {c : WCall} {r : WVal} {M : Fields} (hc : c.Within N)
    (hB : ∀ n ∈ Keyed.keys B, N.Has n) (h : c.Takes key (Keyed.rename key B) r M) :
    ∃ B', M = Keyed.rename key B' ∧ c.Takes id B r B' ∧ ∀ n ∈ Keyed.keys B', N.Has n := by
  cases c with
  | set name x =>
    obtain ⟨v, hset, rfl⟩ := h
    have hinj := N.inj_on hB hc.1
    refine ⟨Keyed.set B name ⟨v, x.value⟩, by rw [hset.eq, Keyed.set_rename hinj], ?_, ?_⟩
    · refine ⟨v, ⟨fun f hf => hset.typed f ?_, fun f hf => hset.kept f ?_, fun hf y hy => ?_, rfl⟩,
        rfl⟩
      · rw [Keyed.find_rename hinj]
        exact hf
      · rw [Keyed.find_rename hinj]
        exact hf
      · refine hset.fresh ?_ (key y.1, y.2) (List.mem_map.mpr ⟨y, hy, rfl⟩)
        rw [Keyed.find_rename hinj]
        exact hf
    · intro n hn
      by_cases hm : name ∈ Keyed.keys B
      · rw [Keyed.keys_set_of_mem hm] at hn
        exact hB n hn
      · rw [Keyed.keys_set_of_not_mem hm, List.mem_append, List.mem_singleton] at hn
        rcases hn with hn | rfl
        · exact hB n hn
        · exact hc.1
  | remove name =>
    obtain ⟨s, hrem, rfl⟩ := h
    have hinj := N.inj_on hB hc
    simp only [RemovedTo, Keyed.mem_keys_rename hinj] at hrem
    by_cases hm : name ∈ Keyed.keys B
    · rw [if_pos hm] at hrem
      obtain ⟨rfl, rfl⟩ := hrem
      refine ⟨Keyed.remove B name, Keyed.remove_rename hinj, ⟨0, ?_, rfl⟩, fun n hn => ?_⟩
      · exact (if_pos hm).mpr ⟨rfl, rfl⟩
      · rw [Keyed.keys_remove] at hn
        exact hB n (List.mem_of_mem_filter hn)
    · rw [if_neg hm] at hrem
      obtain ⟨rfl, rfl⟩ := hrem
      exact ⟨B, rfl, ⟨-1, (if_neg hm).mpr ⟨rfl, rfl⟩, rfl⟩, hB⟩

end rename

/-! ## One call -/

section step
variable {N : Vocabulary} {slot : Addr} {m m₀ : Mem} {g : State} {B : Bag CStr} {c : WCall}

/-- With memory for everything, a call that meets no other type returns. -/
theorem Inv.call_run (h : Inv slot m g) (hs : m.script = []) (hn : objectCount m slot < 2 ^ 31)
    (hc : c.Within N) (ht : ¬ c.Mismatch key16 (fields g)) :
    ∃ r m' g', (c.code slot).run m = .ok (r, m') ∧ Inv slot m' g' ∧
      c.Takes key (fields g) r (fields g') := by
  cases c with
  | set name x =>
    have hcap : Full m slot → objectCap m slot < 2 ^ 31 := fun hfull => Nat.lt_of_le_of_lt hfull hn
    have hrun := x.run_outcome name h
    simp only [Arg.outcome_granted hs hcap hc.2 ht] at hrun
    obtain ⟨m', g', v, hr, hI, hkept, hfresh, hfields⟩ := hrun
    rw [key16_eq (N.short name hc.1)] at hkept hfresh hfields
    refine ⟨_, m', g', hr, hI, v, ⟨fun f hf => ?_, hkept, hfresh, hfields⟩, rfl⟩
    by_contra hne
    exact ht ⟨f, by rw [key16_eq (N.short name hc.1)]; exact hf, hne⟩
  | remove name =>
    obtain ⟨r, m', g', hr, hI, hor⟩ := remove_run name h
    refine ⟨_, m', g', hr, hI, r, ?_, rfl⟩
    have hok : m.mallocOk = true := by rw [Mem.mallocOk, hs]; rfl
    by_cases hm : key name ∈ Keyed.keys (fields g)
    · rw [if_pos ⟨hm, fun _ => hok⟩] at hor
      exact (if_pos hm).mpr hor
    · rw [if_neg (fun hh => hm hh.1)] at hor
      exact (if_neg hm).mpr hor

/-- A set of another type aborts. -/
theorem Inv.call_mismatch (h : Inv slot m g) (ht : c.Mismatch key16 (fields g)) :
    ∃ format arg, (c.code slot).run m = .error (.aborted format arg) := by
  cases c with
  | remove name => exact ht.elim
  | set name x =>
    have hrun := x.run_outcome name h
    simp only [Arg.outcome_of_mismatch ht] at hrun
    cases x <;> exact ⟨_, _, hrun⟩

theorem Inv.refines (h : Inv slot m g) (hB : ∀ n ∈ Keyed.keys B, N.Has n)
    (hf : fields g = Keyed.rename key B) : Refines N slot m B where
  names := hB
  distinct := by
    have hd := h.fields_distinct
    rw [hf, Keyed.Distinct, ← Keyed.keys, Keyed.keys_rename] at hd
    exact hd.of_map _
  count_le := h.count_le_cap
  hashes := h.objectFields_eq ▸ h.fields_distinct
  fields := h.objectFields_eq.trans hf
  answers c hc := by
    rw [← RCall.answer_rename hc hB, ← hf]
    exact h.sees c

/-- What the next call does to the memory, it does to the map. -/
def Refines.Steps (N : Vocabulary) (slot : Addr) (m : Mem) (B : Bag CStr) (c : WCall) : Prop :=
  (c.Mismatch id B → ∃ format arg, (c.code slot).run m = .error (.aborted format arg)) ∧
    (¬ c.Mismatch id B → ∃ r m' B', (c.code slot).run m = .ok (r, m') ∧ c.Takes id B r B' ∧
      Refines N slot m' B')

theorem Inv.steps (h : Inv slot m g) (hs : m.script = []) (hB : ∀ n ∈ Keyed.keys B, N.Has n)
    (hf : fields g = Keyed.rename key B) (hn : objectCount m slot < 2 ^ 31) (hc : c.Within N) :
    Refines.Steps N slot m B c := by
  constructor
  · intro ht
    refine h.call_mismatch ?_
    rw [hf, WCall.mismatch_rename hc hB]
    exact ht
  · intro ht
    rw [← WCall.mismatch_rename hc hB, ← hf] at ht
    obtain ⟨r, m', g', hr, hI', htakes⟩ := h.call_run hs hn hc ht
    rw [hf] at htakes
    obtain ⟨B', hf', htakes', hB'⟩ := WCall.takes_rename hc hB htakes
    exact ⟨r, m', B', hr, htakes', hI'.refines hB' hf'⟩

/-- **The object refines a finite map.** For every sequence of calls from a
zeroed slot there is an abstract run with the same calls and results; its map is
the one the memory holds, within the buffer's capacity and with distinct hashes,
and the one every observer sees. The next call aborts exactly on a field of
another type; otherwise it returns and takes the map where the abstract call
takes it. -/
theorem object_refines_map (h0 : Zeroed m₀ slot) (hs : m₀.script = [])
    {hist : List (WCall × WVal)} (h : Calls N slot m₀ hist m) :
    ∃ B, Spec hist B ∧ Refines N slot m B ∧
      ∀ c : WCall, c.Within N → objectCount m slot < 2 ^ 31 → Refines.Steps N slot m B c := by
  have hmap : m.script = [] ∧ ∃ g B, Inv slot m g ∧ Spec hist B ∧
      (∀ n ∈ Keyed.keys B, N.Has n) ∧ fields g = Keyed.rename key B := by
    induction h with
    | nil => exact ⟨hs, _, [], Inv.empty h0, .nil, (fun n hn => by cases hn), rfl⟩
    | snoc hcalls hc hn hr ih =>
      obtain ⟨hs', g, B, hI, hspec, hB, hf⟩ := ih
      refine ⟨run_script_nil hs' hr, ?_⟩
      have ht : ¬ _ := fun ht => by
        obtain ⟨_, _, herr⟩ := hI.call_mismatch ht
        rw [herr] at hr
        cases hr
      obtain ⟨r', m', g', hr', hI', htakes⟩ := hI.call_run hs' hn hc ht
      obtain ⟨rfl, rfl⟩ : r' = _ ∧ m' = _ := by simpa using hr'.symm.trans hr
      rw [hf] at htakes
      obtain ⟨B', hf', htakes', hB'⟩ := WCall.takes_rename hc hB htakes
      exact ⟨g', B', hI', .snoc hspec htakes', hB', hf'⟩
  obtain ⟨hs', g, B, hI, hspec, hB, hf⟩ := hmap
  exact ⟨B, hspec, hI.refines hB hf, fun c hc hn => hI.steps hs' hB hf hn hc⟩

end step

/-! The names "a" and "b": a number under the first, then a string under the second. -/

def nameB : CStr := ⟨[98], by decide⟩

def twoNames : Vocabulary where
  Has n := n = nameA ∨ n = nameB
  short := by
    rintro n (rfl | rfl)
    · decide
    · decide
  inj := by
    rintro n n' (rfl | rfl) (rfl | rfl) h
    · rfl
    · exact absurd h (by decide)
    · exact absurd h (by decide)
    · rfl

theorem object_refines_map_two : ∃ m B, Spec [(.set nameA (.int32 7), .status 0),
    (.set nameB (.string [104, 105] (by decide)), .status 0)] B ∧
    Refines twoNames ⟨0, 0⟩ m B := by
  have h : Calls twoNames ⟨0, 0⟩ zeroedSlot _ _ := .snoc (.snoc .nil
    (c := .set nameA (.int32 7)) ⟨.inl rfl, fun h => h⟩ (by decide) rfl)
    (c := .set nameB (.string [104, 105] (by decide)))
    ⟨.inr rfl, fun h => absurd (show 2 + 1 = 2 ^ 32 from h) (by decide)⟩ (by decide +kernel) rfl
  obtain ⟨B, hspec, href, _⟩ := object_refines_map zeroedSlot_zeroed rfl h
  exact ⟨_, B, hspec, href⟩

end Msm.Obj
