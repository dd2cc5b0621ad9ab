import Msm.Api.Proxy
import Msm.Tree.Sessions

/-! # Reading through bracket paths

Each bracket after the first ensures that the field before it is an object. On a
path whose proper prefixes are there, as objects, that reads only. Otherwise the
read adds a field, or ends the process over a field of another type; or the
field cannot be added for want of a buffer, and the rest of the path reads from
nothing. -/
namespace Msm.Tree
open Msm.Exec Msm.CMem Msm.Api Msm.Obj

/-- Every object of the tree has the fields it had. -/
def Unchanged (root : Addr) (m m' : Mem) : Prop :=
  ∀ s, ObjectAt m root s → objectFields m' s = objectFields m s ∧ objectCount m' s = objectCount m s

/-- The read returns, and every object has the fields it had. -/
def Harmless (root : Addr) (m : Mem) (n : CStr) (names : List CStr) (read : ProxyRead) : Prop :=
  ∃ v m', (readBrackets (some root) n names read).run m = .ok (v, m') ∧ Unchanged root m m'

/-- Every proper prefix of the path from `s` is there, as an object; or the first
one that is not is missing, and there is no memory for the larger buffer that
its object needs to take another field. -/
def Quiet (m : Mem) : Addr → CStr → List CStr → Prop
  | _, _, [] => True
  | s, n, n' :: names => match Keyed.find (objectFields m s) (key16 n) with
    | some ⟨v, .object⟩ => Quiet m ⟨v, 0⟩ n' names
    | some _ => False
    | none => Full m s ∧ m.mallocOk = false

section brackets
variable {root s : Addr} {m m' : Mem} {F F' : Ghosts} {g : State} {n : CStr} {names : List CStr}
  {read : ProxyRead}

/-! ## Proxies -/

/-- A read on an object returns and changes nothing. -/
theorem read_run (hI : Inv s m g) (n : CStr) (read : ProxyRead) :
    ∃ v, (read.code ⟨some s, some n⟩).run m = .ok (v, m) := by
  have hget (q : Query) : ∃ r, (q.code s n).run m = .ok (r, m) := by
    obtain ⟨r, hr, _⟩ := hI.observed (.get q n)
    exact ⟨r, hr⟩
  -- the query of the same getter, with its last step undone
  have hpure {β : Type} {p : CProg β} {f : β → Answer CharPtr}
      (h : ∃ r, (p >>= fun x => pure (f x)).run m = .ok (r, m)) : ∃ x, p.run m = .ok (x, m) := by
    obtain ⟨r, hr⟩ := h
    obtain ⟨x, m₁, hp, hf⟩ := Prog.run_of_bind hr
    obtain ⟨_, rfl⟩ : f x = r ∧ m₁ = m := by simpa [Prog.run] using hf
    exact ⟨x, hp⟩
  cases read with
  | asInt32 =>
    obtain ⟨x, hx⟩ := hpure (hget .int32)
    exact ⟨_, Prog.run_bind_ok hx⟩
  | asInt64 =>
    obtain ⟨x, hx⟩ := hpure (hget .int64)
    exact ⟨_, Prog.run_bind_ok hx⟩
  | asFloat64 =>
    obtain ⟨x, hx⟩ := hpure (hget .float64)
    exact ⟨_, Prog.run_bind_ok hx⟩
  | asBool =>
    obtain ⟨x, hx⟩ := hpure (hget .bool)
    exact ⟨_, Prog.run_bind_ok (Prog.run_bind_ok hx)⟩
  | asString =>
    obtain ⟨x, hx⟩ := hpure (hget .string)
    exact ⟨_, Prog.run_bind_ok hx⟩
  | typeId =>
    obtain ⟨x, hx⟩ := hpure (hget .type)
    exact ⟨_, Prog.run_bind_ok hx⟩
  | hasField =>
    obtain ⟨x, hx⟩ := hpure (hget .has)
    exact ⟨_, Prog.run_bind_ok (Prog.run_bind_ok hx)⟩

/-- From a null slot the rest of a path is null, and a read gives the default. -/
theorem read_null (n : CStr) (names : List CStr) (read : ProxyRead) (m : Mem) :
    ∃ n' v, (brackets ⟨none, some n⟩ names).run m = .ok (⟨none, some n'⟩, m) ∧
      (read.code ⟨none, some n'⟩).run m = .ok (v, m) := by
  induction names generalizing n with
  | nil => cases read <;> exact ⟨n, _, rfl, rfl⟩
  | cons n' names ih => exact ih n'

/-! ## What a bracket does -/

theorem outcome_object {M : Obj.Fields} {y : Value}
    (h : Arg.object.outcome s m M n = .stored y) : y = .object := by
  have hst (ok : Bool) (old : Value) : Value.object.stored ok old = .object := by
    simp [Value.stored, Value.Allocates]
  simp only [Arg.outcome, setOutcome, Arg.value, hst] at h
  generalize (if Full m s then 1 else 0) = i at h
  split at h
  · split at h
    · cases h
    · split at h
      · cases h
      · exact (Outcome.stored.inj h).symm
  · split at h
    · cases h
    · split at h
      · cases h
      · split at h
        · cases h
        · split at h
          · cases h
          · exact (Outcome.stored.inj h).symm

/-- A set fails when the field is missing and the buffer for it cannot be had. -/
theorem outcome_failed_iff {x : Arg} {M : Obj.Fields} : x.outcome s m M n = .failed ↔
    Keyed.find M (key16 n) = none ∧ Full m s ∧ m.mallocOk = false := by
  rw [Mem.mallocOk_eq]
  simp only [Arg.outcome, setOutcome]
  cases hf : Keyed.find M (key16 n) with
  | some f =>
    simp only [reduceCtorEq, false_and, iff_false]
    split
    · exact fun h => by cases h
    · split <;> exact fun h => by cases h
  | none =>
    by_cases hfull : Full m s ∧ m.outcome 0 = false
    · simp only [hfull, and_self, if_true]
    · rw [if_neg hfull]
      simp only [hfull, and_false, iff_false]
      generalize (if Full m s then 1 else 0) = i
      split
      · exact fun h => by cases h
      · split
        · exact fun h => by cases h
        · split <;> exact fun h => by cases h

/-- A nested object that is there is found. -/
theorem ensure_existing (hI : Inv s m g) {v : Nat}
    (hf : Keyed.find (fields g) (key16 n) = some ⟨v, .object⟩) :
    (msmObjectEnsureObject (some s) (some n)).run m = .ok (some ⟨v, 0⟩, m) := by
  obtain ⟨p, _, hrun, _, _, _, hp⟩ := (hI.trace.find_sampled (key16 n) 0).run
  cases p with
  | none => rw [hf] at hp; cases hp
  | some a =>
    obtain ⟨e, he, hek, hheld⟩ := hp
    have hat := hI.trace.held_at (Nat.le_refl 0) hheld
    have hfe := hI.find_of_mem he
    rw [hek, hf] at hfe
    obtain ⟨rfl, hv⟩ : v = e.val ∧ Value.object = valueAt g e.val := by simpa using hfe
    have ht : e.type = typeObject := by
      rw [← hI.value_type he, ← hv]
      rfl
    simp only [msmObjectEnsureObject, objectSetField, reduceCtorEq, if_false, objectFindEntry]
    refine (Prog.run_bind_ok hrun).trans ?_
    simp only [ne_eq, reduceCtorEq, not_false_eq_true, if_true, entryTypeId, loadU16_bind,
      entryValuePtr, loadPtr_bind, Ptr.some_add, Prog.run, Mem.exec_load hat.type,
      Mem.exec_load hat.val, ht, objectSetter, not_true_eq_false, if_false, Prog.pure_eq,
      Prog.ret_bind]

/-- The run of `ensure_object`, as that of the call. -/
theorem ensure_code {p : Ptr} (h : (msmObjectEnsureObject (some s) (some n)).run m = .ok (p, m')) :
    ((WCall.set n .object).code s).run m = .ok (.slot p, m') := Prog.run_bind_ok h

theorem ensure_fault {f : Fault} (hI : Inv s m g)
    (ho : Arg.object.outcome s m (fields g) n = .fault f) {p : Ptr} :
    (msmObjectEnsureObject (some s) (some n)).run m ≠ .ok (p, m') := by
  intro h
  have hrun := Arg.object.run_outcome n hI
  rw [ho] at hrun
  have hr := ensure_code h
  rw [show ((WCall.set n .object).code s).run m = _ from hrun] at hr
  cases hr

/-- Objects get no fewer fields. -/
def Grown (F F' : Ghosts) : Prop :=
  ∀ t k, F t = some k → ∃ k', F' t = some k' ∧ (fields k).length ≤ (fields k').length

theorem Grown.trans {F₁ F₂ : Ghosts} (h : Grown F F₁) (h' : Grown F₁ F₂) : Grown F F₂ := by
  intro t k ht
  obtain ⟨k₁, h₁, hle⟩ := h t k ht
  obtain ⟨k₂, h₂, hle'⟩ := h' t k₁ h₁
  exact ⟨k₂, h₂, Nat.le_trans hle hle'⟩

/-- A bracket adds a field or none, and gives null or an object of the tree. -/
theorem ensure_grows (hF : Forest root m F) (hs : F s = some g) {p : Ptr}
    (h : (msmObjectEnsureObject (some s) (some n)).run m = .ok (p, m')) :
    ∃ F', Forest root m' F' ∧ Grown F F' ∧
      (p = none ∨ ∃ t k, p = some t ∧ F' t = some k) ∧
      ∃ g', F' s = some g' ∧ Effect s m (fields g) (.set n .object) (.slot p) (fields g') := by
  have hI := hF.inv s g hs
  obtain ⟨g', heff, hl⟩ := call_left hI (ensure_code h)
  have hF' := hF.call hs hl
  refine ⟨_, hF', fun t k ht => ?_, ?_, g', F.call_self s g', heff⟩
  · by_cases he : t = s
    · subst he
      obtain rfl : g = k := Option.some.inj (hs.symm.trans ht)
      refine ⟨g', F.call_self t g', ?_⟩
      rcases heff with ⟨_, _, hM⟩ | ⟨y, v, _, _, _, _, hM⟩
      · exact Nat.le_of_eq (congrArg List.length hM.symm)
      · rw [hM]
        exact Keyed.length_le_set
    · exact ⟨k, F.call_of_ne g' he ht, Nat.le_refl _⟩
  · rcases heff with ⟨_, hp, _⟩ | ⟨y, v, ho, hp, _, _, hM⟩
    · exact .inl (by cases hp; rfl)
    · obtain rfl := outcome_object ho
      have hfind : Keyed.find (fields g') (key16 n) = some ⟨v, .object⟩ := by
        rw [hM]
        exact Keyed.find_set_self
      obtain ⟨k, hk⟩ := hF'.child s g' v (F.call_self s g')
        (slot_of_mem hl.inv (Keyed.mem_of_find hfind))
      exact .inr ⟨⟨v, 0⟩, k, by cases hp; rfl, hk⟩

theorem brackets_grow (hF : Forest root m F) (hs : F s = some g) {p : ObjectProxy}
    (h : (brackets ⟨some s, some n⟩ names).run m = .ok (p, m')) :
    ∃ F', Forest root m' F' ∧ Grown F F' ∧
      (p.objPtr = none ∨ ∃ t k, p.objPtr = some t ∧ F' t = some k) ∧ ∃ n', p.name = some n' := by
  induction names generalizing s n m F g with
  | nil =>
    obtain ⟨rfl, rfl⟩ : (⟨some s, some n⟩ : ObjectProxy) = p ∧ m = m' := by
      simpa [brackets, Prog.run] using h
    exact ⟨F, hF, fun t k ht => ⟨k, ht, Nat.le_refl _⟩, .inr ⟨s, g, rfl, hs⟩, n, rfl⟩
  | cons n' names ih =>
    obtain ⟨q, m₁, hq, hrest⟩ := Prog.run_of_bind h
    obtain ⟨r, m₂, hr, hq'⟩ := Prog.run_of_bind hq
    obtain ⟨rfl, rfl⟩ : (⟨r, some n'⟩ : ObjectProxy) = q ∧ m₂ = m₁ := by
      simpa [Prog.run] using hq'
    obtain ⟨F₁, hF₁, hg₁, hor, _⟩ := ensure_grows hF hs hr
    rcases hor with rfl | ⟨t, k, rfl, ht⟩
    · obtain ⟨n'', _, hnull, _⟩ := read_null n' names .typeId m₂
      obtain ⟨rfl, rfl⟩ : (⟨none, some n''⟩ : ObjectProxy) = p ∧ m₂ = m' := by
        simpa using hnull.symm.trans hrest
      exact ⟨F₁, hF₁, hg₁, .inl rfl, n'', rfl⟩
    · obtain ⟨F₂, hF₂, hg₂, hp⟩ := ih hF₁ ht hrest
      exact ⟨F₂, hF₂, hg₁.trans hg₂, hp⟩

theorem Forest.unchanged (hF : Forest root m F) (hF' : Forest root m' F')
    (h : ∀ t k, F t = some k → ∃ k', F' t = some k' ∧ fields k' = fields k) :
    Unchanged root m m' := by
  intro t ht
  obtain ⟨k, hk⟩ := hF.objectAt ht
  obtain ⟨k', hk', heq⟩ := h t k hk
  have hI := hF.inv t k hk
  have hI' := hF'.inv t k' hk'
  refine ⟨by rw [hI'.objectFields_eq, hI.objectFields_eq, heq], ?_⟩
  rw [hI'.objectCount_eq, hI.objectCount_eq, ← length_fields, ← length_fields, heq]

/-! ## Paths -/

theorem harmless_of_quiet (hF : Forest root m F) (hs : F s = some g) (hq : Quiet m s n names)
    (read : ProxyRead) :
    ∃ p v m', (brackets ⟨some s, some n⟩ names).run m = .ok (p, m') ∧
      (read.code p).run m' = .ok (v, m') ∧ Unchanged root m m' := by
  induction names generalizing s n g with
  | nil =>
    obtain ⟨v, hv⟩ := read_run (hF.inv s g hs) n read
    exact ⟨_, v, m, rfl, hv, fun _ _ => ⟨rfl, rfl⟩⟩
  | cons n' names ih =>
    have hI := hF.inv s g hs
    simp only [Quiet, hI.objectFields_eq] at hq
    split at hq
    · rename_i v hf
      obtain ⟨k, hk⟩ := hF.child s g v hs (slot_of_mem hI (Keyed.mem_of_find hf))
      obtain ⟨p, w, m', hp, hw, hsame⟩ := ih hk hq
      exact ⟨p, w, m', (Prog.run_bind_ok (Prog.run_bind_ok (ensure_existing hI hf))).trans hp, hw,
        hsame⟩
    · exact hq.elim
    · rename_i hf
      have ho : Arg.object.outcome s m (fields g) n = .failed := outcome_failed_iff.mpr ⟨hf, hq⟩
      have hrun := Arg.object.run_outcome n hI
      rw [ho] at hrun
      obtain ⟨m₁, hr, _⟩ := hrun
      obtain ⟨r, m₂, hens, hpure⟩ := Prog.run_of_bind hr
      obtain ⟨rfl, rfl⟩ : r = none ∧ m₂ = m₁ := by
        simpa [Prog.run, Arg.failed] using hpure
      obtain ⟨n'', v, hnull, hv⟩ := read_null n' names read m₂
      refine ⟨_, v, m₂, (Prog.run_bind_ok (Prog.run_bind_ok hens)).trans hnull, hv, ?_⟩
      obtain ⟨g₁, heff, hl⟩ := call_left hI (ensure_code hens)
      refine hF.unchanged (hF.call hs hl) fun t k ht => ?_
      by_cases he : t = s
      · subst he
        obtain rfl : g = k := Option.some.inj (hs.symm.trans ht)
        refine ⟨g₁, F.call_self t g₁, ?_⟩
        rcases heff with ⟨_, _, hM⟩ | ⟨y, w, hst, _⟩
        · exact hM
        · rw [ho] at hst
          cases hst
      · exact ⟨k, F.call_of_ne g₁ he ht, rfl⟩

theorem quiet_of_harmless (hF : Forest root m F) (hs : F s = some g) (hat : ObjectAt m root s)
    {p : ObjectProxy} {v : ProxyVal} {m₁ : Mem}
    (hp : (brackets ⟨some s, some n⟩ names).run m = .ok (p, m₁))
    (hv : (read.code p).run m₁ = .ok (v, m')) (hsame : Unchanged root m m') :
    Quiet m s n names := by
  induction names generalizing s n g with
  | nil => trivial
  | cons n' names ih =>
    have hI := hF.inv s g hs
    obtain ⟨q, m₂, hq, hrest⟩ := Prog.run_of_bind hp
    obtain ⟨r, m₃, hens, hq'⟩ := Prog.run_of_bind hq
    obtain ⟨rfl, rfl⟩ : (⟨r, some n'⟩ : ObjectProxy) = q ∧ m₃ = m₂ := by
      simpa [Prog.run] using hq'
    simp only [Quiet, hI.objectFields_eq]
    cases hf : Keyed.find (fields g) (key16 n) with
    | some f =>
      obtain ⟨w, x⟩ := f
      by_cases hx : x.type = Value.object.type
      · obtain rfl : x = .object := by
          cases x with
          | scalar y => cases y <;> cases hx
          | string _ => cases hx
          | object => rfl
        obtain ⟨rfl, rfl⟩ : some ⟨w, 0⟩ = r ∧ m = m₃ := by
          simpa using (ensure_existing hI hf).symm.trans hens
        obtain ⟨k, hk⟩ := hF.child s g w hs (slot_of_mem hI (Keyed.mem_of_find hf))
        have hmem := Keyed.mem_of_find hf
        rw [← hI.objectFields_eq] at hmem
        exact ih hk (.field hat hmem) hrest
      · exact absurd hens (ensure_fault hI (Arg.outcome_of_mismatch ⟨_, hf, hx⟩))
    | none =>
      obtain ⟨F₁, hF₁, _, hor, g₁, hg₁, heff⟩ := ensure_grows hF hs hens
      rcases heff with ⟨ho, _⟩ | ⟨y, w, _, hr, _, _, hM⟩
      · exact (outcome_failed_iff.mp ho).2
      · -- the field is there now, and stays
        exfalso
        obtain ⟨t, k, rfl, ht⟩ := hor.resolve_left fun hn => by
          rw [hn] at hr
          cases hr
        obtain ⟨F₂, hF₂, hgrow, hpp, n'', hn''⟩ := brackets_grow hF₁ ht hrest
        have hlast : m₁ = m' := by
          obtain ⟨ptr, nm⟩ := p
          obtain rfl : nm = some n'' := hn''
          rcases hpp with hnone | ⟨u, l, hu, hl⟩
          · obtain rfl : ptr = none := hnone
            obtain ⟨n₃, v', hn₃, hv'⟩ := read_null n'' [] read m₁
            obtain ⟨rfl, _⟩ : n'' = n₃ ∧ m₁ = m₁ := by simpa [brackets, Prog.run] using hn₃
            exact (by simpa using hv'.symm.trans hv : v' = v ∧ m₁ = m').2
          · obtain rfl : ptr = some u := hu
            obtain ⟨v', hv'⟩ := read_run (hF₂.inv u l hl) n'' read
            exact (by simpa using hv'.symm.trans hv : v' = v ∧ m₁ = m').2
        subst hlast
        obtain ⟨g₂, hg₂, hle⟩ := hgrow s g₁ hg₁
        have hcount := (hsame s hat).2
        rw [(hF₂.inv s g₂ hg₂).objectCount_eq, hI.objectCount_eq, ← length_fields,
          ← length_fields] at hcount
        rw [hM, Keyed.length_set_of_not_mem (Keyed.find_eq_none_iff.mp hf)] at hle
        omega

/-- **Bracket reads leave the tree alone exactly on quiet paths.** In every state
that calls on the objects of the tree reach, reading a path of any length
returns and leaves every object with the fields it had if and only if each
proper prefix of the path is there, as an object, or the first that is not
cannot be added because the growing of its object's buffer fails. -/
theorem bracket_reads_iff {m₀ : Mem} {σ : Session} (h0 : Zeroed m₀ root)
    (h : Reaches root (.start m₀) σ) (n : CStr) (names : List CStr) (read : ProxyRead) :
    Harmless root σ.now n names read ↔ Quiet σ.now root n names := by
  obtain ⟨F, hF, _⟩ := h.tended h0
  obtain ⟨g, hg⟩ := hF.rooted
  constructor
  · intro hh
    obtain ⟨v, m', hr, hsame⟩ := hh
    obtain ⟨p, m₁, hp, hv⟩ := Prog.run_of_bind hr
    exact quiet_of_harmless hF hg .here hp hv hsame
  · intro hq
    obtain ⟨p, v, m', hp, hv, hsame⟩ := harmless_of_quiet hF hg hq read
    exact ⟨v, m', (Prog.run_bind_ok hp).trans hv, hsame⟩

end brackets

/-! The path "a", "a": on an object with an object under "a" it is only read, on
one without fields the read adds "a". -/

theorem nested_reachable : ∃ σ, Reaches ⟨0, 0⟩ (.start zeroedSlot) σ ∧
    objectFields σ.now ⟨0, 0⟩ = [(key16 nameA, ⟨2, .object⟩)] :=
  ⟨_, .call (c := .set nameA .object) .refl ⟨_, List.mem_singleton_self _, .here⟩ trivial rfl,
    by decide +kernel⟩

theorem bracket_reads_iff_nested : ∃ σ, Reaches ⟨0, 0⟩ (.start zeroedSlot) σ ∧
    Harmless ⟨0, 0⟩ σ.now nameA [nameA] .asInt32 := by
  obtain ⟨σ, hσ, hf⟩ := nested_reachable
  refine ⟨σ, hσ, (bracket_reads_iff zeroedSlot_zeroed hσ nameA [nameA] .asInt32).mpr ?_⟩
  simp only [Quiet, hf, Keyed.find, List.find?_cons, decide_true, Option.map_some]

theorem missing_prefix_is_added :
    ¬ ∀ (root : Addr) (m₀ : Mem) (σ : Session) (n : CStr) (names : List CStr) (read : ProxyRead),
      Zeroed m₀ root → Reaches root (.start m₀) σ → Harmless root σ.now n names read := by
  intro h
  obtain ⟨v, m', hr, hsame⟩ :=
    h ⟨0, 0⟩ zeroedSlot (.start zeroedSlot) nameA [nameA] .hasField zeroedSlot_zeroed .refl
  have hadds : ∃ w m₁, (readBrackets (some ⟨0, 0⟩) nameA [nameA] .hasField).run zeroedSlot =
      .ok (w, m₁) ∧ objectCount m₁ ⟨0, 0⟩ = 1 := ⟨_, _, rfl, by decide +kernel⟩
  obtain ⟨w, m₁, hr₁, hone⟩ := hadds
  obtain ⟨rfl, rfl⟩ : w = v ∧ m₁ = m' := by simpa using hr₁.symm.trans hr
  have hzero := (hsame ⟨0, 0⟩ .here).2
  rw [hone] at hzero
  exact absurd hzero (by decide)

end Msm.Tree
