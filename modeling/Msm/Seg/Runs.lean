import Msm.Api.Registry

/-! # Runs of the registry

What is live is read off the calls that have completed: `live log name` is the
latest successful allocation of the name that no `msm_free` of it follows. In
every run the registry is exactly that map, so every call answers as the history
says. -/
namespace Msm.Seg
open Msm.Exec Msm.CMem Msm.Api

inductive Call where
  | alloc (name : Option CStr) (size : UInt64) (destructor : Option DestructorFn)
  | allocWithSchema (name : Option CStr) (size schemaHash : UInt64)
      (destructor : Option DestructorFn)
  | getWithSchema (name : Option CStr) (schemaHash : UInt64)
  | getSchemaHash (name : Option CStr)
  | get (name : Option CStr)
  | free (name : Option CStr)

inductive Val where
  | ptr (p : Ptr)
  | hash (h : UInt64)
  | unit

def Call.exec (s : Process) : Call → Except Stop (Val × Process)
  | .alloc name size d => (msmAlloc name size d s).map fun r => (.ptr r.1, r.2)
  | .allocWithSchema name size h d =>
    (msmAllocWithSchema name size h d s).map fun r => (.ptr r.1, r.2)
  | .getWithSchema name h => (msmGetWithSchema name h s).map fun r => (.ptr r.1, r.2)
  | .getSchemaHash name => (msmGetSchemaHash name s).map fun r => (.hash r.1, r.2)
  | .get name => (msmGet name s).map fun r => (.ptr r.1, r.2)
  | .free name => (msmFree name s).map fun r => (.unit, r.2)

/-- The calls that have completed with their results, and the process they lead
to. Between two calls any code may run on the heap. -/
inductive Reaches (s₀ : Process) : List (Call × Val) → Process → Prop
  | start : Reaches s₀ [] s₀
  | call {log : List (Call × Val)} {s s' : Process} {c : Call} {v : Val} :
      Reaches s₀ log s → c.exec s = .ok (v, s') → Reaches s₀ (log ++ [(c, v)]) s'
  | heap {log : List (Call × Val)} {s : Process} {p : CProg Unit} {m : Mem} :
      Reaches s₀ log s → p.run s.mem = .ok ((), m) → Reaches s₀ log { s with mem := m }

/-! ## What the history says -/

/-- The allocation of `name` that is live after one more completed call. -/
def Call.live (name : CStr) (e : Option Entry) : Call × Val → Option Entry
  | (.alloc (some n) size d, .ptr (some p)) => if n = name then some ⟨some p, size, d, 0⟩ else e
  | (.allocWithSchema (some n) size h d, .ptr (some p)) =>
    if n = name then some ⟨some p, size, d, h⟩ else e
  | (.free (some n), _) => if n = name then none else e
  | _ => e

/-- The latest successful allocation of `name` not followed by `msm_free(name)`. -/
def live (log : List (Call × Val)) (name : CStr) : Option Entry :=
  log.foldl (Call.live name) none

theorem live_append (log : List (Call × Val)) (x : Call × Val) (name : CStr) :
    live (log ++ [x]) name = Call.live name (live log name) x := by
  simp only [live, List.foldl_append, List.foldl_cons, List.foldl_nil]

/-- The live allocation of an argument `name`; a null name has none. -/
def liveArg (log : List (Call × Val)) (name : Option CStr) : Option Entry := name.bind (live log)

/-- The call asks for an allocation, with these arguments and this destructor and hash. -/
def Call.Allocates (c : Call) (name : Option CStr) (size h : UInt64) (d : Option DestructorFn) :
    Prop :=
  c = .alloc name size d ∧ h = 0 ∨ c = .allocWithSchema name size h d

def Aborts (r : Except Stop (Val × Process)) : Prop :=
  ∃ format args, r = .error (.aborted format args)

@[simp] theorem aborts_ok (x : Val × Process) : ¬ Aborts (.ok x) := nofun

@[simp] theorem aborts_error (format : String) (args : List FormatArg) :
    Aborts (.error (.aborted format args)) := ⟨_, _, rfl⟩

/-- The heap after `malloc(n)` succeeded and `memset` cleared the new block. -/
def zeroedBlock (m : Mem) (n : Nat) : Mem :=
  (m.tick.alloc n).write ⟨m.next, 0⟩ (List.replicate n (.byte 0))

/-- What the process answers to an allocation. -/
structure AnswersAlloc (log : List (Call × Val)) (s : Process) (c : Call) (name : Option CStr)
    (size h : UInt64) (d : Option DestructorFn) : Prop where
  /-- It aborts exactly when the name is live; it stops for no other reason. -/
  aborts : Aborts (c.exec s) ↔ size ≠ 0 ∧ (liveArg log name).isSome
  stops : ∀ f, c.exec s = .error f → Aborts (c.exec s)
  /-- Without a name or a size nothing changes. -/
  rejects : name = none ∨ size = 0 → c.exec s = .ok (.ptr none, s)
  /-- When it returns null the registry is as before. -/
  fails : ∀ s', c.exec s = .ok (.ptr none, s') → s'.registry = s.registry
  /-- Otherwise it returns a fresh block of zeros. -/
  gives : ∀ n, name = some n → size ≠ 0 → live log n = none → s.mem.mallocOk = true →
    c.exec s = .ok (.ptr (some ⟨s.mem.next, 0⟩),
      ⟨Keyed.set s.registry n ⟨some ⟨s.mem.next, 0⟩, size, d, h⟩, zeroedBlock s.mem size.toNat⟩)

/-- How the process answers every call, by the calls that have completed before. -/
structure Answers (log : List (Call × Val)) (s : Process) : Prop where
  get : ∀ name, Call.exec s (.get name) = .ok (.ptr ((liveArg log name).bind Entry.ptr), s)
  nonnull : ∀ n e, live log n = some e → e.ptr ≠ none
  distinct : ∀ n n' e e', live log n = some e → live log n' = some e' → n ≠ n' → e.ptr ≠ e'.ptr
  alloc : ∀ c name size h d, c.Allocates name size h d → AnswersAlloc log s c name size h d
  schema_none : ∀ name h, liveArg log name = none →
    Call.exec s (.getWithSchema name h) = .ok (.ptr none, s)
  schema_same : ∀ name e, liveArg log name = some e →
    Call.exec s (.getWithSchema name e.schemaHash) = .ok (.ptr e.ptr, s)
  schema_other : ∀ name h e, liveArg log name = some e → h ≠ e.schemaHash →
    Aborts (Call.exec s (.getWithSchema name h))
  hash : ∀ name, Call.exec s (.getSchemaHash name) =
    .ok (.hash ((liveArg log name).elim 0 Entry.schemaHash), s)
  free_none : ∀ name, liveArg log name = none → Call.exec s (.free name) = .ok (.unit, s)
  /-- The destructor of the allocation runs on its pointer, the block there is freed
  in the memory this leaves, and the name goes. -/
  free_live : ∀ n e, live log n = some e → Call.exec s (.free (some n)) =
    (((e.destructor.elim (.ok ((), s.mem)) fun d => (d e.ptr).run s.mem).bind fun r =>
      r.2.exec (.free e.ptr)).mapError Stop.fault).map fun r =>
        (.unit, ⟨Keyed.remove s.registry n, r.2⟩)

/-! ## The registry is the map of the history -/

structure Inv (log : List (Call × Val)) (s : Process) : Prop where
  find : ∀ n, Keyed.find s.registry n = live log n
  ptr : ∀ n e, live log n = some e → ∃ b, e.ptr = some ⟨b, 0⟩ ∧ b < s.mem.next
  inj : ∀ n n' e e', live log n = some e → live log n' = some e' → e.ptr = e'.ptr → n = n'

section answers
variable {log : List (Call × Val)} {s s' : Process}

theorem allocEntry_eq (name : Option CStr) (size h : UInt64) (d : Option DestructorFn) :
    allocEntry name size h d s = match name with
      | none => .ok (none, s)
      | some n => if size = 0 then .ok (none, s) else match Keyed.find s.registry n with
        | some _ =>
          .error (.aborted "[msm_allocator] FATAL: duplicate name '%s'\n" [.str n.bytes])
        | none => if s.mem.mallocOk = true then .ok (some ⟨s.mem.next, 0⟩,
            ⟨Keyed.set s.registry n ⟨some ⟨s.mem.next, 0⟩, size, d, h⟩,
              zeroedBlock s.mem size.toNat⟩)
          else .ok (none, { s with mem := s.mem.tick }) := by
  cases name with
  | none => rfl
  | some n =>
    simp only [allocEntry]
    split
    · rfl
    · cases Keyed.find s.registry n with
      | some e => rfl
      | none =>
        have hz : (s.mem.tick.alloc size.toNat).Valid ⟨s.mem.next, 0⟩ size.toNat :=
          ⟨_, Mem.sizeOf_alloc s.mem.tick _, Nat.le_of_eq (Nat.zero_add _)⟩
        cases hm : s.mem.mallocOk with
        | true =>
          simp only [onHeap, malloc, memset0, Prog.run, Mem.exec_malloc_ok hm, Except.mapError,
            bind, Except.bind, reduceCtorEq, if_false, Mem.exec_zero hz, if_true, zeroedBlock]
        | false =>
          simp only [onHeap, malloc, Prog.run, Mem.exec_malloc_fail hm, Except.mapError,
            bind, Except.bind, if_true, reduceCtorEq, if_false]

theorem Call.Allocates.exec_eq {c : Call} {name : Option CStr} {size h : UInt64}
    {d : Option DestructorFn} (hc : c.Allocates name size h d) :
    c.exec s = (allocEntry name size h d s).map fun r => (.ptr r.1, r.2) := by
  rcases hc with ⟨rfl, rfl⟩ | rfl
  · rfl
  · rfl

/-- The destructor of the entry, on its pointer, and then the free of the block. -/
theorem run_destroyEntry (e : Entry) (m : Mem) : (destroyEntry e).run m =
    (e.destructor.elim (.ok ((), m)) fun d => (d e.ptr).run m).bind fun r =>
      r.2.exec (.free e.ptr) := by
  simp only [destroyEntry]
  cases e.destructor with
  | none =>
    simp only [free, Prog.run, Option.elim, Except.bind]
    cases m.exec (.free e.ptr) <;> rfl
  | some d =>
    simp only [Prog.run_bind, free, Option.elim]
    cases (d e.ptr).run m with
    | error f => rfl
    | ok r =>
      simp only [Prog.run, Except.bind]
      cases r.2.exec (.free e.ptr) <;> rfl

theorem Inv.answersAlloc (hI : Inv log s) {c : Call} {name : Option CStr} {size h : UInt64}
    {d : Option DestructorFn} (hc : c.Allocates name size h d) :
    AnswersAlloc log s c name size h d := by
  have hexec := hc.exec_eq (s := s)
  rw [allocEntry_eq] at hexec
  cases name with
  | none =>
    simp only [Except.map] at hexec
    refine ⟨by simp [hexec, liveArg], by simp [hexec], fun _ => hexec, ?_, nofun⟩
    intro s' he
    cases hexec.symm.trans he
    rfl
  | some n =>
    by_cases hsize : size = 0
    · simp only [hsize, if_true, Except.map] at hexec
      refine ⟨by simp [hexec, hsize], by simp [hexec], fun _ => hexec, ?_,
        fun _ _ h0 => absurd hsize h0⟩
      intro s' he
      cases hexec.symm.trans he
      rfl
    · simp only [if_neg hsize, hI.find n, Except.map] at hexec
      cases hl : live log n with
      | some e =>
        simp only [hl] at hexec
        exact ⟨by simp [hexec, hsize, liveArg, hl], by simp [hexec], by simp [hsize],
          by simp [hexec], by simp [hl]⟩
      | none =>
        rw [hl] at hexec
        cases hm : s.mem.mallocOk with
        | true =>
          simp only [hm, if_true] at hexec
          refine ⟨by simp [hexec, liveArg, hl], by simp [hexec], by simp [hsize],
            by simp [hexec], ?_⟩
          intro n' hn _ _ _
          cases hn
          exact hexec
        | false =>
          simp only [hm, Bool.false_eq_true, if_false] at hexec
          refine ⟨by simp [hexec, liveArg, hl], by simp [hexec], by simp [hsize], ?_, by simp [hm]⟩
          intro s' he
          cases hexec.symm.trans he
          rfl

theorem Inv.answers (hI : Inv log s) : Answers log s where
  get name := by
    cases name with
    | none => rfl
    | some n =>
      simp only [Call.exec, msmGet, hI.find, liveArg, Option.bind_some]
      cases live log n <;> rfl
  nonnull n e hl := by
    obtain ⟨b, hb, _⟩ := hI.ptr n e hl
    rw [hb]
    exact Option.some_ne_none _
  distinct n n' e e' hl hl' hne he := hne (hI.inj n n' e e' hl hl' he)
  alloc c name size h d hc := hI.answersAlloc hc
  schema_none name h hl := by
    cases name with
    | none => rfl
    | some n =>
      have hl' : live log n = none := hl
      simp only [Call.exec, msmGetWithSchema, hI.find, hl']
      rfl
  schema_same name e hl := by
    cases name with
    | none => cases hl
    | some n =>
      have hl' : live log n = some e := hl
      simp only [Call.exec, msmGetWithSchema, hI.find, hl', ne_eq, not_true, if_false]
      rfl
  schema_other name h e hl hne := by
    cases name with
    | none => cases hl
    | some n =>
      have hl' : live log n = some e := hl
      simp only [Call.exec, msmGetWithSchema, hI.find, hl', if_pos (Ne.symm hne)]
      exact ⟨_, _, rfl⟩
  hash name := by
    cases name with
    | none => rfl
    | some n =>
      simp only [Call.exec, msmGetSchemaHash, hI.find, liveArg, Option.bind_some]
      cases live log n <;> rfl
  free_none name hl := by
    cases name with
    | none => rfl
    | some n =>
      have hl' : live log n = none := hl
      simp only [Call.exec, msmFree, hI.find, hl']
      rfl
  free_live n e hl := by
    have hrun : Call.exec s (.free (some n)) =
        (((destroyEntry e).run s.mem).mapError Stop.fault).map fun r =>
          (.unit, ⟨Keyed.remove s.registry n, r.2⟩) := by
      simp only [Call.exec, msmFree, hI.find, hl, onHeap]
      cases (destroyEntry e).run s.mem <;> rfl
    rw [hrun, run_destroyEntry]

/-! ## Every step keeps it -/

/-- What a completed call does to the map of the history and to the registry. -/
inductive Effect (log : List (Call × Val)) (s s' : Process) (x : Call × Val) : Prop
  | same : (∀ n, Call.live n (live log n) x = live log n) → s'.registry = s.registry →
      s.mem.next ≤ s'.mem.next → Effect log s s' x
  | adds {n : CStr} {e : Entry} : e.ptr = some ⟨s.mem.next, 0⟩ →
      (∀ n', Call.live n' (live log n') x = if n = n' then some e else live log n') →
      s'.registry = Keyed.set s.registry n e → s.mem.next < s'.mem.next → Effect log s s' x
  | frees {n : CStr} : (∀ n', Call.live n' (live log n') x = if n = n' then none else live log n') →
      s'.registry = Keyed.remove s.registry n → s.mem.next ≤ s'.mem.next → Effect log s s' x

theorem Inv.effect (hI : Inv log s) {x : Call × Val} (he : Effect log s s' x) :
    Inv (log ++ [x]) s' := by
  cases he with
  | same hlive hreg hnext =>
    have hl (n : CStr) : live (log ++ [x]) n = live log n := (live_append ..).trans (hlive n)
    refine ⟨fun n => by rw [hreg, hl, hI.find], fun n e hn => ?_, fun n n' e e' hn hn' => ?_⟩
    · rw [hl] at hn
      obtain ⟨b, hb, hlt⟩ := hI.ptr n e hn
      exact ⟨b, hb, Nat.lt_of_lt_of_le hlt hnext⟩
    · rw [hl] at hn hn'
      exact hI.inj n n' e e' hn hn'
  | @adds n e hptr hlive hreg hnext =>
    have hl (k : CStr) : live (log ++ [x]) k = if n = k then some e else live log k :=
      (live_append ..).trans (hlive k)
    have hnew {k : CStr} {e' : Entry} (hk : live log k = some e') : e.ptr ≠ e'.ptr := by
      obtain ⟨b, hb, hlt⟩ := hI.ptr k e' hk
      rw [hptr, hb]
      intro heq
      cases heq
      exact Nat.lt_irrefl _ hlt
    refine ⟨fun k => ?_, fun k e' hk => ?_, fun k k' e₁ e₂ hk hk' hp => ?_⟩
    · rw [hreg, hl]
      split
      · rename_i hnk
        rw [← hnk, Keyed.find_set_self]
      · rename_i hnk
        rw [Keyed.find_set_of_ne (Ne.symm hnk), hI.find]
    · rw [hl] at hk
      split at hk
      · cases hk
        exact ⟨_, hptr, hnext⟩
      · obtain ⟨b, hb, hlt⟩ := hI.ptr k e' hk
        exact ⟨b, hb, Nat.lt_trans hlt hnext⟩
    · rw [hl] at hk hk'
      split at hk
      · split at hk'
        · rename_i h1 h2
          exact h1.symm.trans h2
        · cases hk
          exact absurd hp (hnew hk')
      · split at hk'
        · cases hk'
          exact absurd hp.symm (hnew hk)
        · exact hI.inj k k' e₁ e₂ hk hk' hp
  | @frees n hlive hreg hnext =>
    have hl (k : CStr) : live (log ++ [x]) k = if n = k then none else live log k :=
      (live_append ..).trans (hlive k)
    have hold {k : CStr} {e : Entry} (hk : live (log ++ [x]) k = some e) : live log k = some e := by
      rw [hl] at hk
      split at hk
      · cases hk
      · exact hk
    refine ⟨fun k => ?_, fun k e hk => ?_,
      fun k k' e e' hk hk' => hI.inj k k' e e' (hold hk) (hold hk')⟩
    · rw [hreg, hl]
      split
      · rename_i hnk
        rw [← hnk, Keyed.find_remove_self]
      · rename_i hnk
        rw [Keyed.find_remove_of_ne (Ne.symm hnk), hI.find]
    · obtain ⟨b, hb, hlt⟩ := hI.ptr k e (hold hk)
      exact ⟨b, hb, Nat.lt_of_lt_of_le hlt hnext⟩

theorem Call.Allocates.live_null {c : Call} {name : Option CStr} {size h : UInt64}
    {d : Option DestructorFn} (hc : c.Allocates name size h d) (n : CStr) (e : Option Entry) :
    Call.live n e (c, .ptr none) = e := by
  rcases hc with ⟨rfl, _⟩ | rfl
  · cases name <;> rfl
  · cases name <;> rfl

theorem Call.Allocates.live_some {c : Call} {n : CStr} {size h : UInt64}
    {d : Option DestructorFn} (hc : c.Allocates (some n) size h d) (n' : CStr) (e : Option Entry)
    (a : Addr) : Call.live n' e (c, .ptr (some a)) =
      if n = n' then some ⟨some a, size, d, h⟩ else e := by
  rcases hc with ⟨rfl, rfl⟩ | rfl
  · rfl
  · rfl

theorem Call.Allocates.effect {c : Call} {name : Option CStr} {size h : UInt64}
    {d : Option DestructorFn} (hc : c.Allocates name size h d) {v : Val}
    (he : c.exec s = .ok (v, s')) : Effect log s s' (c, v) := by
  rw [hc.exec_eq, allocEntry_eq] at he
  have hnull {s' : Process} (hreg : s'.registry = s.registry) (hm : s.mem.next ≤ s'.mem.next) :
      Effect log s s' (c, .ptr none) := .same (fun n => hc.live_null n _) hreg hm
  cases name with
  | none =>
    cases he
    exact hnull rfl (Nat.le_refl _)
  | some n =>
    simp only at he
    split at he
    · cases he
      exact hnull rfl (Nat.le_refl _)
    · split at he
      · cases he
      · split at he
        · cases he
          refine .adds (n := n) rfl (fun n' => hc.live_some n' _ _) rfl ?_
          simp [zeroedBlock, Mem.alloc_next]
        · cases he
          exact hnull rfl (Nat.le_refl _)

/-- A completed call has one of the three effects. -/
theorem Call.effect {c : Call} {v : Val} (he : c.exec s = .ok (v, s')) :
    Effect log s s' (c, v) := by
  cases c with
  | alloc name size d => exact Call.Allocates.effect (.inl ⟨rfl, rfl⟩) he
  | allocWithSchema name size h d => exact Call.Allocates.effect (.inr rfl) he
  | getWithSchema name h =>
    have hs : s' = s := by
      cases name with
      | none => cases he; rfl
      | some n =>
        simp only [Call.exec, msmGetWithSchema] at he
        split at he
        · cases he; rfl
        · split at he
          · cases he
          · cases he; rfl
    subst hs
    exact .same (fun _ => rfl) rfl (Nat.le_refl _)
  | getSchemaHash name =>
    have hs : s' = s := by
      cases name with
      | none => cases he; rfl
      | some n =>
        simp only [Call.exec, msmGetSchemaHash] at he
        split at he <;> (cases he; rfl)
    subst hs
    exact .same (fun _ => rfl) rfl (Nat.le_refl _)
  | get name =>
    have hs : s' = s := by
      cases name with
      | none => cases he; rfl
      | some n =>
        simp only [Call.exec, msmGet] at he
        split at he <;> (cases he; rfl)
    subst hs
    exact .same (fun _ => rfl) rfl (Nat.le_refl _)
  | free name =>
    cases name with
    | none =>
      cases he
      exact .same (fun _ => rfl) rfl (Nat.le_refl _)
    | some n =>
      simp only [Call.exec, msmFree] at he
      cases hf : Keyed.find s.registry n with
      | none =>
        rw [hf] at he
        cases he
        refine .frees (n := n) (fun _ => rfl) ?_ (Nat.le_refl _)
        exact (Keyed.remove_of_not_mem (Keyed.find_eq_none_iff.mp hf)).symm
      | some e =>
        rw [hf] at he
        simp only [onHeap] at he
        cases hr : (destroyEntry e).run s.mem with
        | error f => rw [hr] at he; cases he
        | ok r =>
          rw [hr] at he
          cases he
          exact .frees (n := n) (fun _ => rfl) rfl (Mem.run_next_le hr)

theorem Reaches.inv {m : Mem} (h : Reaches ⟨[], m⟩ log s) : Inv log s := by
  induction h with
  | start => exact ⟨fun _ => rfl, nofun, nofun⟩
  | call _ he ih => exact ih.effect (Call.effect he)
  | heap _ hr ih =>
    refine ⟨ih.find, fun n e hn => ?_, ih.inj⟩
    obtain ⟨b, hb, hlt⟩ := ih.ptr n e hn
    exact ⟨b, hb, Nat.lt_of_lt_of_le hlt (Mem.run_next_le hr)⟩

end answers

def graph : CStr := ⟨[103, 114, 97, 112, 104], by decide⟩

end Msm.Seg
