import Msm.Exec.Mutex
import Msm.Seg.Runs

/-! # The registry under threads

Any number of threads call the registry's functions, each function one action at a
time: it rejects bad arguments before it locks, and does the rest, accesses of the
registry, `malloc`, `memset`, a destructor and `free`, between the lock and the unlock
of the mutex. Between their calls, and while another thread is in one, the threads run
any code on the heap. -/
namespace Msm.Seg
open Msm.Exec Msm.CMem Msm.Api

/-! ## The functions, action by action -/

inductive ProcessAct where
  | heap (a : CMem.Act)
  /-- `reg.find(name)` -/
  | find (name : CStr)
  /-- `reg[name] = e` -/
  | set (name : CStr) (e : Entry)
  /-- `reg.erase(it)` -/
  | erase (name : CStr)
  /-- `fprintf(stderr, ..)` and `abort()` -/
  | abort (format : String) (args : List FormatArg)

def ProcessAct.Res : ProcessAct → Type
  | .heap a => a.Res
  | .find _ => Option Entry
  | .set _ _ => Unit
  | .erase _ => Unit
  | .abort _ _ => Empty

def execAct (s : Process) : (a : ProcessAct) → Except Stop (a.Res × Process)
  | .heap a => match s.mem.exec a with
    | .ok (r, m) => .ok (r, { s with mem := m })
    | .error f => .error (.fault f)
  | .find name => .ok (Keyed.find s.registry name, s)
  | .set name e => .ok ((), { s with registry := Keyed.set s.registry name e })
  | .erase name => .ok ((), { s with registry := Keyed.remove s.registry name })
  | .abort format args => .error (.aborted format args)

abbrev process : Machine := ⟨Process, ProcessAct, ProcessAct.Res, Stop, execAct⟩

abbrev Code (α : Type) := Prog process α

/-- Code on the heap. -/
def onProcess {α : Type} : CProg α → Code α
  | .ret x => .ret x
  | .act a k => .act (M := process) (.heap a) fun r => onProcess (k r)

def findName (name : CStr) : Code (Option Entry) := Prog.perform (M := process) (.find name)

def abortWith {α : Type} (format : String) (args : List FormatArg) : Code α :=
  .act (M := process) (.abort format args) Empty.elim

/-- `msm_alloc` and `msm_alloc_with_schema` under the mutex. -/
def allocBody (name : CStr) (size schemaHash : UInt64) (destructor : Option DestructorFn) :
    Code Val := do
  match ← findName name with
  | some _ => abortWith "[msm_allocator] FATAL: duplicate name '%s'\n" [.str name.bytes]
  | none =>
    let ptr ← onProcess (malloc size.toNat)
    if ptr = none then pure (.ptr none)
    else
      onProcess (memset0 ptr size.toNat)
      Prog.perform (M := process) (.set name ⟨ptr, size, destructor, schemaHash⟩)
      pure (.ptr ptr)

def getWithSchemaBody (name : CStr) (schemaHash : UInt64) : Code Val := do
  match ← findName name with
  | none => pure (.ptr none)
  | some it =>
    if it.schemaHash ≠ schemaHash then
      abortWith ("[msm_allocator] FATAL: schema hash mismatch for '%s'\n" ++
        "  expected (caller): 0x%016llx\n" ++
        "  stored (segment):  0x%016llx\n" ++
        "  Caller and segment owner agreed on different layouts.\n" ++
        "  This would have caused silent corruption — aborting.\n")
        [.str name.bytes, .hex schemaHash, .hex it.schemaHash]
    else pure (.ptr it.ptr)

def getSchemaHashBody (name : CStr) : Code Val := do
  match ← findName name with
  | none => pure (.hash 0)
  | some it => pure (.hash it.schemaHash)

def getBody (name : CStr) : Code Val := do
  match ← findName name with
  | none => pure (.ptr none)
  | some it => pure (.ptr it.ptr)

def freeBody (name : CStr) : Code Val := do
  match ← findName name with
  | none => pure .unit
  | some it =>
    onProcess (destroyEntry it)
    Prog.perform (M := process) (.erase name)
    pure .unit

def Call.code : Call → Locking process Val
  | .alloc (some name) size d => if size = 0 then .early (.ptr none)
    else .locked (allocBody name size 0 d)
  | .alloc none _ _ => .early (.ptr none)
  | .allocWithSchema (some name) size h d => if size = 0 then .early (.ptr none)
    else .locked (allocBody name size h d)
  | .allocWithSchema none _ _ _ => .early (.ptr none)
  | .getWithSchema (some name) h => .locked (getWithSchemaBody name h)
  | .getWithSchema none _ => .early (.ptr none)
  | .getSchemaHash (some name) => .locked (getSchemaHashBody name)
  | .getSchemaHash none => .early (.hash 0)
  | .get (some name) => .locked (getBody name)
  | .get none => .early (.ptr none)
  | .free (some name) => .locked (freeBody name)
  | .free none => .early .unit

section alone
variable {α : Type} {s : Process}

theorem onProcess_run (p : CProg α) : (onProcess p).run s =
    (onHeap p s.mem).map fun r => (r.1, { s with mem := r.2 }) := by
  induction p generalizing s with
  | ret x => rfl
  | act a k ih =>
    simp only [onProcess, onHeap, Prog.run, execAct]
    cases s.mem.exec a with
    | error f => rfl
    | ok r => exact ih r.1

theorem findName_run {name : CStr} {f : Option Entry → Code α} :
    (findName name >>= f).run s = (f (Keyed.find s.registry name)).run s := rfl

theorem allocBody_run {name : CStr} {size h : UInt64} {d : Option DestructorFn} (hsize : size ≠ 0) :
    (allocBody name size h d).run s =
      (allocEntry (some name) size h d s).map fun r => (.ptr r.1, r.2) := by
  simp only [allocBody, allocEntry, findName_run, if_neg hsize]
  cases Keyed.find s.registry name with
  | some e => rfl
  | none =>
    simp only [Prog.run_bind, onProcess_run]
    cases onHeap (malloc size.toNat) s.mem with
    | error f => rfl
    | ok r =>
      show Prog.run (M := process) (if r.1 = none then _ else _) _ =
        Except.map _ (if r.1 = none then _ else _)
      split
      · rfl
      · rw [Prog.run_bind, onProcess_run]
        cases onHeap (memset0 r.1 size.toNat) r.2 <;> rfl

/-- **A thread alone** on the process gets what the function computes. -/
theorem Call.code_run (c : Call) : c.code.run s = c.exec s := by
  cases c with
  | alloc name size d =>
    cases name with
    | none => rfl
    | some n =>
      by_cases hsize : size = 0
      · simp only [Call.code, Call.exec, msmAlloc, allocEntry, if_pos hsize]
        rfl
      · simp only [Call.code, if_neg hsize]
        exact allocBody_run hsize
  | allocWithSchema name size h d =>
    cases name with
    | none => rfl
    | some n =>
      by_cases hsize : size = 0
      · simp only [Call.code, Call.exec, msmAllocWithSchema, allocEntry, if_pos hsize]
        rfl
      · simp only [Call.code, if_neg hsize]
        exact allocBody_run hsize
  | getWithSchema name h =>
    cases name with
    | none => rfl
    | some n =>
      simp only [Call.code, Locking.run, getWithSchemaBody, findName_run, Call.exec,
        msmGetWithSchema]
      cases Keyed.find s.registry n with
      | none => rfl
      | some e =>
        simp only
        split <;> rfl
  | getSchemaHash name =>
    cases name with
    | none => rfl
    | some n =>
      simp only [Call.code, Locking.run, getSchemaHashBody, findName_run, Call.exec,
        msmGetSchemaHash]
      cases Keyed.find s.registry n <;> rfl
  | get name =>
    cases name with
    | none => rfl
    | some n =>
      simp only [Call.code, Locking.run, getBody, findName_run, Call.exec, msmGet]
      cases Keyed.find s.registry n <;> rfl
  | free name =>
    cases name with
    | none => rfl
    | some n =>
      simp only [Call.code, Locking.run, freeBody, findName_run, Call.exec, msmFree]
      cases Keyed.find s.registry n with
      | none => rfl
      | some e =>
        simp only [Prog.run_bind, onProcess_run]
        cases onHeap (destroyEntry e) s.mem <;> rfl

end alone

/-! ## What the calls answer -/

/-- An allocation answers null or a pointer that no live name has, and the name is not live. -/
def SaysAlloc (log : List (Call × Val)) (name : Option CStr) (v : Val) : Prop :=
  liveArg log name = none ∧ ∃ p, v = .ptr p ∧ ∀ n e, live log n = some e → e.ptr ≠ p

/-- The answer of a call that locked, by the calls that have unlocked before. -/
def Says (log : List (Call × Val)) : Call → Val → Prop
  | .alloc name _ _, v => SaysAlloc log name v
  | .allocWithSchema name _ _ _, v => SaysAlloc log name v
  | .getWithSchema name h, v => v = .ptr ((liveArg log name).bind Entry.ptr) ∧
    ∀ e, liveArg log name = some e → e.schemaHash = h
  | .getSchemaHash name, v => v = .hash ((liveArg log name).elim 0 Entry.schemaHash)
  | .get name, v => v = .ptr ((liveArg log name).bind Entry.ptr)
  | .free _, v => v = .unit

/-- The call ends the process, by the calls that have unlocked before. -/
def Rejects (log : List (Call × Val)) : Call → Prop
  | .alloc name _ _ => (liveArg log name).isSome
  | .allocWithSchema name _ _ _ => (liveArg log name).isSome
  | .getWithSchema name h => ∃ e, liveArg log name = some e ∧ e.schemaHash ≠ h
  | _ => False

/-- Every call has the answer that the calls before it give. -/
def Told (log : List (Call × Val)) : Prop :=
  ∀ before c v after, log = before ++ (c, v) :: after → Says before c v

/-- What code on the heap does to the process. -/
structure OnHeap (s s' : Process) : Prop where
  registry : s'.registry = s.registry
  next : s.mem.next ≤ s'.mem.next

def ProcessAct.IsHeap : ProcessAct → Prop
  | .heap _ => True
  | _ => False

def Stops (log : List (Call × Val)) (c : Call) : Stop → Prop
  | .fault _ => True
  | .aborted _ _ => Rejects log c

/-- The registry is the map of the history, and the history is right. -/
structure History (log : List (Call × Val)) (s : Process) : Prop where
  inv : Inv log s
  told : Told log

/-- The call runs its body, amid code on the heap, from a history to a longer one. -/
def Completes (log : List (Call × Val)) (c : Call) : Code Val → Process → Prop :=
  Prog.Amid OnHeap (Stops log c) fun v s => History (log ++ [(c, v)]) s

section bodies
variable {log : List (Call × Val)} {s s' s₁ s₂ s₃ : Process} {c : Call} {v : Val} {α : Type}

theorem OnHeap.refl (s : Process) : OnHeap s s := ⟨rfl, Nat.le_refl _⟩

theorem OnHeap.trans (h : OnHeap s₁ s₂) (h' : OnHeap s₂ s₃) : OnHeap s₁ s₃ :=
  ⟨h'.registry.trans h.registry, Nat.le_trans h.next h'.next⟩

theorem OnHeap.exec {a : CMem.Act} {r : a.Res} (he : execAct s (.heap a) = .ok (r, s')) :
    OnHeap s s' := by
  simp only [execAct] at he
  split at he
  · rename_i hx
    cases he
    exact ⟨rfl, Mem.exec_next_le hx⟩
  · cases he

theorem Inv.onHeap (hI : Inv log s) (hs : OnHeap s s') : Inv log s' := by
  refine ⟨fun n => ?_, fun n e hn => ?_, hI.inj⟩
  · rw [hs.registry]
    exact hI.find n
  · obtain ⟨b, hb, hlt⟩ := hI.ptr n e hn
    exact ⟨b, hb, Nat.lt_of_lt_of_le hlt hs.next⟩

theorem Told.append (ht : Told log) (hv : Says log c v) : Told (log ++ [(c, v)]) := by
  intro before d w after heq
  rcases List.eq_nil_or_concat after with rfl | ⟨after', z, rfl⟩
  · obtain ⟨rfl, hd⟩ := List.append_inj' heq rfl
    cases hd
    exact hv
  · rw [List.concat_eq_append, ← List.cons_append, ← List.append_assoc] at heq
    obtain ⟨hlog, _⟩ := List.append_inj' heq rfl
    exact ht before d w after' hlog

/-! ## The bodies amid other threads -/

variable {F : Stop → Prop} {Q : α → Process → Prop} {Q' : Val → Process → Prop}

theorem onProcess_amid {β : Type} {p : CProg β} {f : β → Code α}
    (hF : ∀ x, F (.fault x)) (hf : ∀ x s', OnHeap s s' → (f x).Amid OnHeap F Q s') :
    (onProcess p >>= f).Amid OnHeap F Q s := by
  induction p generalizing s with
  | ret x => exact hf x s (.refl s)
  | act a k ih =>
    refine .of_act (fun s₁ r s₂ hs he => ?_) (fun s₁ x hs he => ?_)
    · exact ih r fun y s₃ hs₃ => hf y s₃ ((hs.trans (OnHeap.exec he)).trans hs₃)
    · simp only [execAct] at he
      split at he
      · cases he
      · cases he
        exact hF _

theorem findName_amid {name : CStr} {f : Option Entry → Code α} (hI : Inv log s)
    (hf : ∀ s₁, OnHeap s s₁ → (f (live log name)).Amid OnHeap F Q s₁) :
    (findName name >>= f).Amid OnHeap F Q s := by
  refine .of_act (fun s₁ r s₂ hs he => ?_) (fun s₁ x _ he => by cases he)
  cases he
  show (f (Keyed.find s₁.registry name)).Amid OnHeap F Q s₁
  rw [(hI.onHeap hs).find]
  exact hf s₁ hs

/-- A call returns and has changed nothing. -/
theorem ret_completes (hh : History log s)
    (hlive : ∀ n, Call.live n (live log n) (c, v) = live log n) (hv : Says log c v) :
    Completes log c (.ret v) s :=
  fun _ hs => ⟨hh.inv.effect (.same hlive hs.registry hs.next), hh.told.append hv⟩

theorem abortWith_completes {format : String} {args : List FormatArg} (hc : Rejects log c) :
    Completes log c (abortWith format args) s :=
  .of_act (fun _ _ _ _ he => by cases he) fun s₁ f _ he => by
    cases he
    exact hc

theorem History.onHeap (hh : History log s) (hs : OnHeap s s') : History log s' :=
  ⟨hh.inv.onHeap hs, hh.told⟩

theorem getWithSchemaBody_completes (hh : History log s) (name : CStr) (h : UInt64) :
    Completes log (.getWithSchema (some name) h) (getWithSchemaBody name h) s := by
  refine findName_amid hh.inv fun s₁ hs => ?_
  cases hl : live log name with
  | none =>
    refine ret_completes (hh.onHeap hs) (fun _ => rfl) ⟨?_, fun e he => ?_⟩
    · rw [liveArg, Option.bind_some, hl]
      rfl
    · cases hl.symm.trans he
  | some e =>
    show Completes log _ (if e.schemaHash ≠ h then _ else pure _) s₁
    split
    · rename_i hne
      exact abortWith_completes ⟨e, hl, hne⟩
    · rename_i heq
      refine ret_completes (hh.onHeap hs) (fun _ => rfl) ⟨?_, fun e' he' => ?_⟩
      · rw [liveArg, Option.bind_some, hl]
        rfl
      · cases hl.symm.trans he'
        exact not_not.mp heq

theorem getSchemaHashBody_completes (hh : History log s) (name : CStr) :
    Completes log (.getSchemaHash (some name)) (getSchemaHashBody name) s := by
  refine findName_amid hh.inv fun s₁ hs => ?_
  have hv (e : Option Entry) (he : live log name = e) :
      Says log (.getSchemaHash (some name)) (.hash (e.elim 0 Entry.schemaHash)) := by
    subst he
    rfl
  cases hl : live log name with
  | none => exact ret_completes (hh.onHeap hs) (fun _ => rfl) (hv none hl)
  | some e => exact ret_completes (hh.onHeap hs) (fun _ => rfl) (hv (some e) hl)

theorem getBody_completes (hh : History log s) (name : CStr) :
    Completes log (.get (some name)) (getBody name) s := by
  refine findName_amid hh.inv fun s₁ hs => ?_
  have hv (e : Option Entry) (he : live log name = e) :
      Says log (.get (some name)) (.ptr (e.bind Entry.ptr)) := by
    subst he
    rfl
  cases hl : live log name with
  | none => exact ret_completes (hh.onHeap hs) (fun _ => rfl) (hv none hl)
  | some e => exact ret_completes (hh.onHeap hs) (fun _ => rfl) (hv (some e) hl)

theorem freeBody_completes (hh : History log s) (name : CStr) :
    Completes log (.free (some name)) (freeBody name) s := by
  refine findName_amid hh.inv fun s₁ hs₁ => ?_
  cases hl : live log name with
  | none =>
    refine ret_completes (hh.onHeap hs₁) (fun n => ?_) rfl
    simp only [Call.live]
    split
    · rename_i hn
      rw [← hn, hl]
    · rfl
  | some e =>
    refine onProcess_amid (fun _ => trivial) fun _ s₂ hs₂ => ?_
    refine .of_act (fun s₃ r s₄ hs₃ he => ?_) (fun _ _ _ he => by cases he)
    cases he
    intro s₅ hs₅
    have hs := (hs₁.trans hs₂).trans hs₃
    refine ⟨hh.inv.effect (.frees (n := name) (fun _ => rfl) ?_ ?_), hh.told.append rfl⟩
    · rw [hs₅.registry, ← hs.registry]
    · exact Nat.le_trans hs.next hs₅.next

/-- From the `malloc` on, made at `s`: the block is cleared and gets the name. -/
theorem newEntry_completes (hh : History log s) {name : CStr} {size h : UInt64}
    {d : Option DestructorFn} (hc : c.Allocates (some name) size h d) (hl : live log name = none)
    (hs : OnHeap s s') (hnext : s.mem.next < s'.mem.next) :
    Completes log c (do
      onProcess (memset0 (some ⟨s.mem.next, 0⟩) size.toNat)
      Prog.perform (M := process) (.set name ⟨some ⟨s.mem.next, 0⟩, size, d, h⟩)
      pure (.ptr (some ⟨s.mem.next, 0⟩))) s' := by
  refine onProcess_amid (fun _ => trivial) fun _ s₁ hs₁ => ?_
  refine .of_act (fun s₂ r s₃ hs₂ he => ?_) (fun _ _ _ he => by cases he)
  cases he
  intro s₄ hs₄
  refine ⟨hh.inv.effect (.adds rfl (fun n => hc.live_some n _ _) ?_ ?_), hh.told.append ?_⟩
  · rw [hs₄.registry, ← ((hs.trans hs₁).trans hs₂).registry]
  · exact Nat.lt_of_lt_of_le hnext (Nat.le_trans (hs₁.trans hs₂).next hs₄.next)
  · have hv : SaysAlloc log (some name) (.ptr (some ⟨s.mem.next, 0⟩)) := by
      refine ⟨hl, _, rfl, fun n e hn heq => ?_⟩
      obtain ⟨b, hb, hlt⟩ := hh.inv.ptr n e hn
      cases hb.symm.trans heq
      exact Nat.lt_irrefl _ hlt
    rcases hc with ⟨rfl, _⟩ | rfl <;> exact hv

theorem allocBody_completes (hh : History log s) {name : CStr} {size h : UInt64}
    {d : Option DestructorFn} (hc : c.Allocates (some name) size h d) :
    Completes log c (allocBody name size h d) s := by
  refine findName_amid hh.inv fun s₁ hs₁ => ?_
  cases hl : live log name with
  | some e =>
    refine abortWith_completes ?_
    rcases hc with ⟨rfl, _⟩ | rfl <;> exact Option.isSome_iff_exists.mpr ⟨e, hl⟩
  | none =>
    refine .of_act (fun s₂ p s₃ hs₂ he => ?_) (fun s₂ f _ he => ?_)
    · have hh₂ := hh.onHeap (hs₁.trans hs₂)
      have hs₃ := OnHeap.exec he
      cases hm : s₂.mem.mallocOk with
      | false =>
        simp only [execAct, Mem.exec_malloc_fail hm] at he
        cases he
        have hv : SaysAlloc log (some name) (.ptr none) := by
          refine ⟨hl, none, rfl, fun n e hn heq => ?_⟩
          obtain ⟨b, hb, _⟩ := hh₂.inv.ptr n e hn
          cases hb.symm.trans heq
        refine ret_completes (hh₂.onHeap hs₃) (fun n => hc.live_null n _) ?_
        rcases hc with ⟨rfl, _⟩ | rfl <;> exact hv
      | true =>
        simp only [execAct, Mem.exec_malloc_ok hm] at he
        cases he
        refine newEntry_completes hh₂ hc hl hs₃ ?_
        rw [Mem.alloc_next]
        exact Nat.lt_succ_self _
    · simp only [execAct] at he
      split at he
      · cases he
      · cases he
        trivial

/-- Every body leads from a right history to a longer one. -/
theorem mutexRules : Mutex.Rules Call.code ProcessAct.IsHeap OnHeap History Stops where
  refl := .refl
  trans _ _ _ := .trans
  out a s r s' ha he := by
    cases a with
    | heap a => exact OnHeap.exec he
    | _ => cases ha
  stable _ _ _ := History.onHeap
  body log c body s hh hc := by
    cases c with
    | alloc name size d =>
      cases name with
      | none => cases hc
      | some n =>
        simp only [Call.code] at hc
        split at hc
        · cases hc
        · cases hc
          exact allocBody_completes hh (.inl ⟨rfl, rfl⟩)
    | allocWithSchema name size h d =>
      cases name with
      | none => cases hc
      | some n =>
        simp only [Call.code] at hc
        split at hc
        · cases hc
        · cases hc
          exact allocBody_completes hh (.inr rfl)
    | getWithSchema name h =>
      cases name with
      | none => cases hc
      | some n =>
        cases hc
        exact getWithSchemaBody_completes hh n h
    | getSchemaHash name =>
      cases name with
      | none => cases hc
      | some n =>
        cases hc
        exact getSchemaHashBody_completes hh n
    | get name =>
      cases name with
      | none => cases hc
      | some n =>
        cases hc
        exact getBody_completes hh n
    | free name =>
      cases name with
      | none => cases hc
      | some n =>
        cases hc
        exact freeBody_completes hh n

end bodies

/-! ## Every run -/

/-- **The registry is linearizable.** Whatever threads call its functions and run on
the heap, in any order of single actions: at most one thread is between a lock and its
unlock; the calls that have unlocked, in this order, have the answers of a map from
names to allocations, which the registry is while no thread is inside; live names have
distinct pointers; and a call aborts only where that map says. -/
theorem registry_calls_linearize {ι : Type} [DecidableEq ι] {m : Mem}
    {x : Mutex.Sys process Call Val ι} (h : Mutex.Reach Call.code ProcessAct.IsHeap ⟨[], m⟩ x) :
    (∀ i j, (x.thread i).inside = true → (x.thread j).inside = true → i = j) ∧
    Told x.log ∧
    (x.locked = false → ∀ n, Keyed.find x.state.registry n = live x.log n) ∧
    (∀ n n' e e', live x.log n = some e → live x.log n' = some e' → n ≠ n' → e.ptr ≠ e'.ptr) ∧
    ∀ i c a k format args, x.thread i = .holds c (.act a k) →
      execAct x.state a = .error (.aborted format args) → Rejects x.log c := by
  have h0 : History [] ⟨[], m⟩ := by
    refine ⟨⟨fun _ => rfl, fun _ _ hn => ?_, fun _ _ _ _ hn => ?_⟩, fun before c v after heq => ?_⟩
    · cases hn
    · cases hn
    · cases before <;> cases heq
  have hg := h.guarded mutexRules h0
  obtain ⟨s, hpast⟩ := hg.past
  refine ⟨hg.one, hpast.told, fun hl => (hg.free hl).inv.find,
    fun n n' e e' hn hn' hne he => ?_, ?_⟩
  · exact hne (hpast.inv.inj n n' e e' hn hn' he)
  · intro i c a k format args hi he
    exact (hg.holder i c _ hi).act_error (.refl _) he

/-! A thread asks for a name that another is about to allocate, and waits for it. -/

theorem registry_calls_linearize_two : ∃ x : Mutex.Sys process Call Val Bool,
    Mutex.Reach Call.code ProcessAct.IsHeap ⟨[], ⟨[], []⟩⟩ x ∧
    x.log = [(.alloc (some graph) 8 none, .ptr (some ⟨0, 0⟩)),
      (.get (some graph), .ptr (some ⟨0, 0⟩))] ∧ Told x.log := by
  have h₁ : Mutex.Reach Call.code ProcessAct.IsHeap ⟨[], ⟨[], []⟩⟩ _ :=
    .step .start (.call (i := true) (c := .alloc (some graph) 8 none) rfl rfl)
  have h₂ := h₁.step (.lock (i := true) rfl rfl)
  have h₃ := h₂.step (.call (i := false) (c := .get (some graph)) rfl rfl)
  have h₄ := h₃.step (.act (i := true) rfl rfl)
  have h₅ := h₄.step (.act (i := true) rfl rfl)
  have h₆ := h₅.step (.act (i := true) rfl rfl)
  have h₇ := h₆.step (.act (i := true) rfl rfl)
  have h₈ := h₇.step (.unlock (i := true) rfl)
  have h₉ := h₈.step (.lock (i := false) rfl rfl)
  have h₁₀ := h₉.step (.act (i := false) rfl rfl)
  have h₁₁ := h₁₀.step (.unlock (i := false) rfl)
  exact ⟨_, h₁₁, rfl, (registry_calls_linearize h₁₁).2.1⟩

end Msm.Seg
