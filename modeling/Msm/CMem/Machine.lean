import Msm.CMem.Memory
import Msm.Exec.Interleave

/-! # The C machine: atomic and plain accesses to a byte memory

The actions are what a C function does to shared memory: atomic and plain loads
and stores of scalars, copies of bytes, `memset`, `malloc`, `free` and `abort`.
Every access is checked. An access through the null pointer, outside an
allocated block or of indeterminate bytes is undefined behaviour, and a fault
here; so is a second `free`. -/
namespace Msm.CMem
open Msm.Exec

/-- `plain` is an access the language does not make atomic: a `memcpy` of a
scalar or an assignment through a pointer. -/
inductive Order where
  | plain | relaxed | acquire | release
deriving DecidableEq, Repr

inductive Act where
  | load (o : Order) (k : Kind) (p : Ptr)
  | store (o : Order) (k : Kind) (p : Ptr) (v : k.Val)
  /-- `memcpy` of `n` bytes out of shared memory, into the caller's own. -/
  | copyOut (p : Ptr) (n : Nat)
  /-- `memcpy` of the caller's own bytes into shared memory. -/
  | copyIn (p : Ptr) (cs : List Cell)
  | memcpy (dst src : Ptr) (n : Nat)
  | zero (p : Ptr) (n : Nat)
  | malloc (n : Nat)
  | free (p : Ptr)
  /-- A diagnostic line on `stderr`, then `std::abort`. -/
  | abort (format : String) (arg : List UInt8)

inductive Fault where
  | nullDeref
  | outOfBounds
  | indeterminate
  | badFree
  | aborted (format : String) (arg : List UInt8)
deriving DecidableEq, Repr

namespace Act

abbrev Res : Act → Type
  | .load _ k _ => k.Val
  | .store .. => Unit
  | .copyOut .. => List Cell
  | .copyIn .. => Unit
  | .memcpy .. => Unit
  | .zero .. => Unit
  | .malloc _ => Ptr
  | .free _ => Unit
  | .abort .. => Empty

/-- The action reads shared memory and does nothing else. -/
def IsRead : Act → Prop
  | .load .. => True
  | .copyOut .. => True
  | _ => False

/-- The bytes a write changes, as an address and a length. -/
def range : Act → Option (Addr × Nat)
  | .store _ k p _ => p.map (·, k.size)
  | .copyIn p cs => p.map (·, cs.length)
  | .memcpy dst _ n => dst.map (·, n)
  | .zero p n => p.map (·, n)
  | _ => none

/-- The action writes byte `o` of block `b`, or frees it. -/
def Alters (a : Act) (b o : Nat) : Prop :=
  (∃ x n, a.range = some (x, n) ∧ x.block = b ∧ x.off ≤ o ∧ o < x.off + n) ∨
    ∃ x, a = .free (some x) ∧ x.block = b

/-- The action stores one field. -/
def IsStore : Act → Prop
  | .store .. => True
  | _ => False

/-- The write is not an atomic store. -/
def IsPlain : Act → Prop
  | .store o _ _ _ => o = .plain
  | .copyIn .. => True
  | .memcpy .. => True
  | .zero .. => True
  | _ => False

end Act

namespace Mem

/-- The address `p` names, when `n` bytes may be accessed there. -/
def access (m : Mem) (p : Ptr) (n : Nat) : Except Fault Addr :=
  match p with
  | none => .error .nullDeref
  | some a => if m.Valid a n then .ok a else .error .outOfBounds

/-- The outcome the script gives the next allocation. -/
def mallocOk (m : Mem) : Bool := m.script.headD true

def exec (m : Mem) : (a : Act) → Except Fault (a.Res × Mem)
  | .load _ k p => do
    let a ← m.access p k.size
    match m.load k a with
    | some v => .ok (v, m)
    | none => .error .indeterminate
  | .store _ k p v => do
    let a ← m.access p k.size
    .ok ((), m.write a (k.encode v))
  | .copyOut p n => do
    let a ← m.access p n
    .ok (m.read a n, m)
  | .copyIn p cs => do
    let a ← m.access p cs.length
    .ok ((), m.write a cs)
  | .memcpy dst src n => do
    let d ← m.access dst n
    let s ← m.access src n
    .ok ((), m.write d (m.read s n))
  | .zero p n => do
    let a ← m.access p n
    .ok ((), m.write a (List.replicate n (.byte 0)))
  | .malloc n =>
    let m' : Mem := { m with script := m.script.tail }
    if m.mallocOk then .ok (some ⟨m.next, 0⟩, m'.alloc n) else .ok (none, m')
  | .free p => match p with
    | none => .ok ((), m)
    | some a => if a.off = 0 ∧ (m.block a.block).isSome then .ok ((), m.free a.block)
      else .error .badFree
  | .abort format arg => .error (.aborted format arg)

end Mem

/-- The machine the C functions run on. -/
abbrev cmachine : Machine where
  State := Mem
  Act := Act
  Res := Act.Res
  Fault := Fault
  exec := Mem.exec

abbrev CProg := Prog cmachine

def loadU8 (o : Order) (p : Ptr) : CProg UInt8 := .act (.load o .u8 p) .ret
def loadU16 (o : Order) (p : Ptr) : CProg UInt16 := .act (.load o .u16 p) .ret
def loadU32 (o : Order) (p : Ptr) : CProg UInt32 := .act (.load o .u32 p) .ret
def loadU64 (o : Order) (p : Ptr) : CProg UInt64 := .act (.load o .u64 p) .ret
def loadPtr (o : Order) (p : Ptr) : CProg Ptr := .act (.load o .ptr p) .ret
def store (o : Order) (k : Kind) (p : Ptr) (v : k.Val) : CProg Unit := .act (.store o k p v) .ret
def copyOut (p : Ptr) (n : Nat) : CProg (List Cell) := .act (.copyOut p n) .ret
def copyIn (p : Ptr) (cs : List Cell) : CProg Unit := .act (.copyIn p cs) .ret
def memcpy (dst src : Ptr) (n : Nat) : CProg Unit := .act (.memcpy dst src n) .ret
def memset0 (p : Ptr) (n : Nat) : CProg Unit := .act (.zero p n) .ret
def malloc (n : Nat) : CProg Ptr := .act (.malloc n) .ret
def free (p : Ptr) : CProg Unit := .act (.free p) .ret
def abort {α : Type} (format : String) (arg : List UInt8) : CProg α :=
  .act (.abort format arg) fun x => nomatch x

section simp
variable {β : Type}

@[simp] theorem loadU8_bind (o : Order) (p : Ptr) (f : UInt8 → CProg β) :
    (loadU8 o p >>= f) = .act (.load o .u8 p) f := rfl
@[simp] theorem loadU16_bind (o : Order) (p : Ptr) (f : UInt16 → CProg β) :
    (loadU16 o p >>= f) = .act (.load o .u16 p) f := rfl
@[simp] theorem loadU32_bind (o : Order) (p : Ptr) (f : UInt32 → CProg β) :
    (loadU32 o p >>= f) = .act (.load o .u32 p) f := rfl
@[simp] theorem loadU64_bind (o : Order) (p : Ptr) (f : UInt64 → CProg β) :
    (loadU64 o p >>= f) = .act (.load o .u64 p) f := rfl
@[simp] theorem loadPtr_bind (o : Order) (p : Ptr) (f : Ptr → CProg β) :
    (loadPtr o p >>= f) = .act (.load o .ptr p) f := rfl
@[simp] theorem store_bind (o : Order) (k : Kind) (p : Ptr) (v : k.Val) (f : Unit → CProg β) :
    (store o k p v >>= f) = .act (.store o k p v) f := rfl
@[simp] theorem copyOut_bind (p : Ptr) (n : Nat) (f : List Cell → CProg β) :
    (copyOut p n >>= f) = .act (.copyOut p n) f := rfl
@[simp] theorem copyIn_bind (p : Ptr) (cs : List Cell) (f : Unit → CProg β) :
    (copyIn p cs >>= f) = .act (.copyIn p cs) f := rfl
@[simp] theorem memcpy_bind (dst src : Ptr) (n : Nat) (f : Unit → CProg β) :
    (memcpy dst src n >>= f) = .act (.memcpy dst src n) f := rfl
@[simp] theorem memset0_bind (p : Ptr) (n : Nat) (f : Unit → CProg β) :
    (memset0 p n >>= f) = .act (.zero p n) f := rfl
@[simp] theorem malloc_bind (n : Nat) (f : Ptr → CProg β) :
    (malloc n >>= f) = .act (.malloc n) f := rfl
@[simp] theorem free_bind (p : Ptr) (f : Unit → CProg β) :
    (free p >>= f) = .act (.free p) f := rfl
@[simp] theorem abort_bind {α : Type} (format : String) (arg : List UInt8) (f : α → CProg β) :
    (abort format arg >>= f) = abort format arg :=
  congrArg (Prog.act (M := cmachine) (.abort format arg)) (funext fun x => nomatch x)

end simp

/-! ## What each action does when it does not fault -/

theorem Act.IsRead.state_eq {a : Act} (h : a.IsRead) {m m' : Mem} {r : a.Res}
    (he : m.exec a = .ok (r, m')) : m' = m := by
  cases a with
  | load o k p =>
    simp only [Mem.exec, bind, Except.bind] at he
    split at he
    · cases he
    · split at he
      · cases he; rfl
      · cases he
  | copyOut p n =>
    simp only [Mem.exec, bind, Except.bind] at he
    split at he
    · cases he
    · cases he; rfl
  | _ => exact False.elim h

namespace Mem
variable {m : Mem} {a : Addr} {n : Nat}

theorem access_ok (h : m.Valid a n) : m.access (some a) n = .ok a := by
  simp only [access, if_pos h]

theorem exec_load {o : Order} {k : Kind} {v : k.Val} (h : m.load k a = some v) :
    m.exec (.load o k (some a)) = .ok (v, m) := by
  simp [exec, access_ok (load_valid h), h, bind, Except.bind]

theorem exec_store {o : Order} {k : Kind} {v : k.Val} (h : m.Valid a k.size) :
    m.exec (.store o k (some a) v) = .ok ((), m.write a (k.encode v)) := by
  simp [exec, access_ok h, bind, Except.bind]

theorem exec_copyOut (h : m.Valid a n) : m.exec (.copyOut (some a) n) = .ok (m.read a n, m) := by
  simp [exec, access_ok h, bind, Except.bind]

theorem exec_copyIn {cs : List Cell} (h : m.Valid a cs.length) :
    m.exec (.copyIn (some a) cs) = .ok ((), m.write a cs) := by
  simp [exec, access_ok h, bind, Except.bind]

theorem exec_memcpy {src : Addr} (h : m.Valid a n) (hs : m.Valid src n) :
    m.exec (.memcpy (some a) (some src) n) = .ok ((), m.write a (m.read src n)) := by
  simp [exec, access_ok h, access_ok hs, bind, Except.bind]

theorem exec_zero (h : m.Valid a n) :
    m.exec (.zero (some a) n) = .ok ((), m.write a (List.replicate n (.byte 0))) := by
  simp [exec, access_ok h, bind, Except.bind]

theorem access_invalid (h : ¬ m.Valid a n) : m.access (some a) n = .error .outOfBounds := by
  simp only [access, if_neg h]

theorem exec_zero_invalid (h : ¬ m.Valid a n) :
    m.exec (.zero (some a) n) = .error .outOfBounds := by
  simp [exec, access_invalid h, bind, Except.bind]

theorem exec_copyIn_invalid {cs : List Cell} (h : ¬ m.Valid a cs.length) :
    m.exec (.copyIn (some a) cs) = .error .outOfBounds := by
  simp [exec, access_invalid h, bind, Except.bind]

theorem exec_memcpy_invalid {src : Ptr} (h : ¬ m.Valid a n) :
    m.exec (.memcpy (some a) src n) = .error .outOfBounds := by
  simp [exec, access_invalid h, bind, Except.bind]

theorem access_eq_ok {p : Ptr} (h : m.access p n = .ok a) : p = some a ∧ m.Valid a n := by
  cases p with
  | none => cases h
  | some b =>
    simp only [access] at h
    split at h
    · cases h; exact ⟨rfl, by assumption⟩
    · cases h

/-- A write that does not fault replaces the bytes of its range. -/
theorem exec_write {x : Act} {m' : Mem} {r : x.Res} (hr : x.range = some (a, n))
    (he : m.exec x = .ok (r, m')) :
    ∃ cs, cs.length = n ∧ m.Valid a n ∧ m' = m.write a cs := by
  cases x with
  | store o k p v =>
    obtain ⟨b, rfl, hb⟩ := Option.map_eq_some_iff.mp hr
    cases hb
    simp only [exec, bind, Except.bind] at he
    split at he
    · cases he
    · rename_i b' hacc
      obtain ⟨hb, hv⟩ := access_eq_ok hacc
      cases hb; cases he
      exact ⟨_, by simp, hv, rfl⟩
  | copyIn p cs =>
    obtain ⟨b, rfl, hb⟩ := Option.map_eq_some_iff.mp hr
    cases hb
    simp only [exec, bind, Except.bind] at he
    split at he
    · cases he
    · rename_i b' hacc
      obtain ⟨hb, hv⟩ := access_eq_ok hacc
      cases hb; cases he
      exact ⟨_, rfl, hv, rfl⟩
  | memcpy dst src k =>
    obtain ⟨b, rfl, hb⟩ := Option.map_eq_some_iff.mp hr
    cases hb
    simp only [exec, bind, Except.bind] at he
    split at he
    · cases he
    · rename_i b' hacc
      obtain ⟨hb, hv⟩ := access_eq_ok hacc
      split at he
      · cases he
      · cases hb; cases he
        exact ⟨_, length_read .., hv, rfl⟩
  | zero p k =>
    obtain ⟨b, rfl, hb⟩ := Option.map_eq_some_iff.mp hr
    cases hb
    simp only [exec, bind, Except.bind] at he
    split at he
    · cases he
    · rename_i b' hacc
      obtain ⟨hb, hv⟩ := access_eq_ok hacc
      cases hb; cases he
      exact ⟨_, List.length_replicate, hv, rfl⟩
  | _ => cases hr

/-- The outcome of allocation `i` from now. -/
def outcome (m : Mem) (i : Nat) : Bool := m.script[i]?.getD true

theorem mallocOk_of_drop {m' : Mem} {i : Nat} (h : m'.script = m.script.drop i) :
    m'.mallocOk = m.outcome i := by
  rw [mallocOk, h, List.headD_eq_head?_getD, List.head?_drop, outcome]

theorem mallocOk_eq : m.mallocOk = m.outcome 0 := mallocOk_of_drop rfl

/-- The memory after the next outcome of the script has been used. -/
def tick (m : Mem) : Mem := { m with script := m.script.tail }

theorem exec_malloc_ok (h : m.mallocOk = true) :
    m.exec (.malloc n) = .ok (some ⟨m.next, 0⟩, m.tick.alloc n) := by
  simp [exec, h, tick]

theorem exec_malloc_fail (h : m.mallocOk = false) : m.exec (.malloc n) = .ok (none, m.tick) := by
  simp [exec, h, tick]

/-- What an action that does not fault makes of the memory. -/
theorem exec_cases {x : Act} {m' : Mem} {r : x.Res} (he : m.exec x = .ok (r, m')) :
    m' = m ∨ m' = m.tick ∨ (∃ k, m' = m.tick.alloc k) ∨ (∃ b, m' = m.free b) ∨
      ∃ b cs, m.Valid b cs.length ∧ m' = m.write b cs := by
  have hw (b : Addr) (k : Nat) (hr : x.range = some (b, k)) :
      ∃ b cs, m.Valid b cs.length ∧ m' = m.write b cs := by
    obtain ⟨cs, rfl, hv, hm⟩ := exec_write hr he
    exact ⟨b, cs, hv, hm⟩
  cases x with
  | load o k p => exact .inl (Act.IsRead.state_eq (a := .load o k p) trivial he)
  | copyOut p k => exact .inl (Act.IsRead.state_eq (a := .copyOut p k) trivial he)
  | malloc k =>
    cases hm : m.mallocOk with
    | true => rw [exec_malloc_ok hm] at he; cases he; exact .inr (.inr (.inl ⟨k, rfl⟩))
    | false => rw [exec_malloc_fail hm] at he; cases he; exact .inr (.inl rfl)
  | store o k p v =>
    cases p with
    | none => cases he
    | some b => exact .inr (.inr (.inr (.inr (hw b _ rfl))))
  | copyIn p cs =>
    cases p with
    | none => cases he
    | some b => exact .inr (.inr (.inr (.inr (hw b _ rfl))))
  | memcpy dst src k =>
    cases dst with
    | none => cases he
    | some b => exact .inr (.inr (.inr (.inr (hw b _ rfl))))
  | zero p k =>
    cases p with
    | none => cases he
    | some b => exact .inr (.inr (.inr (.inr (hw b _ rfl))))
  | free p =>
    cases p with
    | none => cases he; exact .inl rfl
    | some b =>
      simp only [exec] at he
      split at he
      · cases he; exact .inr (.inr (.inr (.inl ⟨b.block, rfl⟩)))
      · cases he
  | abort f y => cases he

/-- When no allocation to come is to fail, none fails later. -/
theorem exec_script_nil {x : Act} {m' : Mem} {r : x.Res} (h : m.script = [])
    (he : m.exec x = .ok (r, m')) : m'.script = [] := by
  rcases exec_cases he with rfl | rfl | ⟨k, rfl⟩ | ⟨b, rfl⟩ | ⟨b, cs, _, rfl⟩
  · exact h
  · simp [tick, h]
  · simp [tick, alloc, h]
  · exact h
  · exact h

/-- A block number is never given twice. -/
theorem exec_next_le {x : Act} {m' : Mem} {r : x.Res} (he : m.exec x = .ok (r, m')) :
    m.next ≤ m'.next := by
  rcases exec_cases he with rfl | rfl | ⟨k, rfl⟩ | ⟨b, rfl⟩ | ⟨b, cs, _, rfl⟩
  · exact Nat.le_refl _
  · exact Nat.le_refl _
  · rw [alloc_next]; exact Nat.le_succ _
  · simp [next, free]
  · simp

theorem run_next_le {α : Type} {p : CProg α} {m' : Mem} {x : α} (hr : p.run m = .ok (x, m')) :
    m.next ≤ m'.next :=
  Prog.run_keep (P := fun m₁ : Mem => m.next ≤ m₁.next)
    (fun _ _ _ _ h he => Nat.le_trans h (exec_next_le he)) (Nat.le_refl _) hr

@[simp] theorem tick_next : m.tick.next = m.next := rfl
@[simp] theorem tick_sizeOf (b : Nat) : m.tick.sizeOf b = m.sizeOf b := rfl
@[simp] theorem tick_cellAt (b o : Nat) : m.tick.cellAt b o = m.cellAt b o := rfl
@[simp] theorem tick_valid : m.tick.Valid a n ↔ m.Valid a n := Iff.rfl
@[simp] theorem tick_load {k : Kind} : m.tick.load k a = m.load k a := rfl

end Mem

/-! ## What a program returns -/

/-- What a call returns. -/
def returned {α : Type} (p : CProg α) (m : Mem) : Except Fault α := (p.run m).map Prod.fst

theorem Act.IsRead.exec_tick {a : Act} (ha : a.IsRead) (m : Mem) :
    m.tick.exec a = (m.exec a).map fun r => (r.1, m.tick) := by
  cases a with
  | load o k p =>
    cases p with
    | none => rfl
    | some b =>
      simp only [Mem.exec, Mem.access, Mem.tick_valid, Mem.tick_load]
      by_cases hv : m.Valid b k.size
      · simp only [if_pos hv, bind, Except.bind]
        cases m.load k b <;> rfl
      · simp only [if_neg hv]; rfl
  | copyOut p n =>
    cases p with
    | none => rfl
    | some b =>
      simp only [Mem.exec, Mem.access, Mem.tick_valid]
      by_cases hv : m.Valid b n
      · simp only [if_pos hv]; rfl
      · simp only [if_neg hv]; rfl
  | _ => exact ha.elim

/-- A program that only reads does not see the allocations to come. -/
theorem returned_tick {α : Type} {p : CProg α} (hp : p.Only Act.IsRead) (m : Mem) :
    returned p m.tick = returned p m := by
  induction p with
  | ret x => rfl
  | act a k ih =>
    obtain ⟨ha, hk⟩ := hp
    simp only [returned, Prog.run, ha.exec_tick]
    cases he : m.exec a with
    | error f => rfl
    | ok r =>
      obtain ⟨x, m'⟩ := r
      cases ha.state_eq he
      exact ih x (hk x)

/-- A reader's load, at any later instant. -/
theorem sampled_load {α : Type} {μ : Nat → Mem} {Q : α → Nat → Prop} {o : Order} {k : Kind}
    {a : Addr} {f : k.Val → CProg α} {t : Nat}
    (h : ∀ s, t ≤ s → ∃ v, (μ s).load k a = some v ∧ (f v).Sampled μ Q s) :
    (Prog.act (M := cmachine) (.load o k (some a)) f).Sampled μ Q t := by
  intro s hs
  obtain ⟨v, hv, hf⟩ := h s hs
  exact ⟨v, Mem.exec_load hv, hf⟩

end Msm.CMem
