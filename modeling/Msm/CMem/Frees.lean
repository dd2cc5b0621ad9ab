import Msm.CMem.Published

/-! # Programs that free

What a run frees, in order, and the rules for programs that load, branch and
free. `Frees` leaves every block that is not freed as it was, so a program can go
on reading the blocks it has yet to free. -/
namespace Msm.CMem
open Msm.Exec

/-- The block an action frees. -/
def Act.freed : Act → Option Nat
  | .free (some a) => some a.block
  | _ => none

/-- The blocks a run frees, in order. -/
def freed {α : Type} (p : CProg α) (m : Mem) : List Nat :=
  (p.trace m).filterMap fun x => Act.freed x.2

section freed
variable {α β : Type} {m m' : Mem}

theorem freed_act {a : Act} {k : a.Res → CProg α} {r : a.Res} (h : m.exec a = .ok (r, m')) :
    freed (Prog.act (M := cmachine) a k) m = a.freed.toList ++ freed (k r) m' := by
  have h' : cmachine.exec m a = .ok (r, m') := h
  have ht : (Prog.act (M := cmachine) a k).trace m = (m, a) :: (k r).trace m' := by
    rw [Prog.trace, h']
  rw [freed, ht, List.filterMap_cons]
  cases a.freed <;> rfl

theorem freed_bind {p : CProg α} {f : α → CProg β} {x : α} (h : p.run m = .ok (x, m')) :
    freed (p >>= f) m = freed p m ++ freed (f x) m' := by
  induction p generalizing m with
  | ret y =>
    obtain ⟨rfl, rfl⟩ : y = x ∧ m = m' := by simpa [Prog.run] using h
    rfl
  | act a k ih =>
    simp only [Prog.run] at h
    split at h
    · rename_i r m₁ he
      rw [Prog.act_bind, freed_act he, freed_act he, ih r h, List.append_assoc]
    · cases h

end freed

namespace Mem
variable {m m' : Mem} {b c : Nat}

theorem block_free_of_ne (m : Mem) (h : c ≠ b) : (m.free b).block c = m.block c := by
  simp only [block, free, List.getElem?_set_ne (Ne.symm h)]

theorem block_free_self (m : Mem) (b : Nat) : (m.free b).block b = none := by
  rw [block, free, List.getElem?_set]
  split
  · split <;> rfl
  · rename_i hne
    exact absurd rfl hne

theorem sizeOf_of_block (h : m'.block b = m.block b) : m'.sizeOf b = m.sizeOf b := by
  simp only [sizeOf, h]

theorem cellAt_of_block (h : m'.block b = m.block b) (o : Nat) : m'.cellAt b o = m.cellAt b o := by
  simp only [cellAt, h]

theorem load_of_block {k : Kind} {a : Addr} (h : m'.block a.block = m.block a.block) :
    m'.load k a = m.load k a :=
  load_congr (sizeOf_of_block h) fun o _ _ => cellAt_of_block h o

theorem exec_free {a : Addr} (h0 : a.off = 0) (hl : m.sizeOf a.block ≠ none) :
    m.exec (.free (some a)) = .ok ((), m.free a.block) := by
  have hsome : (m.block a.block).isSome = true := by
    cases hb : m.block a.block with
    | some blk => rfl
    | none => exact absurd (by simp only [sizeOf, hb, Option.map_none]) hl
  simp only [exec, h0, hsome, and_self, if_true]

end Mem

/-- The program returns, having freed the blocks `bs` in this order. -/
structure Ends (p : CProg Unit) (m : Mem) (bs : List Nat) (m' : Mem) : Prop where
  run : p.run m = .ok ((), m')
  freed : CMem.freed p m = bs

/-- ... and has left the other blocks as they were. -/
structure Frees (p : CProg Unit) (m : Mem) (bs : List Nat) (m' : Mem) : Prop
    extends Ends p m bs m' where
  other : ∀ b, b ∉ bs → m'.block b = m.block b

namespace Ends
variable {p : CProg Unit} {m m₁ m' : Mem} {bs cs : List Nat}

theorem nil (m : Mem) : Ends (pure ()) m [] m := ⟨rfl, rfl⟩

theorem act {a : Act} {r : a.Res} {f : a.Res → CProg Unit} (he : m.exec a = .ok (r, m₁))
    (hf : Ends (f r) m₁ bs m') :
    Ends (Prog.act (M := cmachine) a f) m (a.freed.toList ++ bs) m' where
  run := by
    have he' : cmachine.exec m a = .ok (r, m₁) := he
    rw [Prog.run, he']
    exact hf.run
  freed := (freed_act he).trans (congrArg _ hf.freed)

theorem load {o : Order} {k : Kind} {a : Addr} {v : k.Val} {f : k.Val → CProg Unit}
    (h : m.load k a = some v) (hf : Ends (f v) m bs m') :
    Ends (Prog.act (M := cmachine) (.load o k (some a)) f) m bs m' := act (Mem.exec_load h) hf

theorem store {o : Order} {k : Kind} {a : Addr} {v : k.Val} (hv : m.Valid a k.size) :
    Ends (CMem.store o k (some a) v) m [] (m.write a (k.encode v)) :=
  act (Mem.exec_store hv) (nil _)

theorem bind {f : Unit → CProg Unit} (h : Ends p m bs m₁) (h' : Ends (f ()) m₁ cs m') :
    Ends (p >>= f) m (bs ++ cs) m' where
  run := (Prog.run_bind_ok h.run).trans h'.run
  freed := by rw [freed_bind h.run, h.freed, h'.freed]

end Ends

namespace Frees
variable {p : CProg Unit} {m m₁ m' : Mem} {bs cs : List Nat}

theorem nil (m : Mem) : Frees (pure ()) m [] m := ⟨.nil m, fun _ _ => rfl⟩

theorem bind {f : Unit → CProg Unit} (h : Frees p m bs m₁) (h' : Frees (f ()) m₁ cs m') :
    Frees (p >>= f) m (bs ++ cs) m' where
  toEnds := h.toEnds.bind h'.toEnds
  other b hb := by
    rw [List.mem_append, not_or] at hb
    rw [h'.other b hb.2, h.other b hb.1]

theorem load {o : Order} {k : Kind} {a : Addr} {v : k.Val} {f : k.Val → CProg Unit}
    (h : m.load k a = some v) (hf : Frees (f v) m bs m') :
    Frees (Prog.act (M := cmachine) (.load o k (some a)) f) m bs m' where
  toEnds := .load h hf.toEnds
  other := hf.other

theorem free {a : Addr} {f : Unit → CProg Unit} (h0 : a.off = 0) (hl : m.sizeOf a.block ≠ none)
    (hf : Frees (f ()) (m.free a.block) bs m') :
    Frees (Prog.act (M := cmachine) (.free (some a)) f) m (a.block :: bs) m' where
  toEnds := .act (Mem.exec_free h0 hl) hf.toEnds
  other b hb := by
    rw [List.mem_cons, not_or] at hb
    rw [hf.other b hb.2, m.block_free_of_ne hb.1]

/-- The last free of a program. -/
theorem last {a : Addr} (h0 : a.off = 0) (hl : m.sizeOf a.block ≠ none) :
    Frees (CMem.free (some a)) m [a.block] (m.free a.block) := free h0 hl (nil _)

/-- A pointer that is freed unless it is null. -/
theorem guarded {c : Option Nat} (hl : ∀ b, c = some b → m.sizeOf b ≠ none) :
    ∃ m', Frees (if basePtr c ≠ none then CMem.free (basePtr c) else pure ()) m c.toList m' := by
  cases c with
  | none => exact ⟨m, nil m⟩
  | some b => exact ⟨_, last rfl (hl b rfl)⟩

end Frees

/-! ## Loops -/

/-- `body i`, `body (i + 1)`, ..., `n` of them. -/
def rounds (body : Nat → CProg Unit) : Nat → Nat → CProg Unit
  | 0, _ => pure ()
  | n + 1, i => do
    body i
    rounds body n (i + 1)

theorem rounds_congr {f g : Nat → CProg Unit} {n i : Nat}
    (h : ∀ j, i ≤ j → j < i + n → f j = g j) : rounds f n i = rounds g n i := by
  induction n generalizing i with
  | zero => rfl
  | succ n ih =>
    rw [rounds, rounds, h i (Nat.le_refl _) (by omega),
      ih fun j h1 h2 => h j (by omega) (by omega)]

theorem rounds_succ (body : Nat → CProg Unit) (n i : Nat) :
    rounds body (n + 1) i = rounds body n i >>= fun _ => body (i + n) := by
  induction n generalizing i with
  | zero => exact Prog.bind_ret (body i)
  | succ n ih =>
    rw [rounds, ih, rounds, Prog.bind_assoc]
    simp only [Nat.add_assoc, Nat.add_comm 1 n]

/-- A loop over a list, each round freeing the blocks `B` of one element. No round
frees what a later one, or the loop itself (`Keep`), still reads. -/
theorem Frees.rounds {ε : Type} {body : Nat → CProg Unit} (B : ε → List Nat) (Keep : Nat → Prop)
    {m m₁ : Mem} {es : List ε} {i : Nat}
    (hbody : ∀ j e m₁, es[j]? = some e → (∀ b, Keep b → m₁.block b = m.block b) →
      (∀ b ∈ B e, m₁.block b = m.block b) → ∃ m₂, Frees (body (i + j)) m₁ (B e) m₂)
    (hkeep : ∀ e ∈ es, ∀ b ∈ B e, ¬ Keep b) (hdisj : es.Pairwise fun e e' => (B e).Disjoint (B e'))
    (hk : ∀ b, Keep b → m₁.block b = m.block b)
    (hm : ∀ e ∈ es, ∀ b ∈ B e, m₁.block b = m.block b) :
    ∃ m₂, Frees (CMem.rounds body es.length i) m₁ (es.flatMap B) m₂ := by
  induction es generalizing i m₁ with
  | nil => exact ⟨m₁, .nil m₁⟩
  | cons e es ih =>
    obtain ⟨hd, htail⟩ := List.pairwise_cons.mp hdisj
    obtain ⟨m₂, h₂⟩ := hbody 0 e m₁ rfl hk (hm e List.mem_cons_self)
    have hrest : ∃ m₃, Frees (CMem.rounds body es.length (i + 1)) m₂ (es.flatMap B) m₃ := by
      refine ih (fun j e' m₁ hj => ?_) (fun e' he' => hkeep e' (List.mem_cons_of_mem e he')) htail
        (fun b hb => ?_) fun e' he' b hb => ?_
      · have hj' := hbody (j + 1) e' m₁ hj
        rwa [show i + (j + 1) = i + 1 + j by omega] at hj'
      · exact (h₂.other b fun hin => hkeep e List.mem_cons_self b hin hb).trans (hk b hb)
      · exact (h₂.other b fun hin => hd e' he' hin hb).trans
          (hm e' (List.mem_cons_of_mem e he') b hb)
    obtain ⟨m₃, h₃⟩ := hrest
    exact ⟨m₃, h₂.bind h₃⟩

end Msm.CMem
