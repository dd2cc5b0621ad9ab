import Mathlib.Logic.Relation

/-! # Programs as trees of atomic actions

A machine is a type of states, a type of actions with their results, and a
deterministic `exec` that performs one action or faults. A program is the tree
of actions it may still perform, so the same definition is run to its end by
one thread (`Prog.run`) or one action at a time between the actions of other
threads.

`Prog.Safe` is the precondition calculus: every step the program takes is
matched by a step of a ghost state, every fault is allowed and the result meets
the postcondition. `Prog.Sampled` is its counterpart for a program that only
reads a state that other threads change under it. -/
namespace Msm.Exec

structure Machine where
  State : Type
  Act : Type
  Res : Act → Type
  Fault : Type
  exec : State → (a : Act) → Except Fault (Res a × State)

inductive Prog (M : Machine) (α : Type) where
  | ret (x : α)
  | act (a : M.Act) (k : M.Res a → Prog M α)

namespace Prog
variable {M : Machine} {α β : Type}

def bind : Prog M α → (α → Prog M β) → Prog M β
  | .ret x, f => f x
  | .act a k, f => .act a fun r => (k r).bind f

instance : Monad (Prog M) where
  pure := .ret
  bind := Prog.bind

/-- One action, returning its result. -/
def perform (a : M.Act) : Prog M (M.Res a) := .act a .ret

@[simp] theorem pure_eq (x : α) : (pure x : Prog M α) = .ret x := rfl
@[simp] theorem ret_bind (x : α) (f : α → Prog M β) : (Prog.ret x >>= f) = f x := rfl
@[simp] theorem act_bind (a : M.Act) (k : M.Res a → Prog M α) (f : α → Prog M β) :
    (Prog.act a k >>= f) = .act a fun r => k r >>= f := rfl
@[simp] theorem perform_bind (a : M.Act) (f : M.Res a → Prog M β) :
    (perform a >>= f) = .act a f := rfl

theorem bind_ret (p : Prog M α) : (p >>= Prog.ret) = p := by
  induction p with
  | ret x => rfl
  | act a k ih => exact congrArg (Prog.act a) (funext ih)

theorem bind_assoc {γ : Type} (p : Prog M α) (f : α → Prog M β) (g : β → Prog M γ) :
    (p >>= f >>= g) = p >>= fun x => f x >>= g := by
  induction p with
  | ret x => rfl
  | act a k ih => exact congrArg (Prog.act a) (funext ih)

instance : LawfulMonad (Prog M) :=
  LawfulMonad.mk' (Prog M) bind_ret (fun _ _ => rfl) bind_assoc

/-! ## Running to the end -/

/-- One thread running alone. -/
def run : Prog M α → M.State → Except M.Fault (α × M.State)
  | .ret x, s => .ok (x, s)
  | .act a k, s => match M.exec s a with
    | .ok (r, s') => (k r).run s'
    | .error f => .error f

/-- The actions of a run, each with the state it was performed on, up to the
end of the program or to the action that faults. -/
def trace : Prog M α → M.State → List (M.State × M.Act)
  | .ret _, _ => []
  | .act a k, s => (s, a) :: match M.exec s a with
    | .ok (r, s') => (k r).trace s'
    | .error _ => []

theorem run_bind (p : Prog M α) (f : α → Prog M β) (s : M.State) :
    (p >>= f).run s = match p.run s with
      | .ok (x, s') => (f x).run s'
      | .error e => .error e := by
  induction p generalizing s with
  | ret x => rfl
  | act a k ih =>
    simp only [act_bind, run]
    cases M.exec s a with
    | error e => rfl
    | ok r => exact ih r.1 r.2

theorem run_bind_ok {p : Prog M α} {f : α → Prog M β} {s s' : M.State} {x : α}
    (h : p.run s = .ok (x, s')) : (p >>= f).run s = (f x).run s' := by
  rw [run_bind, h]

theorem run_of_bind {p : Prog M α} {f : α → Prog M β} {s s' : M.State} {y : β}
    (h : (p >>= f).run s = .ok (y, s')) :
    ∃ x s₁, p.run s = .ok (x, s₁) ∧ (f x).run s₁ = .ok (y, s') := by
  rw [run_bind] at h
  split at h
  · rename_i x s₁ hp
    exact ⟨x, s₁, hp, h⟩
  · cases h

/-- What every action keeps, a run keeps. -/
theorem run_keep {P : M.State → Prop} {p : Prog M α} {s s' : M.State} {x : α}
    (hP : ∀ s a r s', P s → M.exec s a = .ok (r, s') → P s') (h0 : P s)
    (hr : p.run s = .ok (x, s')) : P s' := by
  induction p generalizing s with
  | ret y =>
    obtain ⟨rfl, rfl⟩ : y = x ∧ s = s' := by simpa [run] using hr
    exact h0
  | act a k ih =>
    simp only [run] at hr
    split at hr
    · rename_i r s₁ he
      exact ih r (hP _ _ _ _ h0 he) hr
    · cases hr

/-! ## The precondition calculus -/

variable {Γ : Type}

/-- From state `s` with ghost state `g`: every action either succeeds with a
ghost step that `T` relates to it, or faults as `F` allows; the result meets
`Q`. -/
def Safe (T : Γ → M.State → M.Act → M.State → Γ → Prop) (F : M.Fault → M.State → Γ → Prop)
    (Q : α → M.State → Γ → Prop) : Prog M α → M.State → Γ → Prop
  | .ret x, s, g => Q x s g
  | .act a k, s, g => match M.exec s a with
    | .ok (r, s') => ∃ g', T g s a s' g' ∧ (k r).Safe T F Q s' g'
    | .error f => F f s g

variable {T T' : Γ → M.State → M.Act → M.State → Γ → Prop}
  {F F' : M.Fault → M.State → Γ → Prop}

@[simp] theorem safe_ret {Q : α → M.State → Γ → Prop} {x : α} {s : M.State} {g : Γ} :
    (Prog.ret x).Safe T F Q s g ↔ Q x s g := Iff.rfl

theorem safe_act {Q : α → M.State → Γ → Prop} {a : M.Act} {k : M.Res a → Prog M α}
    {s s' : M.State} {g : Γ} {r : M.Res a} (g' : Γ) (h : M.exec s a = .ok (r, s'))
    (hT : T g s a s' g') (hk : (k r).Safe T F Q s' g') : (Prog.act a k).Safe T F Q s g := by
  simp only [Safe, h]
  exact ⟨g', hT, hk⟩

theorem safe_fault {Q : α → M.State → Γ → Prop} {a : M.Act} {k : M.Res a → Prog M α}
    {s : M.State} {g : Γ} {f : M.Fault} (h : M.exec s a = .error f)
    (hF : F f s g) : (Prog.act a k).Safe T F Q s g := by
  simp only [Safe, h]
  exact hF

/-- The next action of a safe program is a move of the calculus, or an allowed fault. -/
theorem Safe.next {Q : α → M.State → Γ → Prop} {a : M.Act} {k : M.Res a → Prog M α}
    {s : M.State} {g : Γ} (h : (Prog.act a k).Safe T F Q s g) :
    (∃ r s' g', M.exec s a = .ok (r, s') ∧ T g s a s' g' ∧ (k r).Safe T F Q s' g') ∨
      ∃ f, M.exec s a = .error f ∧ F f s g := by
  simp only [Safe] at h
  split at h
  · rename_i r s' he
    obtain ⟨g', ht, hk⟩ := h
    exact .inl ⟨r, s', g', he, ht, hk⟩
  · rename_i f he
    exact .inr ⟨f, he, h⟩

theorem Safe.mono {Q Q' : α → M.State → Γ → Prop} {p : Prog M α} {s : M.State} {g : Γ}
    (hT : ∀ g s a s' g', T g s a s' g' → T' g s a s' g') (hF : ∀ f s g, F f s g → F' f s g)
    (hQ : ∀ x s g, Q x s g → Q' x s g) (h : p.Safe T F Q s g) : p.Safe T' F' Q' s g := by
  induction p generalizing s g with
  | ret x => exact hQ x s g h
  | act a k ih =>
    simp only [Safe] at h ⊢
    split at h
    · obtain ⟨g', ht, hk⟩ := h
      exact ⟨g', hT _ _ _ _ _ ht, ih _ hk⟩
    · exact hF _ _ _ h

theorem Safe.post {Q Q' : α → M.State → Γ → Prop} {p : Prog M α} {s : M.State} {g : Γ}
    (h : p.Safe T F Q s g) (hQ : ∀ x s g, Q x s g → Q' x s g) : p.Safe T F Q' s g :=
  h.mono (fun _ _ _ _ _ => id) (fun _ _ _ => id) hQ

/-- A caller alone on the machine asks nothing of the moves in between. -/
theorem Safe.any {Q : α → M.State → Γ → Prop} {p : Prog M α} {s : M.State} {g : Γ}
    (h : p.Safe T F Q s g) : p.Safe (fun _ _ _ _ _ => True) F Q s g :=
  h.mono (fun _ _ _ _ _ _ => trivial) (fun _ _ _ => id) (fun _ _ _ => id)

/-- An invariant that the moves keep holds at every point of a safe program. -/
theorem Safe.inv {Q : α → M.State → Γ → Prop} {I : M.State → Γ → Prop} {p : Prog M α}
    {s : M.State} {g : Γ} (hI : ∀ g s a s' g', I s g → T g s a s' g' → I s' g') (h0 : I s g)
    (h : p.Safe T F Q s g) :
    p.Safe (fun g s a s' g' => I s g ∧ T g s a s' g') (fun f s g => I s g ∧ F f s g)
      (fun x s g => I s g ∧ Q x s g) s g := by
  induction p generalizing s g with
  | ret x => exact ⟨h0, h⟩
  | act a k ih =>
    simp only [Safe] at h ⊢
    split at h
    · obtain ⟨g', ht, hk⟩ := h
      exact ⟨g', ⟨h0, ht⟩, ih _ (hI _ _ _ _ _ h0 ht) hk⟩
    · exact ⟨h0, h⟩

theorem Safe.bind {Q : β → M.State → Γ → Prop} {p : Prog M α} {f : α → Prog M β}
    {s : M.State} {g : Γ} (h : p.Safe T F (fun x s' g' => (f x).Safe T F Q s' g') s g) :
    (p >>= f).Safe T F Q s g := by
  induction p generalizing s g with
  | ret x => exact h
  | act a k ih =>
    simp only [act_bind, Safe] at h ⊢
    split at h
    · obtain ⟨g', ht, hk⟩ := h
      exact ⟨g', ht, ih _ hk⟩
    · exact h

/-- The same program with another ghost state, made from the first. -/
theorem Safe.map {Γ' : Type} {U : Γ' → M.State → M.Act → M.State → Γ' → Prop}
    {E : M.Fault → M.State → Γ' → Prop} {Q : α → M.State → Γ → Prop} {R : α → M.State → Γ' → Prop}
    {p : Prog M α} {s : M.State} {g : Γ} (f : Γ → Γ')
    (hT : ∀ g s a s' g', T g s a s' g' → U (f g) s a s' (f g')) (hF : ∀ e s g, F e s g → E e s (f g))
    (hQ : ∀ x s g, Q x s g → R x s (f g)) (h : p.Safe T F Q s g) : p.Safe U E R s (f g) := by
  induction p generalizing s g with
  | ret x => exact hQ x s g h
  | act a k ih =>
    simp only [Safe] at h ⊢
    split at h
    · obtain ⟨g', ht, hk⟩ := h
      exact ⟨f g', hT _ _ _ _ _ ht, ih _ hk⟩
    · exact hF _ _ _ h

/-- One ghost move of the calculus, as a relation on pairs. -/
def Move (T : Γ → M.State → M.Act → M.State → Γ → Prop) (x y : M.State × Γ) : Prop :=
  ∃ a, T x.2 x.1 a y.1 y.2

/-- A run that returns has made `T` moves only, and its result meets `Q`. -/
theorem Safe.run_ok {Q : α → M.State → Γ → Prop} {p : Prog M α} {s s' : M.State} {g : Γ}
    {x : α} (h : p.Safe T F Q s g) (hr : p.run s = .ok (x, s')) :
    ∃ g', Q x s' g' ∧ Relation.ReflTransGen (Move T) (s, g) (s', g') := by
  induction p generalizing s g with
  | ret y =>
    obtain ⟨rfl, rfl⟩ : y = x ∧ s = s' := by simpa [run] using hr
    exact ⟨g, h, .refl⟩
  | act a k ih =>
    simp only [Safe] at h
    simp only [run] at hr
    split at h
    · rename_i r s₁ he
      obtain ⟨g₁, ht, hk⟩ := h
      rw [he] at hr
      obtain ⟨g', hq, hs⟩ := ih r hk hr
      exact ⟨g', hq, .head ⟨a, ht⟩ hs⟩
    · rename_i e he
      rw [he] at hr
      cases hr

/-- A run that faults does so as `F` allows, after `T` moves only. -/
theorem Safe.run_error {Q : α → M.State → Γ → Prop} {p : Prog M α} {s : M.State} {g : Γ}
    {f : M.Fault} (h : p.Safe T F Q s g) (hr : p.run s = .error f) :
    ∃ s' g', F f s' g' ∧ Relation.ReflTransGen (Move T) (s, g) (s', g') := by
  induction p generalizing s g with
  | ret y => cases hr
  | act a k ih =>
    simp only [Safe] at h
    simp only [run] at hr
    split at h
    · rename_i r s₁ he
      obtain ⟨g₁, ht, hk⟩ := h
      rw [he] at hr
      obtain ⟨s', g', hf, hs⟩ := ih r hk hr
      exact ⟨s', g', hf, .head ⟨a, ht⟩ hs⟩
    · rename_i e he
      rw [he] at hr
      cases hr
      exact ⟨s, g, h, .refl⟩

/-- A safe program that no fault is allowed to stop returns. -/
theorem Safe.run_total {Q : α → M.State → Γ → Prop} {p : Prog M α} {s : M.State} {g : Γ}
    (h : p.Safe T (fun _ _ _ => False) Q s g) :
    ∃ x s' g', p.run s = .ok (x, s') ∧ Q x s' g' := by
  cases hr : p.run s with
  | error f =>
    obtain ⟨_, _, hf, _⟩ := h.run_error hr
    exact hf.elim
  | ok r =>
    obtain ⟨g', hq, _⟩ := h.run_ok hr
    exact ⟨r.1, r.2, g', rfl, hq⟩

/-- A run that returns, as a safe program without constraints on its moves. -/
theorem Safe.of_run {Q : α → M.State → Γ → Prop} {p : Prog M α} {s s' : M.State} {g : Γ} {x : α}
    (hr : p.run s = .ok (x, s')) (hQ : Q x s' g) : p.Safe (fun _ _ _ _ _ => True) F Q s g := by
  induction p generalizing s with
  | ret y =>
    obtain ⟨rfl, rfl⟩ : y = x ∧ s = s' := by simpa [run] using hr
    exact hQ
  | act a k ih =>
    simp only [run] at hr
    split at hr
    · rename_i r s₁ he
      exact safe_act g he trivial (ih r hr)
    · cases hr

/-! ## What holds of every action of a run -/

/-- Every action the run performs, after the states `h` and those it has passed
itself, satisfies `P`. -/
def Along (P : List M.State → M.Act → Prop) : Prog M α → List M.State → M.State → Prop
  | .ret _, _, _ => True
  | .act a k, h, s => match M.exec s a with
    | .ok (r, s') => P (h ++ [s]) a ∧ (k r).Along P (h ++ [s]) s'
    | .error _ => True

/-- The states a run acts on. -/
def passed (p : Prog M α) (s : M.State) : List M.State := (p.trace s).map Prod.fst

theorem along_act {P : List M.State → M.Act → Prop} {a : M.Act} {k : M.Res a → Prog M α}
    {h : List M.State} {s s' : M.State} {r : M.Res a} (he : M.exec s a = .ok (r, s')) :
    (Prog.act a k).Along P h s ↔ P (h ++ [s]) a ∧ (k r).Along P (h ++ [s]) s' := by
  simp only [Along, he]

theorem along_bind {P : List M.State → M.Act → Prop} {p : Prog M α} {f : α → Prog M β}
    {h : List M.State} {s s' : M.State} {x : α} (hp : p.run s = .ok (x, s'))
    (ha : (p >>= f).Along P h s) : (f x).Along P (h ++ p.passed s) s' := by
  induction p generalizing h s with
  | ret y =>
    obtain ⟨rfl, rfl⟩ : y = x ∧ s = s' := by simpa [run] using hp
    simpa [passed, trace] using ha
  | act a k ih =>
    simp only [act_bind, Along] at ha
    simp only [run] at hp
    split at hp
    · rename_i r s₁ he
      rw [he] at ha
      have := ih r hp ha.2
      simpa [passed, trace, he] using this
    · cases hp

/-- The states passed and the ghost state, along a safe run. -/
theorem Safe.along {Q : α → M.State → Γ → Prop} {P : List M.State → M.Act → Prop}
    {I : List M.State → M.State → Γ → Prop} {p : Prog M α} {h : List M.State} {s : M.State} {g : Γ}
    (hI : ∀ h s g a s' g', I h s g → T g s a s' g' → I (h ++ [s]) s' g')
    (hP : ∀ h s g a s' g', I h s g → T g s a s' g' → P (h ++ [s]) a) (h0 : I h s g)
    (hs : p.Safe T F Q s g) :
    p.Along P h s ∧ ∀ x s', p.run s = .ok (x, s') → ∃ g', Q x s' g' ∧ I (h ++ p.passed s) s' g' := by
  induction p generalizing h s g with
  | ret y =>
    refine ⟨trivial, fun x s' hr => ?_⟩
    obtain ⟨rfl, rfl⟩ : y = x ∧ s = s' := by simpa [run] using hr
    exact ⟨g, hs, by simpa [passed, trace] using h0⟩
  | act a k ih =>
    simp only [Safe] at hs
    simp only [Along, run, passed, trace]
    split at hs
    · rename_i r s₁ he
      obtain ⟨g₁, ht, hk⟩ := hs
      obtain ⟨h1, h2⟩ := ih r (hI _ _ _ _ _ _ h0 ht) hk
      refine ⟨⟨hP _ _ _ _ _ _ h0 ht, h1⟩, fun x s' hr => ?_⟩
      simpa [passed] using h2 x s' hr
    · exact ⟨trivial, fun x s' hr => by cases hr⟩

/-! ## Programs restricted to some actions -/

/-- Every action the program may perform satisfies `P`. -/
def Only (P : M.Act → Prop) : Prog M α → Prop
  | .ret _ => True
  | .act a k => P a ∧ ∀ r, (k r).Only P

theorem only_bind {P : M.Act → Prop} {p : Prog M α} {f : α → Prog M β}
    (hp : p.Only P) (hf : ∀ x, (f x).Only P) : (p >>= f).Only P := by
  induction p with
  | ret x => exact hf x
  | act a k ih => exact ⟨hp.1, fun r => ih r (hp.2 r)⟩

/-- The moves of a safe program are made by the actions it may perform. -/
theorem Safe.only {P : M.Act → Prop} {Q : α → M.State → Γ → Prop} {p : Prog M α} {s : M.State}
    {g : Γ} (hp : p.Only P) (h : p.Safe T F Q s g) :
    p.Safe (fun g s a s' g' => P a ∧ T g s a s' g') F Q s g := by
  induction p generalizing s g with
  | ret x => exact h
  | act a k ih =>
    simp only [Safe] at h ⊢
    split at h
    · obtain ⟨g', ht, hk⟩ := h
      exact ⟨g', ⟨hp.1, ht⟩, ih _ (hp.2 _) hk⟩
    · exact h

/-- Every action satisfies `P` and the result `Q`, whatever the results of the
actions are, as long as they satisfy `R`. -/
def Within (P : M.Act → Prop) (R : (a : M.Act) → M.Res a → Prop) (Q : α → Prop) : Prog M α → Prop
  | .ret x => Q x
  | .act a k => P a ∧ ∀ r, R a r → (k r).Within P R Q

section within
variable {P : M.Act → Prop} {R : (a : M.Act) → M.Res a → Prop}

theorem Within.bind {Q : α → Prop} {Q' : β → Prop} {p : Prog M α} {f : α → Prog M β}
    (h : p.Within P R Q) (hf : ∀ x, Q x → (f x).Within P R Q') : (p >>= f).Within P R Q' := by
  induction p with
  | ret x => exact hf x h
  | act a k ih => exact ⟨h.1, fun r hr => ih r (h.2 r hr)⟩

/-- An invariant of the states that gives `R` of the results is kept by a run. -/
theorem Within.run {I : M.State → Prop} {Q : α → Prop} {p : Prog M α} {s s' : M.State} {x : α}
    (h : p.Within P R Q) (hI : ∀ s a r s', I s → P a → M.exec s a = .ok (r, s') → I s' ∧ R a r)
    (h0 : I s) (hr : p.run s = .ok (x, s')) : I s' ∧ Q x := by
  induction p generalizing s with
  | ret y =>
    obtain ⟨rfl, rfl⟩ : y = x ∧ s = s' := by simpa [Prog.run] using hr
    exact ⟨h0, h⟩
  | act a k ih =>
    simp only [Prog.run] at hr
    split at hr
    · rename_i r s₁ he
      obtain ⟨h1, h2⟩ := hI _ _ _ _ h0 h.1 he
      exact ih r (h.2 r h2) h1 hr
    · cases hr

end within

/-! ## Reading a state that others change -/

/-- The program reads the states of the sequence `μ`, each action at an instant
no earlier than the last; none faults, none changes the state, and the result
`x` obtained by the action of instant `t` meets `Q x t`. -/
def Sampled (μ : Nat → M.State) (Q : α → Nat → Prop) : Prog M α → Nat → Prop
  | .ret x, t => Q x t
  | .act a k, t => ∀ s, t ≤ s → ∃ r, M.exec (μ s) a = .ok (r, μ s) ∧ (k r).Sampled μ Q s

variable {μ : Nat → M.State}

@[simp] theorem sampled_ret {Q : α → Nat → Prop} {x : α} {t : Nat} :
    (Prog.ret x).Sampled μ Q t ↔ Q x t := Iff.rfl

theorem Sampled.mono {Q Q' : α → Nat → Prop} {p : Prog M α} {t : Nat}
    (h : p.Sampled μ Q t) (hQ : ∀ x s, t ≤ s → Q x s → Q' x s) : p.Sampled μ Q' t := by
  induction p generalizing t with
  | ret x => exact hQ x t (Nat.le_refl _) h
  | act a k ih =>
    intro s hs
    obtain ⟨r, hr, hk⟩ := h s hs
    exact ⟨r, hr, ih r hk fun x u hu => hQ x u (Nat.le_trans hs hu)⟩

theorem Sampled.bind {Q : β → Nat → Prop} {p : Prog M α} {f : α → Prog M β} {t : Nat}
    (h : p.Sampled μ (fun x s => (f x).Sampled μ Q s) t) : (p >>= f).Sampled μ Q t := by
  induction p generalizing t with
  | ret x => exact h
  | act a k ih =>
    intro s hs
    obtain ⟨r, hr, hk⟩ := h s hs
    exact ⟨r, hr, ih r hk⟩

/-- On a state that nobody changes, sampling is running. -/
theorem Sampled.run {Q : α → Nat → Prop} {p : Prog M α} {s : M.State} {t : Nat}
    (h : p.Sampled (fun _ => s) Q t) : ∃ x u, p.run s = .ok (x, s) ∧ Q x u := by
  induction p generalizing t with
  | ret x => exact ⟨x, t, rfl, h⟩
  | act a k ih =>
    obtain ⟨r, hr, hk⟩ := h t (Nat.le_refl _)
    obtain ⟨x, u, hx, hq⟩ := ih r hk
    exact ⟨x, u, by simpa [Prog.run, hr] using hx, hq⟩

/-- A program that only reads, performed by the one thread that writes. -/
theorem Sampled.safe {P : M.Act → Prop} {Q : α → M.State → Γ → Prop} {p : Prog M α}
    {s : M.State} {g : Γ} {t : Nat} (h : p.Sampled (fun _ => s) (fun x _ => Q x s g) t)
    (hp : p.Only P) (hT : ∀ a, P a → T g s a s g) : p.Safe T F Q s g := by
  induction p generalizing t with
  | ret x => exact h
  | act a k ih =>
    obtain ⟨r, hr, hk⟩ := h t (Nat.le_refl _)
    exact safe_act g hr (hT a hp.1) (ih r hk (hp.2 r))

end Prog
end Msm.Exec
