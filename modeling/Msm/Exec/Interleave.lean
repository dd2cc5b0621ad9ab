import Mathlib.Data.Nat.Init
import Msm.Exec.Prog

/-! # One writer and any number of readers, in any order of steps

A client is what a thread may do: the calls it can make next, given the calls
it has completed, and the program of each. A run interleaves the single steps
of one writer and of the readers `ι` in any order, stuttering allowed, so every
finite prefix of every schedule is the beginning of a run.

Two rules reduce a run to sequential reasoning. `Run.ghost`: when every writer
call is safe on its own, the states of the run carry a ghost sequence.
`Run.call_sampled` and `Run.log_inv`: when a reader's call samples the states of
the run with a postcondition, the call meets it, however it is interleaved. -/
namespace Msm.Exec
variable {M : Machine}

structure Client (M : Machine) where
  Call : Type
  Val : Type
  code : List (Call × Val) → Call → Option (Prog M Val)

/-- Every program of the client performs actions of `P` only. -/
def Client.Only (C : Client M) (P : M.Act → Prop) : Prop :=
  ∀ log c p, C.code log c = some p → p.Only P

/-- The completed calls, oldest first, and what is left of the current one. -/
structure Thread (C : Client M) where
  log : List (C.Call × C.Val)
  cur : Option (C.Call × Prog M C.Val)

namespace Thread
variable {C : Client M}

def idle : Thread C := ⟨[], none⟩

inductive Step : M.State → Thread C → M.State → Thread C → Prop
  | start {s : M.State} {log : List (C.Call × C.Val)} {c : C.Call} {p : Prog M C.Val} :
      C.code log c = some p → Step s ⟨log, none⟩ s ⟨log, some (c, p)⟩
  | act {s s' : M.State} {log : List (C.Call × C.Val)} {c : C.Call} {a : M.Act}
      {k : M.Res a → Prog M C.Val} {r : M.Res a} :
      M.exec s a = .ok (r, s') → Step s ⟨log, some (c, .act a k)⟩ s' ⟨log, some (c, k r)⟩
  | finish {s : M.State} {log : List (C.Call × C.Val)} {c : C.Call} {v : C.Val} :
      Step s ⟨log, some (c, .ret v)⟩ s ⟨log ++ [(c, v)], none⟩

/-- The next action of the thread faults on `s`. -/
def Faults (s : M.State) (x : Thread C) : Prop :=
  ∃ c a k f, x.cur = some (c, .act a k) ∧ M.exec s a = .error f

theorem Step.log_length {s s' : M.State} {x x' : Thread C} (h : Step s x s' x') :
    x.log.length ≤ x'.log.length := by
  cases h <;> simp

theorem Step.only {P : M.Act → Prop} (hC : C.Only P) {s s' : M.State} {x x' : Thread C}
    (h : Step s x s' x') (hx : ∀ c p, x.cur = some (c, p) → p.Only P) :
    ∀ c p, x'.cur = some (c, p) → p.Only P := by
  intro c p hc
  cases h with
  | start hcode => cases hc; exact hC _ _ _ hcode
  | act _ => cases hc; exact (hx _ _ rfl).2 _
  | finish => cases hc

/-- The current call is one that the completed calls allow. -/
def Started (x : Thread C) : Prop := ∀ c p, x.cur = some (c, p) → ∃ q, C.code x.log c = some q

theorem Step.started {s s' : M.State} {x x' : Thread C} (h : Step s x s' x') (hx : x.Started) :
    x'.Started := by
  intro c p hc
  cases h with
  | start hcode => cases hc; exact ⟨_, hcode⟩
  | act _ => cases hc; exact hx _ _ rfl
  | finish => cases hc

/-- The completed calls, with the current one when all its actions are done. -/
def settled (x : Thread C) : List (C.Call × C.Val) :=
  match x.cur with
  | some (c, .ret v) => x.log ++ [(c, v)]
  | _ => x.log

/-- A thread whose actions leave the state alone leaves it alone. -/
theorem Step.state_eq {P : M.Act → Prop}
    (hP : ∀ a, P a → ∀ s r s', M.exec s a = .ok (r, s') → s' = s) {s s' : M.State}
    {x x' : Thread C} (h : Step s x s' x') (hx : ∀ c p, x.cur = some (c, p) → p.Only P) :
    s' = s := by
  cases h with
  | start _ => rfl
  | act he => exact hP _ (hx _ _ rfl).1 _ _ _ he
  | finish => rfl

end Thread

structure Sys (W R : Client M) (ι : Type) where
  state : M.State
  writer : Thread W
  reader : ι → Thread R

inductive Sys.Step {W R : Client M} {ι : Type} (x y : Sys W R ι) : Prop
  | writer : Thread.Step x.state x.writer y.state y.writer → y.reader = x.reader → Step x y
  | reader (i : ι) : Thread.Step x.state (x.reader i) y.state (y.reader i) →
      (∀ j, j ≠ i → y.reader j = x.reader j) → y.writer = x.writer → Step x y

structure Run (W R : Client M) (ι : Type) (init : M.State) where
  sys : Nat → Sys W R ι
  sys_zero : sys 0 = ⟨init, .idle, fun _ => .idle⟩
  sys_succ : ∀ t, sys (t + 1) = sys t ∨ (sys t).Step (sys (t + 1))

/-- What a client's calls guarantee: `Idle` between calls, the ghost moves `T`
of a call, the faults `F`. -/
structure Contract (W : Client M) (Γ : Type) where
  Idle : List (W.Call × W.Val) → M.State → Γ → Prop
  T : W.Call → Γ → M.State → M.Act → M.State → Γ → Prop
  F : M.Fault → M.State → Γ → Prop

namespace Contract
variable {W : Client M} {Γ : Type}

/-- Every call started between calls, on a state that meets `Assume`, is safe. -/
def Holds (C : Contract W Γ) (Assume : M.State → Prop) : Prop :=
  ∀ log c p s g, C.Idle log s g → Assume s → W.code log c = some p →
    p.Safe (C.T c) C.F (fun v s' g' => C.Idle (log ++ [(c, v)]) s' g') s g

/-- The contract at any point of a call. -/
def At (C : Contract W Γ) (x : Thread W) (s : M.State) (g : Γ) : Prop :=
  match x.cur with
  | none => C.Idle x.log s g
  | some (c, p) => p.Safe (C.T c) C.F (fun v s' g' => C.Idle (x.log ++ [(c, v)]) s' g') s g

/-- No change, or a ghost move of the call the thread is in. -/
def Moves (C : Contract W Γ) (x : Thread W) (s : M.State) (g : Γ) (s' : M.State) (g' : Γ) : Prop :=
  (s' = s ∧ g' = g) ∨ ∃ c a k, x.cur = some (c, .act a k) ∧ C.T c g s a s' g'

/-- A step of the thread with the ghost state beside it, which moves only when
the thread performs an action. -/
inductive Tracks (C : Contract W Γ) :
    Thread W → M.State → Γ → Thread W → M.State → Γ → Prop
  | rest {x : Thread W} {s : M.State} {g : Γ} : Tracks C x s g x s g
  | start {s : M.State} {g : Γ} {log : List (W.Call × W.Val)} {c : W.Call} {p : Prog M W.Val} :
      W.code log c = some p → Tracks C ⟨log, none⟩ s g ⟨log, some (c, p)⟩ s g
  | act {s s' : M.State} {g g' : Γ} {log : List (W.Call × W.Val)} {c : W.Call} {a : M.Act}
      {k : M.Res a → Prog M W.Val} {r : M.Res a} : M.exec s a = .ok (r, s') →
      C.T c g s a s' g' → Tracks C ⟨log, some (c, .act a k)⟩ s g ⟨log, some (c, k r)⟩ s' g'
  | finish {s : M.State} {g : Γ} {log : List (W.Call × W.Val)} {c : W.Call} {v : W.Val} :
      Tracks C ⟨log, some (c, .ret v)⟩ s g ⟨log ++ [(c, v)], none⟩ s g

theorem Tracks.moves {C : Contract W Γ} {x x' : Thread W} {s s' : M.State} {g g' : Γ}
    (h : C.Tracks x s g x' s' g') : C.Moves x s g s' g' := by
  cases h with
  | rest => exact .inl ⟨rfl, rfl⟩
  | start _ => exact .inl ⟨rfl, rfl⟩
  | act _ ht => exact .inr ⟨_, _, _, rfl, ht⟩
  | finish => exact .inl ⟨rfl, rfl⟩

theorem At.step {C : Contract W Γ} {Assume : M.State → Prop} (hC : C.Holds Assume)
    {s s' : M.State} {x x' : Thread W} {g : Γ} (h : C.At x s g) (hA : Assume s)
    (hs : Thread.Step s x s' x') : ∃ g', C.At x' s' g' ∧ C.Tracks x s g x' s' g' := by
  cases hs with
  | start hcode => exact ⟨g, hC _ _ _ _ _ h hA hcode, .start hcode⟩
  | act he =>
    have h' := h
    simp only [At, Prog.Safe, he] at h'
    obtain ⟨g', ht, hk⟩ := h'
    exact ⟨g', hk, .act he ht⟩
  | finish => exact ⟨g, h, .finish⟩

/-- Where no fault is allowed, the next action of a call is a move of its contract. -/
theorem At.act_ok {C : Contract W Γ} {s : M.State} {g : Γ} {log : List (W.Call × W.Val)}
    {c : W.Call} {a : M.Act} {k : M.Res a → Prog M W.Val} (h : C.At ⟨log, some (c, .act a k)⟩ s g)
    (hF : ∀ f, ¬ C.F f s g) : ∃ s' g', C.T c g s a s' g' := by
  simp only [At, Prog.Safe] at h
  split at h
  · obtain ⟨g', ht, _⟩ := h
    exact ⟨_, g', ht⟩
  · exact absurd h (hF _)

theorem At.not_faults {C : Contract W Γ} {s : M.State} {x : Thread W} {g : Γ} (h : C.At x s g)
    (hF : ∀ f, ¬ C.F f s g) : ¬ x.Faults s := by
  rintro ⟨c, a, k, f, hc, he⟩
  simp only [At, hc, Prog.Safe, he] at h
  exact hF f h

end Contract

/-- Dependent choice along the natural numbers. -/
theorem exists_seq {Γ : Type} {P : Nat → Γ → Prop} {S : Nat → Γ → Γ → Prop} {g₀ : Γ}
    (h0 : P 0 g₀) (hs : ∀ t g, P t g → ∃ g', P (t + 1) g' ∧ S t g g') :
    ∃ γ : Nat → Γ, γ 0 = g₀ ∧ ∀ t, P t (γ t) ∧ S t (γ t) (γ (t + 1)) := by
  let next (t : Nat) (x : {g // P t g}) : {g // P (t + 1) g} :=
    ⟨(hs t x.1 x.2).choose, (hs t x.1 x.2).choose_spec.1⟩
  let γ (t : Nat) : {g // P t g} := Nat.rec ⟨g₀, h0⟩ next t
  exact ⟨fun t => (γ t).1, rfl, fun t => ⟨(γ t).2, (hs t _ (γ t).2).choose_spec.2⟩⟩

namespace Run
variable {W R : Client M} {ι : Type} {init : M.State}

def state (ρ : Run W R ι init) (t : Nat) : M.State := (ρ.sys t).state

theorem state_zero (ρ : Run W R ι init) : ρ.state 0 = init := by
  rw [state, ρ.sys_zero]

theorem reader_succ (ρ : Run W R ι init) (i : ι) (t : Nat) :
    (ρ.sys (t + 1)).reader i = (ρ.sys t).reader i ∨
      Thread.Step (ρ.state t) ((ρ.sys t).reader i) (ρ.state (t + 1))
        ((ρ.sys (t + 1)).reader i) := by
  rcases ρ.sys_succ t with h | h
  · exact .inl (by rw [h])
  · cases h with
    | writer _ hr => exact .inl (by rw [hr])
    | reader j hs hj _ =>
      by_cases hi : i = j
      · subst hi; exact .inr hs
      · exact .inl (hj i hi)

theorem reader_only (ρ : Run W R ι init) {P : M.Act → Prop} (hR : R.Only P) (i : ι) (t : Nat) :
    ∀ c p, ((ρ.sys t).reader i).cur = some (c, p) → p.Only P := by
  induction t with
  | zero => intro c p h; rw [ρ.sys_zero] at h; cases h
  | succ t ih =>
    rcases ρ.reader_succ i t with h | h
    · rw [h]; exact ih
    · exact h.only hR ih

theorem reader_started (ρ : Run W R ι init) (i : ι) (t : Nat) : ((ρ.sys t).reader i).Started := by
  induction t with
  | zero => intro c p h; rw [ρ.sys_zero] at h; cases h
  | succ t ih =>
    rcases ρ.reader_succ i t with h | h
    · rw [h]; exact ih
    · exact h.started ih

/-- The writer rests while the state stays, or makes a step of its own. -/
theorem writer_succ (ρ : Run W R ι init) {P : M.Act → Prop} (hR : R.Only P)
    (hP : ∀ a, P a → ∀ s r s', M.exec s a = .ok (r, s') → s' = s) (t : Nat) :
    ((ρ.sys (t + 1)).writer = (ρ.sys t).writer ∧ ρ.state (t + 1) = ρ.state t) ∨
      Thread.Step (ρ.state t) (ρ.sys t).writer (ρ.state (t + 1)) (ρ.sys (t + 1)).writer := by
  rcases ρ.sys_succ t with h | h
  · exact .inl ⟨by rw [h], by rw [state, h, state]⟩
  · cases h with
    | writer hs _ => exact .inr hs
    | reader i hs _ hw => exact .inl ⟨hw, hs.state_eq hP (ρ.reader_only hR i t)⟩

/-- The states of a run carry a ghost sequence that the writer's contract moves. -/
theorem ghost (ρ : Run W R ι init) {Γ : Type} {C : Contract W Γ} {Assume : M.State → Prop}
    {P : M.Act → Prop} {g₀ : Γ} (hR : R.Only P)
    (hP : ∀ a, P a → ∀ s r s', M.exec s a = .ok (r, s') → s' = s)
    (hC : C.Holds Assume) (h0 : C.Idle [] init g₀) (hA : ∀ t, Assume (ρ.state t)) :
    ∃ γ : Nat → Γ, γ 0 = g₀ ∧ ∀ t, C.At (ρ.sys t).writer (ρ.state t) (γ t) ∧
      C.Tracks (ρ.sys t).writer (ρ.state t) (γ t) (ρ.sys (t + 1)).writer (ρ.state (t + 1))
        (γ (t + 1)) := by
  refine exists_seq (P := fun t g => C.At (ρ.sys t).writer (ρ.state t) g)
    (S := fun t g g' => C.Tracks (ρ.sys t).writer (ρ.state t) g (ρ.sys (t + 1)).writer
      (ρ.state (t + 1)) g') ?_ ?_
  · rw [state_zero, ρ.sys_zero]; exact h0
  · intro t g hg
    rcases ρ.writer_succ hR hP t with ⟨hw, hs⟩ | hs
    · exact ⟨g, by rw [hw, hs]; exact hg, by rw [hw, hs]; exact .rest⟩
    · exact hg.step hC (hA t) hs

/-- **A writer call keeps its own postcondition.** From an instant at which what
is left of the call is safe, the writer is in that call and what is left is
safe, or it has completed the call. -/
theorem writer_call (ρ : Run W R ι init) {Γ : Type} {P : M.Act → Prop}
    {T : Γ → M.State → M.Act → M.State → Γ → Prop} {F : M.Fault → M.State → Γ → Prop}
    {Q : W.Val → M.State → Γ → Prop} (hR : R.Only P)
    (hP : ∀ a, P a → ∀ s r s', M.exec s a = .ok (r, s') → s' = s) {t₀ t : Nat}
    {log : List (W.Call × W.Val)} {c : W.Call} {p : Prog M W.Val} {g : Γ}
    (h0 : (ρ.sys t₀).writer = ⟨log, some (c, p)⟩) (hS : p.Safe T F Q (ρ.state t₀) g)
    (ht : t₀ ≤ t) :
    (∃ p' g', (ρ.sys t).writer = ⟨log, some (c, p')⟩ ∧ p'.Safe T F Q (ρ.state t) g') ∨
      log.length < (ρ.sys t).writer.log.length := by
  induction t, ht using Nat.le_induction with
  | base => exact .inl ⟨p, g, h0, hS⟩
  | succ t ht ih =>
    rcases ih with ⟨p', g', hp, hs⟩ | hlt
    · rcases ρ.writer_succ hR hP t with ⟨hw, hst⟩ | hstep
      · exact .inl ⟨p', g', hw.trans hp, by rw [hst]; exact hs⟩
      · rw [hp] at hstep
        generalize (ρ.sys (t + 1)).writer = x at hstep
        generalize ρ.state (t + 1) = s' at hstep
        cases hstep with
        | act he =>
          simp only [Prog.Safe, he] at hs
          obtain ⟨g'', _, hk⟩ := hs
          exact .inl ⟨_, g'', rfl, hk⟩
        | finish => exact .inr (by simp)
    · rcases ρ.writer_succ hR hP t with ⟨hw, _⟩ | hstep
      · exact .inr (by rw [hw]; exact hlt)
      · exact .inr (Nat.lt_of_lt_of_le hlt hstep.log_length)

/-! ## Reader calls -/

theorem log_length_mono (ρ : Run W R ι init) (i : ι) {t u : Nat} (h : t ≤ u) :
    ((ρ.sys t).reader i).log.length ≤ ((ρ.sys u).reader i).log.length := by
  induction u, h using Nat.le_induction with
  | base => exact Nat.le_refl _
  | succ u _ ih =>
    rcases ρ.reader_succ i u with h | h
    · rw [h]; exact ih
    · exact Nat.le_trans ih h.log_length

/-- One step inside a call: what is left samples on from an instant passed. -/
theorem sampled_succ (ρ : Run W R ι init) {i : ι} {t u : Nat} {log : List (R.Call × R.Val)}
    {c : R.Call} {p : Prog M R.Val} {Q : R.Val → Nat → Prop}
    (h : (ρ.sys t).reader i = ⟨log, some (c, p)⟩) (hu : u ≤ t) (hQ : p.Sampled ρ.state Q u) :
    (∃ p' u', (ρ.sys (t + 1)).reader i = ⟨log, some (c, p')⟩ ∧ u ≤ u' ∧ u' ≤ t + 1 ∧
      p'.Sampled ρ.state Q u') ∨
    ∃ v, p = .ret v ∧ (ρ.sys (t + 1)).reader i = ⟨log ++ [(c, v)], none⟩ := by
  rcases ρ.reader_succ i t with hr | hr
  · exact .inl ⟨p, u, hr.trans h, Nat.le_refl _, by omega, hQ⟩
  · rw [h] at hr
    generalize hx : (ρ.sys (t + 1)).reader i = x at hr
    generalize hs : ρ.state (t + 1) = s' at hr
    cases hr with
    | act he =>
      obtain ⟨r, hr, hk⟩ := hQ t hu
      rw [he] at hr
      cases hr
      exact .inl ⟨_, t, rfl, hu, by omega, hk⟩
    | finish => exact .inr ⟨_, rfl, rfl⟩

/-- **A call meets its sampled postcondition.** From a point of a call on, the
thread is in that call and what is left of it has been sampled, or it has
completed the call. -/
theorem call_sampled (ρ : Run W R ι init) {i : ι} {t₀ t : Nat} {log : List (R.Call × R.Val)}
    {c : R.Call} {p : Prog M R.Val} {Q : R.Val → Nat → Prop}
    (h0 : (ρ.sys t₀).reader i = ⟨log, some (c, p)⟩) (hQ : p.Sampled ρ.state Q t₀) (ht : t₀ ≤ t) :
    (∃ p' u, (ρ.sys t).reader i = ⟨log, some (c, p')⟩ ∧ t₀ ≤ u ∧ u ≤ t ∧
      p'.Sampled ρ.state Q u) ∨ log.length < ((ρ.sys t).reader i).log.length := by
  induction t, ht using Nat.le_induction with
  | base => exact .inl ⟨p, t₀, h0, Nat.le_refl _, Nat.le_refl _, hQ⟩
  | succ t ht ih =>
    rcases ih with ⟨p', u, hp, h0u, hut, hs⟩ | hlt
    · rcases ρ.sampled_succ hp hut hs with ⟨p'', u', hp', hu', ht', hs'⟩ | ⟨v, _, hv⟩
      · exact .inl ⟨p'', u', hp', by omega, ht', hs'⟩
      · exact .inr (by rw [hv]; simp)
    · exact .inr (Nat.lt_of_lt_of_le hlt (ρ.log_length_mono i (Nat.le_succ t)))

/-- A call that is sampled never faults. -/
theorem call_not_faults (ρ : Run W R ι init) {i : ι} {t : Nat} {log : List (R.Call × R.Val)}
    {c : R.Call} {p : Prog M R.Val} {Q : R.Val → Nat → Prop} {u : Nat}
    (h : (ρ.sys t).reader i = ⟨log, some (c, p)⟩) (hu : u ≤ t) (hQ : p.Sampled ρ.state Q u) :
    ¬ ((ρ.sys t).reader i).Faults (ρ.state t) := by
  rintro ⟨c', a, k, f, hc, hf⟩
  rw [h] at hc
  cases hc
  obtain ⟨r, hr, _⟩ := hQ t hu
  rw [hr] at hf
  cases hf

/-- Along a run, the completed calls of a reader satisfy `I` and what is left of
its current call samples to `Q`, when a call started after a log with `I` does. -/
theorem call_inv (ρ : Run W R ι init) {I : List (R.Call × R.Val) → Nat → Prop}
    {Q : List (R.Call × R.Val) → R.Call → R.Val → Nat → Prop} (h0 : I [] 0)
    (hmono : ∀ log t u, I log t → t ≤ u → I log u)
    (hcall : ∀ log c p t, I log t → R.code log c = some p → p.Sampled ρ.state (Q log c) t)
    (hQ : ∀ log c v t, Q log c v t → I (log ++ [(c, v)]) t) (i : ι) (t : Nat) :
    I ((ρ.sys t).reader i).log t ∧ ∀ c p, ((ρ.sys t).reader i).cur = some (c, p) →
      ∃ u, u ≤ t ∧ p.Sampled ρ.state (Q ((ρ.sys t).reader i).log c) u := by
  induction t with
  | zero =>
    rw [ρ.sys_zero]
    exact ⟨h0, fun c p h => by cases h⟩
  | succ t ih =>
    obtain ⟨hlog, hcur⟩ := ih
    rcases hx : (ρ.sys t).reader i with ⟨log, _ | ⟨c, p⟩⟩
    · rw [hx] at hlog
      rcases ρ.reader_succ i t with hr | hr
      · rw [hr, hx]
        exact ⟨hmono _ _ _ hlog (Nat.le_succ t), fun c p h => by cases h⟩
      · rw [hx] at hr
        generalize (ρ.sys (t + 1)).reader i = x at hr
        generalize ρ.state (t + 1) = s' at hr
        cases hr with
        | start hcode =>
          refine ⟨hmono _ _ _ hlog (Nat.le_succ t), ?_⟩
          intro c p h
          cases h
          exact ⟨t, Nat.le_succ t, hcall _ _ _ _ hlog hcode⟩
    · rw [hx] at hlog hcur
      obtain ⟨u, hu, hs⟩ := hcur c p rfl
      rcases ρ.sampled_succ hx hu hs with ⟨p', u', hp', hu', ht', hs'⟩ | ⟨v, rfl, hv⟩
      · rw [hp']
        refine ⟨hmono _ _ _ hlog (Nat.le_succ t), ?_⟩
        intro c p h
        cases h
        exact ⟨u', ht', hs'⟩
      · rw [hv]
        exact ⟨hmono _ _ _ (hQ _ _ _ _ hs) (by omega), fun c p h => by cases h⟩

/-- A reader whose current call is sampled does not fault. -/
theorem not_faults_of_sampled (ρ : Run W R ι init)
    {Q : List (R.Call × R.Val) → R.Call → R.Val → Nat → Prop} {i : ι} {t : Nat}
    (h : ∀ c p, ((ρ.sys t).reader i).cur = some (c, p) →
      ∃ u, u ≤ t ∧ p.Sampled ρ.state (Q ((ρ.sys t).reader i).log c) u) :
    ¬ ((ρ.sys t).reader i).Faults (ρ.state t) := by
  rcases hx : (ρ.sys t).reader i with ⟨log, _ | ⟨c, p⟩⟩
  · rintro ⟨c, a, k, f, hc, _⟩
    cases hc
  · obtain ⟨u, hu, hs⟩ := h c p (by rw [hx])
    rw [← hx]
    exact ρ.call_not_faults hx hu hs

/-- **A property of a reader's completed calls.** When `I` of the log is kept as
time passes, and every call started after a log with `I` samples to a longer
log with `I`, then `I` holds of every log and no reader ever faults. -/
theorem log_inv (ρ : Run W R ι init) {I : List (R.Call × R.Val) → Nat → Prop} (h0 : I [] 0)
    (hmono : ∀ log t u, I log t → t ≤ u → I log u)
    (hcall : ∀ log c p t, I log t → R.code log c = some p →
      p.Sampled ρ.state (fun v u => I (log ++ [(c, v)]) u) t) (i : ι) (t : Nat) :
    I ((ρ.sys t).reader i).log t ∧ ¬ ((ρ.sys t).reader i).Faults (ρ.state t) := by
  have h := ρ.call_inv h0 hmono hcall (fun _ _ _ _ => id) i t
  exact ⟨h.1, ρ.not_faults_of_sampled (Q := fun log c v u => I (log ++ [(c, v)]) u) h.2⟩

/-- Reader `i` gets the result `v` of its call `c` by the step it makes at `t`. -/
def Returns (ρ : Run W R ι init) (i : ι) (t : Nat) (c : R.Call) (v : R.Val) : Prop :=
  ∃ log a k, (ρ.sys t).reader i = ⟨log, some (c, .act a k)⟩ ∧
    (ρ.sys (t + 1)).reader i = ⟨log, some (c, .ret v)⟩

/-- The result a call gets meets its sampled postcondition at that very instant. -/
theorem Returns.sampled {ρ : Run W R ι init} {i : ι} {t : Nat} {c : R.Call} {v : R.Val}
    {Q : List (R.Call × R.Val) → R.Call → R.Val → Nat → Prop} (hr : ρ.Returns i t c v)
    (h : ∀ c p, ((ρ.sys t).reader i).cur = some (c, p) →
      ∃ u, u ≤ t ∧ p.Sampled ρ.state (Q ((ρ.sys t).reader i).log c) u) :
    Q ((ρ.sys t).reader i).log c v t := by
  obtain ⟨log, a, k, hx, hx'⟩ := hr
  rw [hx] at h ⊢
  obtain ⟨u, hu, hs⟩ := h _ _ rfl
  rcases ρ.reader_succ i t with hsame | hstep
  · rw [hx, hx'] at hsame
    cases hsame
  · rw [hx, hx'] at hstep
    generalize ρ.state (t + 1) = s' at hstep
    generalize hp : Prog.ret v = p at hstep
    cases hstep with
    | act he =>
      obtain ⟨r, hr, hk⟩ := hs t hu
      rw [he] at hr
      cases hr
      rw [← hp] at hk
      exact hk

end Run

/-! ## Runs that follow a schedule -/

/-- One step of the thread, if it has one: it begins the call `c` when it is
between calls. -/
def Thread.advance {C : Client M} (s : M.State) (x : Thread C) (c : C.Call) :
    M.State × Thread C :=
  match x with
  | ⟨log, none⟩ => match C.code log c with
    | some p => (s, ⟨log, some (c, p)⟩)
    | none => (s, x)
  | ⟨log, some (c', .ret v)⟩ => (s, ⟨log ++ [(c', v)], none⟩)
  | ⟨log, some (c', .act a k)⟩ => match M.exec s a with
    | .ok (r, s') => (s', ⟨log, some (c', k r)⟩)
    | .error _ => (s, x)

theorem Thread.advance_step {C : Client M} (s : M.State) (x : Thread C) (c : C.Call) :
    x.advance s c = (s, x) ∨ Thread.Step s x (x.advance s c).1 (x.advance s c).2 := by
  unfold advance
  split
  · split
    · rename_i h; exact .inr (.start h)
    · exact .inl rfl
  · exact .inr .finish
  · split
    · rename_i h; exact .inr (.act h)
    · exact .inl rfl

inductive Choice (W R : Client M) (ι : Type) where
  | writer (c : W.Call)
  | reader (i : ι) (c : R.Call)

def Sys.advance {W R : Client M} {ι : Type} [DecidableEq ι] (x : Sys W R ι) :
    Choice W R ι → Sys W R ι
  | .writer c =>
    let y := x.writer.advance x.state c
    ⟨y.1, y.2, x.reader⟩
  | .reader i c =>
    let y := (x.reader i).advance x.state c
    ⟨y.1, x.writer, fun j => if j = i then y.2 else x.reader j⟩

/-- The run that lets the threads step in the order of the schedule. -/
def Run.ofSchedule {W R : Client M} {ι : Type} [DecidableEq ι] (init : M.State)
    (schedule : Nat → Choice W R ι) : Run W R ι init where
  sys t := Nat.rec ⟨init, .idle, fun _ => .idle⟩ (fun t x => x.advance (schedule t)) t
  sys_zero := rfl
  sys_succ t := by
    generalize hx : (Nat.rec _ _ t : Sys W R ι) = x
    show (Sys.advance _ (schedule t)) = x ∨ x.Step (Sys.advance _ (schedule t))
    rw [hx]
    cases schedule t with
    | writer c =>
      rcases x.writer.advance_step x.state c with h | h
      · exact .inl (by simp only [Sys.advance, h])
      · exact .inr (.writer h rfl)
    | reader i c =>
      rcases (x.reader i).advance_step x.state c with h | h
      · refine .inl ?_
        simp only [Sys.advance, h]
        congr
        funext j
        split
        · rename_i hj; rw [hj]
        · rfl
      · refine .inr (.reader i ?_ (fun j hj => if_neg hj) rfl)
        simpa [Sys.advance] using h

section schedule
variable {W R : Client M} {ι : Type} [DecidableEq ι] {init : M.State} {schedule : Nat → Choice W R ι}

theorem Run.ofSchedule_succ (t : Nat) : (Run.ofSchedule init schedule).sys (t + 1) =
    ((Run.ofSchedule init schedule).sys t).advance (schedule t) := rfl

/-- While only readers are scheduled, the writer rests. -/
theorem Run.ofSchedule_writer {n t : Nat} (ht : n ≤ t)
    (h : ∀ u, n ≤ u → ∃ i c, schedule u = .reader i c) :
    ((Run.ofSchedule init schedule).sys t).writer =
      ((Run.ofSchedule init schedule).sys n).writer := by
  induction t, ht using Nat.le_induction with
  | base => rfl
  | succ u hu ih =>
    obtain ⟨i, c, hc⟩ := h u hu
    rw [Run.ofSchedule_succ, hc]
    exact ih

/-- While only the writer is scheduled, no reader has begun a call. -/
theorem Run.ofSchedule_reader {t : Nat} (h : ∀ u, u < t → ∃ c, schedule u = .writer c) (i : ι) :
    ((Run.ofSchedule init schedule).sys t).reader i = .idle := by
  induction t with
  | zero => rfl
  | succ t ih =>
    obtain ⟨c, hc⟩ := h t (Nat.lt_succ_self t)
    rw [Run.ofSchedule_succ, hc]
    exact ih fun u hu => h u (Nat.lt_succ_of_lt hu)

/-- A writer between two calls does not begin one that it may not make. -/
theorem Sys.advance_stays {x : Sys W R ι} {c : W.Call} (hcur : x.writer.cur = none)
    (hcode : W.code x.writer.log c = none) : x.advance (.writer c) = x := by
  obtain ⟨s, ⟨log, cur⟩, r⟩ := x
  cases hcur
  simp only [advance, Thread.advance, hcode]

/-- Once only such calls are scheduled, the system stays as it is. -/
theorem Run.ofSchedule_stays {n t : Nat} (ht : n ≤ t)
    (hcur : ((Run.ofSchedule init schedule).sys n).writer.cur = none)
    (h : ∀ u, n ≤ u → ∃ c, schedule u = .writer c ∧
      W.code ((Run.ofSchedule init schedule).sys n).writer.log c = none) :
    (Run.ofSchedule init schedule).sys t = (Run.ofSchedule init schedule).sys n := by
  induction t, ht using Nat.le_induction with
  | base => rfl
  | succ u hu ih =>
    obtain ⟨c, hc, hcode⟩ := h u hu
    rw [Run.ofSchedule_succ, ih, hc, Sys.advance_stays hcur hcode]

end schedule

/-- **The last live instant.** When `c` changes only at instants that are live
after the change, what `c` is at `t` it was at a live instant since `t₀`. -/
theorem last_live {α : Type} {L : Nat → Prop} {c : Nat → α} {t₀ t : Nat}
    (hstep : ∀ u, t₀ ≤ u → c (u + 1) = c u ∨ L (u + 1)) (h0 : L t₀) (ht : t₀ ≤ t) :
    ∃ u, t₀ ≤ u ∧ u ≤ t ∧ L u ∧ c u = c t := by
  induction t, ht using Nat.le_induction with
  | base => exact ⟨t₀, Nat.le_refl _, Nat.le_refl _, h0, rfl⟩
  | succ t ht ih =>
    rcases hstep t ht with h | h
    · obtain ⟨u, h1, h2, hl, hc⟩ := ih
      exact ⟨u, h1, by omega, hl, hc.trans h.symm⟩
    · exact ⟨t + 1, by omega, Nat.le_refl _, h, rfl⟩

end Msm.Exec
