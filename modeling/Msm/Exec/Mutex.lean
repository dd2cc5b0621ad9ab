import Mathlib.Logic.Function.Basic
import Msm.Exec.Prog

/-! # Threads that share a mutex

Any number of threads over a machine, stepping in any order. A call answers at once,
or runs its body between a lock and an unlock of the one mutex; outside of its calls a
thread runs any programs of its own, whose actions it makes without the mutex.

`Prog.Amid` is the precondition calculus of a body: between any two of its actions
the other threads may change the state, as the relation `R` says. `Reach.guarded` is
the rule for the mutex: when each body leads from the invariant back to it amid the
others, and the others keep it, then it holds whenever the mutex is free. -/
namespace Msm.Exec
variable {M : Machine} {α β : Type}

/-! ## Programs amid changes of the state -/

/-- From a state that `R` may change before every action and after the last: every
action succeeds, or faults as `F` allows, and the result meets `Q`. -/
def Prog.Amid (R : M.State → M.State → Prop) (F : M.Fault → Prop) (Q : α → M.State → Prop) :
    Prog M α → M.State → Prop
  | .ret x, s => ∀ s', R s s' → Q x s'
  | .act a k, s => ∀ s₁, R s s₁ → match M.exec s₁ a with
    | .ok (r, s₂) => (k r).Amid R F Q s₂
    | .error f => F f

namespace Prog.Amid
variable {R : M.State → M.State → Prop} {F : M.Fault → Prop} {Q : α → M.State → Prop}
  {p : Prog M α} {s s' : M.State}

theorem rely (h : p.Amid R F Q s) (hR : ∀ s₁ s₂ s₃, R s₁ s₂ → R s₂ s₃ → R s₁ s₃)
    (hs : R s s') : p.Amid R F Q s' := by
  cases p with
  | ret x => exact fun s₁ h₁ => h s₁ (hR _ _ _ hs h₁)
  | act a k => exact fun s₁ h₁ => h s₁ (hR _ _ _ hs h₁)

theorem act_ok {a : M.Act} {k : M.Res a → Prog M α} {r : M.Res a}
    (h : (Prog.act a k).Amid R F Q s) (hrefl : R s s) (he : M.exec s a = .ok (r, s')) :
    (k r).Amid R F Q s' := by
  have hs := h s hrefl
  rw [he] at hs
  exact hs

theorem act_error {a : M.Act} {k : M.Res a → Prog M α} {f : M.Fault}
    (h : (Prog.act a k).Amid R F Q s) (hrefl : R s s) (he : M.exec s a = .error f) : F f := by
  have hs := h s hrefl
  rw [he] at hs
  exact hs

theorem of_act {a : M.Act} {k : M.Res a → Prog M α}
    (hok : ∀ s₁ r s₂, R s s₁ → M.exec s₁ a = .ok (r, s₂) → (k r).Amid R F Q s₂)
    (herror : ∀ s₁ f, R s s₁ → M.exec s₁ a = .error f → F f) : (Prog.act a k).Amid R F Q s := by
  intro s₁ hs
  split
  · rename_i r s₂ he
    exact hok s₁ r s₂ hs he
  · rename_i f he
    exact herror s₁ f hs he

end Prog.Amid

/-! ## The mutex -/

/-- A call answers before it locks, or locks and runs its body. -/
inductive Locking (M : Machine) (α : Type) where
  | early (x : α)
  | locked (body : Prog M α)

def Locking.run : Locking M α → M.State → Except M.Fault (α × M.State)
  | .early x, s => .ok (x, s)
  | .locked body, s => body.run s

namespace Mutex

inductive Thread (M : Machine) (Call Val : Type) where
  | idle
  | waits (c : Call) (body : Prog M Val)
  /-- What is left of the body. -/
  | holds (c : Call) (p : Prog M Val)
  | outside (p : Prog M Unit)

/-- The thread is between its lock and its unlock. -/
def Thread.inside {Call Val : Type} : Thread M Call Val → Bool
  | .holds _ _ => true
  | _ => false

structure Sys (M : Machine) (Call Val ι : Type) where
  state : M.State
  locked : Bool
  thread : ι → Thread M Call Val
  /-- The calls that have unlocked, oldest first. -/
  log : List (Call × Val)

variable {Call Val ι : Type}

def Sys.start (s : M.State) : Sys M Call Val ι := ⟨s, false, fun _ => .idle, []⟩

section steps
variable [DecidableEq ι]

/-- One step of a thread; `Out` are the actions it may make outside of its calls. -/
inductive Step (code : Call → Locking M Val) (Out : M.Act → Prop) (x : Sys M Call Val ι) :
    Sys M Call Val ι → Prop
  | call {i : ι} {c : Call} {body : Prog M Val} : x.thread i = .idle → code c = .locked body →
      Step code Out x ⟨x.state, x.locked, Function.update x.thread i (.waits c body), x.log⟩
  | lock {i : ι} {c : Call} {body : Prog M Val} : x.thread i = .waits c body → x.locked = false →
      Step code Out x ⟨x.state, true, Function.update x.thread i (.holds c body), x.log⟩
  | act {i : ι} {c : Call} {a : M.Act} {k : M.Res a → Prog M Val} {r : M.Res a} {s : M.State} :
      x.thread i = .holds c (.act a k) → M.exec x.state a = .ok (r, s) →
      Step code Out x ⟨s, x.locked, Function.update x.thread i (.holds c (k r)), x.log⟩
  | unlock {i : ι} {c : Call} {v : Val} : x.thread i = .holds c (.ret v) →
      Step code Out x ⟨x.state, false, Function.update x.thread i .idle, x.log ++ [(c, v)]⟩
  | start {i : ι} {p : Prog M Unit} : x.thread i = .idle →
      Step code Out x ⟨x.state, x.locked, Function.update x.thread i (.outside p), x.log⟩
  | outside {i : ι} {a : M.Act} {k : M.Res a → Prog M Unit} {r : M.Res a} {s : M.State} :
      x.thread i = .outside (.act a k) → Out a → M.exec x.state a = .ok (r, s) →
      Step code Out x ⟨s, x.locked, Function.update x.thread i (.outside (k r)), x.log⟩
  | finish {i : ι} : x.thread i = .outside (.ret ()) →
      Step code Out x ⟨x.state, x.locked, Function.update x.thread i .idle, x.log⟩

inductive Reach (code : Call → Locking M Val) (Out : M.Act → Prop) (s₀ : M.State) :
    Sys M Call Val ι → Prop
  | start : Reach code Out s₀ (.start s₀)
  | step {x y : Sys M Call Val ι} : Reach code Out s₀ x → Step code Out x y → Reach code Out s₀ y

/-! ## The rule for the mutex -/

/-- `R` is what the other threads may do to the state while a call runs its body, `I`
what holds while the mutex is free, and `F` says which faults may end a call. -/
structure Rules (code : Call → Locking M Val) (Out : M.Act → Prop) (R : M.State → M.State → Prop)
    (I : List (Call × Val) → M.State → Prop) (F : List (Call × Val) → Call → M.Fault → Prop) :
    Prop where
  refl : ∀ s, R s s
  trans : ∀ s₁ s₂ s₃, R s₁ s₂ → R s₂ s₃ → R s₁ s₃
  out : ∀ a s r s', Out a → M.exec s a = .ok (r, s') → R s s'
  stable : ∀ log s s', I log s → R s s' → I log s'
  body : ∀ log c body s, I log s → code c = .locked body →
    body.Amid R (F log c) (fun v s' => I (log ++ [(c, v)]) s') s

/-- The invariant holds while the mutex is free, and held of this log last; a thread is
inside exactly when it is locked, one at most, and leads back to the invariant. -/
structure Guarded (code : Call → Locking M Val) (R : M.State → M.State → Prop)
    (I : List (Call × Val) → M.State → Prop) (F : List (Call × Val) → Call → M.Fault → Prop)
    (x : Sys M Call Val ι) : Prop where
  free : x.locked = false → I x.log x.state
  past : ∃ s, I x.log s
  busy : x.locked = true ↔ ∃ i, (x.thread i).inside = true
  one : ∀ i j, (x.thread i).inside = true → (x.thread j).inside = true → i = j
  holder : ∀ i c p, x.thread i = .holds c p →
    p.Amid R (F x.log c) (fun v s' => I (x.log ++ [(c, v)]) s') x.state
  waits : ∀ i c body, x.thread i = .waits c body → code c = .locked body

section rule
variable {code : Call → Locking M Val} {Out : M.Act → Prop} {R : M.State → M.State → Prop}
  {I : List (Call × Val) → M.State → Prop} {F : List (Call × Val) → Call → M.Fault → Prop}
  {x x' : Sys M Call Val ι} {i j : ι} {y : Thread M Call Val} {s : M.State}

theorem of_update {f : ι → α} {y z : α} (hj : Function.update f i y j = z) :
    j = i ∧ y = z ∨ j ≠ i ∧ f j = z := by
  by_cases he : j = i
  · subst he
    rw [Function.update_self] at hj
    exact .inl ⟨rfl, hj⟩
  · rw [Function.update_of_ne he] at hj
    exact .inr ⟨he, hj⟩

/-- A step of a thread without the mutex. -/
theorem Guarded.quiet (h : Guarded code R I F x) (hrules : Rules code Out R I F)
    (hi : (x.thread i).inside = false) (hy : y.inside = false)
    (hw : ∀ c body, y = .waits c body → code c = .locked body) (hR : R x.state s) :
    Guarded code R I F ⟨s, x.locked, Function.update x.thread i y, x.log⟩ := by
  have hinside (j : ι) : (Function.update x.thread i y j).inside = (x.thread j).inside := by
    by_cases hj : j = i
    · rw [hj, Function.update_self, hy, hi]
    · rw [Function.update_of_ne hj]
  refine ⟨fun hl => hrules.stable _ _ _ (h.free hl) hR, h.past, ?_, fun j k => ?_,
    fun j c p hj => ?_, fun j c body hj => ?_⟩
  · simp only [hinside]
    exact h.busy
  · simp only [hinside]
    exact h.one j k
  · rcases of_update hj with ⟨rfl, rfl⟩ | ⟨_, hj⟩
    · cases hy
    · exact (h.holder j c p hj).rely hrules.trans hR
  · rcases of_update hj with ⟨rfl, rfl⟩ | ⟨_, hj⟩
    · exact hw c body rfl
    · exact h.waits j c body hj

/-- A step after which thread `i` is inside, and no other. -/
theorem Guarded.loud {c : Call} {p : Prog M Val} (h : Guarded code R I F x)
    (hi : ∀ j, (x.thread j).inside = true → j = i)
    (hp : p.Amid R (F x.log c) (fun v s' => I (x.log ++ [(c, v)]) s') s) :
    Guarded code R I F ⟨s, true, Function.update x.thread i (.holds c p), x.log⟩ := by
  have hone (j : ι) (hj : (Function.update x.thread i (.holds c p) j).inside = true) : j = i := by
    by_contra he
    rw [Function.update_of_ne he] at hj
    exact he (hi j hj)
  have hself : (Function.update x.thread i (.holds c p) i).inside = true := by
    rw [Function.update_self]
    rfl
  have hholds (j : ι) (d : Call) (q : Prog M Val)
      (hj : Function.update x.thread i (.holds c p) j = .holds d q) :
      q.Amid R (F x.log d) (fun v s' => I (x.log ++ [(d, v)]) s') s := by
    rcases of_update hj with ⟨_, hj⟩ | ⟨he, hj⟩
    · cases hj
      exact hp
    · exact absurd (hi j (by rw [hj]; rfl)) he
  refine ⟨(fun hl => by cases hl), h.past, ⟨fun _ => ⟨i, hself⟩, fun _ => rfl⟩,
    fun j k hj hk => (hone j hj).trans (hone k hk).symm, hholds, fun j d body hj => ?_⟩
  rcases of_update hj with ⟨_, hj⟩ | ⟨_, hj⟩
  · cases hj
  · exact h.waits j d body hj

/-- **Each step keeps it.** -/
theorem Guarded.step (h : Guarded code R I F x) (hrules : Rules code Out R I F)
    (hs : Step code Out x x') : Guarded code R I F x' := by
  have hrefl := hrules.refl x.state
  cases hs with
  | @call i c body hi hc =>
    refine h.quiet hrules (by rw [hi]; rfl) rfl (fun d b hd => ?_) hrefl
    cases hd
    exact hc
  | start hi => exact h.quiet hrules (by rw [hi]; rfl) rfl (fun _ _ hd => by cases hd) hrefl
  | outside hi ha he =>
    exact h.quiet hrules (by rw [hi]; rfl) rfl (fun _ _ hd => by cases hd)
      (hrules.out _ _ _ _ ha he)
  | finish hi => exact h.quiet hrules (by rw [hi]; rfl) rfl (fun _ _ hd => by cases hd) hrefl
  | @lock i c body hi hl =>
    refine h.loud (fun j hj => ?_) (hrules.body _ _ _ _ (h.free hl) (h.waits i c body hi))
    have hlocked := h.busy.mpr ⟨j, hj⟩
    rw [hl] at hlocked
    cases hlocked
  | @act i c a k r s hi he =>
    have hin : (x.thread i).inside = true := by rw [hi]; rfl
    rw [h.busy.mpr ⟨i, hin⟩]
    exact h.loud (fun j hj => h.one j i hj hin) ((h.holder i c _ hi).act_ok hrefl he)
  | @unlock i c v hi =>
    have hin : (x.thread i).inside = true := by rw [hi]; rfl
    have hnone (j : ι) : (Function.update x.thread i .idle j).inside = false := by
      by_cases he : j = i
      · rw [he, Function.update_self]
        rfl
      · rw [Function.update_of_ne he]
        exact Bool.eq_false_iff.mpr fun hj => he (h.one j i hj hin)
    have hdone := h.holder i c _ hi x.state hrefl
    refine ⟨fun _ => hdone, ⟨_, hdone⟩, ?_, fun j k hj _ => ?_, fun j d q hj => ?_,
      fun j d body hj => ?_⟩
    · constructor
      · intro hl
        cases hl
      · rintro ⟨j, hj⟩
        rw [hnone j] at hj
        cases hj
    · rw [hnone j] at hj
      cases hj
    · rcases of_update hj with ⟨_, hj⟩ | ⟨he, hj⟩
      · cases hj
      · exact absurd (h.one j i (by rw [hj]; rfl) hin) he
    · rcases of_update hj with ⟨_, hj⟩ | ⟨_, hj⟩
      · cases hj
      · exact h.waits j d body hj

/-- **The rule for the mutex.** -/
theorem Reach.guarded {s₀ : M.State} (h : Reach code Out s₀ x) (hrules : Rules code Out R I F)
    (h0 : I [] s₀) : Guarded code R I F x := by
  induction h with
  | start =>
    refine ⟨fun _ => h0, ⟨s₀, h0⟩, ?_, fun i j hi => ?_, fun i c p hi => ?_, fun i c body hi => ?_⟩
    · constructor
      · intro hl
        cases hl
      · rintro ⟨i, hi⟩
        cases hi
    · cases hi
    · cases hi
    · cases hi
  | step _ hs ih => exact ih.step hrules hs

end rule
end steps
end Mutex
end Msm.Exec
