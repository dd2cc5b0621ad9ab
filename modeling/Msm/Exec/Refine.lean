import Msm.Exec.Prog

/-! # Programs of statements and what they mean

A statement runs on a state, and has a meaning on the values that states stand
for: a reply and the next value, or the fault it ends with. When every statement
that is allowed does what it means, so does a run of them. -/
namespace Msm.Exec
variable {St S A B V F : Type}

/-- Statements that return, one after the other, lead from `s₀` to a state. -/
inductive Ran (exec : St → S → Except F (A × S)) (s₀ : S) : List St → S → Prop
  | start : Ran exec s₀ [] s₀
  | next {sts : List St} {s s' : S} {st : St} {x : A} : Ran exec s₀ sts s →
      exec st s = .ok (x, s') → Ran exec s₀ (sts ++ [st]) s'

theorem Ran.one {exec : St → S → Except F (A × S)} {s₀ s : S} {st : St} {x : A}
    (h : exec st s₀ = .ok (x, s)) : Ran exec s₀ [st] s :=
  @Ran.next _ _ _ _ exec s₀ [] _ _ st _ .start h

/-- The value after statements that do not end the run. -/
def after (meaning : V → St → Except F (B × V)) (v : V) : List St → Except F V
  | [] => .ok v
  | st :: sts => do
    let rv ← meaning v st
    after meaning rv.2 sts

/-- Each statement is allowed after the ones before it and at the value they lead to. -/
def Allowed (meaning : V → St → Except F (B × V)) (allowed : List St → V → St → Prop) :
    List St → V → List St → Prop
  | _, _, [] => True
  | done, v, st :: sts => allowed done v st ∧
      ∀ r v', meaning v st = .ok (r, v') → Allowed meaning allowed (done ++ [st]) v' sts

/-- What a statement gave is what it means. -/
def Does (shows : S → A → B → Prop) (R : S → V → Prop) (result : Except F (A × S)) :
    Except F (B × V) → Prop
  | .error f => result = .error f
  | .ok (r, v) => ∃ x s', result = .ok (x, s') ∧ shows s' x r ∧ R s' v

section lemmas
variable {exec : St → S → Except F (A × S)} {meaning : V → St → Except F (B × V)}
  {allowed : List St → V → St → Prop} {shows : S → A → B → Prop} {R : List St → S → V → Prop}
  {s₀ s : S} {v : V} {done sts : List St} {st : St}

theorem after_append (v : V) (sts : List St) (st : St) :
    after meaning v (sts ++ [st]) = (do
      let v' ← after meaning v sts
      let rv ← meaning v' st
      pure rv.2) := by
  induction sts generalizing v with
  | nil => rfl
  | cons st' sts ih =>
    show (meaning v st' >>= fun rv => after meaning rv.2 (sts ++ [st])) =
      ((meaning v st' >>= fun rv => after meaning rv.2 sts) >>= _)
    rw [bind_assoc]
    exact congrArg _ (funext fun rv => ih rv.2)

theorem Allowed.init (h : Allowed meaning allowed done v (sts ++ [st])) :
    Allowed meaning allowed done v sts := by
  induction sts generalizing done v with
  | nil => exact trivial
  | cons st' sts ih => exact ⟨h.1, fun r v' hm => ih (h.2 r v' hm)⟩

theorem Allowed.last {v' : V} (h : Allowed meaning allowed done v (sts ++ [st]))
    (hv : after meaning v sts = .ok v') : allowed (done ++ sts) v' st := by
  induction sts generalizing done v with
  | nil =>
    cases hv
    rw [List.append_nil]
    exact h.1
  | cons st' sts ih =>
    cases hm : meaning v st' with
    | error f =>
      simp only [after, hm] at hv
      cases hv
    | ok rv =>
      simp only [after, hm] at hv
      have hlast := ih (h.2 rv.1 rv.2 hm) hv
      rwa [List.append_assoc] at hlast

theorem Does.mono {shows' : S → A → B → Prop} {R R' : S → V → Prop} {x : Except F (A × S)}
    {e : Except F (B × V)} (h : Does shows R x e) (hs : ∀ s x r, shows s x r → shows' s x r)
    (hR : ∀ s v, R s v → R' s v) : Does shows' R' x e := by
  cases e with
  | error f => exact h
  | ok rv =>
    obtain ⟨x, s', hr, hx, hv⟩ := h
    exact ⟨x, s', hr, hs _ _ _ hx, hR _ _ hv⟩

/-- What a statement that returned has done. -/
theorem Does.returned {R : S → V → Prop} {x : A} {s' : S} {e : Except F (B × V)}
    (h : Does shows R (.ok (x, s')) e) : ∃ r v, e = .ok (r, v) ∧ shows s' x r ∧ R s' v := by
  cases e with
  | error f => cases h
  | ok rv =>
    obtain ⟨_, _, hr, hx, hv⟩ := h
    cases hr
    exact ⟨rv.1, rv.2, rfl, hx, hv⟩

/-- **What statements do, a run of them does.** -/
theorem Ran.refines (h0 : R [] s₀ v) (hstep : ∀ sts s v st, R sts s v → allowed sts v st →
      Does shows (R (sts ++ [st])) (exec st s) (meaning v st))
    (h : Ran exec s₀ sts s) (ha : Allowed meaning allowed [] v sts) :
    ∃ v', after meaning v sts = .ok v' ∧ R sts s v' := by
  induction h with
  | start => exact ⟨v, rfl, h0⟩
  | @next sts s s' st x _ hrun ih =>
    obtain ⟨v', hv', hR⟩ := ih ha.init
    have hdoes := hstep sts s v' st hR (ha.last hv')
    rw [hrun] at hdoes
    obtain ⟨r, v₁, hm, _, hR'⟩ := hdoes.returned
    refine ⟨v₁, ?_, hR'⟩
    rw [after_append, hv']
    show (meaning v' st >>= fun rv => pure rv.2) = _
    rw [hm]
    rfl

/-- A program first gets to the state where the rest does. -/
theorem Does.of_bind {M : Machine} {C : Type} {shows : M.State → A → B → Prop}
    {R : M.State → V → Prop} {p : Prog M C} {f : C → Prog M A} {x : C} {s s' : M.State}
    {e : Except M.Fault (B × V)} (hr : p.run s = .ok (x, s'))
    (h : Does shows R ((f x).run s') e) : Does shows R ((p >>= f).run s) e := by
  rw [Prog.run_bind_ok hr]
  exact h

end lemmas
end Msm.Exec
