import Msm.Obj.Names

/-! # Object reads are linearizable

The calls of one writer take effect one at a time, each by its last step, a
single store; a reader's call answers what the object said at some instant
between its first step and its last, however the steps are interleaved. -/
namespace Msm.Obj
open Msm.Exec Msm.CMem Msm.Api

def WCall.Short : WCall → Prop
  | .set name _ => name.bytes.length < 65536
  | .remove name => name.bytes.length < 65536

instance : DecidablePred WCall.Short := fun c => by
  cases c <;> exact inferInstanceAs (Decidable (_ < _))

def RCall.Short : RCall → Prop
  | .get _ name => name.bytes.length < 65536
  | .count => True

instance : DecidablePred RCall.Short := fun c => by
  cases c with
  | get _ name => exact inferInstanceAs (Decidable (_ < _))
  | count => exact isTrue trivial

/-- The size of the string's buffer wraps in 32 bits. -/
def WCall.Wraps : WCall → Prop
  | .set _ x => x.value.Wraps
  | .remove _ => False

/-- A writer that makes any calls, with names shorter than 65536 bytes. -/
def writer (slot : Addr) : Client cmachine where
  Call := WCall
  Val := WVal
  code _ c := if c.Short then some (c.code slot) else none

def reader (slot : Addr) : Client cmachine where
  Call := RCall
  Val := Answer CharPtr
  code _ c := if c.Short then some (c.code slot) else none

theorem writer_code {slot : Addr} {log : List (WCall × WVal)} {c : WCall} {p : CProg WVal}
    (h : (writer slot).code log c = some p) : c.Short ∧ p = c.code slot := by
  simp only [writer, Option.ite_none_right_eq_some, Option.some.injEq] at h
  exact ⟨h.1, h.2.symm⟩

theorem reader_code {slot : Addr} {log : List (RCall × Answer CharPtr)} {c : RCall}
    {p : CProg (Answer CharPtr)} (h : (reader slot).code log c = some p) :
    c.Short ∧ p = c.code slot := by
  simp only [reader, Option.ite_none_right_eq_some, Option.some.injEq] at h
  exact ⟨h.1, h.2.symm⟩

theorem reader_only (slot : Addr) : (reader slot).Only Act.IsRead := by
  intro log c p hp
  obtain ⟨_, rfl⟩ := reader_code hp
  exact c.only_code slot

theorem RCall.answer_short {c : RCall} (hc : c.Short) (M : Fields) :
    c.answer key16 M = c.answer key M := by
  cases c with
  | get q name => simp only [RCall.answer, key16_eq hc]
  | count => rfl

/-! ## One call of the writer -/

section call
variable {slot : Addr} {m : Mem} {g : State}

/-- What a call with memory for everything does, step by step: it faults only on
a field of another type or a string that is too long. -/
theorem WCall.takes_safe (c : WCall) (h : Inv slot m g) (hc : c.Short) (hs : m.script = [])
    (hcap : objectCap m slot < 2 ^ 31) :
    (c.code slot).Safe (T slot true m.next (fields g))
      (fun _ _ g' => fields g' = fields g ∧ (c.Mismatch key (fields g) ∨ c.Wraps))
      (fun r _ g' => c.Takes key (fields g) r (fields g')) m g := by
  cases c with
  | remove name =>
    have hok : m.mallocOk = true := by rw [Mem.mallocOk, hs]; rfl
    refine Prog.Safe.bind (msmObjectRemove_safe h rfl Nat.le.refl (fun hk => ?_) (fun _ _ hm => ?_) ?_)
    · exact ⟨-1, (if_neg hk).mpr ⟨rfl, rfl⟩, rfl⟩
    · rw [hok] at hm
      cases hm
    · exact fun m' g' hk _ _ hfields => ⟨0, (if_pos hk).mpr ⟨rfl, hfields⟩, rfl⟩
  | set name x =>
    have hk : key16 name = key name := key16_eq hc
    by_cases ht : Obj.Mismatch (fields g) (key16 name) x.value
    · have ho : x.outcome slot m (fields g) name = _ := Arg.outcome_of_mismatch ht
      refine x.code_safe name h rfl Nat.le.refl (fun _ => rfl) (fun _ _ _ g' hg' => ⟨hg', .inl ?_⟩)
        (fun he => ?_) (fun _ _ _ _ he => ?_)
      · rw [WCall.Mismatch, ← hk]
        exact ht
      · cases ho.symm.trans he
      · cases ho.symm.trans he
    · by_cases hw : x.value.Wraps
      · have ho := Arg.outcome_of_wraps hs (fun _ => hcap) hw ht
        refine x.code_safe name h rfl Nat.le.refl (fun _ => rfl) (fun _ _ _ g' hg' => ⟨hg', .inr hw⟩)
          (fun he => ?_) (fun _ _ _ _ he => ?_)
        · cases ho.symm.trans he
        · cases ho.symm.trans he
      · have ho := Arg.outcome_granted hs (fun _ => hcap) hw ht
        refine x.code_safe name h rfl Nat.le.refl (fun _ => rfl) (fun _ he => ?_) (fun he => ?_)
          (fun m' g' y v he _ hkept hfresh hfields => ?_)
        · cases ho.symm.trans he
        · cases ho.symm.trans he
        · cases ho.symm.trans he
          rw [hk] at hkept hfresh hfields ht
          refine ⟨v, ⟨fun f hf => ?_, hkept, hfresh, hfields⟩, rfl⟩
          by_contra hne
          exact ht ⟨f, hf, hne⟩

end call

/-! ## Every run -/

/-- Between calls the object is well formed; a step keeps it so, is one readers
may rely on, and changes the fields by a store only. -/
def contract (slot : Addr) : Contract (writer slot) State where
  Idle _ m g := Inv slot m g
  T _ g m a m' g' := Inv slot m g →
    Inv slot m' g' ∧ Rely g g' ∧ (fields g' = fields g ∨ a.IsStore)
  F _ _ _ := True

theorem contract_holds (slot : Addr) : (contract slot).Holds fun _ => True := by
  intro log c p m g hI _ hp
  obtain ⟨_, rfl⟩ := writer_code hp
  refine (WCall.code_safe true c hI rfl Nat.le.refl fun _ => rfl).mono ?_ (fun _ _ _ => id)
    fun _ _ _ => id
  intro g₁ m₁ a m₂ g₂ ht hI₁
  obtain ⟨hI₂, hrely, hstore, _⟩ := ht.2 hI₁
  exact ⟨hI₂, hrely, ht.1 ▸ hstore⟩

variable {ι : Type} {slot : Addr} {m₀ : Mem}

theorem exists_trace (h0 : Zeroed m₀ slot) (ρ : Run (writer slot) (reader slot) ι m₀) :
    ∃ γ : Nat → State, Trace slot ρ.state γ ∧ ∀ t, fields (γ (t + 1)) = fields (γ t) ∨
      ∃ c a k, (ρ.sys t).writer.cur = some (c, .act a k) ∧ a.IsStore := by
  obtain ⟨γ, hγ0, hγ⟩ := ρ.ghost (reader_only slot) (fun a ha _ _ _ he => ha.state_eq he)
    (contract_holds slot) (Inv.empty h0) fun _ => trivial
  have hI (t : Nat) : Inv slot (ρ.state t) (γ t) := by
    induction t with
    | zero =>
      rw [hγ0, ρ.state_zero]
      exact Inv.empty h0
    | succ t ih =>
      rcases (hγ t).2.moves with ⟨hs, hg⟩ | ⟨c, a, k, _, ht⟩
      · rw [hs, hg]
        exact ih
      · exact (ht ih).1
  refine ⟨γ, ⟨hI, fun t => ?_⟩, fun t => ?_⟩
  · rcases (hγ t).2.moves with ⟨_, hg⟩ | ⟨c, a, k, _, ht⟩
    · rw [hg]
      exact Rely.refl _
    · exact (ht (hI t)).2.1
  · rcases (hγ t).2.moves with ⟨_, hg⟩ | ⟨c, a, k, hc, ht⟩
    · exact .inl (by rw [hg])
    · exact (ht (hI t)).2.2.imp id fun ha => ⟨c, a, k, hc, ha⟩

/-- **Object reads are linearizable.** In any interleaving from a zeroed slot:
no reader faults; what a reader's call returns is the answer of the object as it
was at an instant `w` of the call; the object changes only by a store of the
writer's; and a writer's call, when its allocations succeed and the capacity is
below 2^31, leaves the object as it was until its last step, with which it takes
effect, and faults only on a field of another type or on a string of 2^32 - 1
bytes. -/
theorem object_reads_linearizable (h0 : Zeroed m₀ slot)
    (ρ : Run (writer slot) (reader slot) ι m₀) :
    (∀ i t, ¬ ((ρ.sys t).reader i).Faults (ρ.state t)) ∧
    (∀ i t₀ t₁ log c code r, (reader slot).code log c = some code →
      (ρ.sys t₀).reader i = ⟨log, some (c, code)⟩ → t₀ ≤ t₁ →
      (ρ.sys t₁).reader i = ⟨log, some (c, .ret r)⟩ →
      ∃ w, t₀ ≤ w ∧ w ≤ t₁ ∧
        ∀ v, t₁ ≤ v → r.Shows (ρ.state v) (c.answer key (objectFields (ρ.state w) slot))) ∧
    (∀ t, objectFields (ρ.state (t + 1)) slot = objectFields (ρ.state t) slot ∨
      ∃ c a k, (ρ.sys t).writer.cur = some (c, .act a k) ∧ a.IsStore) ∧
    ∀ t₀ t₁ log c code p, (writer slot).code log c = some code →
      (ρ.sys t₀).writer = ⟨log, some (c, code)⟩ → t₀ ≤ t₁ →
      (ρ.sys t₁).writer = ⟨log, some (c, p)⟩ → (ρ.state t₀).script = [] →
      objectCap (ρ.state t₀) slot < 2 ^ 31 →
      (∀ a k, p = .act a k → objectFields (ρ.state t₁) slot = objectFields (ρ.state t₀) slot) ∧
      ((ρ.sys t₁).writer.Faults (ρ.state t₁) →
        c.Mismatch key (objectFields (ρ.state t₀) slot) ∨ c.Wraps) ∧
      ∀ r, p = .ret r →
        c.Takes key (objectFields (ρ.state t₀) slot) r (objectFields (ρ.state t₁) slot) := by
  obtain ⟨γ, htr, hstore⟩ := exists_trace h0 ρ
  refine ⟨fun i t => ?_, ?_, fun t => ?_, ?_⟩
  · have hlog := ρ.log_inv (I := fun _ _ => True) trivial (fun _ _ _ _ _ => trivial)
      (fun log c p t _ hp => by
        obtain ⟨_, rfl⟩ := reader_code hp
        exact (htr.call_sampled c t).mono fun _ _ _ _ => trivial) i t
    exact hlog.2
  · intro i t₀ t₁ log c code r hcode hstart h01 hret
    obtain ⟨hshort, rfl⟩ := reader_code hcode
    rcases ρ.call_sampled hstart (htr.call_sampled c t₀) h01 with ⟨p', u, hp', _, hu, hs⟩ | hlt
    · rw [hret] at hp'
      cases hp'
      obtain ⟨w, h0w, hwu, hshow⟩ := hs
      refine ⟨w, h0w, by omega, fun v hv => ?_⟩
      rw [(htr.inv w).objectFields_eq, ← RCall.answer_short hshort]
      exact hshow v (by omega)
    · rw [hret] at hlt
      exact absurd hlt (Nat.lt_irrefl _)
  · rw [(htr.inv t).objectFields_eq, (htr.inv (t + 1)).objectFields_eq]
    exact hstore t
  · intro t₀ t₁ log c code p hcode hstart h01 hcur hs hcap
    obtain ⟨hshort, rfl⟩ := writer_code hcode
    have hI := htr.inv t₀
    have hsafe := (c.takes_safe hI hshort hs hcap).inv (I := Inv slot)
      (fun _ _ _ _ _ hI ht => (ht.2 hI).1) hI
    rw [hI.objectFields_eq]
    rcases ρ.writer_call (reader_only slot) (fun a ha _ _ _ he => ha.state_eq he) hstart hsafe h01
      with ⟨p', g', hp', hs'⟩ | hlt
    · rw [hcur] at hp'
      cases hp'
      refine ⟨?_, ?_, ?_⟩
      · rintro a k rfl
        rcases Prog.Safe.next hs' with ⟨_, _, _, _, ⟨hI', hM, _⟩, _⟩ | ⟨_, _, hI', hM, _⟩
        · rw [hI'.objectFields_eq, hM]
        · rw [hI'.objectFields_eq, hM]
      · rintro ⟨c', a, k, f, hc', he⟩
        rw [hcur] at hc'
        cases hc'
        rcases Prog.Safe.next hs' with ⟨_, _, _, hok, _⟩ | ⟨_, _, _, _, hwhy⟩
        · rw [he] at hok
          cases hok
        · exact hwhy
      · rintro r rfl
        obtain ⟨hI', htakes⟩ := hs'
        rw [hI'.objectFields_eq]
        exact htakes
    · rw [hcur] at hlt
      exact absurd hlt (Nat.lt_irrefl _)

/-! A run: a reader loads the buffer's address when the buffer is still empty, and
the rest when the writer has added "a". -/

def setAndGet (t : Nat) : Choice (writer ⟨0, 0⟩) (reader ⟨0, 0⟩) Unit :=
  if t < 8 ∨ (10 ≤ t ∧ t < 21) then .writer (WCall.set nameA (.int32 7))
  else .reader () (RCall.get .int32 nameA)

theorem object_reads_linearizable_of_run : ∃ w, 9 ≤ w ∧ w ≤ 26 ∧
    (Answer.int32 7).Shows ((Run.ofSchedule zeroedSlot setAndGet).state 26)
      ((RCall.get .int32 nameA).answer key
        (objectFields ((Run.ofSchedule zeroedSlot setAndGet).state w) ⟨0, 0⟩)) := by
  have h := object_reads_linearizable zeroedSlot_zeroed (Run.ofSchedule zeroedSlot setAndGet)
  obtain ⟨w, h1, h2, hs⟩ := h.2.1 () 9 26 [] (.get .int32 nameA) _ (.int32 7) rfl rfl (by decide) rfl
  exact ⟨w, h1, h2, hs 26 (Nat.le_refl _)⟩

end Msm.Obj
