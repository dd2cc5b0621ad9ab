import Msm.Obj.Plain

/-! # Running out of memory in the middle of a call

A call that cannot be completed should leave the object as it was and say so.
The growing of the buffer and the copy of a remove do. The value block of a new
field and the buffer of a string are allocated after the last point at which a
call reports failure: the first is used without a check, the second is dropped
while the call reports success. -/
namespace Msm.Obj
open Msm.Exec Msm.CMem Msm.Api

/-- What a call reports when there is no room. -/
def WCall.failed : WCall → WVal
  | .set _ x => x.failed
  | .remove _ => .status (-1)

/-- The call has reported success, and the object has the field, with the value
passed and in the block returned, or no longer has it. -/
def WCall.Done (slot : Addr) (c : WCall) (r : WVal) (m' : Mem) : Prop :=
  match c with
  | .set name x => ∃ v, r = x.done v ∧
      Keyed.find (objectFields m' slot) (key16 name) = some ⟨v, x.value⟩
  | .remove name => r = .status 0 ∧ Keyed.find (objectFields m' slot) (key16 name) = none

/-- The call returns; readers answer by the fields; and it has done what it is
for, or it reports failure and the fields are what they were. -/
def AllOrNothing (slot : Addr) (m : Mem) (c : WCall) : Prop :=
  ∃ r m', (c.code slot).run m = .ok (r, m') ∧ Observed slot m' ∧
    (c.Done slot r m' ∨ (r = c.failed ∧ objectFields m' slot = objectFields m slot))

/-- The call is one the guarantee is about: a short name, a string whose buffer
size is a 32-bit number, and no field of another type. -/
def WCall.Admitted (slot : Addr) (m : Mem) : WCall → Prop
  | .set name x => name.bytes.length < 65536 ∧ ¬ x.value.Wraps ∧
      ¬ Obj.Mismatch (objectFields m slot) (key16 name) x.value
  | .remove name => name.bytes.length < 65536

/-- No allocation that goes unreported fails: that of the string's buffer, unless
the field has the same value, and that of the value block of a new field. -/
def WCall.Spared (slot : Addr) (m : Mem) : WCall → Prop
  | .set name x => match Keyed.find (objectFields m slot) (key16 name) with
    | some f => x.value.Allocates → m.outcome 0 = true ∨ f.value = x.value
    | none => (Full m slot ∧ m.outcome 0 = false) ∨
        (m.outcome (if Full m slot then 1 else 0) = true ∧
          (x.value.Allocates → m.outcome ((if Full m slot then 1 else 0) + 1) = true))
  | .remove _ => True

/-- A set with this outcome is all or nothing: it fails as such, or stores `x`. -/
def Outcome.Clean (x : Value) : Outcome → Prop
  | .fault _ => False
  | .failed => True
  | .stored y => y = x

theorem Value.stored_eq_iff (x : Value) (ok : Bool) (old : Value) :
    x.stored ok old = x ↔ (x.Allocates → ok = true ∨ old = x) := by
  by_cases ha : x.Allocates
  · cases ok <;> simp [stored, ha]
  · simp [stored, ha]

theorem Value.not_allocates_nil : ¬ (Value.string []).Allocates := fun h => h

theorem Arg.done_ne_failed (x : Arg) (v : Nat) : x.done v ≠ x.failed := by
  cases x <;> simp [done, failed]

section exhaustion
variable {slot : Addr} {m m₀ : Mem} {g : State} {past : List Mem}

theorem allOrNothing_set_iff (name : CStr) (x : Arg) (h : Inv slot m g) :
    AllOrNothing slot m (.set name x) ↔ (x.outcome slot m (fields g) name).Clean x.value := by
  have hrun := x.run_outcome name h
  cases ho : x.outcome slot m (fields g) name with
  | fault f =>
    simp only [ho] at hrun
    refine ⟨fun hall => ?_, fun hf => hf.elim⟩
    obtain ⟨r, m', hr, _⟩ := hall
    exact absurd (hrun.symm.trans hr) (by simp)
  | failed =>
    simp only [ho] at hrun
    obtain ⟨m', hr, hI⟩ := hrun
    refine ⟨fun _ => trivial, fun _ => ⟨x.failed, m', hr, hI.observed, .inr ⟨rfl, ?_⟩⟩⟩
    rw [hI.objectFields_eq, h.objectFields_eq]
  | stored y =>
    simp only [ho] at hrun
    obtain ⟨m', g', v, hr, hI, -, -, hfields⟩ := hrun
    have hfind : Keyed.find (objectFields m' slot) (key16 name) = some ⟨v, y⟩ := by
      rw [hI.objectFields_eq, hfields]
      exact Keyed.find_set_self
    constructor
    · intro hall
      obtain ⟨r, m₁, hr₁, _, hor⟩ := hall
      obtain ⟨rfl, rfl⟩ : x.done v = r ∧ m' = m₁ := by simpa using hr.symm.trans hr₁
      rcases hor with ⟨w, _, hw⟩ | ⟨hw, _⟩
      · rw [hfind] at hw
        cases hw
        rfl
      · exact absurd hw (x.done_ne_failed v)
    · intro hy
      exact ⟨_, m', hr, hI.observed, .inl ⟨v, rfl, hy ▸ hfind⟩⟩

/-- A remove always is. -/
theorem allOrNothing_remove {name : CStr} (hn : name.bytes.length < 65536) (h : Inv slot m g) :
    AllOrNothing slot m (.remove name) := by
  obtain ⟨r, m', g', hr, hI, hor⟩ := remove_run name h
  refine ⟨_, m', hr, hI.observed, ?_⟩
  split at hor
  · obtain ⟨rfl, hfields⟩ := hor
    refine .inl ⟨rfl, ?_⟩
    rw [hI.objectFields_eq, hfields, key16_eq hn]
    exact Keyed.find_remove_self
  · obtain ⟨rfl, hfields⟩ := hor
    refine .inr ⟨rfl, ?_⟩
    rw [hI.objectFields_eq, h.objectFields_eq, hfields]

/-- What the outcome of an admitted set says about its allocations. -/
theorem spared_set_iff {name : CStr} {x : Arg} (hc : (WCall.set name x).Admitted slot m)
    (hn : objectCount m slot < 2 ^ 31) : (WCall.set name x).Spared slot m ↔
      (x.outcome slot m (objectFields m slot) name).Clean x.value := by
  obtain ⟨_, hwrap, hmis⟩ := hc
  simp only [WCall.Spared, Arg.outcome, setOutcome]
  cases hf : Keyed.find (objectFields m slot) (key16 name) with
  | some f =>
    have ht : f.value.type = x.value.type := by
      by_contra hne
      exact hmis ⟨f, hf, hne⟩
    simp only [ht, hwrap, ne_eq, not_true_eq_false, false_and, if_false]
    exact (x.value.stored_eq_iff _ _).symm
  | none =>
    have hnil : x.value.Allocates → Value.string [] ≠ x.value := by
      intro ha he
      exact Value.not_allocates_nil (he ▸ ha)
    have hcap : ¬ (Full m slot ∧ 2 ^ 31 ≤ objectCap m slot) := by
      rintro ⟨hfull, hbig⟩
      rw [Full] at hfull
      omega
    simp only [hcap, hwrap, false_and, if_false]
    by_cases hfail : Full m slot ∧ m.outcome 0 = false
    · simp only [hfail, and_self, true_or, if_true, Outcome.Clean]
    · rw [if_neg hfail]
      cases hok : m.outcome (if Full m slot then 1 else 0) with
      | false =>
        simp only [if_true, Outcome.Clean, iff_false, not_or, not_and]
        exact ⟨fun hfull h0 => hfail ⟨hfull, h0⟩, fun h => by cases h⟩
      | true =>
        simp only [hfail, false_or, true_and, Bool.true_eq_false, if_false, Outcome.Clean]
        rw [x.value.stored_eq_iff]
        constructor
        · exact fun h ha => .inl (h ha)
        · intro h ha
          rcases h ha with ho | he
          · exact ho
          · exact absurd he (hnil ha)

/-- **Updates are all or nothing while the unreported allocations succeed.** In
every reachable state with fewer than 2^31 fields, an admitted call is all or
nothing if and only if the value block of a new field can be allocated, once
there is room for its entry, and the buffer of a string too, unless the field
has that value. -/
theorem all_or_nothing_iff (h0 : Zeroed m₀ slot) (h : Reachable slot m₀ past m)
    (hn : objectCount m slot < 2 ^ 31) (c : WCall) (hc : c.Admitted slot m) :
    AllOrNothing slot m c ↔ c.Spared slot m := by
  obtain ⟨g, hI, _⟩ := h.inv h0
  cases c with
  | set name x =>
    rw [allOrNothing_set_iff name x hI, spared_set_iff hc hn, hI.objectFields_eq]
  | remove name => exact ⟨fun _ => trivial, fun _ => allOrNothing_remove hc hI⟩

end exhaustion

/-! The first field of an object: the buffer is granted, the value block is not,
and the call clears it at address null. -/

/-- A zeroed slot, and memory for the first allocation only. -/
def scarceSlot : Mem := { zeroedSlot with script := [true, false] }

theorem scarceSlot_zeroed : Zeroed scarceSlot ⟨0, 0⟩ := zeroedSlot_zeroed

theorem admitted_seven (m : Mem) (h : objectFields m ⟨0, 0⟩ = []) :
    (WCall.set nameA (.int32 7)).Admitted ⟨0, 0⟩ m := by
  refine ⟨by decide, fun hw => hw, ?_⟩
  rintro ⟨f, hf, _⟩
  rw [h] at hf
  cases hf

theorem all_or_nothing_iff_seven :
    AllOrNothing ⟨0, 0⟩ scarceSlot (.set nameA (.int32 7)) ↔
      (WCall.set nameA (.int32 7)).Spared ⟨0, 0⟩ scarceSlot :=
  all_or_nothing_iff scarceSlot_zeroed .init (by decide) _ (admitted_seven _ (by decide))

theorem value_block_not_checked :
    ¬ ∀ (slot : Addr) (m₀ m : Mem) (past : List Mem) (c : WCall), Zeroed m₀ slot →
      Reachable slot m₀ past m → objectCount m slot < 2 ^ 31 → c.Admitted slot m →
      AllOrNothing slot m c := by
  intro h
  obtain ⟨r, m', hr, _⟩ := h _ _ _ _ (.set nameA (.int32 7)) scarceSlot_zeroed .init (by decide)
    (admitted_seven _ (by decide))
  have hf : ((WCall.set nameA (.int32 7)).code ⟨0, 0⟩).run scarceSlot = .error .nullDeref := rfl
  rw [hf] at hr
  cases hr

end Msm.Obj
