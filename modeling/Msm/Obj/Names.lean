import Msm.Obj.Exhaustion

/-! # Which field a name stands for

`remove` hashes the whole name; the other calls hash as many bytes as the low 16
bits of its length say. So a name of 65536 bytes or more can be set and then not
be found by `remove`, and two such names can share a field although their hashes
over all bytes differ. -/
namespace Msm.Obj
open Msm.Exec Msm.CMem Msm.Api

/-- The reader's call `c` answers `a`, and changes nothing. -/
def Sees (slot : Addr) (m : Mem) (c : RCall) (a : Answer (List UInt8)) : Prop :=
  ∃ r, (c.code slot).run m = .ok (r, m) ∧ r.Shows m a

/-- The field is there; `remove` deletes it, and it is no longer there. -/
def Resolves (slot : Addr) (m₁ : Mem) (name : CStr) : Prop :=
  ∃ (m₂ : Mem) (n : Nat), n < 2 ^ 31 ∧ Sees slot m₁ (.get .has name) (.has 1) ∧
    ((WCall.remove name).code slot).run m₁ = .ok (.status 0, m₂) ∧
    Sees slot m₁ .count (.count (UInt32.ofNat (n + 1))) ∧
    Sees slot m₂ .count (.count (UInt32.ofNat n)) ∧ Sees slot m₂ (.get .has name) (.has 0)

/-- Setting `name` leaves every answer about `other` as it is, and does not abort
over the field that `other` stands for. -/
structure Independent (name other : CStr) : Prop where
  unchanged : ∀ {slot : Addr} {m₀ m m' : Mem} {past : List Mem} {x : Arg} {r : WVal},
    Zeroed m₀ slot → Reachable slot m₀ past m → objectCount m slot < 2 ^ 31 →
    ((WCall.set name x).code slot).run m = .ok (r, m') → r ≠ x.failed →
    ∀ q : Query, ∃ a, Sees slot m (.get q other) a ∧ Sees slot m' (.get q other) a
  aborts_apart : ∀ {slot : Addr} {m₀ m : Mem} {past : List Mem} {x : Arg},
    Zeroed m₀ slot → Reachable slot m₀ past m → objectCount m slot < 2 ^ 31 →
    ((WCall.set name x).code slot).run m = .error (x.mismatch name) →
    ∃ p p', Sees slot m (.get .slot name) (.slot p) ∧ Sees slot m (.get .slot other) (.slot p') ∧
      p ≠ p'

section names
variable {slot : Addr} {m m' m₀ : Mem} {g : State} {past : List Mem} {name other : CStr}

theorem Inv.sees (h : Inv slot m g) (c : RCall) : Sees slot m c (c.answer key16 (fields g)) := by
  obtain ⟨r, hr, hs⟩ := h.observed c
  exact ⟨r, hr, h.objectFields_eq ▸ hs⟩

/-- `msm_object_has_field` has one answer. -/
theorem Inv.sees_has_iff (h : Inv slot m g) (a : Answer (List UInt8)) :
    Sees slot m (.get .has name) a ↔
      a = .has (if (Keyed.find (fields g) (key16 name)).isSome then 1 else 0) := by
  have hsees := h.sees (.get .has name)
  constructor
  · intro hsees'
    obtain ⟨r', hr', ha⟩ := hsees'
    obtain ⟨r, hr, hs⟩ := hsees
    obtain rfl : r = r' := by simpa using hr.symm.trans hr'
    simp only [RCall.answer, Query.answer] at hs
    cases r with
    | has w =>
      cases a with
      | has n => exact congrArg Answer.has ((show w = n from ha).symm.trans hs)
      | _ => exact ha.elim
    | _ => exact hs.elim
  · rintro rfl
    exact hsees

theorem Inv.sees_count (h : Inv slot m g) :
    Sees slot m .count (.count (UInt32.ofNat (fields g).length)) := h.sees .count

/-- A set that reports success leaves a field under the 16-bit key of the name. -/
theorem set_done {x : Arg} {r : WVal} (h : Inv slot m g)
    (hr : ((WCall.set name x).code slot).run m = .ok (r, m')) (hok : r ≠ x.failed) :
    ∃ g' f, Inv slot m' g' ∧ fields g' = Keyed.set (fields g) (key16 name) f := by
  have hrun := x.run_outcome name h
  have hr' : (x.code slot name).run m = .ok (r, m') := hr
  cases ho : x.outcome slot m (fields g) name with
  | fault f =>
    simp only [ho] at hrun
    rw [hrun] at hr'
    cases hr'
  | failed =>
    simp only [ho] at hrun
    obtain ⟨m₁, hr₁, _⟩ := hrun
    obtain ⟨rfl, _⟩ : x.failed = r ∧ m₁ = m' := by simpa using hr₁.symm.trans hr'
    exact absurd rfl hok
  | stored y =>
    simp only [ho] at hrun
    obtain ⟨m₁, g', v, hr₁, hI, -, -, hfields⟩ := hrun
    obtain ⟨_, rfl⟩ : x.done v = r ∧ m₁ = m' := by simpa using hr₁.symm.trans hr'
    exact ⟨g', _, hI, hfields⟩

/-! ## A set and then a remove -/

section resolves
variable {x : Arg} {r : WVal} (hI : Inv slot m g)
  (hr : ((WCall.set name x).code slot).run m = .ok (r, m')) (hok : r ≠ x.failed)
include hI hr hok

/-- A remove deletes the field of the full hash, and the one set is another. -/
theorem not_resolves_of_ne (hk : key16 name ≠ key name) : ¬ Resolves slot m' name := by
  obtain ⟨g', f, hI', hfields⟩ := set_done hI hr hok
  obtain ⟨s, m₂, g₂, hrem, hI₂, hor⟩ := remove_run name hI'
  intro hres
  obtain ⟨m₃, n, _, _, hrem', _, _, hgone⟩ := hres
  obtain ⟨rfl, rfl⟩ : s = 0 ∧ m₂ = m₃ := by simpa using hrem.symm.trans hrem'
  split at hor
  · have hstill : Keyed.find (fields g₂) (key16 name) = some f := by
      rw [hor.2, Keyed.find_remove_of_ne hk, hfields]
      exact Keyed.find_set_self
    rw [hI₂.sees_has_iff, hstill, Option.isSome_some, if_pos rfl] at hgone
    cases hgone
  · exact absurd hor.1 (by decide)

theorem resolves_of_eq (hk : key16 name = key name) (hs : m.script = [])
    (hn : objectCount m slot < 2 ^ 31) : Resolves slot m' name := by
  obtain ⟨g', f, hI', hfields⟩ := set_done hI hr hok
  obtain ⟨s, m₂, g₂, hrem, hI₂, hor⟩ := remove_run name hI'
  have hfind : Keyed.find (fields g') (key16 name) = some f := by
    rw [hfields]
    exact Keyed.find_set_self
  have hmem : key name ∈ Keyed.keys (fields g') := by
    by_contra hno
    rw [hk, Keyed.find_eq_none_iff.mpr hno] at hfind
    cases hfind
  have hmalloc : m'.mallocOk = true := by
    rw [Mem.mallocOk_eq, Mem.outcome, run_script_nil hs hr]
    rfl
  rw [if_pos ⟨hmem, fun _ => hmalloc⟩] at hor
  obtain ⟨rfl, hrest⟩ := hor
  have hlen := Keyed.length_remove_of_mem hI'.fields_distinct hmem
  have hle : (fields g').length ≤ (fields g).length + 1 := by
    rw [hfields]
    by_cases hm : key16 name ∈ Keyed.keys (fields g)
    · rw [Keyed.length_set_of_mem hm]
      omega
    · rw [Keyed.length_set_of_not_mem hm]
  rw [hI.objectCount_eq, ← length_fields] at hn
  refine ⟨m₂, (fields g₂).length, by rw [hrest]; omega, ?_, hrem, ?_, hI₂.sees_count, ?_⟩
  · rw [hI'.sees_has_iff, hfind]
    rfl
  · rw [hrest, hlen]
    exact hI'.sees_count
  · have hnone : Keyed.find (fields g₂) (key16 name) = none := by
      rw [hrest, hk]
      exact Keyed.find_remove_self
    rw [hI₂.sees_has_iff, hnone]
    rfl

end resolves

/-- **A name resolves to one field exactly when its two keys agree.** After a set
that succeeded, in any reachable state, the field is there, a remove deletes it
and it is gone, if and only if the hash over the 16-bit length is the hash over
the whole name. -/
theorem resolves_iff (h0 : Zeroed m₀ slot) (h : Reachable slot m₀ past m) (hs : m.script = [])
    (hn : objectCount m slot < 2 ^ 31) {x : Arg} {r : WVal}
    (hr : ((WCall.set name x).code slot).run m = .ok (r, m')) (hok : r ≠ x.failed) :
    Resolves slot m' name ↔ key16 name = key name := by
  obtain ⟨g, hI, _⟩ := h.inv h0
  constructor
  · intro hres
    by_contra hk
    exact not_resolves_of_ne hI hr hok hk hres
  · exact fun hk => resolves_of_eq hI hr hok hk hs hn

/-! ## Two names -/

/-- The value blocks of two fields differ. -/
theorem Inv.slots_ne (h : Inv slot m g) {k k' : UInt64} {f : Field}
    (hf : Keyed.find (fields g) k = some f) (hk : k ≠ k') :
    Query.slot.answer (Keyed.find (fields g) k') ≠ .slot (some ⟨f.slot, 0⟩) := by
  obtain ⟨e, he, rfl, rfl⟩ := find_some hf
  cases hf' : Keyed.find (fields g) k' with
  | none => simp [Query.answer]
  | some f' =>
    obtain ⟨e', he', rfl, rfl⟩ := find_some hf'
    intro hs
    have hv : e'.val = e.val := by simpa [Query.answer] using hs
    exact hk (congrArg Entry.hash (h.val_inj e' e (h.published he') (h.published he) hv)).symm

theorem independent_of_ne (hk : key16 name ≠ key16 other) : Independent name other where
  unchanged h0 h _ hr hok q := by
    obtain ⟨g, hI, _⟩ := h.inv h0
    obtain ⟨g', f, hI', hfields⟩ := set_done hI hr hok
    have ha : (RCall.get q other).answer key16 (fields g') =
        (RCall.get q other).answer key16 (fields g) := by
      simp only [RCall.answer, hfields, Keyed.find_set_of_ne (Ne.symm hk)]
    exact ⟨_, hI.sees _, ha ▸ hI'.sees _⟩
  aborts_apart := by
    intro slot m₀ m past x h0 h hn hr
    obtain ⟨g, hI, _⟩ := h.inv h0
    have hr' : (x.code slot name).run m = .error (x.mismatch name) := hr
    cases hf : Keyed.find (fields g) (key16 name) with
    | some f =>
      have hsee : Sees slot m (.get .slot name) (.slot (some ⟨f.slot, 0⟩)) := by
        have := hI.sees (.get .slot name)
        rwa [RCall.answer, hf] at this
      have hsee' := hI.sees (.get .slot other)
      have hne := hI.slots_ne hf hk
      exact ⟨_, _, hsee, hsee', fun he => hne (by rw [Query.answer, he])⟩
    | none =>
      -- without a field there is no type to mismatch
      have hrun := x.run_outcome name hI
      cases ho : x.outcome slot m (fields g) name with
      | fault e =>
        simp only [ho] at hrun
        obtain rfl : e = x.mismatch name := by simpa using hrun.symm.trans hr'
        obtain ⟨f, hf'⟩ := x.outcome_mismatch ho
        rw [hf] at hf'
        cases hf'
      | failed =>
        simp only [ho] at hrun
        obtain ⟨_, hok, _⟩ := hrun
        rw [hok] at hr'
        cases hr'
      | stored y =>
        simp only [ho] at hrun
        obtain ⟨_, _, _, hok, _⟩ := hrun
        rw [hok] at hr'
        cases hr'

/-- On an empty object a first set succeeds. -/
theorem set_zeroed (name : CStr) : ∃ v m' g', ((WCall.set name (.int32 0)).code ⟨0, 0⟩).run
    zeroedSlot = .ok (.status 0, m') ∧ Inv ⟨0, 0⟩ m' g' ∧
      Keyed.find (fields g') (key16 name) = some ⟨v, .scalar (.int32 0)⟩ := by
  have hI := Inv.empty zeroedSlot_zeroed
  have hrun := (Arg.int32 0).run_outcome name hI
  have ho : (Arg.int32 0).outcome ⟨0, 0⟩ zeroedSlot (fields (Ghost.empty layout)) name =
      .stored (.scalar (.int32 0)) := rfl
  simp only [ho] at hrun
  obtain ⟨m', g', v, hr, hI', -, -, hfields⟩ := hrun
  exact ⟨v, m', g', hr, hI', by rw [hfields]; exact Keyed.find_set_self⟩

/-- Setting a name makes every name of its 16-bit key present. -/
theorem not_independent_of_eq (hk : key16 name = key16 other) : ¬ Independent name other := by
  intro hind
  obtain ⟨v, m', g', hr, hI', hfind⟩ := set_zeroed name
  obtain ⟨a, ha, ha'⟩ := hind.unchanged zeroedSlot_zeroed .init (by decide) hr
    (fun h => by cases h) .has
  rw [(Inv.empty zeroedSlot_zeroed).sees_has_iff] at ha
  rw [hI'.sees_has_iff, ← hk, hfind, ha] at ha'
  cases ha'

/-- **Names are independent exactly when their 16-bit keys differ.** -/
theorem independent_iff (name other : CStr) :
    Independent name other ↔ key16 name ≠ key16 other :=
  ⟨fun h hk => not_independent_of_eq hk h, independent_of_ne⟩

end names

/-! ## A long name -/

/-- The parity of a hash is that of the start and the odd bytes: the prime is odd. -/
theorem foldl_fnvStep_parity (bs : List UInt8) (h : UInt64) :
    (bs.foldl fnvStep h).toNat % 2 = (h.toNat + bs.countP fun c => c.toNat % 2 == 1) % 2 := by
  induction bs generalizing h with
  | nil => rfl
  | cons c bs ih =>
    have hstep : (fnvStep h c).toNat % 2 = (h.toNat + c.toNat) % 2 := by
      have hx : (h.toNat ^^^ c.toNat) % 2 = (h.toNat + c.toNat) % 2 := by
        have hpow : (h.toNat ^^^ c.toNat) % 2 = (h.toNat % 2) ^^^ (c.toNat % 2) :=
          Nat.xor_mod_two_pow (n := 1)
        rw [hpow, Nat.add_mod]
        rcases Nat.mod_two_eq_zero_or_one h.toNat with h0 | h0 <;>
          rcases Nat.mod_two_eq_zero_or_one c.toNat with h1 | h1 <;> rw [h0, h1] <;> rfl
      simp only [fnvStep, fnvPrime, UInt64.toNat_mul, UInt64.toNat_xor, UInt8.toNat_toUInt64]
      rw [← hx]
      simp only [UInt64.toNat_ofNat]
      omega
    rw [List.foldl_cons, ih, List.countP_cons]
    by_cases hc : c.toNat % 2 = 1
    · rw [if_pos (by rw [hc]; rfl)]
      omega
    · rw [if_neg (by rw [show c.toNat % 2 = 0 by omega]; decide)]
      omega

/-- "a" followed by `k` times "b". -/
def paddedName (k : Nat) : CStr := ⟨97 :: List.replicate k 98, by
  simp [List.mem_replicate]⟩

theorem paddedName_length (k : Nat) : (paddedName k).bytes.length = k + 1 := by
  rw [paddedName, List.length_cons, List.length_replicate]

/-- One odd byte makes the hash even. -/
theorem key_paddedName_ne (k : Nat) : key (paddedName k) ≠ fnvOffsetBasis := by
  have hp := foldl_fnvStep_parity (paddedName k).bytes fnvOffsetBasis
  intro h
  rw [key, hashName, strlen, List.take_length] at h
  rw [h, paddedName, List.countP_cons, List.countP_replicate,
    if_neg (by decide : ¬ (UInt8.toNat 98 % 2 == 1) = true)] at hp
  exact absurd hp (by decide)

/-- A length that narrows to 0. -/
def longName : CStr := paddedName 65535

def emptyName : CStr := ⟨[], by decide⟩

theorem key16_longName : key16 longName = fnvOffsetBasis := by
  have hn : nlen longName = 0 := by
    rw [nlen, strlen, longName, paddedName_length]
    rfl
  rw [key16, hn]
  rfl

theorem resolves_iff_nameA : ∃ m', ((WCall.set nameA (.int32 0)).code ⟨0, 0⟩).run zeroedSlot =
    .ok (.status 0, m') ∧ (Resolves ⟨0, 0⟩ m' nameA ↔ key16 nameA = key nameA) := by
  obtain ⟨v, m', g', hr, _⟩ := set_zeroed nameA
  exact ⟨m', hr, resolves_iff zeroedSlot_zeroed .init rfl (by decide) hr fun h => by cases h⟩

theorem long_name_not_removed :
    ¬ ∀ (slot : Addr) (m₀ m m' : Mem) (past : List Mem) (name : CStr) (x : Arg) (r : WVal),
      Zeroed m₀ slot → Reachable slot m₀ past m → m.script = [] → objectCount m slot < 2 ^ 31 →
      ((WCall.set name x).code slot).run m = .ok (r, m') → r ≠ x.failed →
      Resolves slot m' name := by
  intro h
  obtain ⟨v, m', g', hr, _⟩ := set_zeroed longName
  have hok : WVal.status 0 ≠ (Arg.int32 0).failed := fun h => by cases h
  have hk : key16 longName ≠ key longName := by
    rw [key16_longName]
    exact Ne.symm (key_paddedName_ne _)
  exact not_resolves_of_ne (Inv.empty zeroedSlot_zeroed) hr hok hk
    (h _ _ _ _ _ _ _ _ zeroedSlot_zeroed .init rfl (by decide) hr hok)

/-- The empty name hashes no byte, with either length. -/
theorem long_name_shares_field :
    ¬ ∀ name other : CStr, key name ≠ key other → Independent name other := by
  intro h
  have hne : key longName ≠ key emptyName := key_paddedName_ne _
  exact not_independent_of_eq key16_longName (h longName emptyName hne)

end Msm.Obj
