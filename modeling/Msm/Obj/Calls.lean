import Msm.Obj.Remove

/-! # A writer's call, from its first step to its last

The outcome of every call of the writer client, and the states that calls which
return reach. Between calls such a state has a ghost state beside it that
accounts for every memory there has been (`Reachable.inv`). -/
namespace Msm.Obj
open Msm.Exec Msm.CMem Msm.Api

theorem stores_scalar {type : UInt16} {size : UInt32} {write : Ptr → CProg Unit} {s : Scalar}
    (ht : type = s.type) (hs : size = s.size) (hw : ∀ p, write p = writeValue (.scalar s) p) :
    Stores (statusSetter type size write) (.scalar s) := ⟨ht, congrArg UInt32.toNat hs, hw⟩

theorem stores_string (bs : List UInt8) :
    Stores (stringSetter (.own bs) (UInt32.ofNat bs.length)) (.string bs) :=
  ⟨rfl, rfl, fun _ => rfl⟩

/-- A null string is the empty one, whatever its length is said to be. -/
theorem stores_null (len : UInt32) : Stores (stringSetter .null len) (.string []) := by
  refine ⟨rfl, rfl, fun p => ?_⟩
  show msmStringSet p .null len = msmStringSet p (.own []) 0
  simp [msmStringSet]

theorem stores_object : Stores objectSetter .object := ⟨rfl, rfl, fun _ => rfl⟩

theorem Arg.value_fits (x : Arg) : x.value.Fits := by
  cases x with
  | string bs h => exact h
  | nullString len => exact (by decide : 0 < 2 ^ 32)
  | _ => trivial

/-- The setter behind a set of a number. -/
theorem Arg.scalar_code {x : Arg} {s : Scalar} (hs : x.value = .scalar s) (slot : Addr)
    (name : CStr) : ∃ (st : Setter Int32) (k : Int32 → CProg WVal), Stores st (.scalar s) ∧
      x.code slot name = (objectSetField st (some slot) (some name) >>= k) := by
  cases x with
  | int32 v =>
    cases hs
    exact ⟨int32Setter v, _, stores_scalar rfl rfl fun _ => rfl, rfl⟩
  | int64 v =>
    cases hs
    exact ⟨int64Setter v, _, stores_scalar rfl rfl fun _ => rfl, rfl⟩
  | float64 v =>
    cases hs
    exact ⟨float64Setter v, _, stores_scalar rfl rfl fun _ => rfl, rfl⟩
  | bool v =>
    cases hs
    exact ⟨boolSetter v, _, stores_scalar rfl rfl fun _ => rfl, rfl⟩
  | _ => cases hs

/-- The outcome of setting `x` on an object with fields `M`. -/
def Arg.outcome (x : Arg) (slot : Addr) (m : Mem) (M : Fields) (name : CStr) : Outcome :=
  setOutcome x.value (x.mismatch name) (Keyed.find M (key16 name)) (Full m slot)
    (objectCap m slot) m.outcome

/-- Only a set that finds a field can meet another type. -/
theorem Arg.outcome_mismatch {x : Arg} {slot : Addr} {m : Mem} {M : Fields} {name : CStr}
    (h : x.outcome slot m M name = .fault (x.mismatch name)) :
    ∃ f, Keyed.find M (key16 name) = some f := by
  have hne (e : Fault) (he : e = .outOfBounds ∨ e = .nullDeref) :
      Outcome.fault e ≠ .fault (x.mismatch name) := by
    rcases he with rfl | rfl <;> cases x <;> exact fun h => by cases h
  cases hf : Keyed.find M (key16 name) with
  | some f => exact ⟨f, rfl⟩
  | none =>
    simp only [Arg.outcome, setOutcome, hf] at h
    exfalso
    generalize (if Full m slot then 1 else 0) = i at h
    split at h
    · cases h
    · split at h
      · exact hne _ (.inl rfl) h
      · split at h
        · exact hne _ (.inr rfl) h
        · split at h
          · exact hne _ (.inl rfl) h
          · cases h

theorem Arg.outcome_of_mismatch {x : Arg} {slot : Addr} {m : Mem} {M : Fields} {name : CStr}
    (h : Mismatch M (key16 name) x.value) :
    x.outcome slot m M name = .fault (x.mismatch name) := by
  obtain ⟨f, hf, ht⟩ := h
  simp only [outcome, setOutcome, hf, if_pos ht]

/-- With memory for everything a set stores its value. -/
theorem Arg.outcome_granted {x : Arg} {slot : Addr} {m : Mem} {M : Fields} {name : CStr}
    (hs : m.script = []) (hcap : Full m slot → objectCap m slot < 2 ^ 31)
    (hw : ¬ x.value.Wraps) (h : ¬ Mismatch M (key16 name) x.value) :
    x.outcome slot m M name = .stored x.value := by
  have hok (i : Nat) : m.outcome i = true := by simp [Mem.outcome, hs]
  simp only [outcome, setOutcome, hok, hw, Value.stored_ok, Bool.true_eq_false, and_true, and_false,
    if_false]
  cases hf : Keyed.find M (key16 name) with
  | some f => exact if_neg fun ht => h ⟨f, hf, ht⟩
  | none =>
    refine if_neg fun hfull => ?_
    have := hcap hfull.1
    omega

/-- A string whose buffer size wraps is written outside its buffer. -/
theorem Arg.outcome_of_wraps {x : Arg} {slot : Addr} {m : Mem} {M : Fields} {name : CStr}
    (hs : m.script = []) (hcap : Full m slot → objectCap m slot < 2 ^ 31)
    (hw : x.value.Wraps) (h : ¬ Mismatch M (key16 name) x.value) :
    x.outcome slot m M name = .fault .outOfBounds := by
  have hok (i : Nat) : m.outcome i = true := by simp [Mem.outcome, hs]
  simp only [outcome, setOutcome, hok, hw, and_self, if_true, Bool.true_eq_false, and_false,
    if_false]
  cases hf : Keyed.find M (key16 name) with
  | some f => exact if_neg fun ht => h ⟨f, hf, ht⟩
  | none =>
    refine if_neg fun hfull => ?_
    have := hcap hfull.1
    omega

/-- The call overwrites a number: a set of one on a field of its type. -/
def WCall.Overwrites (M : Fields) : WCall → Prop
  | .set name x => ∃ s f, x.value = .scalar s ∧ Keyed.find M (key16 name) = some f ∧
      f.value.type = x.value.type
  | .remove _ => False

section calls
variable {slot : Addr} {inPlace : Bool} {top : Nat} {M : Fields} {F : Fault → Mem → State → Prop}
  {Q : WVal → Mem → State → Prop} {m : Mem} {g : State}

theorem Arg.code_safe (x : Arg) (name : CStr) (h : Inv slot m g) (hM : fields g = M)
    (htop : top ≤ m.next)
    (hover : (WCall.set name x).Overwrites M → inPlace = true)
    (hF : ∀ f, x.outcome slot m M name = .fault f → ∀ m' g', fields g' = M → F f m' g')
    (hfailed : x.outcome slot m M name = .failed → ∀ m', Inv slot m' g → Q x.failed m' g)
    (hQ : ∀ m' g' y v, x.outcome slot m M name = .stored y → Inv slot m' g' →
      (∀ f, Keyed.find M (key16 name) = some f → f.slot = v) →
      (Keyed.find M (key16 name) = none → ∀ z ∈ M, z.2.slot ≠ v) →
      fields g' = Keyed.set M (key16 name) ⟨v, y⟩ → Q (x.done v) m' g') :
    (x.code slot name).Safe (T slot inPlace top M) F Q m g := by
  have hover' (s : Scalar) (f : Field) (hs : x.value = .scalar s)
      (hf : Keyed.find M (key16 name) = some f) (ht : f.value.type = x.value.type) : inPlace = true :=
    hover ⟨s, f, hs, hf, ht⟩
  have hx := x.value_fits
  cases x with
  | int32 v =>
    exact Prog.Safe.bind (objectSetField_safe (stores_scalar rfl rfl fun _ => rfl) h hM htop hx
      hover' rfl hF hfailed hQ)
  | int64 v =>
    exact Prog.Safe.bind (objectSetField_safe (stores_scalar rfl rfl fun _ => rfl) h hM htop hx
      hover' rfl hF hfailed hQ)
  | float64 v =>
    exact Prog.Safe.bind (objectSetField_safe (stores_scalar rfl rfl fun _ => rfl) h hM htop hx
      hover' rfl hF hfailed hQ)
  | bool v =>
    exact Prog.Safe.bind (objectSetField_safe (stores_scalar rfl rfl fun _ => rfl) h hM htop hx
      hover' rfl hF hfailed hQ)
  | string bs _ =>
    exact Prog.Safe.bind (objectSetField_safe (stores_string bs) h hM htop hx hover' rfl hF hfailed
      hQ)
  | nullString len =>
    exact Prog.Safe.bind (objectSetField_safe (stores_null len) h hM htop hx hover' rfl hF hfailed
      hQ)
  | object =>
    exact Prog.Safe.bind (objectSetField_safe stores_object h hM htop hx hover' rfl hF hfailed hQ)

/-- Whatever a call comes to, the object is well formed when it returns. -/
theorem WCall.code_safe (inPlace : Bool) (c : WCall) (h : Inv slot m g) (hM : fields g = M)
    (htop : top ≤ m.next)
    (hover : c.Overwrites M → inPlace = true) :
    (c.code slot).Safe (T slot inPlace top M) (fun _ _ _ => True) (fun _ m' g' => Inv slot m' g') m
      g := by
  cases c with
  | set name x =>
    refine x.code_safe name h hM htop hover (fun _ _ _ _ _ => trivial) (fun _ _ hI => hI) ?_
    exact fun _ _ _ _ _ hI _ _ _ => hI
  | remove name =>
    refine Prog.Safe.bind (msmObjectRemove_safe h hM htop (fun _ => h) (fun _ _ _ => ?_) ?_)
    · exact h.keeps (Mem.Keeps.refl m).tick
    · exact fun _ _ _ _ hI _ => hI

end calls

/-! ## Calls on their own -/

section run
variable {slot : Addr} {m m' : Mem} {g : State}

theorem run_script_nil {α : Type} {p : CProg α} {x : α} (h : m.script = [])
    (hr : p.run m = .ok (x, m')) : m'.script = [] :=
  Prog.run_keep (M := cmachine) (P := fun m => Mem.script m = [])
    (fun _ _ _ _ => Mem.exec_script_nil) h hr

/-- A set runs to its outcome. -/
theorem Arg.run_outcome (x : Arg) (name : CStr) (h : Inv slot m g) :
    match x.outcome slot m (fields g) name with
    | .fault f => (x.code slot name).run m = .error f
    | .failed => ∃ m', (x.code slot name).run m = .ok (x.failed, m') ∧ Inv slot m' g
    | .stored y => ∃ m' g' v, (x.code slot name).run m = .ok (x.done v, m') ∧ Inv slot m' g' ∧
        (∀ f, Keyed.find (fields g) (key16 name) = some f → f.slot = v) ∧
        (Keyed.find (fields g) (key16 name) = none → ∀ z ∈ fields g, z.2.slot ≠ v) ∧
        fields g' = Keyed.set (fields g) (key16 name) ⟨v, y⟩ := by
  cases ho : x.outcome slot m (fields g) name with
  | fault f =>
    have hsafe : (x.code slot name).Safe (T slot true m.next (fields g)) (fun e _ _ => e = f)
        (fun _ _ _ => False) m g := by
      refine x.code_safe name h rfl Nat.le.refl (fun _ => rfl) (fun e he _ _ _ => ?_) (fun he => ?_)
        (fun _ _ _ _ he => ?_)
      · exact (Outcome.fault.inj (ho.symm.trans he)).symm
      · cases ho.symm.trans he
      · cases ho.symm.trans he
    show (x.code slot name).run m = .error f
    cases hr : (x.code slot name).run m with
    | ok r =>
      obtain ⟨_, hq, _⟩ := hsafe.run_ok hr
      exact hq.elim
    | error e =>
      obtain ⟨_, _, he, _⟩ := hsafe.run_error hr
      rw [he]
  | failed =>
    have hsafe : (x.code slot name).Safe (T slot true m.next (fields g)) (fun _ _ _ => False)
        (fun r m' _ => r = x.failed ∧ Inv slot m' g) m g := by
      refine x.code_safe name h rfl Nat.le.refl (fun _ => rfl) (fun e he _ _ _ => ?_)
        (fun _ m' hI => ⟨rfl, hI⟩) (fun _ _ _ _ he => ?_)
      · cases ho.symm.trans he
      · cases ho.symm.trans he
    obtain ⟨_, m', _, hr, rfl, hI⟩ := hsafe.run_total
    exact ⟨m', hr, hI⟩
  | stored y =>
    have hsafe : (x.code slot name).Safe (T slot true m.next (fields g)) (fun _ _ _ => False)
        (fun r m' g' => ∃ v, r = x.done v ∧ Inv slot m' g' ∧
          (∀ f, Keyed.find (fields g) (key16 name) = some f → f.slot = v) ∧
          (Keyed.find (fields g) (key16 name) = none → ∀ z ∈ fields g, z.2.slot ≠ v) ∧
          fields g' = Keyed.set (fields g) (key16 name) ⟨v, y⟩) m g := by
      refine x.code_safe name h rfl Nat.le.refl (fun _ => rfl) (fun e he _ _ _ => ?_) (fun he => ?_)
        (fun m' g' y' v he hI hk hf hfields => ?_)
      · cases ho.symm.trans he
      · cases ho.symm.trans he
      · cases ho.symm.trans he
        exact ⟨v, rfl, hI, hk, hf, hfields⟩
    obtain ⟨_, m', g', hr, v, rfl, hrest⟩ := hsafe.run_total
    exact ⟨m', g', v, hr, hrest⟩

/-- A remove runs to one of its three ends. -/
theorem remove_run (name : CStr) (h : Inv slot m g) :
    ∃ r m' g', ((WCall.remove name).code slot).run m = .ok (.status r, m') ∧ Inv slot m' g' ∧
      if key name ∈ Keyed.keys (fields g) ∧ (1 < (fields g).length → m.mallocOk = true) then
        r = 0 ∧ fields g' = Keyed.remove (fields g) (key name)
      else r = -1 ∧ fields g' = fields g := by
  have hsafe : ((WCall.remove name).code slot).Safe (T slot true m.next (fields g))
      (fun _ _ _ => False) (fun v m' g' => ∃ r, v = .status r ∧ Inv slot m' g' ∧
        if key name ∈ Keyed.keys (fields g) ∧ (1 < (fields g).length → m.mallocOk = true) then
          r = 0 ∧ fields g' = Keyed.remove (fields g) (key name)
        else r = -1 ∧ fields g' = fields g) m g := by
    refine Prog.Safe.bind (msmObjectRemove_safe h rfl Nat.le.refl (fun hk => ?_) (fun _ hlt hm => ?_) ?_)
    · exact ⟨-1, rfl, h, by rw [if_neg (fun hh => hk hh.1)]; exact ⟨rfl, rfl⟩⟩
    · refine ⟨-1, rfl, h.keeps (Mem.Keeps.refl m).tick, ?_⟩
      rw [if_neg (fun hh => by rw [hh.2 hlt] at hm; cases hm)]
      exact ⟨rfl, rfl⟩
    · intro m' g' hk hm hI hfields
      exact ⟨0, rfl, hI, by rw [if_pos ⟨hk, hm⟩]; exact ⟨rfl, hfields⟩⟩
  obtain ⟨_, m', g', hr, r, rfl, hrest⟩ := hsafe.run_total
  exact ⟨r, m', g', hr, hrest⟩

/-- The reader's calls, made while nobody writes, answer what the fields say. -/
def Observed (slot : Addr) (m : Mem) : Prop :=
  ∀ c : RCall, ∃ r, (c.code slot).run m = .ok (r, m) ∧
    r.Shows m (c.answer key16 (objectFields m slot))

theorem Inv.observed (h : Inv slot m g) : Observed slot m := by
  intro c
  obtain ⟨r, u, hr, w, _, _, hs⟩ := (h.trace.call_sampled c 0).run
  refine ⟨r, hr, ?_⟩
  rw [h.objectFields_eq]
  exact hs u (Nat.le_refl u)

end run

/-! ## The states that calls reach -/

/-- Calls that return lead from `m₀` to a state, the states before it being `past`. -/
inductive Reachable (slot : Addr) (m₀ : Mem) : List Mem → Mem → Prop
  | init : Reachable slot m₀ [] m₀
  | call {past : List Mem} {m m' : Mem} {c : WCall} {r : WVal} : Reachable slot m₀ past m →
      (c.code slot).run m = .ok (r, m') → Reachable slot m₀ (past ++ (c.code slot).passed m) m'

/-- A reader that starts from the slot in `m` can get to byte `o` of block `b`:
in the entries below the count, in the value block of one, in its string. -/
inductive ReadersReach (m : Mem) (slot : Addr) : Nat → Nat → Prop
  | entries {p : Addr} {o : Nat} : objectBuf m slot = some p → o < 8 + objectCount m slot * 24 →
      ReadersReach m slot p.block o
  | value {p v : Addr} {i sz o : Nat} : objectBuf m slot = some p → i < objectCount m slot →
      m.load .ptr (p + (8 + i * 24 + 16)) = some (some v) → m.sizeOf v.block = some sz → o < sz →
      ReadersReach m slot v.block o
  | string {p v s : Addr} {i o : Nat} {len : UInt32} : objectBuf m slot = some p →
      i < objectCount m slot → m.load .u16 (p + (8 + i * 24 + 8)) = some typeString →
      m.load .ptr (p + (8 + i * 24 + 16)) = some (some v) → m.load .ptr (v + 8) = some (some s) →
      m.load .u32 s = some len → o < 8 + (len.toNat + 1) → ReadersReach m slot s.block o

section reach
variable {slot : Addr} {m m₀ : Mem} {g : State} {past : List Mem}

/-- The entry a reader finds at position `i`. -/
theorem Inv.entry_of_view (h : Inv slot m g) {p : Addr} {i : Nat} (hp : objectBuf m slot = some p)
    (hi : i < objectCount m slot) : ∃ e cap, e ∈ entries g ∧ p.off = 0 ∧
      g.heap p.block = some (.buf cap (entries g)) ∧ EntryAt m (p + (8 + i * 24)) e := by
  rw [h.objectBuf_eq] at hp
  rw [h.objectCount_eq] at hi
  obtain ⟨b, hc, rfl⟩ := Option.map_eq_some_iff.mp hp
  obtain ⟨cap, hb⟩ := h.cur_heap hc
  have hget : (entries g)[i]? = some (entries g)[i] := List.getElem?_eq_getElem hi
  refine ⟨_, cap, List.getElem_mem hi, rfl, hb, ?_⟩
  rw [Addr.mk_add, Nat.zero_add]
  exact (h.buf_at hb).entry i _ hget

theorem Inv.reach_of_view (h : Inv slot m g) {b o : Nat} (hr : ReadersReach m slot b o) :
    g.reach b o := by
  cases hr with
  | entries hp ho =>
    rw [h.objectBuf_eq] at hp
    rw [h.objectCount_eq] at ho
    obtain ⟨c, hc, rfl⟩ := Option.map_eq_some_iff.mp hp
    obtain ⟨cap, hb⟩ := h.cur_heap hc
    exact ⟨_, hb, ho⟩
  | @value p v i sz o hp hi hv hsz ho =>
    obtain ⟨e, _, he, _, _, hat⟩ := h.entry_of_view hp hi
    obtain ⟨q, hq, _⟩ := h.entry_payload he
    have hve : v = ⟨e.val, 0⟩ := by
      have := hat.val
      rw [Addr.add_add, hv] at this
      exact Option.some.inj (Option.some.inj this)
    subst hve
    have hs : some sz = some q.size := hsz.symm.trans (h.payload_at hq).1
    cases hs
    exact ⟨_, hq, ho⟩
  | @string p v s i o len hp hi ht hv hs hlen ho =>
    obtain ⟨e, _, he, _, _, hat⟩ := h.entry_of_view hp hi
    obtain ⟨q, hq, hqt⟩ := h.entry_payload he
    have hve : v = ⟨e.val, 0⟩ := by
      have := hat.val
      rw [Addr.add_add, hv] at this
      exact Option.some.inj (Option.some.inj this)
    subst hve
    have hte : e.type = typeString := by
      have := hat.type
      rw [Addr.add_add, ht] at this
      exact (Option.some.inj this).symm
    cases q with
    | scalar x => cases x <;> cases hqt.trans hte
    | object => cases hqt.trans hte
    | string buf =>
      have hbuf : m.load .ptr (⟨e.val, 8⟩ : Addr) = some (basePtr buf) := (h.payload_at hq).2
      rw [Addr.mk_add, hbuf] at hs
      obtain ⟨c, rfl, rfl⟩ := Option.map_eq_some_iff.mp (Option.some.inj hs)
      obtain ⟨bs, hbs⟩ := h.val_str _ _ hq
      have hstr := h.str_at hbs
      rw [hstr.len] at hlen
      cases hlen
      refine ⟨_, hbs, show o < 8 + (bs.length + 1) from ?_⟩
      have hlt := hstr.lt
      rw [List.length_map] at hlt
      rw [List.length_map, UInt32.toNat_ofNat'] at ho
      omega

/-- The ghost state accounts for every byte that readers could reach in `past`. -/
def Covers (slot : Addr) (past : List Mem) (g : State) : Prop :=
  ∀ m ∈ past, ∀ b o, ReadersReach m slot b o → g.reach b o

theorem Covers.step {inPlace : Bool} {top : Nat} {M : Fields} {a : Act} {m' : Mem} {g' : State}
    (h : Inv slot m g ∧ Covers slot past g) (ht : T slot inPlace top M g m a m' g') :
    Inv slot m' g' ∧ Covers slot (past ++ [m]) g' := by
  obtain ⟨hI', hrely, _⟩ := ht.2 h.1
  refine ⟨hI', fun x hx b o hr => hrely.reach ?_⟩
  rcases List.mem_append.mp hx with hx | hx
  · exact h.2 x hx b o hr
  · rw [List.mem_singleton.mp hx] at hr
    exact h.1.reach_of_view hr

/-- **Every reachable state is a well-formed object.** -/
theorem Reachable.inv (h0 : Zeroed m₀ slot) (h : Reachable slot m₀ past m) :
    ∃ g, Inv slot m g ∧ Covers slot past g := by
  induction h with
  | init => exact ⟨_, Inv.empty h0, fun _ hm => by cases hm⟩
  | @call past m m' c r _ hrun ih =>
    obtain ⟨g, hg⟩ := ih
    have hsafe := WCall.code_safe true c hg.1 rfl (Nat.le_refl _) fun _ => rfl
    obtain ⟨g', _, hg'⟩ := (hsafe.along (P := fun _ _ => True)
      (I := fun h s g => Inv slot s g ∧ Covers slot h g) (fun _ _ _ _ _ _ => Covers.step)
      (fun _ _ _ _ _ _ _ _ => trivial) hg).2 _ _ hrun
    exact ⟨g', hg'⟩

end reach
end Msm.Obj
