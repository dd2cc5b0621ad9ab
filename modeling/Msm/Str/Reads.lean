import Msm.Api.Hash
import Msm.Str.Buffer

/-! # String reads under a writer

One writer sets and clears a string slot, readers call `msm_string_get` and
then read the bytes behind the pointer one by one, all in any order of steps.
The invariant is that every buffer ever published is a complete string and is
never written again, so a reader that has the pointer reads one string to its
end, whatever the writer has published since. -/
namespace Msm.Str
open Msm.Exec Msm.CMem Msm.Api

/-- Published string buffers: the whole buffer is within a reader's reach. -/
abbrev strLayout : Layout where
  Node := List UInt8
  At m b bs := StrAt m b (bs.map .byte)
  reach bs o := o < 8 + (bs.length + 1)
  alloc h := ⟨_, h.size⟩
  congr h hs hc := h.congr hs fun o ho => hc o (by simpa using ho)

/-! ## The two clients -/

inductive WCall where
  | set (s : CStr) (short : s.bytes.length < 2 ^ 32 - 1)
  | clear

/-- `msm_string_set` with a C string and its length, or `msm_string_clear`. -/
def WCall.code (slot : Addr) : WCall → CProg Unit
  | .set s _ => msmStringSet (some slot) (.own s.bytes) (UInt32.ofNat s.bytes.length)
  | .clear => msmStringClear (some slot)

/-- The value the slot has after the call, when its allocation succeeds. -/
def WCall.value : WCall → List UInt8
  | .set s _ => s.bytes
  | .clear => []

/-- The value after the call, made when the value is `v` and the next allocation
succeeds or not as `ok` says: only a nonempty string needs one. -/
def WCall.outcome (c : WCall) (ok : Bool) (v : List UInt8) : List UInt8 :=
  if c.value = [] ∨ ok then c.value else v

def writer (slot : Addr) : Client cmachine where
  Call := WCall
  Val := Unit
  code _ c := some (c.code slot)

inductive RCall where
  | get
  | next

inductive RVal where
  | ptr (p : CharPtr)
  | byte (c : UInt8)

/-- The pointer of the last `get`, with the bytes read from it since. -/
def current (log : List (RCall × RVal)) : Option (CharPtr × List UInt8) :=
  log.foldl (fun st x => match x.2 with
    | .ptr p => some (p, [])
    | .byte c => st.map fun y => (y.1, y.2 ++ [c])) none

/-- Byte `i` behind a `const char*`: a literal is the program's own. -/
def readChar (p : CharPtr) (i : Nat) : CProg UInt8 :=
  match p with
  | .null => loadU8 .plain none
  | .own bs => pure ((bs ++ [0])[i]?.getD 0)
  | .shared a => loadU8 .plain (some (a + i))

/-- A reader gets the string, or reads the next byte of the last one it got, up
to the first NUL. -/
def reader (slot : Addr) : Client cmachine where
  Call := RCall
  Val := RVal
  code log
    | .get => some do
        let p ← msmStringGet (some slot)
        pure (.ptr p)
    | .next => match current log with
      | none => none
      | some (p, bs) => if 0 ∈ bs then none else some do
          let c ← readChar p bs.length
          pure (.byte c)

/-! ## The invariant and what each writer step does to it -/

/-- The value the ghost heap gives the slot. -/
def value (g : Ghost strLayout) : List UInt8 := (g.cur.bind g.heap).getD []

structure Inv (slot : Addr) (m : Mem) (g : Ghost strLayout) : Prop where
  repr : Repr strLayout slot m g
  cur_some : ∀ b, g.cur = some b → ∃ bs, g.heap b = some bs
  nul_free : ∀ b (bs : List UInt8), g.heap b = some bs → 0 ∉ bs

theorem Inv.stringValue_eq {slot : Addr} {m : Mem} {g : Ghost strLayout} (h : Inv slot m g) :
    stringValue m slot = value g := by
  have hp := h.repr.slot_ptr
  rw [value]
  cases hc : g.cur with
  | none =>
    rw [hc] at hp
    exact stringValue_null hp
  | some b =>
    rw [hc] at hp
    obtain ⟨bs, hb⟩ := h.cur_some b hc
    have hs : StrAt m b (bs.map .byte) := h.repr.node b bs hb
    rw [hs.stringValue_eq hp, Option.bind_some, hb, Option.getD_some]

/-- A writer step keeps the invariant and every node, and changes the value to
that of the current call or not at all. -/
def T (slot : Addr) (c : WCall) (g : Ghost strLayout) (m : Mem) (_ : Act) (m' : Mem)
    (g' : Ghost strLayout) : Prop :=
  Inv slot m g → Inv slot m' g' ∧ (∀ b bs, g.heap b = some bs → g'.heap b = some bs) ∧
    (value g' = value g ∨ value g' = c.value)

theorem T_fresh {slot : Addr} {c : WCall} {m : Mem} {g : Ghost strLayout} (h : Inv slot m g) :
    FreshOk (T slot c) g m.next := by
  intro m₁ a m₂ r _ ha he h₁
  refine ⟨⟨?_, h₁.cur_some, h₁.nul_free⟩, fun _ _ => id, .inl rfl⟩
  exact h₁.repr.exec_fresh (fun _ _ hb => h.repr.node_lt hb) h.repr.slot_lt ha he

/-- Publishing the null pointer. -/
theorem Inv.clear {slot : Addr} {m : Mem} {g : Ghost strLayout} (h : Inv slot m g) :
    Inv slot (m.write (slot + 8) (Kind.ptr.encode none)) (g.point none) :=
  ⟨h.repr.point none, fun _ hb => (nomatch hb), h.nul_free⟩

/-- Publishing a new complete buffer. -/
theorem Inv.publish {slot : Addr} {m : Mem} {g : Ghost strLayout} (h : Inv slot m g) {b : Nat}
    {bs : List UInt8} (hb : b ≠ slot.block) (hs : StrAt m b (bs.map .byte)) (h0 : 0 ∉ bs) :
    Inv slot (m.write (slot + 8) (Kind.ptr.encode (some ⟨b, 0⟩)))
      ((g.set b bs).point (some b)) := by
  refine ⟨(h.repr.intro hb hs).point (some b), ?_, ?_⟩
  · rintro b' ⟨⟩
    exact ⟨bs, g.set_heap_self b bs⟩
  · intro b' bs' hb'
    by_cases he : b' = b
    · subst he
      rw [Ghost.point_heap, Ghost.set_heap_self] at hb'
      cases hb'; exact h0
    · rw [Ghost.point_heap, Ghost.set_heap_of_ne _ _ he] at hb'
      exact h.nul_free b' bs' hb'

theorem msmStringClear_safe {slot : Addr} {c : WCall} {m : Mem} {g : Ghost strLayout}
    (h : Inv slot m g) (hc : c.value = []) :
    (atomicStorePtr (some slot + 8) none .release).Safe (T slot c) (fun _ _ _ => False)
      (fun _ m' g' => Inv slot m' g' ∧ value g' = c.outcome m.mallocOk (value g)) m g := by
  have hout : value (g.point none) = c.outcome m.mallocOk (value g) := by
    simp [value, WCall.outcome, hc]
  refine Prog.safe_act (g.point none)
    (Mem.exec_store (h.repr.slot_valid.mono (by simp [Kind.size]))) ?_ ⟨h.clear, hout⟩
  exact fun _ => ⟨h.clear, fun _ _ => id, .inr hc.symm⟩

/-- Every writer call keeps the contract, whether its allocation succeeds or not. -/
theorem code_safe {slot : Addr} {m : Mem} {g : Ghost strLayout} (h : Inv slot m g) (c : WCall) :
    (c.code slot).Safe (T slot c) (fun _ _ _ => False)
      (fun _ m' g' => Inv slot m' g' ∧ value g' = c.outcome m.mallocOk (value g)) m g := by
  cases c with
  | clear =>
    simp only [WCall.code, msmStringClear, reduceCtorEq, if_false]
    exact msmStringClear_safe h rfl
  | set s short =>
    refine msmStringSet_safe (T_fresh h) (by omega) (fun _ => rfl)
      (fun hnil => msmStringClear_safe h hnil) ?_ ?_ ?_
    · intro hne hm
      exact ⟨⟨h.repr.tick, h.cur_some, h.nul_free⟩, by simp [WCall.outcome, WCall.value, hne, hm]⟩
    · intro hwide
      omega
    · intro m' _ hk _ hs hm
      have h' : Inv slot m' g := ⟨h.repr.keeps hk, h.cur_some, h.nul_free⟩
      have hb : m.next ≠ slot.block := by have := h.repr.slot_lt; omega
      have hpub := h'.publish hb hs s.nul_free
      have hval : value ((g.set m.next s.bytes).point (some m.next)) = s.bytes := by
        simp [value]
      refine Prog.safe_act _ (Mem.exec_store (h'.repr.slot_valid.mono (by simp [Kind.size]))) ?_
        ⟨hpub, by rw [hval]; simp [WCall.outcome, WCall.value, hm]⟩
      refine fun _ => ⟨hpub, fun b' bs' hb' => ?_, .inr hval⟩
      exact (Ghost.extends_set _ (h.repr.fresh (Nat.le_refl _))).2 b' bs' hb'

def contract (slot : Addr) : Contract (writer slot) (Ghost strLayout) where
  Idle _ m g := Inv slot m g
  T c := T slot c
  F _ _ _ := False

theorem contract_holds (slot : Addr) : (contract slot).Holds fun _ => True := by
  intro log c p m g h _ hp
  cases hp
  exact (code_safe h c).post fun _ _ _ hq => hq.1

/-! ## What a reader finds -/

/-- `p` points to the string `bs`: to the data of a published buffer, or to the
empty literal. -/
def Denotes (g : Ghost strLayout) (p : CharPtr) (bs : List UInt8) : Prop :=
  match p with
  | .null => False
  | .own cs => cs = [] ∧ bs = []
  | .shared a => a.off = 8 ∧ g.heap a.block = some bs

theorem Denotes.unique {g : Ghost strLayout} {p : CharPtr} {bs cs : List UInt8}
    (h : Denotes g p bs) (h' : Denotes g p cs) : bs = cs := by
  cases p with
  | null => exact h.elim
  | own _ => exact h.2.trans h'.2.symm
  | shared a => exact Option.some.inj (h.2.symm.trans h'.2)

theorem current_append (log : List (RCall × RVal)) (c : RCall) (v : RVal) :
    current (log ++ [(c, v)]) = match v with
      | .ptr p => some (p, [])
      | .byte b => (current log).map fun y => (y.1, y.2 ++ [b]) := by
  simp only [current, List.foldl_append, List.foldl_cons, List.foldl_nil]

theorem value_nul_free {slot : Addr} {m : Mem} {g : Ghost strLayout} (h : Inv slot m g) :
    0 ∉ value g := by
  rw [value]
  cases hc : g.cur.bind g.heap with
  | none => simp
  | some bs =>
    obtain ⟨b, _, hb⟩ := Option.bind_eq_some_iff.mp hc
    exact h.nul_free b bs hb

theorem prefix_concat {α : Type} {l l' : List α} {x : α} (h : l <+: l')
    (hx : l'[l.length]? = some x) : l ++ [x] <+: l' := by
  obtain ⟨r, rfl⟩ := h
  cases r with
  | nil => simp at hx
  | cons y r =>
    rw [List.getElem?_append_right (Nat.le_refl _), Nat.sub_self] at hx
    cases hx
    exact ⟨r, by simp⟩

/-- A prefix of a terminated string that has the terminator is all of it. -/
theorem prefix_terminated {bs js : List UInt8} (h : js <+: bs ++ [0]) (hj : 0 ∈ js)
    (h0 : 0 ∉ bs) : js = bs ++ [0] := by
  rcases List.prefix_concat_iff.mp h with he | hp
  · exact he
  · exact absurd (hp.subset hj) h0

section reads
variable {slot : Addr} {μ : Nat → Mem} {γ : Nat → Ghost strLayout}
  (hI : ∀ t, Inv slot (μ t) (γ t))
  (hm : ∀ t u, t ≤ u → ∀ b bs, (γ t).heap b = some bs → (γ u).heap b = some bs)
include hI hm

omit hI in
theorem Denotes.mono {p : CharPtr} {bs : List UInt8} {t u : Nat} (h : Denotes (γ t) p bs)
    (htu : t ≤ u) : Denotes (γ u) p bs := by
  cases p with
  | null => exact h
  | own _ => exact h
  | shared a => exact ⟨h.1, hm t u htu _ _ h.2⟩

/-- `msm_string_get` returns a pointer to what the slot held at some instant of
the call. -/
theorem get_sampled (t : Nat) : (msmStringGet (some slot)).Sampled μ
    (fun p u => ∃ w, t ≤ w ∧ w ≤ u ∧ Denotes (γ u) p (value (γ w))) t := by
  simp only [msmStringGet, reduceCtorEq, if_false, atomicLoadPtr, loadPtr_bind, Ptr.some_add]
  refine sampled_load fun s hs => ⟨_, (hI s).repr.slot_ptr, ?_⟩
  cases hc : (γ s).cur with
  | none => exact ⟨s, hs, Nat.le_refl _, rfl, by simp [value, hc]⟩
  | some b =>
    obtain ⟨bs, hb⟩ := (hI s).cur_some b hc
    simp only [basePtr_some, strBufLen, atomicLoadU32, loadU32_bind]
    refine sampled_load fun u hu => ?_
    have hbu := hm s u hu b bs hb
    have hstr : StrAt (μ u) b (bs.map .byte) := (hI u).repr.node b bs hbu
    refine ⟨_, hstr.len, ?_⟩
    rw [if_neg hstr.len_ne_zero]
    exact ⟨s, hs, hu, rfl, by simpa [value, hc, hb] using hbu⟩

/-- The bytes behind a pointer a reader holds are those of its string. -/
theorem readChar_sampled {p : CharPtr} {bs : List UInt8} {i t : Nat} (h : Denotes (γ t) p bs)
    (hi : i < bs.length + 1) : (readChar p i).Sampled μ
      (fun c u => t ≤ u ∧ (bs ++ [0])[i]? = some c) t := by
  have hlt : i < (bs ++ [0]).length := by simpa using hi
  have hget := List.getElem?_eq_getElem hlt
  cases p with
  | null => exact h.elim
  | own cs =>
    obtain ⟨rfl, rfl⟩ := h
    exact ⟨Nat.le_refl _, by rw [hget]; rfl⟩
  | shared a =>
    refine sampled_load fun u hu => ?_
    have hs : StrAt (μ u) a.block (bs.map .byte) := (hI u).repr.node _ _ (hm t u hu _ _ h.2)
    have ha : a + i = ⟨a.block, 8 + i⟩ := by rw [← h.1]; rfl
    exact ⟨_, ha ▸ hs.load_byte hget, hu, hget⟩

/-- What the completed calls of a reader say at instant `t`. -/
def LogOk (γ : Nat → Ghost strLayout) (log : List (RCall × RVal)) (t : Nat) : Prop :=
  ∀ p js, current log = some (p, js) →
    ∃ bs, Denotes (γ t) p bs ∧ 0 ∉ bs ∧ js <+: bs ++ [0]

omit hI in
theorem LogOk.mono {log : List (RCall × RVal)} {t u : Nat} (h : LogOk γ log t) (htu : t ≤ u) :
    LogOk γ log u := by
  intro p js hp
  obtain ⟨bs, hd, h0, hpre⟩ := h p js hp
  exact ⟨bs, hd.mono hm htu, h0, hpre⟩

theorem call_sampled {log : List (RCall × RVal)} {c : RCall} {p : CProg RVal} {t : Nat}
    (hlog : LogOk γ log t) (hp : (reader slot).code log c = some p) :
    p.Sampled μ (fun v u => LogOk γ (log ++ [(c, v)]) u) t := by
  cases c with
  | get =>
    cases hp
    refine Prog.Sampled.bind ((get_sampled hI hm t).mono ?_)
    rintro p u _ ⟨w, _, _, hd⟩ p' js hcur
    rw [current_append] at hcur
    cases hcur
    exact ⟨_, hd, value_nul_free (hI w), List.nil_prefix⟩
  | next =>
    simp only [reader] at hp
    split at hp
    · cases hp
    · rename_i q js hcur
      split at hp
      · cases hp
      · rename_i hjs
        cases hp
        obtain ⟨bs, hd, h0, hpre⟩ := hlog q js hcur
        have hlen : js.length < bs.length + 1 := by
          have hle : js.length ≤ (bs ++ [0]).length := hpre.length_le
          rw [List.length_append, List.length_singleton] at hle
          refine Nat.lt_of_le_of_ne hle fun he => hjs ?_
          rw [hpre.eq_of_length (by simpa using he)]
          simp
        refine Prog.Sampled.bind ((readChar_sampled hI hm hd hlen).mono ?_)
        rintro c u _ ⟨htu, hc⟩ p' js' hcur'
        rw [current_append, hcur] at hcur'
        cases hcur'
        exact ⟨bs, hd.mono hm htu, h0, prefix_concat hpre hc⟩

end reads
/-! ## Every run -/

variable {ι : Type} {slot : Addr} {m₀ : Mem}

theorem msmStringGet_only (slot : Addr) : (msmStringGet (some slot)).Only Act.IsRead := by
  simp only [msmStringGet, reduceCtorEq, if_false, atomicLoadPtr, strBufLen, atomicLoadU32]
  refine ⟨trivial, fun q => ?_⟩
  cases q with
  | none => trivial
  | some b =>
    refine ⟨trivial, fun len => ?_⟩
    by_cases h : len = 0
    · simp only [Prog.bind, h, if_true]; trivial
    · simp only [Prog.bind, h, if_false]; trivial

theorem reader_only (slot : Addr) : (reader slot).Only Act.IsRead := by
  intro log c p hp
  cases c with
  | get =>
    cases hp
    exact Prog.only_bind (msmStringGet_only slot) fun _ => trivial
  | next =>
    simp only [reader] at hp
    split at hp
    · cases hp
    · rename_i q js _
      split at hp
      · cases hp
      · cases hp
        cases q with
        | null => exact ⟨trivial, fun _ => trivial⟩
        | own _ => trivial
        | shared _ => exact ⟨trivial, fun _ => trivial⟩

/-- The ghost sequence of a run from a zeroed slot. -/
theorem exists_ghost (h0 : Zeroed m₀ slot) (ρ : Run (writer slot) (reader slot) ι m₀) :
    ∃ γ : Nat → Ghost strLayout, (∀ t, Inv slot (ρ.state t) (γ t)) ∧
      (∀ t u, t ≤ u → ∀ b bs, (γ t).heap b = some bs → (γ u).heap b = some bs) ∧
      (∀ t, value (γ (t + 1)) = value (γ t) ∨ ∃ c p, (ρ.sys t).writer.cur = some (c, p) ∧
        value (γ (t + 1)) = c.value) ∧ ∀ t, ¬ (ρ.sys t).writer.Faults (ρ.state t) := by
  have hinit : Inv slot m₀ (Ghost.empty strLayout) :=
    ⟨h0.repr, fun _ hb => (nomatch hb), fun _ _ hb => (nomatch hb)⟩
  obtain ⟨γ, hγ0, hγ⟩ := ρ.ghost (reader_only slot) (fun a ha _ _ _ he => ha.state_eq he)
    (contract_holds slot) hinit fun _ => trivial
  have hI (t : Nat) : Inv slot (ρ.state t) (γ t) := by
    induction t with
    | zero => rw [hγ0, ρ.state_zero]; exact hinit
    | succ t ih =>
      rcases (hγ t).2.moves with ⟨hs, hg⟩ | ⟨c, a, k, _, ht⟩
      · rw [hs, hg]; exact ih
      · exact (ht ih).1
  have hstep (t : Nat) : ∀ b bs, (γ t).heap b = some bs → (γ (t + 1)).heap b = some bs := by
    rcases (hγ t).2.moves with ⟨_, hg⟩ | ⟨c, a, k, _, ht⟩
    · rw [hg]; exact fun _ _ => id
    · exact (ht (hI t)).2.1
  refine ⟨γ, hI, fun t u htu => ?_, fun t => ?_, fun t => (hγ t).1.not_faults fun _ => id⟩
  · induction u, htu using Nat.le_induction with
    | base => exact fun _ _ => id
    | succ u _ ih => exact fun b bs hb => hstep u b bs (ih b bs hb)
  · rcases (hγ t).2.moves with ⟨_, hg⟩ | ⟨c, a, k, hc, ht⟩
    · exact .inl (by rw [hg])
    · exact (ht (hI t)).2.2.imp id fun hv => ⟨c, _, hc, hv⟩

/-- The calls a reader has completed after `log` are a `get` that returned `p`
and reads of the bytes `js` behind `p`. -/
def GotAndRead (log log' : List (RCall × RVal)) (p : CharPtr) (js : List UInt8) : Prop :=
  log' = log ++ (.get, .ptr p) :: js.map fun c => (.next, .byte c)

theorem GotAndRead.current {log log' : List (RCall × RVal)} {p : CharPtr} {js : List UInt8}
    (h : GotAndRead log log' p js) : current log' = some (p, js) := by
  have aux : ∀ js ks : List UInt8, (js.map fun c => (RCall.next, RVal.byte c)).foldl
      (fun st x => match x.2 with
        | .ptr p => some (p, [])
        | .byte c => st.map fun y => (y.1, y.2 ++ [c])) (some (p, ks)) = some (p, ks ++ js) := by
    intro js
    induction js with
    | nil => intro ks; simp
    | cons j js ih => intro ks; simp [ih]
  rw [h]
  simp [Str.current, aux]

/-- **String reads are never torn.** In any interleaving from a zeroed slot, with
any allocations failing: no thread ever accesses memory outside a block; the
bytes a reader has read behind a pointer are a prefix of the terminated string
that the slot held at an instant `t` of the `msm_string_get` call that returned
the pointer, and once the NUL is among them they are that string; the slot's
value changes only to that of the writer's current call; and a call leaves it
at that value, or as it was when its allocation failed. -/
theorem string_reads_not_torn (h0 : Zeroed m₀ slot) (ρ : Run (writer slot) (reader slot) ι m₀) :
    (∀ t, ¬ (ρ.sys t).writer.Faults (ρ.state t) ∧
      ∀ i, ¬ ((ρ.sys t).reader i).Faults (ρ.state t)) ∧
    (∀ i t₀ t₁ t₂ log code p js, (reader slot).code log .get = some code →
      (ρ.sys t₀).reader i = ⟨log, some (.get, code)⟩ → t₀ ≤ t₁ →
      (ρ.sys t₁).reader i = ⟨log, some (.get, .ret (.ptr p))⟩ → t₁ ≤ t₂ →
      GotAndRead log ((ρ.sys t₂).reader i).log p js →
      ∃ t, t₀ ≤ t ∧ t ≤ t₁ ∧ 0 ∉ stringValue (ρ.state t) slot ∧
        js <+: stringValue (ρ.state t) slot ++ [0] ∧
        (0 ∈ js → js = stringValue (ρ.state t) slot ++ [0])) ∧
    (∀ t, stringValue (ρ.state (t + 1)) slot = stringValue (ρ.state t) slot ∨
      ∃ c p, (ρ.sys t).writer.cur = some (c, p) ∧
        stringValue (ρ.state (t + 1)) slot = c.value) ∧
    ∀ t₀ t₁ log c, (ρ.sys t₀).writer = ⟨log, some (c, c.code slot)⟩ → t₀ ≤ t₁ →
      (ρ.sys t₁).writer = ⟨log, some (c, .ret ())⟩ →
      stringValue (ρ.state t₁) slot =
        c.outcome (ρ.state t₀).mallocOk (stringValue (ρ.state t₀) slot) := by
  obtain ⟨γ, hI, hm, hval, hw⟩ := exists_ghost h0 ρ
  have hlog (i : ι) (t : Nat) := ρ.log_inv (I := LogOk γ) (fun p js hp => (nomatch hp))
    (fun log t u h htu => LogOk.mono hm h htu) (fun log c p t h hp => call_sampled hI hm h hp) i t
  refine ⟨fun t => ⟨hw t, fun i => (hlog i t).2⟩, ?_, ?_, ?_⟩
  · intro i t₀ t₁ t₂ log code p js hcode hstart h01 hret h12 hread
    have hget : code.Sampled ρ.state
        (fun v u => ∃ q w, v = .ptr q ∧ t₀ ≤ w ∧ w ≤ u ∧ Denotes (γ u) q (value (γ w))) t₀ := by
      cases hcode
      refine Prog.Sampled.bind ((get_sampled hI hm t₀).mono ?_)
      rintro q u _ ⟨w, h1, h2, hd⟩
      exact ⟨q, w, rfl, h1, h2, hd⟩
    rcases ρ.call_sampled hstart hget h01 with ⟨p', u, hp', _, hu, hs⟩ | hlt
    · rw [hret] at hp'
      cases hp'
      obtain ⟨q, w, hq, hw0, hwu, hd⟩ := hs
      cases hq
      obtain ⟨bs, hd', h0', hpre⟩ := (hlog i t₂).1 p js hread.current
      have hbs : bs = value (γ w) := hd'.unique (hd.mono hm (by omega))
      refine ⟨w, hw0, by omega, ?_⟩
      rw [(hI w).stringValue_eq, ← hbs]
      exact ⟨h0', hpre, fun h => prefix_terminated hpre h h0'⟩
    · rw [hret] at hlt
      exact absurd hlt (Nat.lt_irrefl _)
  · intro t
    rw [(hI t).stringValue_eq, (hI (t + 1)).stringValue_eq]
    exact hval t
  · intro t₀ t₁ log c hstart h01 hret
    rcases ρ.writer_call (reader_only slot) (fun a ha _ _ _ he => ha.state_eq he) hstart
      (code_safe (hI t₀) c) h01 with ⟨p', g', hp', hs⟩ | hlt
    · rw [hret] at hp'
      cases hp'
      rw [hs.1.stringValue_eq, (hI t₀).stringValue_eq]
      exact hs.2
    · rw [hret] at hlt
      exact absurd hlt (Nat.lt_irrefl _)

/-! A run: the writer sets `"a"`, a reader gets it and reads its two bytes. -/

def setThenRead (t : Nat) : Choice (writer ⟨0, 0⟩) (reader ⟨0, 0⟩) Unit :=
  if t < 8 then .writer (WCall.set ⟨[97], by decide⟩ (by decide))
  else if t < 12 then .reader () RCall.get
  else .reader () RCall.next

theorem string_reads_not_torn_of_run :
    ∃ t, 8 ≤ t ∧ t ≤ 11 ∧ [97, 0] =
      stringValue ((Run.ofSchedule zeroedSlot setThenRead).state t) ⟨0, 0⟩ ++ [0] := by
  have h := string_reads_not_torn zeroedSlot_zeroed (Run.ofSchedule zeroedSlot setThenRead)
  obtain ⟨t, h1, h2, _, _, h3⟩ := h.2.1 () 9 11 18 [] _ (.shared ⟨1, 8⟩) [97, 0] rfl rfl
    (by decide) rfl (by decide) rfl
  exact ⟨t, by omega, h2, h3 (by decide)⟩

end Msm.Str
