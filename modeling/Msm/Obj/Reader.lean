import Msm.Obj.Clients
import Msm.Obj.Moves

/-! # What object readers see

A reader looks up an entry in a buffer that may be retired meanwhile, and then
reads a value block whose field may be removed meanwhile. Two instants are
enough to place its call: the last one at which the buffer was current
(`Trace.buf_live`), where the lookup is one of the object, and the last one
after it at which the entry was current (`Trace.val_live`), where the block holds
what the reader finds in it. -/
namespace Msm.Obj
open Msm.Exec Msm.CMem Msm.Api

/-- Memories and ghost states over time, as readers may rely on them. -/
structure Trace (slot : Addr) (μ : Nat → Mem) (γ : Nat → State) : Prop where
  inv : ∀ t, Inv slot (μ t) (γ t)
  rely : ∀ t, Rely (γ t) (γ (t + 1))

/-- A state that nobody changes. -/
theorem Inv.trace {slot : Addr} {m : Mem} {g : State} (h : Inv slot m g) :
    Trace slot (fun _ => m) fun _ => g := ⟨fun _ => h, fun _ => Rely.refl g⟩

namespace Trace
variable {slot : Addr} {μ : Nat → Mem} {γ : Nat → State} (h : Trace slot μ γ)
include h

/-! ## Blocks over time -/

theorem buf_le {t u : Nat} (htu : t ≤ u) {b cap : Nat} {es : List Entry}
    (hb : (γ t).heap b = some (.buf cap es)) :
    ∃ es', (γ u).heap b = some (.buf cap es') ∧ es <+: es' := by
  induction u, htu using Nat.le_induction with
  | base => exact ⟨es, hb, List.prefix_refl es⟩
  | succ u _ ih =>
    obtain ⟨es', hb', hp⟩ := ih
    obtain ⟨es'', hb'', hp', _⟩ := (h.rely u).buf b cap es' hb'
    exact ⟨es'', hb'', hp.trans hp'⟩

theorem val_le {t u : Nat} (htu : t ≤ u) {v : Nat} {p : Payload}
    (hv : (γ t).heap v = some (.val p)) :
    ∃ p', (γ u).heap v = some (.val p') ∧ p'.type = p.type := by
  induction u, htu using Nat.le_induction with
  | base => exact ⟨p, hv, rfl⟩
  | succ u _ ih =>
    obtain ⟨p', hv', ht⟩ := ih
    obtain ⟨p'', hv'', ht', _⟩ := (h.rely u).val v p' hv'
    exact ⟨p'', hv'', ht'.trans ht⟩

theorem str_le {t u : Nat} (htu : t ≤ u) {s : Nat} {bs : List UInt8}
    (hs : (γ t).heap s = some (.str bs)) : (γ u).heap s = some (.str bs) := by
  induction u, htu using Nat.le_induction with
  | base => exact hs
  | succ u _ ih => exact (h.rely u).str s bs ih

theorem published_le {t u : Nat} (htu : t ≤ u) {e : Entry} (he : Published (γ t) e) :
    Published (γ u) e := by
  obtain ⟨b, cap, es, hb, hm⟩ := he
  obtain ⟨es', hb', hp⟩ := h.buf_le htu hb
  exact ⟨b, cap, es', hb', hp.subset hm⟩

/-- What a buffer holds, it held at an instant since `t` at which it was current. -/
theorem buf_live {t u : Nat} (htu : t ≤ u) {b : Nat} (hc : (γ t).cur = some b) :
    ∃ w, t ≤ w ∧ w ≤ u ∧ (γ w).cur = some b ∧ (γ w).heap b = (γ u).heap b := by
  obtain ⟨cap, hb⟩ := (h.inv t).cur_heap hc
  refine last_live (L := fun w => (γ w).cur = some b) (c := fun w => (γ w).heap b)
    (fun w hw => ?_) hc htu
  obtain ⟨es, hes, _⟩ := h.buf_le hw hb
  obtain ⟨es', hes', _, hor⟩ := (h.rely w).buf b cap es hes
  rcases hor with he | hcur
  · exact .inl (by rw [hes, hes', he])
  · exact .inr hcur

/-- What a value block holds, it held at an instant since `t` at which its entry
was current. -/
theorem val_live {t u : Nat} (htu : t ≤ u) {e : Entry} (he : e ∈ entries (γ t)) :
    ∃ w, t ≤ w ∧ w ≤ u ∧ e ∈ entries (γ w) ∧ (γ w).heap e.val = (γ u).heap e.val := by
  have hpub := (h.inv t).published he
  obtain ⟨p, hp, _⟩ := (h.inv t).entry_val e hpub
  refine last_live (L := fun w => e ∈ entries (γ w)) (c := fun w => (γ w).heap e.val)
    (fun w hw => ?_) he htu
  obtain ⟨q, hq, _⟩ := h.val_le hw hp
  obtain ⟨q', hq', _, hor⟩ := (h.rely w).val e.val q hq
  rcases hor with hqq | ⟨e', he', hev⟩
  · exact .inl (by rw [hq, hq', hqq])
  · have hpub' : Published (γ (w + 1)) e := h.published_le (by omega) hpub
    have hee := (h.inv (w + 1)).val_inj e' e ((h.inv (w + 1)).published he') hpub' hev
    exact .inr (hee ▸ he')

/-! ## The lookup -/

omit h in
/-- `a` is the address of entry `e` in a published buffer. -/
def Held (g : State) (a : Addr) (e : Entry) : Prop :=
  ∃ b cap es i, g.heap b = some (.buf cap es) ∧ es[i]? = some e ∧ a = ⟨b, 8 + i * 24⟩

theorem held_at {t u : Nat} (htu : t ≤ u) {a : Addr} {e : Entry} (hh : Held (γ t) a e) :
    EntryAt (μ u) a e := by
  obtain ⟨b, cap, es, i, hb, hi, rfl⟩ := hh
  obtain ⟨es', hb', hp⟩ := h.buf_le htu hb
  obtain ⟨hlt, hv⟩ := List.getElem?_eq_some_iff.mp hi
  have hi' : es'[i]? = some e := hv ▸ List.prefix_iff_getElem?.mp hp i hlt
  exact ((h.inv u).buf_at hb').entry i e hi'

theorem scan_sampled {k : UInt64} {b cap : Nat} {es : List Entry} {t₀ t n : Nat} (i : Nat)
    (hb : (γ t₀).heap b = some (.buf cap es)) (ht : t₀ ≤ t) (hn : i + n ≤ es.length) :
    (scanEntries (some ⟨b, 8⟩) k n i).Sampled μ (fun r u => t ≤ u ∧ match r with
      | none => ∀ j, i ≤ j → j < i + n → ∀ e, es[j]? = some e → e.hash ≠ k
      | some j => ∃ e, es[j]? = some e ∧ e.hash = k) t := by
  induction n generalizing i t with
  | zero =>
    refine ⟨Nat.le_refl _, fun j h1 h2 => ?_⟩
    omega
  | succ n ih =>
    have hget : es[i]? = some es[i] := List.getElem?_eq_getElem (by omega)
    simp only [scanEntries, entryNameHash, loadU64_bind, Ptr.some_add, Addr.mk_add, entrySize]
    refine sampled_load fun u hu => ?_
    have hat := h.held_at (Nat.le_trans ht hu) ⟨b, cap, es, i, hb, hget, rfl⟩
    refine ⟨_, hat.hash, ?_⟩
    by_cases hk : es[i].hash = k
    · rw [if_pos hk]
      exact ⟨hu, es[i], hget, hk⟩
    · rw [if_neg hk]
      refine (ih (i + 1) (Nat.le_trans ht hu) (by omega)).mono fun r w _ hr => ?_
      refine ⟨Nat.le_trans hu hr.1, ?_⟩
      cases r with
      | none =>
        intro j h1 h2 e he
        by_cases hj : j = i
        · subst hj
          rw [hget] at he
          cases he
          exact hk
        · exact hr.2 j (by omega) (by omega) e he
      | some j => exact hr.2

omit h in
/-- The lookup of `k` that ended at `u` gave `p`: what it gives on the fields at
some instant since `t`. -/
def Found (γ : Nat → State) (k : UInt64) (t : Nat) (p : Ptr) (u : Nat) : Prop :=
  ∃ w, t ≤ w ∧ w ≤ u ∧ match p with
    | none => Keyed.find (fields (γ w)) k = none
    | some a => ∃ e, e ∈ entries (γ w) ∧ e.hash = k ∧ Held (γ w) a e

theorem find_sampled (k : UInt64) (t : Nat) :
    (objectFindEntryByHash (some slot) k).Sampled μ (Found γ k t) t := by
  simp only [objectFindEntryByHash, atomicLoadPtr, loadPtr_bind, Ptr.some_add]
  refine sampled_load fun s hs => ⟨_, (h.inv s).repr.slot_ptr, ?_⟩
  cases hc : (γ s).cur with
  | none =>
    refine ⟨s, hs, Nat.le_refl _, ?_⟩
    rw [find_none_iff, entries_none hc]
    exact fun e he => by cases he
  | some b =>
    simp only [basePtr_some, reduceCtorEq, if_false, objBufCount, atomicLoadU32, loadU32_bind]
    obtain ⟨cap, hb⟩ := (h.inv s).cur_heap hc
    refine sampled_load fun u hu => ?_
    obtain ⟨es, hes, -⟩ := h.buf_le hu hb
    have hat := (h.inv u).buf_at hes
    obtain ⟨w, hsw, hwu, hcw, hbw⟩ := h.buf_live hu hc
    have hent : entries (γ w) = es := entries_eq hcw (hbw.trans hes)
    refine ⟨_, hat.count, ?_⟩
    by_cases h0 : UInt32.ofNat es.length = 0
    · rw [if_pos h0]
      have hlen : es.length = 0 := by rw [← hat.count_toNat, h0]; rfl
      refine ⟨w, by omega, hwu, ?_⟩
      rw [find_none_iff, hent, List.length_eq_zero_iff.mp hlen]
      exact fun e he => by cases he
    · rw [if_neg h0, hat.count_toNat]
      simp only [objBufEntries, objBufHeader, Ptr.some_add, Addr.mk_add, Nat.zero_add]
      refine Prog.Sampled.bind ?_
      refine (h.scan_sampled 0 hes (Nat.le_refl u) (by omega)).mono fun r v _ hr => ?_
      cases r with
      | none =>
        refine ⟨w, by omega, by omega, ?_⟩
        rw [find_none_iff, hent]
        intro e he
        obtain ⟨i, hi⟩ := List.mem_iff_getElem?.mp he
        have := (List.getElem?_eq_some_iff.mp hi).1
        exact hr.2 i (Nat.zero_le _) (by omega) e hi
      | some i =>
        obtain ⟨e, he, hek⟩ := hr.2
        refine ⟨w, by omega, by omega, e, ?_, hek, b, cap, es, i, hbw.trans hes, he, rfl⟩
        rw [hent]
        exact List.mem_of_getElem? he

/-! ## The queries -/

/-- A query finds its entry, then reads from it. -/
theorem query_sampled {β : Type} (dflt : β) (read : Ptr → CProg β) {name : CStr}
    {Q : Option Field → β → Nat → Prop} (hnone : ∀ u, Q none dflt u)
    (hread : ∀ w s a e, w ≤ s → e ∈ entries (γ w) → Held (γ w) a e →
      (read (some a)).Sampled μ (fun r u => ∃ w', w ≤ w' ∧ w' ≤ u ∧ e ∈ entries (γ w') ∧
        Q (some ⟨e.val, valueAt (γ w') e.val⟩) r u) s) (t : Nat) :
    (objectQuery dflt read (some slot) (some name)).Sampled μ (fun r u => ∃ w, t ≤ w ∧ w ≤ u ∧
      Q (Keyed.find (fields (γ w)) (key16 name)) r u) t := by
  simp only [objectQuery, reduceCtorEq, if_false]
  refine Prog.Sampled.bind ((h.find_sampled (key16 name) t).mono fun p s _ hp => ?_)
  obtain ⟨w, htw, hws, hp⟩ := hp
  cases p with
  | none =>
    rw [if_pos rfl]
    exact ⟨w, htw, hws, by rw [hp]; exact hnone s⟩
  | some a =>
    obtain ⟨e, he, hek, hheld⟩ := hp
    rw [if_neg (by simp)]
    refine (hread w s a e hws he hheld).mono fun r u _ hr => ?_
    obtain ⟨w', hww', hwu, he', hq⟩ := hr
    refine ⟨w', by omega, hwu, ?_⟩
    rw [← hek, (h.inv w').find_of_mem he']
    exact hq

/-- A typed get reads the value block of an entry of its type. -/
theorem getField_sampled {β : Type} (type : UInt16) (dflt : β) {read : Ptr → CProg β} {name : CStr}
    {Q : Option Field → β → Nat → Prop} (hnone : ∀ u, Q none dflt u)
    (hother : ∀ f u, f.value.type ≠ type → Q (some f) dflt u)
    (hread : ∀ w s e, w ≤ s → e ∈ entries (γ w) → e.type = type →
      (read (some ⟨e.val, 0⟩)).Sampled μ (fun r u => ∃ w', w ≤ w' ∧ w' ≤ u ∧ e ∈ entries (γ w') ∧
        Q (some ⟨e.val, valueAt (γ w') e.val⟩) r u) s) (t : Nat) :
    (objectGetField type dflt read (some slot) (some name)).Sampled μ (fun r u => ∃ w, t ≤ w ∧
      w ≤ u ∧ Q (Keyed.find (fields (γ w)) (key16 name)) r u) t := by
  refine h.query_sampled dflt (fun e => do
    let t ← entryTypeId e
    if t ≠ type then pure dflt
    else
      let val ← entryValuePtr e
      read val) hnone (fun w s a e hws he hheld => ?_) t
  simp only [entryTypeId, loadU16_bind, Ptr.some_add, entryValuePtr, loadPtr_bind]
  refine sampled_load fun u hu => ⟨_, (h.held_at (by omega) hheld).type, ?_⟩
  by_cases ht : e.type = type
  · rw [if_neg (not_not.mpr ht)]
    refine sampled_load fun v hv => ⟨_, (h.held_at (by omega) hheld).val, ?_⟩
    exact hread w v e (by omega) he ht
  · rw [if_pos ht]
    refine ⟨w, Nat.le_refl w, by omega, he, hother _ _ ?_⟩
    rw [(h.inv w).value_type he]
    exact ht

/-- What a value block holds at `u`, the field held at an instant since `w`. -/
theorem payload_live {w u : Nat} (hwu : w ≤ u) {e : Entry} (he : e ∈ entries (γ w)) :
    ∃ w' p, w ≤ w' ∧ w' ≤ u ∧ e ∈ entries (γ w') ∧ p.type = e.type ∧
      (γ w').heap e.val = some (.val p) ∧ PayloadAt (μ u) e.val p := by
  obtain ⟨w', h1, h2, he', hsame⟩ := h.val_live hwu he
  obtain ⟨p, hp, ht⟩ := (h.inv w').entry_payload he'
  exact ⟨w', p, h1, h2, he', ht, hp, (h.inv u).payload_at (hsame.symm.trans hp)⟩

/-- A number is one load of its block. -/
theorem number_sampled {β : Type} {k : Kind} {off : Nat} {mk : k.Val → Scalar} (conv : k.Val → β)
    {type : UInt16} (hmk : ∀ p : Payload, p.type = type → ∃ b, p = .scalar (mk b))
    (hat : ∀ m v b, PayloadAt m v (.scalar (mk b)) → m.load k ⟨v, 0 + off⟩ = some b) {w s : Nat}
    {e : Entry} (hws : w ≤ s) (he : e ∈ entries (γ w)) (ht : e.type = type) :
    (Prog.act (M := cmachine) (.load .plain k (some ⟨e.val, 0 + off⟩)) fun v =>
      .ret (conv v)).Sampled μ (fun r u => ∃ w', w ≤ w' ∧ w' ≤ u ∧ e ∈ entries (γ w') ∧
        ∃ b, valueAt (γ w') e.val = .scalar (mk b) ∧ r = conv b) s := by
  refine sampled_load fun u hu => ?_
  obtain ⟨w', p, h1, h2, he', htp, hp, hpat⟩ := h.payload_live (Nat.le_trans hws hu) he
  obtain ⟨b, rfl⟩ := hmk p (htp.trans ht)
  exact ⟨b, hat _ _ _ hpat, w', h1, h2, he', b, by rw [valueAt, hp]; rfl, rfl⟩

/-- A string is read through the buffer its block points to. -/
theorem string_sampled {w s : Nat} {e : Entry} (hws : w ≤ s) (he : e ∈ entries (γ w))
    (ht : e.type = typeString) :
    (msmStringGet (some ⟨e.val, 0⟩)).Sampled μ (fun r u => ∃ w', w ≤ w' ∧ w' ≤ u ∧
      e ∈ entries (γ w') ∧ ∃ bs, valueAt (γ w') e.val = .string bs ∧
        ∀ v, u ≤ v → Points (μ v) r bs) s := by
  simp only [msmStringGet, reduceCtorEq, if_false, atomicLoadPtr, loadPtr_bind, Ptr.some_add,
    Addr.mk_add, Nat.zero_add]
  refine sampled_load fun u hu => ?_
  obtain ⟨w', p, h1, h2, he', htp, hp, hpat⟩ := h.payload_live (Nat.le_trans hws hu) he
  cases p with
  | scalar x => cases x <;> cases htp.trans ht
  | object => cases htp.trans ht
  | string buf =>
    refine ⟨_, hpat.2, ?_⟩
    cases buf with
    | none =>
      refine ⟨w', h1, h2, he', [], ?_, fun _ _ => rfl⟩
      simp only [valueAt, hp, Payload.value]
    | some b =>
      obtain ⟨bs, hbs⟩ := (h.inv w').val_str _ _ hp
      have hstr (v : Nat) (hv : w' ≤ v) : Str.StrAt (μ v) b (bs.map .byte) :=
        (h.inv v).str_at (h.str_le hv hbs)
      simp only [basePtr_some, strBufLen, atomicLoadU32, loadU32_bind]
      refine sampled_load fun v hv => ⟨_, (hstr v (by omega)).len, ?_⟩
      rw [if_neg (hstr v (by omega)).len_ne_zero]
      refine ⟨w', h1, by omega, he', bs, ?_, fun x hx => ?_⟩
      · simp only [valueAt, hp, Payload.value, hbs]
      · have hx' := hstr x (by omega)
        refine ⟨⟨_, hx'.size, ?_⟩, ?_⟩
        · simp [strBufHeader]
        · simpa [strBufHeader] using hx'.data

/-- `msm_object_field_count` gives the count of a buffer that was current. -/
theorem count_sampled (t : Nat) : (msmObjectFieldCount (some slot)).Sampled μ
    (fun n u => ∃ w, t ≤ w ∧ w ≤ u ∧ n = UInt32.ofNat (fields (γ w)).length) t := by
  simp only [msmObjectFieldCount, reduceCtorEq, if_false, atomicLoadPtr, loadPtr_bind,
    Ptr.some_add]
  refine sampled_load fun s hs => ⟨_, (h.inv s).repr.slot_ptr, ?_⟩
  cases hc : (γ s).cur with
  | none => exact ⟨s, hs, Nat.le_refl _, by rw [length_fields, entries_none hc]; rfl⟩
  | some b =>
    simp only [basePtr_some, reduceCtorEq, if_false, objBufCount, atomicLoadU32, loadU32]
    obtain ⟨cap, hb⟩ := (h.inv s).cur_heap hc
    refine sampled_load fun u hu => ?_
    obtain ⟨es, hes, -⟩ := h.buf_le hu hb
    obtain ⟨w, hsw, hwu, hcw, hbw⟩ := h.buf_live hu hc
    refine ⟨_, ((h.inv u).buf_at hes).count, w, by omega, hwu, ?_⟩
    rw [length_fields, entries_eq hcw (hbw.trans hes)]

omit h in
/-- The answer of a call that began at `t` and ended at `u`: the one on the
fields of some instant between, now and for ever. -/
def Answered (μ : Nat → Mem) (γ : Nat → State) (c : RCall) (t : Nat) (r : Answer CharPtr)
    (u : Nat) : Prop :=
  ∃ w, t ≤ w ∧ w ≤ u ∧ ∀ v, u ≤ v → r.Shows (μ v) (c.answer key16 (fields (γ w)))

/-- A typed get of a number. -/
theorem get_number_sampled {β : Type} {q : Query} {type : UInt16} {k : Kind} {dflt : β} (off : Nat)
    (mk : k.Val → Scalar) (conv : k.Val → β) (inj : ∀ S, β → Answer S)
    (hq : q.typed = some type) (hnone : q.answer none = inj _ dflt)
    (hval : ∀ v b, q.answer (some ⟨v, .scalar (mk b)⟩) = inj _ (conv b))
    (hshow : ∀ m r, (inj CharPtr r).Shows m (inj _ r)) (htype : ∀ b, (mk b).type = type)
    (hmk : ∀ s : Scalar, s.type = type → ∃ b, s = mk b)
    (hat : ∀ m v b, PayloadAt m v (.scalar (mk b)) → m.load k ⟨v, 0 + off⟩ = some b)
    (name : CStr) (t : Nat) :
    (objectGetField type dflt (fun val => Prog.act (M := cmachine) (.load .plain k (val + off))
      fun v => .ret (conv v)) (some slot) (some name) >>= fun r => .ret (inj _ r)).Sampled μ
        (Answered μ γ (.get q name) t) t := by
  refine Prog.Sampled.bind (h.getField_sampled type dflt
    (Q := fun f r u => ∀ v, u ≤ v → (inj CharPtr r).Shows (μ v) (q.answer f))
    (fun u v _ => ?_) (fun f u hf v _ => ?_) (fun w s e hws he ht => ?_) t)
  · rw [hnone]
    exact hshow _ _
  · rw [Query.answer_other hq hf, hnone]
    exact hshow _ _
  · have hp (p : Payload) (hp : p.type = type) : ∃ b, p = .scalar (mk b) := by
      obtain ⟨s, rfl, hs⟩ := Payload.eq_scalar (hp.trans (htype k.zero).symm)
      obtain ⟨b, rfl⟩ := hmk s (hs.trans (htype k.zero))
      exact ⟨b, rfl⟩
    refine (h.number_sampled conv hp hat hws he ht).mono fun r u _ hr => ?_
    obtain ⟨w', h1, h2, he', b, hb, rfl⟩ := hr
    refine ⟨w', h1, h2, he', fun v _ => ?_⟩
    rw [hb, hval]
    exact hshow _ _

/-- **Every call answers what the object says at some instant of the call.** -/
theorem call_sampled (c : RCall) (t : Nat) : (c.code slot).Sampled μ (Answered μ γ c t) t := by
  cases c with
  | count =>
    refine Prog.Sampled.bind ((h.count_sampled t).mono fun n u _ hn => ?_)
    obtain ⟨w, h1, h2, rfl⟩ := hn
    exact ⟨w, h1, h2, fun _ _ => rfl⟩
  | get q name =>
    cases q with
    | int32 =>
      exact h.get_number_sampled (k := .u32) 4 .int32 UInt32.toInt32 (fun _ => .int32) rfl rfl
        (fun _ _ => rfl) (fun _ _ => rfl) (fun _ => rfl) (fun _ => Scalar.eq_int32)
        (fun _ _ _ hp => hp.2) name t
    | int64 =>
      exact h.get_number_sampled (k := .u64) 8 .int64 UInt64.toInt64 (fun _ => .int64) rfl rfl
        (fun _ _ => rfl) (fun _ _ => rfl) (fun _ => rfl) (fun _ => Scalar.eq_int64)
        (fun _ _ _ hp => hp.2) name t
    | float64 =>
      exact h.get_number_sampled (k := .u64) 8 .float64 id (fun _ => .float64) rfl rfl
        (fun _ _ => rfl) (fun _ _ => rfl) (fun _ => rfl) (fun _ => Scalar.eq_float64)
        (fun _ _ _ hp => hp.2) name t
    | bool =>
      exact h.get_number_sampled (k := .u32) 4 .bool UInt32.toInt32 (fun _ => .bool) rfl rfl
        (fun _ _ => rfl) (fun _ _ => rfl) (fun _ => rfl) (fun _ => Scalar.eq_bool)
        (fun _ _ _ hp => hp.2) name t
    | string =>
      refine Prog.Sampled.bind (h.getField_sampled typeString (CharPtr.own [])
        (Q := fun f r u => ∀ v, u ≤ v → (Answer.string r).Shows (μ v) (Query.string.answer f))
        (fun _ _ _ => rfl) (fun f _ hf v _ => ?_) (fun w s e hws he ht => ?_) t)
      · rw [Query.answer_other (q := .string) rfl hf]
        rfl
      · refine (h.string_sampled hws he ht).mono fun r u _ hr => ?_
        obtain ⟨w', h1, h2, he', bs, hbs, hpts⟩ := hr
        refine ⟨w', h1, h2, he', ?_⟩
        rw [hbs]
        exact hpts
    | slot =>
      refine Prog.Sampled.bind (h.query_sampled none entryValuePtr
        (Q := fun f p u => ∀ v, u ≤ v → (Answer.slot p).Shows (μ v) (Query.slot.answer f))
        (fun _ _ _ => rfl) (fun w s a e hws he hheld => ?_) t)
      exact sampled_load fun u hu =>
        ⟨_, (h.held_at (by omega) hheld).val, w, Nat.le_refl w, by omega, he, fun _ _ => rfl⟩
    | has =>
      refine Prog.Sampled.bind (h.query_sampled 0 (fun _ => pure 1)
        (Q := fun f p u => ∀ v, u ≤ v → (Answer.has p).Shows (μ v) (Query.has.answer f))
        (fun _ _ _ => rfl) (fun w s a e hws he hheld => ?_) t)
      exact ⟨w, Nat.le_refl w, hws, he, fun _ _ => rfl⟩
    | type =>
      refine Prog.Sampled.bind (h.query_sampled 0 entryTypeId
        (Q := fun f p u => ∀ v, u ≤ v → (Answer.type p).Shows (μ v) (Query.type.answer f))
        (fun _ _ _ => rfl) (fun w s a e hws he hheld => ?_) t)
      refine sampled_load fun u hu =>
        ⟨_, (h.held_at (by omega) hheld).type, w, Nat.le_refl w, by omega, he, fun _ _ => ?_⟩
      exact ((h.inv w).value_type he).symm

end Trace
end Msm.Obj
