import Mathlib.Data.List.Infix
import Msm.Obj.View

/-! # The moves of an object slot

What one step of the writer can do to the blocks a reader may look at: publish a
buffer with some of the current entries, publish null, append one entry, replace
the payload of a current entry. Each keeps the shape, changes the fields as
said, and is one that readers can rely on (`Rely`). -/
namespace Msm.Obj
open Msm.CMem Msm.Api

/-- What a reader relies on from one instant to the next: blocks stay published,
entries are only appended, to the current buffer; a value block keeps its type
and changes only as the value of a current entry; a string never changes. -/
structure Rely (g g' : State) : Prop where
  buf : ∀ b cap es, g.heap b = some (.buf cap es) →
    ∃ es', g'.heap b = some (.buf cap es') ∧ es <+: es' ∧ (es' = es ∨ g'.cur = some b)
  val : ∀ v p, g.heap v = some (.val p) → ∃ p', g'.heap v = some (.val p') ∧ p'.type = p.type ∧
    (p' = p ∨ ∃ e ∈ entries g', e.val = v)
  str : ∀ s bs, g.heap s = some (.str bs) → g'.heap s = some (.str bs)

theorem Rely.of_kept {g g' : State} (h : ∀ b n, g.heap b = some n → g'.heap b = some n) :
    Rely g g' where
  buf _ _ es hb := ⟨es, h _ _ hb, List.prefix_refl es, .inl rfl⟩
  val _ p hv := ⟨p, h _ _ hv, rfl, .inl rfl⟩
  str _ _ hs := h _ _ hs

theorem Rely.refl (g : State) : Rely g g := .of_kept fun _ _ => id

theorem Rely.of_extends {g g₁ g' : State} (h : g.Extends g₁) (h' : Rely g₁ g') : Rely g g' where
  buf b cap es hb := h'.buf b cap es (h.2 _ _ hb)
  val v p hv := h'.val v p (h.2 _ _ hv)
  str s bs hs := h'.str s bs (h.2 _ _ hs)

theorem Payload.size_eq {p p' : Payload} (h : p.type = p'.type) : p.size = p'.size := by
  cases p with
  | scalar s =>
    cases p' with
    | scalar s' => exact congrArg UInt32.toNat (Scalar.eq_of_type h).2.2
    | string _ => cases s <;> cases h
    | object => cases s <;> cases h
  | string _ =>
    cases p' with
    | scalar s' => cases s' <;> cases h
    | string _ => rfl
    | object => rfl
  | object =>
    cases p' with
    | scalar s' => cases s' <;> cases h
    | string _ => rfl
    | object => rfl

/-- A byte within a reader's reach stays there. -/
theorem Rely.reach {g g' : State} (h : Rely g g') {b o : Nat} (hr : g.reach b o) :
    g'.reach b o := by
  obtain ⟨n, hn, ho⟩ := hr
  cases n with
  | buf cap es =>
    obtain ⟨es', hb, hpre, _⟩ := h.buf b cap es hn
    have := hpre.length_le
    exact ⟨_, hb, show o < 8 + es'.length * 24 from Nat.lt_of_lt_of_le ho (by omega)⟩
  | val p =>
    obtain ⟨p', hv, ht, _⟩ := h.val b p hn
    exact ⟨_, hv, show o < p'.size from Payload.size_eq ht ▸ ho⟩
  | str bs => exact ⟨_, h.str b bs hn, ho⟩

/-! ## Blocks added on the side -/

/-- Value blocks and strings of `g` are as they were in `g'`. -/
def KeepsVals (g g' : State) : Prop :=
  (∀ v p, g.heap v = some (.val p) → g'.heap v = some (.val p)) ∧
    ∀ s bs, g.heap s = some (.str bs) → g'.heap s = some (.str bs)

section moves
variable {g g' : State} {e : Entry}

theorem Payload.value_congr {p : Payload} (hs : ∀ s, p = .string (some s) →
    ∃ bs, g.heap s = some (.str bs) ∧ g'.heap s = some (.str bs)) : p.value g' = p.value g := by
  cases p with
  | scalar s => rfl
  | string buf =>
    cases buf with
    | none => rfl
    | some s =>
      obtain ⟨bs, h, h'⟩ := hs s rfl
      simp only [Payload.value, h, h']
  | object => rfl

theorem Shape.value_congr (h : Shape g) {v : Nat} {p : Payload} (hv : g.heap v = some (.val p))
    (hs : ∀ s bs, g.heap s = some (.str bs) → g'.heap s = some (.str bs)) :
    p.value g' = p.value g := by
  refine Payload.value_congr fun s hp => ?_
  subst hp
  obtain ⟨bs, hbs⟩ := h.val_str v s hv
  exact ⟨bs, hbs, hs s bs hbs⟩

theorem Shape.fieldOf_congr (h : Shape g) (hk : KeepsVals g g') (he : Published g e) :
    fieldOf g' e = fieldOf g e := by
  obtain ⟨p, hp, _⟩ := h.entry_val e he
  simp only [fieldOf, valueAt, hp, hk.1 _ _ hp, h.value_congr hp hk.2]

theorem Shape.map_fieldOf_congr (h : Shape g) (hk : KeepsVals g g') {es : List Entry}
    (hes : ∀ e ∈ es, e ∈ entries g) : es.map (fieldOf g') = es.map (fieldOf g) :=
  List.map_congr_left fun e he => h.fieldOf_congr hk (h.published (hes e he))

theorem Ghost.Extends.keepsVals (h : g.Extends g') : KeepsVals g g' :=
  ⟨fun v p => h.2 v (.val p), fun s bs => h.2 s (.str bs)⟩

theorem Shape.entries_extends (h : Shape g) (hx : g.Extends g') : entries g' = entries g := by
  cases hc : g.cur with
  | none => rw [entries_none hc, entries_none (hx.1.trans hc)]
  | some b =>
    obtain ⟨cap, hb⟩ := h.cur_heap hc
    exact entries_eq (hx.1.trans hc) (hx.2 _ _ hb)

/-- Blocks that nothing points to change no field. -/
theorem Shape.fields_extends (h : Shape g) (hx : g.Extends g') : fields g' = fields g := by
  rw [fields, h.entries_extends hx]
  exact h.map_fieldOf_congr (Ghost.Extends.keepsVals hx) fun _ => id

theorem published_set {b : Nat} {n : Node} (hn : ∀ cap es, n ≠ .buf cap es)
    (h : Published (g.set b n) e) : Published g e := by
  obtain ⟨c, cap, es, hc, he⟩ := h
  rcases Ghost.set_heap_cases hc with ⟨_, hx⟩ | ⟨_, hx⟩
  · exact absurd hx.symm (hn cap es)
  · exact ⟨c, cap, es, hx, he⟩

/-- A value block or a string that nothing points to yet. -/
theorem Shape.intro (h : Shape g) {b : Nat} {n : Node} (hb : g.heap b = none)
    (hn : ∀ cap es, n ≠ .buf cap es)
    (hs : ∀ s, n = .val (.string (some s)) → ∃ bs, g.heap s = some (.str bs)) :
    Shape (g.set b n) := by
  have hx := Ghost.extends_set n hb
  constructor
  · intro c hc
    obtain ⟨cap, es, he⟩ := h.cur_buf c hc
    exact ⟨cap, es, hx.2 _ _ he⟩
  · intro e he
    obtain ⟨p, hp, ht⟩ := h.entry_val e (published_set hn he)
    exact ⟨p, hx.2 _ _ hp, ht⟩
  · intro v s hv
    obtain ⟨bs, hbs⟩ : ∃ bs, g.heap s = some (.str bs) := by
      rcases Ghost.set_heap_cases hv with ⟨_, he⟩ | ⟨_, he⟩
      · exact hs s he.symm
      · exact h.val_str v s he
    exact ⟨bs, hx.2 _ _ hbs⟩
  · intro c cap es hc
    rcases Ghost.set_heap_cases hc with ⟨_, he⟩ | ⟨_, he⟩
    · exact absurd he.symm (hn cap es)
    · exact h.distinct c cap es he
  · exact fun e e' he he' => h.val_inj e e' (published_set hn he) (published_set hn he')

/-! ## Publishing a buffer, and null -/

/-- A new buffer with some of the current entries becomes current. -/
def publish (g : State) (b cap : Nat) (es : List Entry) : State :=
  (g.set b (.buf cap es)).point (some b)

section publish
variable {b cap : Nat} {es : List Entry}

theorem entries_publish : entries (publish g b cap es) = es :=
  entries_eq rfl (g.set_heap_self b _)

theorem rely_publish (hb : g.heap b = none) : Rely g (publish g b cap es) :=
  .of_kept (Ghost.extends_set _ hb).2

theorem keepsVals_publish (hb : g.heap b = none) : KeepsVals g (publish g b cap es) :=
  ⟨fun v _ => (Ghost.extends_set _ hb).2 v _, fun s _ => (Ghost.extends_set _ hb).2 s _⟩

theorem Shape.published_publish (h : Shape g) (hes : es.Sublist (entries g))
    (he : Published (publish g b cap es) e) : Published g e := by
  obtain ⟨c, cap', es', hc, hm⟩ := he
  rcases Ghost.set_heap_cases hc with ⟨_, hx⟩ | ⟨_, hx⟩
  · cases hx
    exact h.published (hes.subset hm)
  · exact ⟨c, cap', es', hx, hm⟩

theorem Shape.publish (h : Shape g) (hb : g.heap b = none) (hes : es.Sublist (entries g)) :
    Shape (publish g b cap es) := by
  have hk : KeepsVals g (Obj.publish g b cap es) := keepsVals_publish hb
  constructor
  · rintro c ⟨⟩
    exact ⟨cap, es, g.set_heap_self b _⟩
  · intro e he
    obtain ⟨p, hp, ht⟩ := h.entry_val e (h.published_publish hes he)
    exact ⟨p, hk.1 _ _ hp, ht⟩
  · intro v s hv
    rcases Ghost.set_heap_cases hv with ⟨_, hx⟩ | ⟨_, hx⟩
    · cases hx
    · obtain ⟨bs, hbs⟩ := h.val_str v s hx
      exact ⟨bs, hk.2 _ _ hbs⟩
  · intro c cap' es' hc
    rcases Ghost.set_heap_cases hc with ⟨_, hx⟩ | ⟨_, hx⟩
    · cases hx
      exact (hes.map Entry.hash).nodup h.entries_nodup
    · exact h.distinct c cap' es' hx
  · exact fun e e' he he' =>
      h.val_inj e e' (h.published_publish hes he) (h.published_publish hes he')

theorem Shape.fields_publish (h : Shape g) (hb : g.heap b = none) (hes : es.Sublist (entries g)) :
    fields (Obj.publish g b cap es) = es.map (fieldOf g) := by
  rw [fields, entries_publish]
  exact h.map_fieldOf_congr (keepsVals_publish hb) fun e he => hes.subset he

end publish

theorem Shape.null (h : Shape g) : Shape (g.point none) where
  cur_buf _ hb := by cases hb
  entry_val := h.entry_val
  val_str := h.val_str
  distinct := h.distinct
  val_inj := h.val_inj

theorem fields_null (g : State) : fields (g.point none) = [] := rfl

/-! ## Appending an entry -/

section append
variable {b cap : Nat}

/-- The count of the current buffer `b` is raised by one. -/
def append (g : State) (b cap : Nat) (e : Entry) : State := g.set b (.buf cap (entries g ++ [e]))

theorem entries_append (hc : g.cur = some b) : entries (append g b cap e) = entries g ++ [e] :=
  entries_eq hc (g.set_heap_self b _)

theorem keepsVals_append (hb : g.heap b = some (.buf cap (entries g))) :
    KeepsVals g (append g b cap e) := by
  refine ⟨fun v p hv => ?_, fun s bs hs => ?_⟩
  · refine (g.set_heap_of_ne _ fun he => ?_).trans hv
    rw [he, hb] at hv
    cases hv
  · refine (g.set_heap_of_ne _ fun he => ?_).trans hs
    rw [he, hb] at hs
    cases hs

theorem rely_append (hc : g.cur = some b) (hb : g.heap b = some (.buf cap (entries g))) :
    Rely g (append g b cap e) where
  buf c cap' es hx := by
    by_cases he : c = b
    · subst he
      rw [hb] at hx
      cases hx
      exact ⟨_, g.set_heap_self c _, List.prefix_append _ _, .inr hc⟩
    · exact ⟨es, (g.set_heap_of_ne _ he).trans hx, List.prefix_refl es, .inl rfl⟩
  val v p hv := ⟨p, (keepsVals_append hb).1 v p hv, rfl, .inl rfl⟩
  str s bs hs := (keepsVals_append hb).2 s bs hs

theorem published_append (hb : g.heap b = some (.buf cap (entries g))) {e' : Entry}
    (h : Published (append g b cap e) e') : Published g e' ∨ e' = e := by
  obtain ⟨c, cap', es, hc, hm⟩ := h
  rcases Ghost.set_heap_cases hc with ⟨rfl, hx⟩ | ⟨_, hx⟩
  · cases hx
    rcases List.mem_append.mp hm with hm | hm
    · exact .inl ⟨c, _, _, hb, hm⟩
    · exact .inr (List.mem_singleton.mp hm)
  · exact .inl ⟨c, cap', es, hx, hm⟩

theorem Shape.append (h : Shape g) (hc : g.cur = some b)
    (hb : g.heap b = some (.buf cap (entries g))) {p : Payload}
    (hp : g.heap e.val = some (.val p)) (ht : p.type = e.type)
    (hnew : ∀ e', Published g e' → e'.val ≠ e.val) (hk : ∀ e' ∈ entries g, e'.hash ≠ e.hash) :
    Shape (append g b cap e) := by
  have hkeep := keepsVals_append (e := e) hb
  constructor
  · intro c hcur
    rw [show c = b from Option.some.inj (hcur.symm.trans hc)]
    exact ⟨cap, _, g.set_heap_self b _⟩
  · intro e' he'
    rcases published_append hb he' with h' | rfl
    · obtain ⟨p', hp', ht'⟩ := h.entry_val e' h'
      exact ⟨p', hkeep.1 _ _ hp', ht'⟩
    · exact ⟨p, hkeep.1 _ _ hp, ht⟩
  · intro v s hv
    rcases Ghost.set_heap_cases hv with ⟨_, hx⟩ | ⟨_, hx⟩
    · cases hx
    · obtain ⟨bs, hbs⟩ := h.val_str v s hx
      exact ⟨bs, hkeep.2 _ _ hbs⟩
  · intro c cap' es hx
    rcases Ghost.set_heap_cases hx with ⟨_, hx⟩ | ⟨_, hx⟩
    · cases hx
      rw [List.map_append, List.nodup_append]
      refine ⟨h.entries_nodup, List.nodup_singleton _, fun x hx y hy => ?_⟩
      obtain ⟨e', he', rfl⟩ := List.mem_map.mp hx
      rw [List.mem_singleton.mp hy]
      exact hk e' he'
    · exact h.distinct c cap' es hx
  · intro e₁ e₂ h₁ h₂ hv
    rcases published_append hb h₁ with hp₁ | he₁
    · rcases published_append hb h₂ with hp₂ | he₂
      · exact h.val_inj e₁ e₂ hp₁ hp₂ hv
      · exact absurd (he₂ ▸ hv) (hnew e₁ hp₁)
    · rcases published_append hb h₂ with hp₂ | he₂
      · exact absurd (he₁ ▸ hv).symm (hnew e₂ hp₂)
      · rw [he₁, he₂]

theorem Shape.fields_append (h : Shape g) (hc : g.cur = some b)
    (hb : g.heap b = some (.buf cap (entries g))) {p : Payload}
    (hp : g.heap e.val = some (.val p))
    (hs : ∀ s, p = .string (some s) → ∃ bs, g.heap s = some (.str bs)) :
    fields (Obj.append g b cap e) = fields g ++ [(e.hash, ⟨e.val, p.value g⟩)] := by
  have hkeep := keepsVals_append (e := e) hb
  have hval : p.value (Obj.append g b cap e) = p.value g := by
    refine Payload.value_congr fun s he => ?_
    obtain ⟨bs, hbs⟩ := hs s he
    exact ⟨bs, hbs, hkeep.2 _ _ hbs⟩
  rw [fields, entries_append hc, List.map_append, h.map_fieldOf_congr hkeep fun _ => id]
  simp only [List.map_cons, List.map_nil, fieldOf, valueAt, hkeep.1 _ _ hp, hval]
  rfl

end append

/-! ## Replacing the payload of a current entry -/

section payload
variable {p p' : Payload}

def setPayload (g : State) (e : Entry) (p : Payload) : State := g.set e.val (.val p)

theorem setPayload_buf (hv : g.heap e.val = some (.val p)) {b cap : Nat} {es : List Entry} :
    (setPayload g e p').heap b = some (.buf cap es) ↔ g.heap b = some (.buf cap es) := by
  constructor
  · intro h
    rcases Ghost.set_heap_cases h with ⟨_, hx⟩ | ⟨_, hx⟩
    · cases hx
    · exact hx
  · intro h
    refine (g.set_heap_of_ne _ fun he => ?_).trans h
    rw [he, hv] at h
    cases h

theorem published_setPayload (hv : g.heap e.val = some (.val p)) {e' : Entry} :
    Published (setPayload g e p') e' ↔ Published g e' := by
  simp only [Published, setPayload_buf hv]

theorem setPayload_str (hv : g.heap e.val = some (.val p)) {s : Nat} {bs : List UInt8}
    (h : g.heap s = some (.str bs)) : (setPayload g e p').heap s = some (.str bs) := by
  refine (g.set_heap_of_ne _ fun he => ?_).trans h
  rw [he, hv] at h
  cases h

theorem Shape.entries_setPayload (h : Shape g) (hv : g.heap e.val = some (.val p)) :
    entries (setPayload g e p') = entries g := by
  cases hc : g.cur with
  | none => rw [entries_none hc, entries_none (g := setPayload g e p') hc]
  | some b =>
    obtain ⟨cap, hb⟩ := h.cur_heap hc
    exact entries_eq hc ((setPayload_buf hv).mpr hb)

theorem Shape.rely_setPayload (h : Shape g) (he : e ∈ entries g)
    (hv : g.heap e.val = some (.val p)) (ht : p'.type = p.type) : Rely g (setPayload g e p') where
  buf b cap es hb := ⟨es, (setPayload_buf hv).mpr hb, List.prefix_refl es, .inl rfl⟩
  val v q hq := by
    by_cases hev : v = e.val
    · subst hev
      rw [hv] at hq
      cases hq
      refine ⟨p', g.set_heap_self _ _, ht, .inr ⟨e, ?_, rfl⟩⟩
      rw [h.entries_setPayload hv]
      exact he
    · exact ⟨q, (g.set_heap_of_ne _ hev).trans hq, rfl, .inl rfl⟩
  str _ _ hs := setPayload_str hv hs

theorem Shape.setPayload (h : Shape g) (hv : g.heap e.val = some (.val p)) (ht : p'.type = p.type)
    (hs : ∀ s, p' = .string (some s) → ∃ bs, g.heap s = some (.str bs)) :
    Shape (setPayload g e p') := by
  constructor
  · intro b hb
    obtain ⟨cap, es, hes⟩ := h.cur_buf b hb
    exact ⟨cap, es, (setPayload_buf hv).mpr hes⟩
  · intro e' he'
    obtain ⟨q, hq, hqt⟩ := h.entry_val e' ((published_setPayload hv).mp he')
    by_cases hev : e'.val = e.val
    · rw [hev, hv] at hq
      cases hq
      exact ⟨p', by rw [hev]; exact g.set_heap_self _ _, ht.trans hqt⟩
    · exact ⟨q, (g.set_heap_of_ne _ hev).trans hq, hqt⟩
  · intro v s hvs
    obtain ⟨bs, hbs⟩ : ∃ bs, g.heap s = some (.str bs) := by
      rcases Ghost.set_heap_cases hvs with ⟨_, hx⟩ | ⟨_, hx⟩
      · cases hx
        exact hs s rfl
      · exact h.val_str v s hx
    exact ⟨bs, setPayload_str hv hbs⟩
  · exact fun b cap es hb => h.distinct b cap es ((setPayload_buf hv).mp hb)
  · exact fun e₁ e₂ h₁ h₂ => h.val_inj e₁ e₂ ((published_setPayload hv).mp h₁)
      ((published_setPayload hv).mp h₂)

theorem Shape.fields_setPayload (h : Shape g) (he : e ∈ entries g)
    (hv : g.heap e.val = some (.val p))
    (hs : ∀ s, p' = .string (some s) → ∃ bs, g.heap s = some (.str bs)) :
    fields (Obj.setPayload g e p') = Keyed.set (fields g) e.hash ⟨e.val, p'.value g⟩ := by
  have hkey : e.hash ∈ Keyed.keys (fields g) := by
    rw [keys_fields]
    exact List.mem_map_of_mem he
  rw [Keyed.set_of_mem hkey, fields, h.entries_setPayload hv, fields, List.map_map]
  refine List.map_congr_left fun e' he' => ?_
  by_cases hh : e'.hash = e.hash
  · have hee : e' = e := List.inj_on_of_nodup_map h.entries_nodup he' he hh
    have hval : p'.value (Obj.setPayload g e p') = p'.value g := by
      refine Payload.value_congr fun s hp => ?_
      obtain ⟨bs, hbs⟩ := hs s hp
      exact ⟨bs, hbs, setPayload_str hv hbs⟩
    have hself : (Obj.setPayload g e p').heap e.val = some (.val p') := g.set_heap_self _ _
    rw [hee]
    simp [fieldOf, valueAt, hself, hval]
  · have hne : e'.val ≠ e.val := fun hv' =>
      hh (congrArg Entry.hash (h.val_inj e' e (h.published he') (h.published he) hv'))
    obtain ⟨q, hq, _⟩ := h.entry_payload he'
    have hq' : (Obj.setPayload g e p').heap e'.val = some (.val q) :=
      (g.set_heap_of_ne _ hne).trans hq
    have hval : q.value (Obj.setPayload g e p') = q.value g :=
      h.value_congr hq fun _ _ => setPayload_str hv
    simp [fieldOf, valueAt, hq, hq', hh, hval]

end payload
end moves
end Msm.Obj
