import Msm.Obj.Moves

/-! # The writer's steps in memory

Each move of `Msm.Obj.Moves` as the one store that commits it, and everything
else the writer does as work on bytes that no reader can reach. `T` is what a
step of a call guarantees: the fields are those the call began with, so only its
last step can change them, and does so by one store; the invariant is kept;
readers may rely on the step; unless the call overwrites a number in place, the
bytes within a reader's reach change by the stores that commit (`Commit`) only,
and nothing is freed; and of the memory there was before the call the step
changes only what the object owns (`Footprint`). -/
namespace Msm.Obj
open Msm.Exec Msm.CMem Msm.Api

variable {slot : Addr} {m : Mem} {g : State}

theorem Inv.of_repr {m' : Mem} (h : Inv slot m g) (hr : Repr layout slot m' g) : Inv slot m' g :=
  { h with repr := hr }

theorem Inv.keeps {m' : Mem} (h : Inv slot m g) (hk : m.Keeps m') : Inv slot m' g :=
  h.of_repr (h.repr.keeps hk)

/-- A zeroed slot is an object without fields. -/
theorem Inv.empty {m : Mem} (h : Zeroed m slot) : Inv slot m (Ghost.empty layout) where
  repr := h.repr
  cur_buf _ hb := by cases hb
  entry_val e he := by
    obtain ⟨b, cap, es, hb, _⟩ := he
    cases hb
  val_str _ _ hv := by cases hv
  distinct _ _ _ hb := by cases hb
  val_inj e e' he := by
    obtain ⟨b, cap, es, hb, _⟩ := he
    cases hb

/-- A finished value block or string that nothing points to yet. -/
theorem Inv.intro (h : Inv slot m g) {b : Nat} {n : Node} (hb : g.heap b = none)
    (hne : b ≠ slot.block) (hat : NodeAt m b n) (hn : ∀ cap es, n ≠ .buf cap es)
    (hs : ∀ s, n = .val (.string (some s)) → ∃ bs, g.heap s = some (.str bs)) :
    Inv slot m (g.set b n) where
  toShape := h.toShape.intro hb hn hs
  repr := h.repr.intro hne hat

theorem Inv.publish (h : Inv slot m g) {b cap : Nat} {es : List Entry} (hb : g.heap b = none)
    (hne : b ≠ slot.block) (hat : BufAt m b cap es) (hes : es.Sublist (entries g)) :
    Inv slot (m.write (slot + 8) (Kind.ptr.encode (some ⟨b, 0⟩))) (publish g b cap es) where
  toShape := h.toShape.publish hb hes
  repr := (h.repr.intro (n := .buf cap es) hne hat).point (some b)

theorem Inv.null (h : Inv slot m g) :
    Inv slot (m.write (slot + 8) (Kind.ptr.encode none)) (g.point none) where
  toShape := h.toShape.null
  repr := h.repr.point none

/-- The store of the count, over a buffer whose next entry has been prepared. -/
theorem BufAt.commit {b cap : Nat} {es : List Entry} {e : Entry} (h : BufAt m b cap es)
    (hlt : es.length < cap) (he : EntryAt m ⟨b, 8 + es.length * 24⟩ e) :
    BufAt (m.write ⟨b, 0⟩ (Kind.u32.encode (UInt32.ofNat (es.length + 1)))) b cap (es ++ [e]) := by
  refine ⟨by simpa using h.bytes, by simpa using Nat.succ_le_of_lt hlt, h.cap_lt, ?_, ?_, ?_⟩
  · rw [List.length_append, List.length_singleton]
    exact Mem.load_write_same (k := .u32) _ (h.valid (by simp [Kind.size]; omega))
  · exact (Mem.load_write_apart fun _ => by simp [Kind.size]).trans h.capacity
  · intro i e' hi
    have hat : EntryAt m ⟨b, 8 + i * 24⟩ e' := by
      by_cases hlen : i < es.length
      · rw [List.getElem?_append_left hlen] at hi
        exact h.entry i e' hi
      · rw [List.getElem?_append_right (by omega)] at hi
        have h0 : i - es.length = 0 := by
          have := (List.getElem?_eq_some_iff.mp hi).1
          simpa using this
        rw [h0] at hi
        cases hi
        rw [show i = es.length by omega]
        exact he
    exact hat.write fun _ => by simp [Kind.size]; omega

theorem Inv.append (h : Inv slot m g) {b cap : Nat} {e : Entry} (hc : g.cur = some b)
    (hb : g.heap b = some (.buf cap (entries g))) (hlt : (entries g).length < cap)
    (he : EntryAt m ⟨b, 8 + (entries g).length * 24⟩ e) {p : Payload}
    (hp : g.heap e.val = some (.val p)) (ht : p.type = e.type)
    (hnew : ∀ e', Published g e' → e'.val ≠ e.val) (hk : ∀ e' ∈ entries g, e'.hash ≠ e.hash) :
    Inv slot (m.write ⟨b, 0⟩ (Kind.u32.encode (UInt32.ofNat ((entries g).length + 1))))
      (append g b cap e) where
  toShape := h.toShape.append hc hb hp ht hnew hk
  repr := h.repr.update (a := ⟨b, 0⟩) hb ((h.buf_at hb).commit hlt he)

theorem Inv.setPayload (h : Inv slot m g) {e : Entry} {p p' : Payload} {o : Nat} {cs : List Cell}
    (hv : g.heap e.val = some (.val p)) (ht : p'.type = p.type)
    (hat : PayloadAt (m.write ⟨e.val, o⟩ cs) e.val p')
    (hs : ∀ s, p' = .string (some s) → ∃ bs, g.heap s = some (.str bs)) :
    Inv slot (m.write ⟨e.val, o⟩ cs) (setPayload g e p') where
  toShape := h.toShape.setPayload hv ht hs
  repr := h.repr.update (a := ⟨e.val, o⟩) hv hat

/-! ## What a step may change -/

/-- The block is the slot of a nested object. -/
def Node.IsSlot : Node → Prop
  | .val .object => True
  | _ => False

/-- The bytes a call on `slot` may change among those that are there: the
pointer of the slot, and the published blocks but for the slots of nested
objects, which belong to those. -/
def Owns (slot : Addr) (g : State) (b o : Nat) : Prop :=
  (b = slot.block ∧ slot.off + 8 ≤ o ∧ o < slot.off + 16) ∨
    ∃ n, g.heap b = some n ∧ ¬ n.IsSlot

/-- A step changes the bytes the object owns only, among those of published
blocks and of blocks below `top`. The blocks it publishes are from `top` on, those
of new fields among them; the slot of a nested object is zeroed when it is
published, and a new string belongs to one field. -/
structure Footprint (slot : Addr) (top : Nat) (g : State) (m m' : Mem) (g' : State) : Prop where
  size : ∀ b, b < top ∨ g.heap b ≠ none → m'.sizeOf b = m.sizeOf b
  cell : ∀ b o, b < top ∨ g.heap b ≠ none → ¬ Owns slot g b o → m'.cellAt b o = m.cellAt b o
  fresh : ∀ b n, g'.heap b = some n → g.heap b ≠ none ∨ top ≤ b
  zeroed : ∀ b, g'.heap b = some (.val .object) →
    g.heap b = some (.val .object) ∨ Zeroed m' ⟨b, 0⟩
  entry : ∀ e ∈ entries g', e ∈ entries g ∨ top ≤ e.val
  string : ∀ v s, g'.heap v = some (.val (.string (some s))) →
    g.heap v = some (.val (.string (some s))) ∨
      top ≤ s ∧ ∀ v', g'.heap v' = some (.val (.string (some s))) → v' = v

section footprint
variable {top : Nat} {m' : Mem} {g' : State}

theorem Footprint.refl (slot : Addr) (top : Nat) (g : State) (m : Mem) :
    Footprint slot top g m m g where
  size _ _ := rfl
  cell _ _ _ _ := rfl
  fresh _ _ hb := .inl fun hn => Option.some_ne_none _ (hb.symm.trans hn)
  zeroed _ := .inl
  entry _ := .inl
  string _ _ := .inl

/-- A write to bytes the object owns. -/
theorem Footprint.write {x : Addr} {cs : List Cell}
    (hx : ∀ o, x.off ≤ o → o < x.off + cs.length → Owns slot g x.block o)
    (hf : ∀ b n, g'.heap b = some n → g.heap b ≠ none ∨ top ≤ b)
    (hz : ∀ b, g'.heap b = some (.val .object) →
      g.heap b = some (.val .object) ∨ Zeroed (m.write x cs) ⟨b, 0⟩)
    (he : ∀ e ∈ entries g', e ∈ entries g ∨ top ≤ e.val)
    (hs : ∀ v s, g'.heap v = some (.val (.string (some s))) →
      g.heap v = some (.val (.string (some s))) ∨
        top ≤ s ∧ ∀ v', g'.heap v' = some (.val (.string (some s))) → v' = v) :
    Footprint slot top g m (m.write x cs) g' where
  size _ _ := m.sizeOf_write ..
  cell b o _ ho := by
    refine Mem.cellAt_write_of_not ?_
    rintro ⟨rfl, h1, h2⟩
    exact ho (hx o h1 h2)
  fresh := hf
  zeroed := hz
  entry := he
  string := hs

/-- The store of the slot's pointer. -/
theorem Owns.pointer {o : Nat} {p : Ptr} (h1 : (slot + 8).off ≤ o)
    (h2 : o < (slot + 8).off + (Kind.ptr.encode p).length) : Owns slot g (slot + 8).block o := by
  refine .inl ⟨rfl, h1, ?_⟩
  simp only [Kind.length_encode, Kind.size, Addr.add_off] at h2
  omega

/-- Publishing a new buffer. -/
theorem Footprint.publish {b cap : Nat} {es : List Entry} {p : Ptr} (hb : top ≤ b)
    (hes : es.Sublist (entries g)) :
    Footprint slot top g m (m.write (slot + 8) (Kind.ptr.encode p)) (publish g b cap es) := by
  refine .write (fun o => Owns.pointer) (fun c n hc => ?_) (fun c hc => ?_) (fun e he => ?_)
    fun v s hv => ?_
  · rcases Ghost.set_heap_cases hc with ⟨rfl, _⟩ | ⟨_, hc⟩
    · exact .inr hb
    · exact .inl fun hn => Option.some_ne_none _ (hc.symm.trans hn)
  · rcases Ghost.set_heap_cases hc with ⟨_, hn⟩ | ⟨_, hc⟩
    · cases hn
    · exact .inl hc
  · rw [entries_publish] at he
    exact .inl (hes.subset he)
  · rcases Ghost.set_heap_cases hv with ⟨_, hn⟩ | ⟨_, hv⟩
    · cases hn
    · exact .inl hv

theorem Footprint.null :
    Footprint slot top g m (m.write (slot + 8) (Kind.ptr.encode none)) (g.point none) := by
  refine .write (fun o => Owns.pointer) (fun c n hc => .inl fun hn => ?_) (fun c => .inl) ?_
    fun v s => .inl
  · exact Option.some_ne_none _ (hc.symm.trans hn)
  · exact fun e he => absurd he List.not_mem_nil

/-- Work on blocks from `top` on, when all that is published is below them. -/
theorem Footprint.of_fresh {N : Nat} {a : Act} {r : a.Res} (hN : ∀ b n, g.heap b = some n → b < N)
    (htop : top ≤ N) (hm : N ≤ m.next) (ha : a.Fresh N) (he : m.exec a = .ok (r, m')) :
    Footprint slot top g m m' g := by
  have hlt (b : Nat) (hb : b < top ∨ g.heap b ≠ none) : b < N := by
    rcases hb with hb | hb
    · omega
    · obtain ⟨n, hn⟩ := Option.ne_none_iff_exists'.mp hb
      exact hN b n hn
  have hk (b : Nat) (hb : b < N) : m'.block b = m.block b := ha.block_eq hm he hb
  refine ⟨fun b hb => ?_, fun b o hb _ => ?_, (Footprint.refl slot top g m).fresh, fun _ => .inl,
    fun _ => .inl, fun _ _ => .inl⟩
  · simp only [Mem.sizeOf, hk b (hlt b hb)]
  · simp only [Mem.cellAt, hk b (hlt b hb)]

end footprint

/-! ## What a step of a call guarantees -/

/-- The stores that commit: of the slot's pointer, of the count of the current
buffer and of the buffer pointer of a current string. Readers acquire them. -/
inductive Commit (slot : Addr) (g : State) : Act → Prop
  | pointer (p : Ptr) : Commit slot g (.store .release .ptr (some (slot + 8)) p)
  | count {b : Nat} (n : UInt32) : g.cur = some b →
      Commit slot g (.store .release .u32 (some ⟨b, 0⟩) n)
  | string {e : Entry} (p : Ptr) : e ∈ entries g → e.type = typeString →
      Commit slot g (.store .release .ptr (some ⟨e.val, 8⟩) p)

/-- What the action writes is out of every reader's reach, or it commits, or it
is an overwrite that is permitted. It frees nothing. -/
structure Disciplined (slot : Addr) (inPlace : Bool) (g : State) (a : Act) : Prop where
  write : ∀ x n, a.range = some (x, n) →
    g.Avoids slot x n ∨ Commit slot g a ∨ (a.IsPlain ∧ inPlace = true)
  keep : ∀ p, a ≠ .free p

def T (slot : Addr) (inPlace : Bool) (top : Nat) (M : Fields) (g : State) (m : Mem) (a : Act)
    (m' : Mem) (g' : State) : Prop :=
  fields g = M ∧ (Inv slot m g → Inv slot m' g' ∧ Rely g g' ∧ (fields g' = M ∨ a.IsStore) ∧
    Disciplined slot inPlace g a ∧ Footprint slot top g m m' g')

variable {inPlace : Bool} {top : Nat} {M : Fields}

theorem Commit.not_plain {a : Act} (h : Commit slot g a) : ¬ a.IsPlain := by
  cases h <;> nofun

theorem Disciplined.of_read {a : Act} (ha : a.IsRead) : Disciplined slot inPlace g a := by
  constructor
  · intro x n hx
    cases a with
    | load o k p => cases hx
    | copyOut p n => cases hx
    | _ => exact ha.elim
  · intro p hp
    rw [hp] at ha
    exact ha

/-- A store that commits or is a permitted overwrite. -/
theorem Disciplined.of_store {a : Act} (hs : a.IsStore)
    (ha : Commit slot g a ∨ (a.IsPlain ∧ inPlace = true)) : Disciplined slot inPlace g a :=
  ⟨fun _ _ _ => .inr ha, fun _ hp => by rw [hp] at hs; exact hs⟩

/-- Without overwrites, what is within reach changes by a commit only. -/
theorem Disciplined.commit {a : Act} (h : Disciplined slot false g a) {b o : Nat}
    (ha : a.Alters b o) (hr : g.reach b o) : Commit slot g a := by
  rcases ha with ⟨x, n, hx, rfl, h1, h2⟩ | ⟨x, hx, _⟩
  · rcases h.write x n hx with havoid | hcommit | ⟨_, ho⟩
    · exact absurd hr (havoid.1 o h1 h2)
    · exact hcommit
    · cases ho
  · exact absurd hx (h.keep _)

/-- A step that commits, by a store that is atomic or a permitted overwrite. -/
theorem T_commit {a : Act} {m' : Mem} {g' : State} (hM : fields g = M) (hI : Inv slot m' g')
    (hr : Rely g g') (hs : a.IsStore) (ha : Commit slot g a ∨ (a.IsPlain ∧ inPlace = true))
    (hf : Footprint slot top g m m' g') : T slot inPlace top M g m a m' g' :=
  ⟨hM, fun _ => ⟨hI, hr, .inr hs, .of_store hs ha, hf⟩⟩

theorem T_read {a : Act} (ha : a.IsRead) (hM : fields g = M) : T slot inPlace top M g m a m g :=
  ⟨hM, fun h => ⟨h, Rely.refl g, .inl hM, .of_read ha, .refl ..⟩⟩

/-- A write that meets no byte within a reader's reach, in a block of the object. -/
theorem T_avoid {a : Act} {m' : Mem} {r : a.Res} {x : Addr} {n : Nat} (hM : fields g = M)
    (hr : a.range = some (x, n)) (he : m.exec a = .ok (r, m')) (hx : g.Avoids slot x n)
    {nd : Node} (hn : g.heap x.block = some nd) (hs : ¬ nd.IsSlot) :
    T slot inPlace top M g m a m' g := by
  obtain ⟨cs, hcs, _, rfl⟩ := Mem.exec_write hr he
  refine ⟨hM, fun h => ⟨h.of_repr (h.repr.write (hcs ▸ hx)), Rely.refl g, .inl hM,
    ⟨fun y k hy => ?_, fun p hp => ?_⟩, ?_⟩⟩
  · rw [hr] at hy
    cases hy
    exact .inl hx
  · rw [hp] at hr
    cases hr
  · exact .write (fun o _ _ => .inr ⟨nd, hn, hs⟩) (Footprint.refl slot top g m).fresh
      (fun _ => .inl) (fun _ => .inl) fun _ _ => .inl

theorem Act.Fresh.range_ge {a : Act} {N : Nat} (h : a.Fresh N) {x : Addr} {n : Nat}
    (hr : a.range = some (x, n)) : N ≤ x.block := by
  cases a with
  | store o k p v => obtain ⟨y, rfl, hy⟩ := h; cases hr; exact hy
  | copyIn p cs => obtain ⟨y, rfl, hy⟩ := h; cases hr; exact hy
  | memcpy dst src k => obtain ⟨y, rfl, hy⟩ := h; cases hr; exact hy
  | zero p k => obtain ⟨y, rfl, hy⟩ := h; cases hr; exact hy
  | _ => cases hr

theorem T_fresh (h : Inv slot m g) (hM : fields g = M) (htop : top ≤ m.next) :
    FreshOk (T slot inPlace top M) g m.next := by
  intro m₁ a m₂ r hm ha he
  have hlt (b : Nat) (n : Node) (hb : g.heap b = some n) : b < m.next := h.repr.node_lt hb
  refine ⟨hM, fun h₁ => ⟨h₁.of_repr (h₁.repr.exec_fresh hlt h.repr.slot_lt ha he), Rely.refl g,
    .inl hM, ⟨fun x n hx => .inl ?_, fun p hp => ?_⟩, .of_fresh hlt htop hm ha he⟩⟩
  · exact Repr.avoids_of_fresh hlt h.repr.slot_lt (Act.Fresh.range_ge ha hx) n
  · rw [hp] at ha
    exact ha

/-- The unused part of the current buffer is out of reach. -/
theorem Inv.avoids_spare (h : Inv slot m g) {b cap : Nat} {es : List Entry}
    (hb : g.heap b = some (.buf cap es)) {d n : Nat} :
    g.Avoids slot ⟨b, 8 + es.length * 24 + d⟩ n := by
  constructor
  · rintro o h1 _ ⟨x, hx, ho⟩
    rw [hb] at hx
    cases hx
    have : o < 8 + es.length * 24 := ho
    simp only at h1
    omega
  · intro he
    have hs := h.repr.slot_apart
    rw [Addr.add_block] at he
    rw [← he, hb] at hs
    cases hs

end Msm.Obj
