import Msm.CMem.NewBuffer
import Msm.Obj.Reader
import Msm.Obj.Values

/-! # The steps of the object writer

A set looks its field up, and then either writes into the block of the field or
adds an entry: room for it (`objectAddEntry_safe`), the entry and its block out
of every reader's reach, and the store of the count. `setOutcome` says what a set
comes to for every outcome of the allocations it makes, the faults the source
runs into included. -/
namespace Msm.Obj
open Msm.Exec Msm.CMem Msm.Api

/-- No room for another entry: the buffer is null or full. -/
def Full (m : Mem) (slot : Addr) : Prop := objectCap m slot ≤ objectCount m slot

instance (m : Mem) (slot : Addr) : Decidable (Full m slot) :=
  inferInstanceAs (Decidable (_ ≤ _))

section grow
variable {slot : Addr} {inPlace : Bool} {top : Nat} {M : Fields} {F : Fault → Mem → State → Prop}
  {Q : Ptr → Mem → State → Prop} {m : Mem} {g : State}

/-- The entries copied into a new buffer. -/
theorem bufAt_copied {m m₃ : Mem} {b nb cap C : Nat} {es : List Entry} (hold : BufAt m b cap es)
    (hk : m.Keeps m₃) (hb : b < m.next) (hsz : m₃.sizeOf nb = some (8 + C * 24))
    (hle : es.length ≤ C) (hC : C < 2 ^ 32)
    (hcount : m₃.load .u32 ⟨nb, 0⟩ = some (UInt32.ofNat es.length))
    (hcap : m₃.load .u32 ⟨nb, 4⟩ = some (UInt32.ofNat C)) :
    BufAt (m₃.write ⟨nb, 8⟩ (m₃.read ⟨b, 8⟩ (es.length * 24))) nb C es := by
  have hdst : m₃.Valid ⟨nb, 8⟩ (es.length * 24) := ⟨_, hsz, by simp only; omega⟩
  have hsrc : m₃.Valid ⟨b, 8⟩ (es.length * 24) :=
    hk.valid (hold.valid (by have := hold.len_le; omega))
  refine ⟨(m₃.sizeOf_write ..).trans hsz, hle, hC, ?_, ?_, fun i e he => ?_⟩
  · exact (Mem.load_write_apart fun _ => by simp [Kind.size]).trans hcount
  · exact (Mem.load_write_apart fun _ => by simp [Kind.size]).trans hcap
  · have hlt := (List.getElem?_eq_some_iff.mp he).1
    have hat : EntryAt m₃ ((⟨b, 8⟩ : Addr) + i * 24) e :=
      (hold.entry i e he).congr (hk.sizeOf_eq hb) fun o _ _ => hk.cellAt_eq hb o
    exact hat.copy hdst hsrc (by omega)

theorem objectGrow_safe (h : Inv slot m g) (hM : fields g = M) (htop : top ≤ m.next) {C : Nat}
    (hC : C < 2 ^ 32)
    (hfail : m.mallocOk = false → Q none m.tick g)
    (hwrap : m.mallocOk = true → C < (entries g).length → ∀ m', F .outOfBounds m' g)
    (hQ : ∀ m', Inv slot m' (publish g m.next C (entries g)) → m.next ≤ m'.next →
      m'.script = m.script.tail → m.mallocOk = true → (entries g).length ≤ C →
      Q (some ⟨m.next, 8 + (entries g).length * 24⟩) m' (publish g m.next C (entries g))) :
    (objectGrow (some slot) (basePtr g.cur) (UInt32.ofNat (entries g).length)
      (UInt32.ofNat C)).Safe (T slot inPlace top M) F Q m g := by
  have hCn : (UInt32.ofNat C).toNat = C := by
    simp only [UInt32.toNat_ofNat']
    omega
  have hlen : (entries g).length < 2 ^ 32 := by
    cases hc : g.cur with
    | none => rw [entries_none hc]; decide
    | some b =>
      obtain ⟨cap, hb⟩ := h.cur_heap hc
      exact (h.buf_at hb).len_lt
  have hn : (UInt32.ofNat (entries g).length).toNat = (entries g).length := by
    simp only [UInt32.toNat_ofNat']
    omega
  have hT : FreshOk (T slot inPlace top M) g m.next := T_fresh h hM htop
  have hne : m.next ≠ slot.block := by have := h.repr.slot_lt; omega
  simp only [objectGrow, malloc_bind, memset0_bind, objBufSetCount, objBufSetCapacity,
    atomicStoreU32, store_bind, objBufHeader, entrySize, hCn, hn, objBufEntries, memcpy_bind]
  cases hm : m.mallocOk with
  | false =>
    refine hT.act (Mem.exec_malloc_fail hm) (Nat.le_refl _) trivial ?_
    simpa using hfail hm
  | true =>
    refine hT.act (Mem.exec_malloc_ok hm) (Nat.le_refl _) trivial ?_
    have h8 : 8 ≤ 8 + C * 24 := Nat.le_add_right 8 _
    simp only [reduceCtorEq, if_false, Ptr.some_add, Addr.mk_add, Nat.zero_add]
    refine newBuffer_safe hT h8 fun m₃ hnew => ?_
    obtain ⟨hk3, hscript, hs3, hcount, hcap⟩ := hnew
    -- the last step publishes the buffer
    have hpub (m' : Mem) (hk : m.Keeps m') (hsc : m'.script = m.script.tail)
        (hle : (entries g).length ≤ C) (hat : BufAt m' m.next C (entries g)) :
        (atomicStorePtr (some (slot + 8)) (some ⟨m.next, 0⟩) .release >>= fun _ =>
          pure (some ⟨m.next, 8 + (entries g).length * 24⟩)).Safe (T slot inPlace top M) F Q m' g := by
      have hI := (h.keeps hk).publish (h.repr.fresh (Nat.le_refl _)) hne hat (List.Sublist.refl _)
      refine Prog.safe_act _ (Mem.exec_store ((h.keeps hk).repr.slot_valid.mono
        (by simp [Kind.size]))) ?_ (hQ _ hI (by simpa using hk.next_le) hsc hm hle)
      refine T_commit hM hI (rely_publish (h.repr.fresh (Nat.le_refl _))) trivial ?_ ?_
      · exact .inl (.pointer _)
      · exact .publish htop (List.Sublist.refl _)
    cases hc : g.cur with
    | none =>
      have hnil := entries_none hc
      simp only [basePtr_none, ne_eq, not_true_eq_false, false_and, if_false]
      refine hpub m₃ hk3 hscript (by rw [hnil]; exact Nat.zero_le _) ?_
      rw [hnil] at hcount ⊢
      exact ⟨hs3, Nat.zero_le _, hC, hcount, hcap, fun i e he => by cases he⟩
    | some b =>
      obtain ⟨cap, hb⟩ := h.cur_heap hc
      have hold := h.buf_at hb
      have hbn : b < m.next := h.repr.node_lt hb
      by_cases hpos : 0 < (entries g).length
      · have hgt : (0 : UInt32) < UInt32.ofNat (entries g).length := by
          rw [UInt32.lt_iff_toNat_lt, hn]
          exact hpos
        simp only [basePtr_some, ne_eq, reduceCtorEq, not_false_eq_true, hgt, and_self, if_true,
          Ptr.some_add, Addr.mk_add]
        by_cases hle : (entries g).length ≤ C
        · have hdst : m₃.Valid ⟨m.next, 8⟩ ((entries g).length * 24) :=
            ⟨_, hs3, by simp only; omega⟩
          have hsrc : m₃.Valid ⟨b, 8⟩ ((entries g).length * 24) :=
            hk3.valid (hold.valid (by have := hold.len_le; omega))
          refine hT.act (Mem.exec_memcpy hdst hsrc) hk3.next_le ⟨_, rfl, Nat.le_refl _⟩ ?_
          refine hpub _ (hk3.write (Nat.le_refl _)) hscript hle ?_
          exact bufAt_copied hold hk3 hbn hs3 hle hC hcount hcap
        · refine Prog.safe_fault (Mem.exec_memcpy_invalid ?_) (hwrap hm (by omega) _)
          rintro ⟨sz, hsz, hle'⟩
          have hsz' : some (8 + C * 24) = some sz := hs3.symm.trans hsz
          cases hsz'
          simp only at hle'
          omega
      · have hnil : entries g = [] := List.length_eq_zero_iff.mp (by omega)
        have hng : ¬ (0 : UInt32) < UInt32.ofNat (entries g).length := by
          rw [hnil]
          decide
        simp only [basePtr_some, ne_eq, reduceCtorEq, not_false_eq_true, hng, and_false, if_false]
        refine hpub m₃ hk3 hscript (by rw [hnil]; exact Nat.zero_le _) ?_
        rw [hnil] at hcount ⊢
        exact ⟨hs3, Nat.zero_le _, hC, hcount, hcap, fun i e he => by cases he⟩

/-- The writer's own load of the buffer pointer. -/
theorem loadBuf_safe {α : Type} {Q : α → Mem → State → Prop} (h : Inv slot m g)
    (hM : fields g = M) {o : Order} {k : Ptr → CProg α}
    (hk : (k (basePtr g.cur)).Safe (T slot inPlace top M) F Q m g) :
    (atomicLoadPtr (some slot + 8) o >>= k).Safe (T slot inPlace top M) F Q m g :=
  Prog.safe_act g (Mem.exec_load h.repr.slot_ptr) (T_read trivial hM) hk

theorem objectAddEntry_safe (h : Inv slot m g) (hM : fields g = M) (htop : top ≤ m.next)
    (hfail : Full m slot → m.mallocOk = false → Q none m.tick g)
    (hwrap : Full m slot → m.mallocOk = true → 2 ^ 31 ≤ objectCap m slot →
      ∀ m', F .outOfBounds m' g)
    (hroom : ∀ m' g' b cap, Inv slot m' g' → m.next ≤ m'.next → fields g' = M →
      entries g' = entries g → g'.cur = some b → g'.heap b = some (.buf cap (entries g')) →
      (entries g').length < cap →
      m'.script = m.script.drop (if Full m slot then 1 else 0) →
      (Full m slot → m.mallocOk = true ∧ objectCap m slot < 2 ^ 31) →
      Q (some ⟨b, 8 + (entries g').length * 24⟩) m' g') :
    (objectAddEntry (some slot)).Safe (T slot inPlace top M) F Q m g := by
  -- growing to `C`, the doubled capacity modulo 2^32
  have hgrow {C : Nat} (hfull : Full m slot) (hC : C < 2 ^ 32)
      (hbig : C < (entries g).length → 2 ^ 31 ≤ objectCap m slot)
      (hlt : (entries g).length ≤ C → (entries g).length < C ∧ objectCap m slot < 2 ^ 31) :
      (objectGrow (some slot) (basePtr g.cur) (UInt32.ofNat (entries g).length)
        (UInt32.ofNat C)).Safe (T slot inPlace top M) F Q m g := by
    have hfresh := h.repr.fresh (Nat.le_refl m.next)
    refine objectGrow_safe h hM htop hC (hfail hfull)
      (fun hm hlt => hwrap hfull hm (hbig hlt)) ?_
    intro m' hI hnext hsc hm hle
    have hent : entries (publish g m.next C (entries g)) = entries g := entries_publish
    have hq := hroom m' _ m.next C hI hnext ?_ hent rfl ?_ ?_ ?_ fun _ => ⟨hm, (hlt hle).2⟩
    · rw [hent] at hq
      exact hq
    · rw [h.fields_publish hfresh (List.Sublist.refl _)]
      exact hM
    · rw [hent]
      exact g.set_heap_self _ _
    · rw [hent]
      exact (hlt hle).1
    · rw [if_pos hfull, hsc, List.drop_one]
  refine loadBuf_safe h hM ?_
  cases hc : g.cur with
  | none =>
    have hnil := entries_none hc
    have hfull : Full m slot := by
      rw [Full, h.objectCap_none hc]
      exact Nat.zero_le _
    have := hgrow (C := 4) hfull (by decide) (by rw [hnil]; simp)
      (by rw [hnil, h.objectCap_none hc]; simp)
    rw [hc, hnil] at this
    exact this
  | some b =>
    obtain ⟨cap, hb⟩ := h.cur_heap hc
    have hat := h.buf_at hb
    have hcap := h.objectCap_eq hc hb
    have hcount := h.objectCount_eq
    have hfull_iff : UInt32.ofNat cap ≤ UInt32.ofNat (entries g).length ↔ Full m slot := by
      rw [UInt32.le_iff_toNat_le, hat.cap_toNat, hat.count_toNat, Full, hcap, hcount]
    simp only [basePtr_some, reduceCtorEq, if_false, objBufCount, objBufCapacity, atomicLoadU32,
      loadU32_bind, Ptr.some_add, Addr.mk_add, Nat.zero_add, false_or]
    refine Prog.safe_act g (Mem.exec_load hat.count) (T_read trivial hM) ?_
    refine Prog.safe_act g (Mem.exec_load hat.capacity) (T_read trivial hM) ?_
    by_cases hfull : Full m slot
    · have hle : cap ≤ (entries g).length := by
        rw [Full, hcap, hcount] at hfull
        exact hfull
      have heq : cap = (entries g).length := Nat.le_antisymm hle hat.len_le
      rw [if_pos (hfull_iff.mpr hfull)]
      by_cases h0 : cap = 0
      · have := hgrow (C := 4) hfull (by decide) (by omega) (by omega)
        rw [hc] at this
        rw [h0]
        exact this
      · have hne : UInt32.ofNat cap ≠ 0 := by
          intro hz
          rw [← hat.cap_toNat, hz] at h0
          exact h0 rfl
        have hmul : UInt32.ofNat cap * 2 = UInt32.ofNat (cap * 2 % 2 ^ 32) := by
          refine UInt32.toNat_inj.mp ?_
          rw [UInt32.toNat_mul, hat.cap_toNat]
          simp
        have := hgrow (C := cap * 2 % 2 ^ 32) hfull (Nat.mod_lt _ (by decide)) (by omega) (by omega)
        rw [hc] at this
        rw [if_neg hne, hmul]
        exact this
    · rw [if_neg (fun hle => hfull (hfull_iff.mp hle)), hat.count_toNat]
      have hlt : (entries g).length < cap := by
        rw [Full, hcap, hcount] at hfull
        omega
      have := hroom m g b cap h (Nat.le_refl _) hM rfl hc hb hlt (by rw [if_neg hfull]; rfl)
        fun hf => absurd hf hfull
      simpa [objBufEntries, objBufHeader, entrySize] using this

end grow
/-! ## Adding an entry -/

section add
variable {slot : Addr} {inPlace : Bool} {top : Nat} {M : Fields} {F : Fault → Mem → State → Prop}
  {m : Mem} {g : State} {α : Type} {Q : α → Mem → State → Prop}

/-- A store into the entry after the last one. -/
theorem entryStore_safe (h : Inv slot m g) (hM : fields g = M) {b cap d : Nat}
    (hb : g.heap b = some (.buf cap (entries g))) (hlt : (entries g).length < cap) {k : Kind}
    (hd : d + k.size ≤ 24) {v : k.Val} {f : Unit → CProg α}
    (hf : Inv slot (m.write ⟨b, 8 + (entries g).length * 24 + d⟩ (k.encode v)) g →
      (f ()).Safe (T slot inPlace top M) F Q
        (m.write ⟨b, 8 + (entries g).length * 24 + d⟩ (k.encode v)) g) :
    (Prog.act (M := cmachine) (.store .plain k
      (some ⟨b, 8 + (entries g).length * 24 + d⟩) v) f).Safe (T slot inPlace top M) F Q m g := by
  have hv : m.Valid ⟨b, 8 + (entries g).length * 24 + d⟩ k.size :=
    (h.buf_at hb).valid (by omega)
  have hx : g.Avoids slot ⟨b, 8 + (entries g).length * 24 + d⟩ k.size := h.avoids_spare hb
  refine Prog.safe_act g (Mem.exec_store hv) (T_avoid hM rfl (Mem.exec_store hv) hx hb fun hs => hs)
    (hf ?_)
  exact h.of_repr (h.repr.write (by rw [Kind.length_encode]; exact hx))

/-- The store of the count publishes an entry, its value block and its string,
all within the object. -/
theorem Holds.footprint_append {b cap N : Nat} {e : Entry} {p : Payload} {y : Value}
    {es : List Entry} {cs : List Cell} (hg : Shape g) (hlt : ∀ c n, g.heap c = some n → c < N)
    (hy : Holds m N p y) (htop : top ≤ e.val) (hN : e.val ≤ N)
    (hb : g.heap b = some (.buf cap es)) (hz : p = .object → Zeroed m ⟨e.val, 0⟩)
    (hne : b ≠ e.val)
    (hent : entries (append ((adopt g p y).set e.val (.val p)) b cap e) = entries g ++ [e]) :
    Footprint slot top g m (m.write ⟨b, 0⟩ cs)
      (append ((adopt g p y).set e.val (.val p)) b cap e) := by
  refine .write (fun _ _ _ => .inr ⟨_, hb, fun hs => hs⟩) (fun c n hc => ?_) (fun c hc => ?_)
    (fun x hx => ?_) fun v s hv => ?_
  · rcases Ghost.set_heap_cases hc with ⟨rfl, _⟩ | ⟨_, hc⟩
    · exact .inl fun hn => Option.some_ne_none _ (hb.symm.trans hn)
    · rcases Ghost.set_heap_cases hc with ⟨rfl, _⟩ | ⟨_, hc⟩
      · exact .inr htop
      · rcases hy.adopt_cases hc with hc | ⟨hc, _⟩
        · exact .inl fun hn => Option.some_ne_none _ (hc.symm.trans hn)
        · exact .inr (by omega)
  · rcases Ghost.set_heap_cases hc with ⟨_, hn⟩ | ⟨_, hc⟩
    · cases hn
    · rcases Ghost.set_heap_cases hc with ⟨rfl, hn⟩ | ⟨_, hc⟩
      · cases hn
        refine .inr ((hz rfl).congr (Mem.sizeOf_write ..) fun o => Mem.cellAt_write_of_not ?_)
        exact fun hh => hne hh.1
      · rcases hy.adopt_cases hc with hc | ⟨_, bs, hn⟩
        · exact .inl hc
        · cases hn
  · rw [hent, List.mem_append, List.mem_singleton] at hx
    rcases hx with hx | rfl
    · exact .inl hx
    · exact .inr htop
  · have hcases {v : Nat} (hv : (append ((adopt g p y).set e.val (.val p)) b cap e).heap v =
        some (.val (.string (some s)))) : (v = e.val ∧ p = .string (some s)) ∨
          g.heap v = some (.val (.string (some s))) := by
      rcases Ghost.set_heap_cases hv with ⟨_, hn⟩ | ⟨_, hv⟩
      · cases hn
      · rcases Ghost.set_heap_cases hv with ⟨rfl, hn⟩ | ⟨_, hv⟩
        · cases hn
          exact .inl ⟨rfl, rfl⟩
        · rcases hy.adopt_cases hv with hv | ⟨_, bs, hn⟩
          · exact .inr hv
          · cases hn
    rcases hcases hv with ⟨rfl, rfl⟩ | hv
    · refine .inr ⟨Nat.le_trans htop (Nat.le_trans hN hy.str_ge), fun v' hv' => ?_⟩
      rcases hcases hv' with ⟨rfl, _⟩ | hv'
      · rfl
      · exact absurd hv' (hy.str_new hg hlt)
    · exact .inl hv

/-- The store of the count, after the entry and its value block are complete. -/
theorem objectCommitAdd_safe {Q : Unit → Mem → State → Prop} (h : Inv slot m g)
    (hM : fields g = M) {b cap N : Nat} {e : Entry} {p : Payload} {y : Value} (hc : g.cur = some b)
    (hb : g.heap b = some (.buf cap (entries g))) (hlt : (entries g).length < cap)
    (he : EntryAt m ⟨b, 8 + (entries g).length * 24⟩ e) (hp : PayloadAt m e.val p)
    (hy : Holds m N p y) (ht : e.type = y.type) (hN : e.val < N) (htop : top ≤ e.val)
    (hz : p = .object → Zeroed m ⟨e.val, 0⟩)
    (hfresh : ∀ c n, g.heap c = some n → c < e.val) (hslot : slot.block < e.val)
    (hk : Keyed.find M e.hash = none)
    (hQ : ∀ m' g', Inv slot m' g' → (∀ z ∈ M, z.2.slot ≠ e.val) →
      fields g' = Keyed.set M e.hash ⟨e.val, y⟩ → Q () m' g') :
    (objectCommitAdd (some slot)).Safe (T slot inPlace top M) F Q m g := by
  have hnone : g.heap e.val = none := by
    cases hn : g.heap e.val with
    | none => rfl
    | some n => exact absurd (hfresh _ _ hn) (Nat.lt_irrefl _)
  have hltN (c : Nat) (n : Node) (hcn : g.heap c = some n) : c < N :=
    Nat.lt_trans (hfresh c n hcn) hN
  -- the string, the value block and then the entry join the published blocks
  let g₂ := adopt g p y
  let g₃ : State := g₂.set e.val (.val p)
  have hx₂ : g.Extends g₂ := hy.adopt_extends hltN
  have hnone₂ : g₂.heap e.val = none := (hy.adopt_heap hN).trans hnone
  have hx : g.Extends g₃ := hx₂.trans (Ghost.extends_set _ hnone₂)
  have hI₂ : Inv slot m g₂ := h.adopt hy hltN (Nat.lt_trans hslot hN)
  have hI₃ : Inv slot m g₃ := by
    refine hI₂.intro hnone₂ (by omega) hp (fun _ _ hv => by cases hv) fun s hs => ?_
    cases hs
    exact hy.adopt_str s rfl
  have hstr : ∀ s, p = .string (some s) → ∃ bs, g₃.heap s = some (.str bs) := by
    intro s hs
    obtain ⟨bs, hbs⟩ := hy.adopt_str (g := g) s hs
    exact ⟨bs, (Ghost.extends_set _ hnone₂).2 _ _ hbs⟩
  have hval : p.value g₃ = y := by
    rw [← hy.adopt_value (g := g)]
    refine Payload.value_congr fun s hs => ?_
    obtain ⟨bs, hbs⟩ := hy.adopt_str (g := g) s hs
    exact ⟨bs, hbs, (Ghost.extends_set _ hnone₂).2 _ _ hbs⟩
  have hent : entries g₃ = entries g := h.entries_extends hx
  have hb₃ : g₃.heap b = some (.buf cap (entries g₃)) := by
    rw [hent]
    exact hx.2 _ _ hb
  have hc₃ : g₃.cur = some b := hx.1.trans hc
  have hnew (e' : Entry) (he' : Published g e') : e'.val ≠ e.val := by
    obtain ⟨q, hq, _⟩ := h.entry_val e' he'
    intro hv
    rw [hv, hnone] at hq
    cases hq
  have hnew₃ (e' : Entry) (he' : Published g₃ e') : e'.val ≠ e.val :=
    hnew e' (hy.adopt_published (published_set (fun _ _ hv => by cases hv) he'))
  have hkey : ∀ e' ∈ entries g₃, e'.hash ≠ e.hash := by
    rw [hent, ← find_none_iff, hM]
    exact hk
  have hself : g₃.heap e.val = some (.val p) := g₂.set_heap_self _ _
  have htype : p.type = e.type := hy.type_eq.trans ht.symm
  have hat : EntryAt m ⟨b, 8 + (entries g₃).length * 24⟩ e := by
    rw [hent]
    exact he
  have hI := hI₃.append hc₃ hb₃ (by rw [hent]; exact hlt) hat hself htype hnew₃ hkey
  rw [hent] at hI
  have hcount : UInt32.ofNat (entries g).length + 1 = UInt32.ofNat ((entries g).length + 1) := by
    rw [UInt32.ofNat_add]
    rfl
  refine loadBuf_safe h hM ?_
  rw [hc]
  simp only [basePtr_some, reduceCtorEq, if_false, objBufCount, atomicLoadU32, loadU32_bind,
    objBufSetCount, atomicStoreU32]
  refine Prog.safe_act g (Mem.exec_load (h.buf_at hb).count) (T_read trivial hM) ?_
  rw [hcount]
  refine Prog.safe_act (append g₃ b cap e) (Mem.exec_store ((h.buf_at hb).valid ?_)) ?_ ?_
  · simp only [Kind.size]
    omega
  · refine T_commit hM hI (.of_extends hx (rely_append hc₃ hb₃)) trivial (.inl (.count _ hc)) ?_
    refine hy.footprint_append h.toShape hltN htop (Nat.le_of_lt hN) hb hz
      (fun he => hfresh b _ hb |>.ne he) ?_
    rw [entries_append hc₃, hent]
  · refine hQ _ _ hI (fun z hz => ?_) ?_
    · rw [← hM, fields] at hz
      obtain ⟨e', he', rfl⟩ := List.mem_map.mp hz
      exact hnew e' (h.published he')
    · rw [hI₃.fields_append hc₃ hb₃ hself hstr, h.fields_extends hx, hM, hval,
        Keyed.set_of_not_mem (Keyed.find_eq_none_iff.mp hk)]

end add
/-! ## A set -/

/-- The setter writes `x`. -/
structure Stores {β : Type} (st : Setter β) (x : Value) : Prop where
  type : st.type = x.type
  size : st.size.toNat = x.size
  write : ∀ p, st.write p = writeValue x p

/-- What a set comes to: a fault, no room, or the value the field then has. -/
inductive Outcome where
  | fault (f : Fault)
  | failed
  | stored (y : Value)

/-- The outcome of setting `x`, given the field found, whether the buffer is
full and its capacity, and the outcomes of the allocations in order: of the new
buffer when it is full, of the value block, of the string's buffer. -/
def setOutcome (x : Value) (mismatch : Fault) (found : Option Field) (full : Prop) [Decidable full]
    (cap : Nat) (ok : Nat → Bool) : Outcome :=
  match found with
  | some f =>
    if f.value.type ≠ x.type then .fault mismatch
    else if x.Wraps ∧ ok 0 = true then .fault .outOfBounds
    else .stored (x.stored (ok 0) f.value)
  | none =>
    let i := if full then 1 else 0
    if full ∧ ok 0 = false then .failed
    else if full ∧ 2 ^ 31 ≤ cap then .fault .outOfBounds
    else if ok i = false then .fault .nullDeref
    else if x.Wraps ∧ ok (i + 1) = true then .fault .outOfBounds
    else .stored (x.stored (ok (i + 1)) (.string []))

section set
variable {slot : Addr} {inPlace : Bool} {top : Nat} {M : Fields} {F : Fault → Mem → State → Prop}
  {m : Mem} {g : State} {α β : Type}

/-- The writer's own lookup. -/
theorem find_safe {Q : α → Mem → State → Prop} (h : Inv slot m g) (hM : fields g = M)
    (k : UInt64) {f : Ptr → CProg α}
    (hnone : Keyed.find M k = none → (f none).Safe (T slot inPlace top M) F Q m g)
    (hsome : ∀ a e, e ∈ entries g → e.hash = k → EntryAt m a e →
      (f (some a)).Safe (T slot inPlace top M) F Q m g) :
    (objectFindEntryByHash (some slot) k >>= f).Safe (T slot inPlace top M) F Q m g := by
  refine Prog.Safe.bind ?_
  have hfind : (objectFindEntryByHash (some slot) k).Sampled (fun _ => m)
      (fun p _ => (f p).Safe (T slot inPlace top M) F Q m g) 0 := by
    refine (h.trace.find_sampled k 0).mono fun p u _ hp => ?_
    obtain ⟨w, _, _, hp⟩ := hp
    cases p with
    | none => exact hnone (hM ▸ hp)
    | some a =>
      obtain ⟨e, he, hek, hheld⟩ := hp
      exact hsome a e he hek (h.trace.held_at (Nat.le_refl 0) hheld)
  exact hfind.safe (only_find slot k) fun a ha => T_read ha hM

/-- The value block of a new field: allocated, zeroed and written. -/
theorem newValue_safe {Q : α → Mem → State → Prop} {st : Setter β} {x : Value} (hst : Stores st x)
    (h : Inv slot m g) (hM : fields g = M) (htop : top ≤ m.next) (hx : x.Fits) {f : Ptr → CProg α}
    (hfail : m.mallocOk = false → ∀ m', F .nullDeref m' g)
    (hwrap : m.mallocOk = true → x.Wraps → m.outcome 1 = true → ∀ m', F .outOfBounds m' g)
    (hok : ∀ m' p, m.mallocOk = true → ¬ (x.Wraps ∧ m.outcome 1 = true) → m.Keeps m' →
      PayloadAt m' m.next p → Holds m' (m.next + 1) p (x.stored (m.outcome 1) (.string [])) →
      (p = .object → Zeroed m' ⟨m.next, 0⟩) →
      (f (some ⟨m.next, 0⟩)).Safe (T slot inPlace top M) F Q m' g) :
    (malloc st.size.toNat >>= fun val => memset0 val st.size.toNat >>= fun _ =>
      st.write val >>= fun _ => f val).Safe (T slot inPlace top M) F Q m g := by
  have hT : FreshOk (T slot inPlace top M) g m.next := T_fresh h hM htop
  simp only [malloc_bind, memset0_bind, hst.write, hst.size]
  cases hm : m.mallocOk with
  | false =>
    refine hT.act (Mem.exec_malloc_fail hm) (Nat.le_refl _) trivial ?_
    exact Prog.safe_fault (M := cmachine) (a := .zero none x.size) rfl (hfail hm _)
  | true =>
    refine hT.act (Mem.exec_malloc_ok hm) (Nat.le_refl _) trivial ?_
    have hs0 : (m.tick.alloc x.size).sizeOf m.next = some x.size := Mem.sizeOf_alloc m.tick _
    have hk0 : m.Keeps (m.tick.alloc x.size) := (Mem.Keeps.refl m).tick.alloc _
    have hok1 : (m.tick.alloc x.size).mallocOk = m.outcome 1 := by
      refine Mem.mallocOk_of_drop ?_
      rw [List.drop_one]
      rfl
    generalize m.tick.alloc x.size = m₀ at hs0 hk0 hok1
    have hv : m₀.Valid ⟨m.next, 0⟩ x.size := ⟨_, hs0, by simp⟩
    refine hT.act (Mem.exec_zero hv) hk0.next_le ⟨_, rfl, Nat.le_refl _⟩ ?_
    refine Prog.Safe.bind ?_
    refine writeValue_fresh hT (hk0.write (Nat.le_refl _)) (Nat.le_refl _)
      ((Mem.sizeOf_write ..).trans hs0) ?_ hx ?_ ?_
    · intro hty
      have hsz : 8 + Kind.ptr.size ≤ x.size := by
        cases x with
        | scalar s => cases s <;> cases hty
        | string bs => simp [Value.size, Kind.size]
        | object => cases hty
      exact Mem.load_write_zeros (k := .ptr) hv hsz
    · intro hw hok
      exact hwrap hm hw (hok1 ▸ hok)
    · intro m' p hw hk hp hy hz
      rw [show (m₀.write ⟨m.next, 0⟩ _).mallocOk = m.outcome 1 from hok1] at hw hy
      refine hok m' p hm hw hk hp hy fun ho => ?_
      subst ho
      rw [hz rfl]
      have hsz : x.size = 16 + 8 := by
        have h24 : m'.sizeOf m.next = some 24 := hp.1
        rw [hz rfl, Mem.sizeOf_write, hs0] at h24
        exact Option.some.inj h24
      exact .of_zeros hv (by omega)

/-- The name hash, type and size of the entry after the last one. -/
theorem newEntry_safe {Q : α → Mem → State → Prop} (h : Inv slot m g) (hM : fields g = M)
    {b cap : Nat} (hb : g.heap b = some (.buf cap (entries g))) (hlt : (entries g).length < cap)
    {k : UInt64} {type : UInt16} {size : UInt32} {f : CProg α}
    (hf : ∀ m', Inv slot m' g → m'.load .u64 ⟨b, 8 + (entries g).length * 24⟩ = some k →
      m'.load .u16 ⟨b, 8 + (entries g).length * 24 + 8⟩ = some type → m'.next = m.next →
      m'.script = m.script → f.Safe (T slot inPlace top M) F Q m' g) :
    (entrySetNameHash (some ⟨b, 8 + (entries g).length * 24⟩) k >>= fun _ =>
      entrySetTypeId (some ⟨b, 8 + (entries g).length * 24⟩) type >>= fun _ =>
        entrySetSize (some ⟨b, 8 + (entries g).length * 24⟩) size >>= fun _ => f).Safe
          (T slot inPlace top M) F Q m g := by
  have hv {m' : Mem} (h' : Inv slot m' g) (d : Nat) {k : Kind} (hd : d + k.size ≤ 24) :
      m'.Valid ⟨b, 8 + (entries g).length * 24 + d⟩ k.size := (h'.buf_at hb).valid (by omega)
  refine entryStore_safe (d := 0) h hM hb hlt (by decide) fun h₁ => ?_
  refine entryStore_safe (d := 8) h₁ hM hb hlt (by decide) fun h₂ => ?_
  refine entryStore_safe (d := 12) h₂ hM hb hlt (by decide) fun h₃ => hf _ h₃ ?_ ?_ (by simp) rfl
  · rw [Mem.load_write_apart fun _ => by simp [Kind.size],
      Mem.load_write_apart fun _ => by simp [Kind.size]]
    exact Mem.load_write_same (k := .u64) _ (hv h 0 (by decide))
  · rw [Mem.load_write_apart fun _ => by simp [Kind.size]]
    exact Mem.load_write_same (k := .u16) _ (hv h₁ 8 (by decide))

/-- A new field, once there is room for its entry in the current buffer. -/
theorem newField_safe {Q : β → Mem → State → Prop} {st : Setter β} {x : Value} (hst : Stores st x)
    (h : Inv slot m g) (hM : fields g = M) (htop : top ≤ m.next) (hx : x.Fits)
    {b cap : Nat} (hc : g.cur = some b)
    (hb : g.heap b = some (.buf cap (entries g))) (hlt : (entries g).length < cap) {k : UInt64}
    (hk : Keyed.find M k = none) (hfail : m.mallocOk = false → ∀ m', F .nullDeref m' g)
    (hwrap : m.mallocOk = true → x.Wraps → m.outcome 1 = true → ∀ m', F .outOfBounds m' g)
    (hQ : ∀ m' g' v, m.mallocOk = true → ¬ (x.Wraps ∧ m.outcome 1 = true) → Inv slot m' g' →
      (∀ z ∈ M, z.2.slot ≠ v) →
      fields g' = Keyed.set M k ⟨v, x.stored (m.outcome 1) (.string [])⟩ →
      Q (st.done (some ⟨v, 0⟩)) m' g') :
    (do
      entrySetNameHash (some ⟨b, 8 + (entries g).length * 24⟩) k
      entrySetTypeId (some ⟨b, 8 + (entries g).length * 24⟩) st.type
      entrySetSize (some ⟨b, 8 + (entries g).length * 24⟩) st.size
      let val ← malloc st.size.toNat
      memset0 val st.size.toNat
      st.write val
      entrySetValuePtr (some ⟨b, 8 + (entries g).length * 24⟩) val
      objectCommitAdd (some slot)
      pure (st.done val)).Safe (T slot inPlace top M) F Q m g := by
  refine newEntry_safe h hM hb hlt fun m₁ h₁ hhash htype hnext hsc => ?_
  have hoc (i : Nat) : m₁.outcome i = m.outcome i := by rw [Mem.outcome, hsc, Mem.outcome]
  have hmo : m₁.mallocOk = m.mallocOk := by rw [Mem.mallocOk, hsc, Mem.mallocOk]
  have hb₁ : b < m₁.next := h₁.repr.node_lt hb
  refine newValue_safe hst h₁ hM (by rwa [hnext]) hx (hmo ▸ hfail) (hmo ▸ hoc 1 ▸ hwrap) ?_
  intro m₂ p hm hw hkeep hp hy hz
  have h₂ : Inv slot m₂ g := h₁.keeps hkeep
  simp only [entrySetValuePtr, store_bind, Ptr.some_add, Addr.mk_add]
  refine entryStore_safe (d := 16) h₂ hM hb hlt (by decide) fun h₃ => Prog.Safe.bind ?_
  rw [hmo] at hm
  rw [hoc 1] at hw hy
  have hne : b ≠ m₁.next := Nat.ne_of_lt hb₁
  have hty : (x.stored (m.outcome 1) (.string [])).type = x.type := by
    unfold Value.stored
    split
    · rename_i hs
      cases x with
      | string bs => rfl
      | _ => exact hs.1.elim
    · rfl
  refine objectCommitAdd_safe h₃ hM (e := ⟨k, st.type, m₁.next⟩) (p := p) hc hb hlt ⟨?_, ?_, ?_⟩
    ?_ ?_ (hst.type.trans hty.symm) (Nat.lt_succ_self _) (by rwa [hnext])
    (fun ho => (hz ho).congr ?_ fun o => ?_) (fun c n hcn => h₁.repr.node_lt hcn)
    h₁.repr.slot_lt hk ?_
  · rw [Mem.load_write_apart fun _ => by simp [Kind.size]]
    exact hkeep.load_some hhash
  · rw [Mem.load_write_apart fun _ => by simp [Kind.size]]
    exact hkeep.load_some htype
  · exact Mem.load_write_same (k := .ptr) _ ((h₂.buf_at hb).valid (by simp [Kind.size]; omega))
  · refine hp.congr (Mem.sizeOf_write ..) fun o _ => Mem.cellAt_write_of_not ?_
    exact fun hh => hne hh.1
  · refine hy.congr (fun _ _ => Mem.sizeOf_write ..) fun c o hc' => Mem.cellAt_write_of_not ?_
    intro hh
    have : b = c := hh.1
    omega
  · exact Mem.sizeOf_write ..
  · exact Mem.cellAt_write_of_not fun hh => hne hh.1
  · intro m' g' hI' hslots hfields
    exact hQ m' g' m₁.next hm hw hI' hslots hfields

/-- **What a set does.** It comes to its outcome, and the object is changed by
its last step at most. -/
theorem objectSetField_safe {Q : β → Mem → State → Prop} {st : Setter β} {x : Value}
    (hst : Stores st x) (h : Inv slot m g) (hM : fields g = M) (htop : top ≤ m.next) (hx : x.Fits)
    {name : CStr}
    (hover : ∀ s f, x = .scalar s → Keyed.find M (key16 name) = some f → f.value.type = x.type →
      inPlace = true) {o : Outcome}
    (ho : o = setOutcome x (.aborted st.mismatch name.bytes) (Keyed.find M (key16 name))
      (Full m slot) (objectCap m slot) m.outcome)
    (hF : ∀ f, o = .fault f → ∀ m' g', fields g' = M → F f m' g')
    (hfailed : o = .failed → ∀ m', Inv slot m' g → Q st.failed m' g)
    (hQ : ∀ m' g' y v, o = .stored y → Inv slot m' g' →
      (∀ f, Keyed.find M (key16 name) = some f → f.slot = v) →
      (Keyed.find M (key16 name) = none → ∀ z ∈ M, z.2.slot ≠ v) →
      fields g' = Keyed.set M (key16 name) ⟨v, y⟩ → Q (st.done (some ⟨v, 0⟩)) m' g') :
    (objectSetField st (some slot) (some name)).Safe (T slot inPlace top M) F Q m g := by
  simp only [objectSetField, reduceCtorEq, if_false, objectFindEntry]
  refine find_safe h hM (key16 name) (fun hnone => ?_) fun a e he hek hat => ?_
  · rw [hnone] at ho
    simp only [setOutcome] at ho
    simp only [ne_eq, not_true_eq_false, if_false]
    refine Prog.Safe.bind ?_
    refine objectAddEntry_safe h hM htop ?_ ?_ ?_
    · intro hfull hm
      rw [Mem.mallocOk_eq] at hm
      rw [if_pos ⟨hfull, hm⟩] at ho
      simpa using hfailed ho m.tick (h.keeps (Mem.Keeps.refl m).tick)
    · intro hfull hm hbig m'
      rw [Mem.mallocOk_eq] at hm
      rw [if_neg (by simp [hm]), if_pos ⟨hfull, hbig⟩] at ho
      exact hF _ ho m' g hM
    · intro m' g' b cap hI hnext hM' hent hc hb hlt hsc hm
      have hout (i : Nat) : m'.outcome i = m.outcome ((if Full m slot then 1 else 0) + i) := by
        rw [Mem.outcome, hsc, List.getElem?_drop, Mem.outcome]
      have hmo : m'.mallocOk = m.outcome (if Full m slot then 1 else 0) := Mem.mallocOk_of_drop hsc
      rw [if_neg (by rw [← Mem.mallocOk_eq]; intro hh; rw [(hm hh.1).1] at hh; cases hh.2),
        if_neg (fun hh => absurd hh.2 (by have := (hm hh.1).2; omega)), ← hmo, ← hout 1] at ho
      simp only [reduceCtorEq, if_false]
      refine newField_safe hst hI hM' (Nat.le_trans htop hnext) hx hc hb hlt hnone ?_ ?_ ?_
      · intro hfail m₁
        rw [if_pos hfail] at ho
        exact hF _ ho m₁ _ hM'
      · intro hm' hw hok m₁
        rw [if_neg (by simp [hm']), if_pos ⟨hw, hok⟩] at ho
        exact hF _ ho m₁ _ hM'
      · intro m₁ g₁ v hm' hw hI₁ hslots hfields
        rw [if_neg (by simp [hm']), if_neg hw] at ho
        refine hQ m₁ g₁ _ v ho hI₁ (fun f hf => ?_) (fun _ => hslots) hfields
        rw [hnone] at hf
        cases hf
  · have hfind : Keyed.find M (key16 name) = some ⟨e.val, valueAt g e.val⟩ := by
      rw [← hM, ← hek]
      exact h.find_of_mem he
    rw [hfind] at ho
    simp only [setOutcome, h.value_type he] at ho
    simp only [ne_eq, reduceCtorEq, not_false_eq_true, if_true, entryTypeId, loadU16_bind,
      entryValuePtr, loadPtr_bind, Ptr.some_add, hst.type]
    refine Prog.safe_act g (Mem.exec_load hat.type) (T_read trivial hM) ?_
    by_cases ht : e.type = x.type
    · rw [if_neg (not_not.mpr ht)] at ho
      rw [if_neg (not_not.mpr ht)]
      refine Prog.safe_act g (Mem.exec_load hat.val) (T_read trivial hM) ?_
      rw [hst.write]
      refine Prog.Safe.bind ?_
      refine writeValue_live h hM htop he ht hx (fun s hs => ?_) (fun hw hok m' => ?_) ?_
      · exact hover s _ hs hfind ((h.value_type he).trans ht)
      · rw [Mem.mallocOk_eq] at hok
        rw [if_pos ⟨hw, hok⟩] at ho
        exact hF _ ho m' g hM
      · intro m' g' hw hI' hfields
        rw [Mem.mallocOk_eq] at hw hfields
        rw [if_neg hw] at ho
        refine hQ m' g' _ e.val ho hI' (fun f hf => ?_) (fun hn => ?_) (hek ▸ hfields)
        · rw [hfind] at hf
          cases hf
          rfl
        · rw [hfind] at hn
          cases hn
    · rw [if_pos ht] at ho
      rw [if_pos ht]
      exact Prog.safe_fault (M := cmachine) (a := .abort st.mismatch name.bytes) rfl (hF _ ho m g hM)

end set
end Msm.Obj
