import Mathlib.Data.List.InsertIdx
import Msm.Obj.Writer

/-! # The removal of a field

A remove copies the entries before and after the one it removes into a new
buffer of exactly their number and publishes that; for the last field it
publishes null. It looks the name up by all its bytes. -/
namespace Msm.Obj
open Msm.Exec Msm.CMem Msm.Api

/-- `n` bytes have been copied to `dst`, when `n` is positive. -/
def Copied (m m' : Mem) (dst src : Addr) (n : Nat) : Prop :=
  (n = 0 ∧ m' = m) ∨ m' = m.write dst (m.read src n)

section copied
variable {m m' : Mem} {dst src : Addr} {n : Nat} (h : Copied m m' dst src n)
include h

theorem Copied.sizeOf_eq (b : Nat) : m'.sizeOf b = m.sizeOf b := by
  rcases h with ⟨_, rfl⟩ | rfl
  · rfl
  · exact m.sizeOf_write ..

theorem Copied.keeps {m₀ : Mem} (hk : m₀.Keeps m) (hd : m₀.next ≤ dst.block) : m₀.Keeps m' := by
  rcases h with ⟨_, rfl⟩ | rfl
  · exact hk
  · exact hk.write hd

theorem Copied.load_eq {k : Kind} {a : Addr} (ha : Mem.Apart dst n a k.size) :
    m'.load k a = m.load k a := by
  rcases h with ⟨_, rfl⟩ | rfl
  · rfl
  · exact Mem.load_write_apart (by rwa [Mem.length_read])

theorem Copied.entry_apart {a : Addr} {e : Entry} (ha : Mem.Apart dst n a 24) (he : EntryAt m a e) :
    EntryAt m' a e := by
  rcases h with ⟨_, rfl⟩ | rfl
  · exact he
  · exact he.write (by rwa [Mem.length_read])

theorem Copied.entry {d : Nat} {e : Entry} (hv : m.Valid dst n) (hs : m.Valid src n)
    (hd : d + 24 ≤ n) (he : EntryAt m (src + d) e) : EntryAt m' (dst + d) e := by
  rcases h with ⟨h0, _⟩ | rfl
  · omega
  · exact he.copy hv hs hd

end copied

section remove
variable {slot : Addr} {inPlace : Bool} {top : Nat} {M : Fields} {F : Fault → Mem → State → Prop}
  {m : Mem} {g : State} {α : Type}

/-- A private copy that is made when it is not empty. -/
theorem copyPart_safe {Q : α → Mem → State → Prop} {m₀ : Mem} {N n : Nat} {dst src : Addr}
    (hT : FreshOk (T slot inPlace top M) g N) (hN : N ≤ m₀.next) (hd : N ≤ dst.block)
    (hv : m₀.Valid dst n) (hs : m₀.Valid src n) {c : Prop} [Decidable c] (hc : ¬ c → n = 0)
    {f : CProg α} (hf : ∀ m', Copied m₀ m' dst src n → f.Safe (T slot inPlace top M) F Q m' g) :
    (if c then memcpy (some dst) (some src) n >>= fun _ => f else f).Safe (T slot inPlace top M) F Q
      m₀ g := by
  by_cases hpos : c
  · rw [if_pos hpos]
    exact hT.act (Mem.exec_memcpy hv hs) hN ⟨_, rfl, hd⟩ (hf _ (.inr rfl))
  · rw [if_neg hpos]
    exact hf m₀ (.inl ⟨hc hpos, rfl⟩)

/-- The copy without entry `i`. -/
theorem bufAt_erased {m m₂ mB mA : Mem} {b nb cap i : Nat} {es : List Entry}
    (hold : BufAt m b cap es) (hk : m.Keeps m₂) (hb : b < m.next) (hnb : m.next ≤ nb)
    (hi : i < es.length) (hsz : m₂.sizeOf nb = some (8 + (es.length - 1) * 24))
    (hcount : m₂.load .u32 ⟨nb, 0⟩ = some (UInt32.ofNat (es.length - 1)))
    (hcap : m₂.load .u32 ⟨nb, 4⟩ = some (UInt32.ofNat (es.length - 1)))
    (hB : Copied m₂ mB ⟨nb, 8⟩ ⟨b, 8⟩ (i * 24))
    (hA : Copied mB mA ⟨nb, 8 + i * 24⟩ ⟨b, 8 + (i + 1) * 24⟩ ((es.length - i - 1) * 24)) :
    BufAt mA nb (es.length - 1) (es.eraseIdx i) := by
  have hlen : (es.eraseIdx i).length = es.length - 1 := List.length_eraseIdx_of_lt hi
  have hne : b ≠ nb := by omega
  have hlt := hold.len_lt
  have hszB : mB.sizeOf nb = some (8 + (es.length - 1) * 24) := (hB.sizeOf_eq nb).trans hsz
  have hbsz : mB.sizeOf b = some (8 + cap * 24) :=
    (hB.sizeOf_eq b).trans ((hk.sizeOf_eq hb).trans hold.bytes)
  have hcle := hold.len_le
  refine ⟨(hA.sizeOf_eq nb).trans hszB, by omega, by omega, ?_, ?_, fun j e he => ?_⟩
  · rw [hlen, hA.load_eq fun _ => .inr (by simp [Kind.size]; omega),
      hB.load_eq fun _ => .inr (by simp [Kind.size])]
    exact hcount
  · rw [hA.load_eq fun _ => .inr (by simp [Kind.size]),
      hB.load_eq fun _ => .inr (by simp [Kind.size])]
    exact hcap
  · have hat (j : Nat) (e : Entry) (hj : es[j]? = some e) : EntryAt m₂ ⟨b, 8 + j * 24⟩ e :=
      (hold.entry j e hj).congr (hk.sizeOf_eq hb) fun o _ _ => hk.cellAt_eq hb o
    have hjl : j < es.length - 1 := by
      have := (List.getElem?_eq_some_iff.mp he).1
      omega
    rw [List.getElem?_eraseIdx] at he
    by_cases hj : j < i
    · rw [if_pos hj] at he
      refine hA.entry_apart (fun _ => .inr (by simp only; omega)) ?_
      have := hB.entry (d := j * 24) ⟨_, hsz, by simp only; omega⟩
        ⟨_, (hk.sizeOf_eq hb).trans hold.bytes, by simp only; omega⟩ (by omega) (hat j e he)
      exact this
    · rw [if_neg hj] at he
      have hsrc : EntryAt mB ((⟨b, 8 + (i + 1) * 24⟩ : Addr) + (j - i) * 24) e := by
        have h1 : 8 + (i + 1) * 24 + (j - i) * 24 = 8 + (j + 1) * 24 := by omega
        rw [Addr.mk_add, h1]
        exact hB.entry_apart (fun h => absurd h.symm hne) (hat (j + 1) e he)
      have := hA.entry (d := (j - i) * 24) ⟨_, hszB, by simp only; omega⟩
        ⟨_, hbsz, by simp only; omega⟩ (by omega) hsrc
      rw [Addr.mk_add, show 8 + i * 24 + (j - i) * 24 = 8 + j * 24 by omega] at this
      exact this

/-- The copy on write of a remove: everything but entry `i` goes to a new buffer. -/
theorem removeCopy_safe {Q : Int32 → Mem → State → Prop} (h : Inv slot m g) (hM : fields g = M)
    (htop : top ≤ m.next)
    {b cap i : Nat} (hb : g.heap b = some (.buf cap (entries g))) (hi : i < (entries g).length)
    (hfail : m.mallocOk = false → Q (-1) m.tick g)
    (hQ : ∀ m', m.mallocOk = true →
      Inv slot m' (publish g m.next ((entries g).length - 1) ((entries g).eraseIdx i)) →
      Q 0 m' (publish g m.next ((entries g).length - 1) ((entries g).eraseIdx i))) :
    (do
      let newBuf ← malloc (8 + ((entries g).length - 1) * 24)
      if newBuf = none then pure (-1)
      else
        objBufSetCount newBuf (UInt32.ofNat ((entries g).length - 1)) .relaxed
        objBufSetCapacity newBuf (UInt32.ofNat ((entries g).length - 1))
        if 0 < i * 24 then memcpy (newBuf + 8) (some ⟨b, 8⟩) (i * 24)
        if 0 < (entries g).length - i - 1 then
          memcpy (newBuf + 8 + i * 24) (some ⟨b, 8 + (i + 1) * 24⟩)
            (((entries g).length - i - 1) * 24)
        atomicStorePtr (some slot + 8) newBuf .release
        pure 0).Safe (T slot inPlace top M) F Q m g := by
  have hold := h.buf_at hb
  have hbn : b < m.next := h.repr.node_lt hb
  have hle := hold.len_le
  have hT : FreshOk (T slot inPlace top M) g m.next := T_fresh h hM htop
  have hfresh := h.repr.fresh (Nat.le_refl m.next)
  have hne : m.next ≠ slot.block := by have := h.repr.slot_lt; omega
  simp only [malloc_bind, objBufSetCount, objBufSetCapacity, atomicStoreU32, store_bind]
  cases hm : m.mallocOk with
  | false =>
    refine hT.act (Mem.exec_malloc_fail hm) (Nat.le_refl _) trivial ?_
    simpa using hfail hm
  | true =>
    refine hT.act (Mem.exec_malloc_ok hm) (Nat.le_refl _) trivial ?_
    have hs0 : (m.tick.alloc (8 + ((entries g).length - 1) * 24)).sizeOf m.next =
        some (8 + ((entries g).length - 1) * 24) := Mem.sizeOf_alloc m.tick _
    have hk0 : m.Keeps (m.tick.alloc (8 + ((entries g).length - 1) * 24)) :=
      (Mem.Keeps.refl m).tick.alloc _
    generalize m.tick.alloc (8 + ((entries g).length - 1) * 24) = m₀ at hs0 hk0
    simp only [reduceCtorEq, if_false, Ptr.some_add, Addr.mk_add, Nat.zero_add]
    let m₁ := m₀.write ⟨m.next, 0⟩ (Kind.u32.encode (UInt32.ofNat ((entries g).length - 1)))
    let m₂ := m₁.write ⟨m.next, 4⟩ (Kind.u32.encode (UInt32.ofNat ((entries g).length - 1)))
    have hk1 : m.Keeps m₁ := hk0.write (Nat.le_refl _)
    have hk2 : m.Keeps m₂ := hk1.write (Nat.le_refl _)
    have hs2 : m₂.sizeOf m.next = some (8 + ((entries g).length - 1) * 24) := by
      simpa [m₁, m₂] using hs0
    have hv0 : m₀.Valid ⟨m.next, 0⟩ Kind.u32.size := ⟨_, hs0, by simp only [Kind.size]; omega⟩
    have hv1 : m₁.Valid ⟨m.next, 4⟩ Kind.u32.size :=
      ⟨_, (Mem.sizeOf_write ..).trans hs0, by simp only [Kind.size]; omega⟩
    have hbv {m' : Mem} (hk : m.Keeps m') {d k : Nat} (hd : d + k ≤ 8 + cap * 24) :
        m'.Valid ⟨b, d⟩ k := hk.valid (hold.valid hd)
    refine hT.act (Mem.exec_store hv0) hk0.next_le ⟨_, rfl, Nat.le_refl _⟩ ?_
    refine hT.act (Mem.exec_store hv1) hk1.next_le ⟨_, rfl, Nat.le_refl _⟩ ?_
    refine copyPart_safe hT hk2.next_le (Nat.le_refl _) ⟨_, hs2, by simp only; omega⟩
      (hbv hk2 (by omega)) (by omega) fun mB hB => ?_
    have hkB : m.Keeps mB := hB.keeps hk2 (Nat.le_refl _)
    refine copyPart_safe hT hkB.next_le (Nat.le_refl _)
      ⟨_, (hB.sizeOf_eq _).trans hs2, by simp only; omega⟩ (hbv hkB (by omega)) (by omega)
      fun mA hA => ?_
    have hkA : m.Keeps mA := hA.keeps hkB (Nat.le_refl _)
    have hat := bufAt_erased hold hk2 hbn (Nat.le_refl _) hi hs2
      ((Mem.load_write_apart fun _ => by simp [Kind.size]).trans
        (Mem.load_write_same (k := .u32) _ hv0))
      (Mem.load_write_same (k := .u32) _ hv1) hB hA
    have hI := (h.keeps hkA).publish hfresh hne hat (List.eraseIdx_sublist ..)
    refine Prog.safe_act _ (Mem.exec_store ((h.keeps hkA).repr.slot_valid.mono
      (by simp [Kind.size]))) ?_ (hQ _ hm hI)
    exact T_commit hM hI (rely_publish hfresh) trivial (.inl (.pointer _))
      (.publish htop (List.eraseIdx_sublist ..))

theorem msmObjectRemove_safe {Q : Int32 → Mem → State → Prop} (h : Inv slot m g)
    (hM : fields g = M) (htop : top ≤ m.next) {name : CStr}
    (habsent : key name ∉ Keyed.keys M → Q (-1) m g)
    (hfail : key name ∈ Keyed.keys M → 1 < M.length → m.mallocOk = false → Q (-1) m.tick g)
    (hQ : ∀ m' g', key name ∈ Keyed.keys M → (1 < M.length → m.mallocOk = true) → Inv slot m' g' →
      fields g' = Keyed.remove M (key name) → Q 0 m' g') :
    (msmObjectRemove (some slot) (some name)).Safe (T slot inPlace top M) F Q m g := by
  simp only [msmObjectRemove, reduceCtorEq, if_false]
  refine loadBuf_safe h hM ?_
  cases hc : g.cur with
  | none =>
    have hnil : M = [] := by rw [← hM, fields, entries_none hc]; rfl
    exact habsent (by rw [hnil]; exact List.not_mem_nil)
  | some b =>
    obtain ⟨cap, hb⟩ := h.cur_heap hc
    have hat := h.buf_at hb
    simp only [basePtr_some, reduceCtorEq, if_false, objBufCount, atomicLoadU32, loadU32_bind]
    refine Prog.safe_act g (Mem.exec_load hat.count) (T_read trivial hM) ?_
    by_cases h0 : UInt32.ofNat (entries g).length = 0
    · have hlen : (entries g).length = 0 := by rw [← hat.count_toNat, h0]; rfl
      have hnil : M = [] := by rw [← hM, fields, List.length_eq_zero_iff.mp hlen]; rfl
      rw [if_pos h0]
      exact habsent (by rw [hnil]; exact List.not_mem_nil)
    · rw [if_neg h0, hat.count_toNat]
      have hcount : UInt32.ofNat (entries g).length - 1 =
          UInt32.ofNat ((entries g).length - 1) := by
        have := hat.len_lt
        have hpos : 0 < (entries g).length :=
          Nat.pos_of_ne_zero fun hz => h0 (by rw [hz]; rfl)
        refine UInt32.toNat_inj.mp ?_
        rw [UInt32.toNat_sub_of_le _ _ ?_, hat.count_toNat]
        · simp only [UInt32.toNat_one, UInt32.toNat_ofNat']
          omega
        · rw [UInt32.le_iff_toNat_le, hat.count_toNat]
          exact hpos
      simp only [objBufEntries, objBufHeader, Ptr.some_add, Addr.mk_add, Nat.zero_add, hcount]
      refine Prog.Safe.bind ?_
      have hscan := h.trace.scan_sampled (k := key name) (n := (entries g).length) 0 hb
        (Nat.le_refl 0) (by omega)
      refine (hscan.mono fun r _ _ hr => ?_).safe (only_scan ..) fun a ha => T_read ha hM
      cases r with
      | none =>
        refine habsent fun hmem => ?_
        rw [← hM, keys_fields] at hmem
        obtain ⟨e, he, hek⟩ := List.mem_map.mp hmem
        obtain ⟨j, hj⟩ := List.mem_iff_getElem?.mp he
        have hjl := (List.getElem?_eq_some_iff.mp hj).1
        exact hr.2 j (Nat.zero_le _) (by omega) e hj hek
      | some i =>
        obtain ⟨e, he, hek⟩ := hr.2
        have hil := (List.getElem?_eq_some_iff.mp he).1
        have hget : (fields g)[i]? = some (key name, ⟨e.val, valueAt g e.val⟩) := by
          rw [fields, List.getElem?_map, he, ← hek]
          rfl
        have hmem : key name ∈ Keyed.keys M := by
          rw [← hM]
          exact Keyed.mem_keys_of_mem (List.mem_of_getElem? hget)
        have herase : Keyed.remove M (key name) = M.eraseIdx i := by
          rw [← hM]
          exact Keyed.remove_eq_eraseIdx h.fields_distinct hget
        have hlenM : M.length = (entries g).length := by rw [← hM, length_fields]
        have hpred : (UInt32.ofNat ((entries g).length - 1)).toNat = (entries g).length - 1 := by
          have := hat.len_lt
          simp only [UInt32.toNat_ofNat']
          omega
        by_cases hone : UInt32.ofNat ((entries g).length - 1) = 0
        · -- the last field: null is published
          have hlen1 : (entries g).length = 1 := by
            have : (entries g).length - 1 = 0 := by rw [← hpred, hone]; rfl
            omega
          have hi0 : i = 0 := by omega
          simp only [hone, if_true]
          refine Prog.safe_act _ (Mem.exec_store (h.repr.slot_valid.mono (by simp [Kind.size])))
            ?_ (hQ _ _ hmem (fun hlt => by omega) h.null ?_)
          · refine T_commit hM h.null (.of_kept fun _ _ => id) trivial (.inl (.pointer _)) ?_
            exact .null
          · obtain ⟨x, hx⟩ := List.length_eq_one_iff.mp (hlenM.trans hlen1)
            rw [fields_null, herase, hi0, hx]
            rfl
        · have hgt : 1 < (entries g).length := by
            refine Nat.lt_of_le_of_ne (by omega) fun hz => hone ?_
            rw [← hz]
            rfl
          simp only [hone, if_false, hpred, entrySize]
          refine removeCopy_safe h hM htop hb hil (hfail hmem (by omega)) fun m' hm hI => ?_
          refine hQ _ _ hmem (fun _ => hm) hI ?_
          rw [h.fields_publish (h.repr.fresh (Nat.le_refl _)) (List.eraseIdx_sublist ..), herase,
            ← hM, fields, List.eraseIdx_map]

end remove
end Msm.Obj
