import Mathlib.Data.List.Flatten
import Msm.Api.Typed
import Msm.CMem.Frees
import Msm.Tree.Owned

/-! # The two walkers of an entries buffer

`object::deallocate` of the header and `object_deallocate_entry_value` of the
allocator each free what an entry owns. The first frees the blocks of the one
object it is called on; the second all that is below it. -/
namespace Msm.Tree
open Msm.Exec Msm.CMem Msm.Api Msm.Obj

/-- Frees the buffer of the string in the value block at `val`. -/
def freeString (val : Ptr) : CProg Unit := do
  let strData ← loadPtr .plain (val + 8)
  if strData ≠ none then free strData

/-- What the header frees before the value block. -/
def headerOwned (type : UInt16) (val : Ptr) : CProg Unit :=
  if type = typeString then freeString val else pure ()

/-- One round of the loop in `object::deallocate`. -/
def deallocateEntry (e : Ptr) : CProg Unit := do
  let type ← loadU16 .plain (e + 8)
  let val ← loadPtr .plain (e + 16)
  if val = none then pure ()
  else
    headerOwned type val
    free val

/-- `object_deallocate_entry_value` on every entry of a slot's object, then the
entries buffer, as the function does for a nested object. -/
def deallocateBelow (depth : Nat) (slot : Ptr) : CProg Unit := do
  let buf ← loadPtr .plain (slot + 8)
  if buf ≠ none then
    let count ← objBufCount buf .relaxed
    forEntries (objectDeallocateEntryValue depth) (objBufEntries buf) count.toNat 0
    free buf

/-- What `object_deallocate_entry_value` frees before the value block. -/
def deallocateOwned (depth : Nat) (type : UInt16) (val : Ptr) : CProg Unit :=
  if type = typeString then freeString val
  else if type = typeObject then deallocateBelow depth val
  else pure ()

theorem objectDeallocateEntryValue_succ (depth : Nat) (e : Ptr) :
    objectDeallocateEntryValue (depth + 1) e = (do
      let val ← entryValuePtr e
      if val = none then pure ()
      else
        let type ← entryTypeId e
        deallocateOwned depth type val
        free val) := by
  rw [objectDeallocateEntryValue]
  refine congrArg _ (funext fun val => ?_)
  split
  · rfl
  · refine congrArg _ (funext fun type => ?_)
    simp only [deallocateOwned, deallocateBelow, freeString]
    split
    · simp only [loadPtr_bind, Prog.act_bind]
      refine congrArg _ (funext fun p => ?_)
      split <;> rfl
    · split
      · simp only [loadPtr_bind, Prog.act_bind]
        refine congrArg _ (funext fun p => ?_)
        split
        · simp only [Prog.bind_assoc]
        · rfl
      · rfl

theorem forEntries_eq (body : Ptr → CProg Unit) (b n i : Nat) :
    forEntries body (objBufEntries (some ⟨b, 0⟩)) n i =
      rounds (fun j => body (some ⟨b, 8 + j * 24⟩)) n i := by
  induction n generalizing i with
  | zero => rfl
  | succ n ih =>
    rw [forEntries, ih]
    simp [rounds, objBufEntries, objBufHeader, entrySize]

theorem deallocateEntries_succ (p : Ptr) (n : Nat) (i : UInt32) :
    deallocateEntries p (n + 1) i = (do
      deallocateEntry (p + (i * 24).toNat)
      deallocateEntries p n (i + 1)) := by
  simp only [deallocateEntries, deallocateEntry, headerOwned, freeString, loadU16_bind,
    loadPtr_bind, Prog.act_bind]
  refine congrArg _ (funext fun type => congrArg _ (funext fun val => ?_))
  by_cases hval : val = none
  · rw [if_neg (not_not.mpr hval), if_pos hval]
    rfl
  · rw [if_pos hval, if_neg hval]
    by_cases ht : type = 0x06
    · rw [if_pos ht, if_pos (show type = typeString from ht), Prog.act_bind, Prog.act_bind]
      refine congrArg _ (funext fun p => ?_)
      split <;> rfl
    · rw [if_neg ht, if_neg (show ¬ type = typeString from ht)]
      rfl

/-- The loop of the header counts in 32 bits. -/
theorem deallocateEntries_rounds (p : Ptr) (n i : Nat) :
    deallocateEntries p n (UInt32.ofNat i) =
      rounds (fun j => deallocateEntry (p + (UInt32.ofNat j * 24).toNat)) n i := by
  induction n generalizing i with
  | zero => rfl
  | succ n ih =>
    have hs : UInt32.ofNat i + 1 = UInt32.ofNat (i + 1) := (UInt32.ofNat_add i 1).symm
    rw [deallocateEntries_succ, hs, ih]
    rfl

theorem mul24_toNat {i : Nat} (h : i * 24 < 2 ^ 32) : (UInt32.ofNat i * 24).toNat = i * 24 := by
  simp only [UInt32.toNat_mul, UInt32.toNat_ofNat', show UInt32.toNat 24 = 24 from rfl]
  omega

/-- While the products fit, it visits the entries one after the other. -/
theorem deallocateEntries_eq (b n : Nat) (h : n * 24 ≤ 2 ^ 32) :
    deallocateEntries (some ⟨b, 8⟩) n 0 =
      rounds (fun j => deallocateEntry (some ⟨b, 8 + j * 24⟩)) n 0 := by
  rw [show (0 : UInt32) = UInt32.ofNat 0 from rfl, deallocateEntries_rounds]
  refine rounds_congr fun j _ hj => ?_
  rw [mul24_toNat (by omega)]
  rfl

/-! ## What they free -/

section frees
variable {root s : Addr} {m m₁ : Mem} {F : Ghosts} {g : State} {e : Obj.Entry} {a : Addr}
  {b cap i depth : Nat} {es : List Obj.Entry}

theorem entryAt_of_block (hI : Inv s m g) (hb : g.heap b = some (.buf cap es))
    (he : es[i]? = some e) (hm : m₁.block b = m.block b) : EntryAt m₁ ⟨b, 8 + i * 24⟩ e :=
  ((hI.buf_at hb).entry i e he).congr (Mem.sizeOf_of_block hm) fun o _ _ =>
    Mem.cellAt_of_block hm o

theorem payloadAt_of_block (hI : Inv s m g) {v : Nat} {p : Payload}
    (hv : g.heap v = some (.val p)) (hm : m₁.block v = m.block v) : PayloadAt m₁ v p :=
  (hI.payload_at hv).congr (Mem.sizeOf_of_block hm) fun o _ => Mem.cellAt_of_block hm o

theorem sizeOf_ne_none (hI : Inv s m g) {n : Node} (hb : g.heap b = some n)
    (hm : m₁.block b = m.block b) : m₁.sizeOf b ≠ none := by
  obtain ⟨sz, hsz⟩ := (hI.repr.node b n hb).alloc
  rw [Mem.sizeOf_of_block hm, hsz]
  exact Option.some_ne_none sz

theorem Payload.string_of_type {p : Payload} (h : p.type = typeString) :
    ∃ buf, p = .string buf := by
  cases p with
  | scalar x => cases x <;> cases h
  | string buf => exact ⟨buf, rfl⟩
  | object => cases h

theorem Payload.object_of_type {p : Payload} (h : p.type = typeObject) : p = .object := by
  cases p with
  | scalar x => cases x <;> cases h
  | string buf => cases h
  | object => rfl

/-- Freeing the buffer of a string value. -/
theorem freeString_frees (hI : Inv s m g) {v : Nat} {buf : Option Nat}
    (hv : g.heap v = some (.val (.string buf))) (hmv : m₁.block v = m.block v)
    (hm : ∀ b, buf = some b → m₁.block b = m.block b) :
    ∃ m₂, Frees (freeString (some ⟨v, 0⟩)) m₁ buf.toList m₂ := by
  obtain ⟨m₂, h₂⟩ := Frees.guarded (m := m₁) (c := buf) fun b hb => by
    subst hb
    obtain ⟨bs, hs⟩ := hI.val_str _ _ hv
    exact sizeOf_ne_none hI hs (hm b rfl)
  exact ⟨m₂, .load (payloadAt_of_block hI hv hmv).2 h₂⟩

theorem entryBlocks_of_string {buf : Option Nat} (hv : g.heap e.val = some (.val (.string buf))) :
    entryBlocks g e = buf.toList ++ [e.val] := by
  cases buf with
  | none => exact entryBlocks_plain fun b h => by rw [hv] at h; cases h
  | some b => exact entryBlocks_string hv

theorem entryBlocks_of_type {p : Payload} (hv : g.heap e.val = some (.val p))
    (ht : p.type ≠ typeString) : entryBlocks g e = [e.val] := by
  refine entryBlocks_plain fun b h => ?_
  rw [hv] at h
  cases h
  exact ht rfl

/-- The value block, once what the value owns is freed. -/
theorem free_value (hI : Inv s m g) (he : e ∈ entries g) {p : CProg Unit} {bs : List Nat}
    {m₂ : Mem} (h : Frees p m₁ bs m₂) (hv : e.val ∉ bs) (hm : m₁.block e.val = m.block e.val) :
    ∃ m₃, Frees (p >>= fun _ => free (some ⟨e.val, 0⟩)) m₁ (bs ++ [e.val]) m₃ := by
  obtain ⟨q, hq, _⟩ := hI.entry_payload he
  exact ⟨_, h.bind (.last rfl (sizeOf_ne_none hI hq ((h.other _ hv).trans hm)))⟩

/-- What an entry without a nested object owns. -/
theorem headerOwned_frees (hI : Inv s m g) (he : e ∈ entries g)
    (hm : ∀ b ∈ entryBlocks g e, m₁.block b = m.block b) :
    ∃ m₂, Frees (headerOwned e.type (some ⟨e.val, 0⟩) >>= fun _ => free (some ⟨e.val, 0⟩)) m₁
      (entryBlocks g e) m₂ := by
  obtain ⟨p, hp, htype⟩ := hI.entry_payload he
  have hmv := hm _ (val_mem_entryBlocks g e)
  by_cases ht : e.type = typeString
  · obtain ⟨buf, rfl⟩ := Payload.string_of_type (htype.trans ht)
    have hnot : e.val ∉ buf.toList := by
      intro hmem
      obtain ⟨bs, hs⟩ := hI.val_str _ _ (Option.mem_toList.mp hmem ▸ hp)
      rw [hp] at hs
      cases hs
    rw [entryBlocks_of_string hp] at hm ⊢
    obtain ⟨m₂, h₂⟩ := freeString_frees hI hp hmv fun b hb =>
      hm b (List.mem_append_left _ (Option.mem_toList.mpr hb))
    rw [headerOwned, if_pos ht]
    exact free_value hI he h₂ hnot hmv
  · rw [entryBlocks_of_type hp (htype ▸ ht), headerOwned, if_neg ht]
    exact free_value hI he (.nil m₁) List.not_mem_nil hmv

/-- **One round of the header frees the blocks of the entry.** -/
theorem deallocateEntry_frees (hI : Inv s m g) (he : e ∈ entries g) (ha : EntryAt m₁ a e)
    (hm : ∀ b ∈ entryBlocks g e, m₁.block b = m.block b) :
    ∃ m₂, Frees (deallocateEntry (some a)) m₁ (entryBlocks g e) m₂ := by
  obtain ⟨m₂, h₂⟩ := headerOwned_frees hI he hm
  exact ⟨m₂, .load ha.type (.load ha.val h₂)⟩

theorem deallocateOwned_of_ne {type : UInt16} {val : Ptr} (h : type ≠ typeObject) :
    deallocateOwned depth type val = headerOwned type val := by
  rw [deallocateOwned, if_neg h, headerOwned]

/-- The objects below a nested one come before the block of its entry. -/
theorem entryOwned_object {h : State} {own : State → List Nat} (hn : nested F g e = some h) :
    entryOwned F own g e = own h ++ [e.val] := by
  have hv (b : Nat) : g.heap e.val ≠ some (.val (.string (some b))) := by
    rw [(nested_eq_some.mp hn).1]
    intro hb
    cases hb
  rw [entryOwned, hn, entryBlocks_plain hv]
  rfl

theorem entryOwned_plain {own : State → List Nat} {p : Payload}
    (hp : g.heap e.val = some (.val p)) (ht : p.type ≠ typeObject) :
    entryOwned F own g e = entryBlocks g e := by
  have hn : nested F g e = none := by
    refine Option.eq_none_iff_forall_ne_some.mpr fun h hn => ?_
    rw [(nested_eq_some.mp hn).1] at hp
    cases hp
    exact ht rfl
  rw [entryOwned, hn]
  rfl

/-- A round of the recursive walker frees all the entry owns, when the walk of a
nested object frees what is below it. -/
theorem entryValue_frees (hF : Forest root m F) (hs : F s = some g) (he : e ∈ entries g)
    (hrec : ∀ h m₁, nested F g e = some h → m₁.block e.val = m.block e.val →
      (∀ b ∈ owned F depth h, m₁.block b = m.block b) →
      ∃ m₂, Frees (deallocateBelow depth (some ⟨e.val, 0⟩)) m₁ (owned F depth h) m₂)
    (ha : EntryAt m₁ a e) (hm : ∀ b ∈ entryOwned F (owned F depth) g e, m₁.block b = m.block b) :
    ∃ m₂, Frees (objectDeallocateEntryValue (depth + 1) (some a)) m₁
      (entryOwned F (owned F depth) g e) m₂ := by
  have hI := hF.inv s g hs
  obtain ⟨p, hp, htype⟩ := hI.entry_payload he
  have hmv : m₁.block e.val = m.block e.val :=
    hm _ (mem_entryOwned.mpr (.inr (val_mem_entryBlocks g e)))
  suffices h : ∃ m₂, Frees (deallocateOwned depth e.type (some ⟨e.val, 0⟩) >>= fun _ =>
      free (some ⟨e.val, 0⟩)) m₁ (entryOwned F (owned F depth) g e) m₂ by
    obtain ⟨m₂, h₂⟩ := h
    rw [objectDeallocateEntryValue_succ]
    exact ⟨m₂, .load ha.val (.load ha.type h₂)⟩
  by_cases hobj : e.type = typeObject
  · obtain rfl := Payload.object_of_type (htype.trans hobj)
    obtain ⟨h, hh⟩ := hF.child s g _ hs hp
    have hn : nested F g e = some h := nested_eq_some.mpr ⟨hp, hh⟩
    rw [entryOwned_object hn] at hm ⊢
    obtain ⟨m₂, h₂⟩ := hrec h m₁ hn hmv fun b hb => hm b (List.mem_append_left _ hb)
    rw [deallocateOwned, if_neg (hobj ▸ by decide), if_pos hobj]
    refine free_value hI he h₂ (fun hb => ?_) hmv
    exact hF.nested_apart hs he hn (hF.below_of_mem_owned hh hb)
      (mem_objectBlocks_of_entry he (val_mem_entryBlocks g e))
  · rw [entryOwned_plain hp (htype ▸ hobj)] at hm ⊢
    rw [deallocateOwned_of_ne hobj]
    exact headerOwned_frees hI he hm

/-- The slot at `s` and its buffer, read in a later memory. -/
theorem slot_load (hI : Inv s m g) (hm : m₁.block s.block = m.block s.block) :
    m₁.load .ptr (s + 8) = some (basePtr g.cur) :=
  (Mem.load_of_block (a := s + 8) hm).trans hI.repr.slot_ptr

theorem count_load (hI : Inv s m g) (hb : g.heap b = some (.buf cap es))
    (hm : m₁.block b = m.block b) : m₁.load .u32 ⟨b, 0⟩ = some (UInt32.ofNat es.length) :=
  (Mem.load_of_block hm).trans (hI.buf_at hb).count

/-- Walking the entries and then freeing the buffer, given what a round frees. -/
theorem entries_frees (hF : Forest root m F) (hs : F s = some g) (hc : g.cur = some b)
    (body : Nat → CProg Unit) (B : Obj.Entry → List Nat)
    (hbody : ∀ j e m₁, (entries g)[j]? = some e → EntryAt m₁ ⟨b, 8 + j * 24⟩ e →
      m₁.block s.block = m.block s.block → (∀ c ∈ B e, m₁.block c = m.block c) →
      ∃ m₂, Frees (body j) m₁ (B e) m₂)
    (hcur : ∀ e ∈ entries g, b ∉ B e) (hslot : ∀ e ∈ entries g, s.block ∉ B e)
    (hdisj : (entries g).Pairwise fun e e' => (B e).Disjoint (B e'))
    (hms : m₁.block s.block = m.block s.block) (hmb : m₁.block b = m.block b)
    (hm : ∀ e ∈ entries g, ∀ c ∈ B e, m₁.block c = m.block c) :
    ∃ m₂, Frees (rounds body (entries g).length 0 >>= fun _ => free (some ⟨b, 0⟩)) m₁
      ((entries g).flatMap B ++ [b]) m₂ := by
  have hI := hF.inv s g hs
  obtain ⟨cap, hbuf⟩ := hI.cur_heap hc
  have hloop : ∃ m₂, Frees (rounds body (entries g).length 0) m₁ ((entries g).flatMap B) m₂ := by
    refine Frees.rounds B (fun c => c = b ∨ c = s.block) (fun j e m₁ hj hk hB => ?_)
      (fun e he c hcB hk => ?_) hdisj (fun c hk => ?_) hm
    · rw [Nat.zero_add]
      exact hbody j e m₁ hj (entryAt_of_block hI hbuf hj (hk b (.inl rfl))) (hk _ (.inr rfl)) hB
    · rcases hk with rfl | rfl
      · exact hcur e he hcB
      · exact hslot e he hcB
    · rcases hk with rfl | rfl
      · exact hmb
      · exact hms
  obtain ⟨m₂, h₂⟩ := hloop
  have hnot : b ∉ (entries g).flatMap B := by
    intro hmem
    obtain ⟨e, he, hmem⟩ := List.mem_flatMap.mp hmem
    exact hcur e he hmem
  exact ⟨_, h₂.bind (.last rfl (sizeOf_ne_none hI hbuf ((h₂.other b hnot).trans hmb)))⟩

/-- A walk of the object in a slot, given what a round frees. -/
theorem deallocateBelow_round (hF : Forest root m F) (hs : F s = some g) (hd : Deep m depth g)
    (hround : ∀ d e a m₁, depth = d + 1 → e ∈ entries g → EntryAt m₁ a e →
      (∀ c ∈ entryOwned F (owned F d) g e, m₁.block c = m.block c) →
      ∃ m₂, Frees (objectDeallocateEntryValue depth (some a)) m₁ (entryOwned F (owned F d) g e) m₂)
    (hms : m₁.block s.block = m.block s.block)
    (hm : ∀ b ∈ owned F depth g, m₁.block b = m.block b) :
    ∃ m₂, Frees (deallocateBelow depth (some s)) m₁ (owned F depth g) m₂ := by
  have hI := hF.inv s g hs
  -- with no levels left there are no entries
  have howned : owned F depth g =
      (entries g).flatMap (entryOwned F (owned F (depth - 1)) g) ++ g.cur.toList := by
    cases depth with
    | zero =>
      rw [hF.entries_nil hs hd]
      rfl
    | succ d => rfl
  rw [howned] at hm ⊢
  rw [deallocateBelow, loadPtr_bind]
  cases hc : g.cur with
  | none =>
    have hload : m₁.load .ptr (s + 8) = some none := (slot_load hI hms).trans (by rw [hc]; rfl)
    rw [entries_none hc]
    exact ⟨m₁, .load hload (.nil m₁)⟩
  | some b =>
    obtain ⟨cap, hbuf⟩ := hI.cur_heap hc
    have hmb : m₁.block b = m.block b :=
      hm b (List.mem_append_right _ (Option.mem_toList.mpr hc))
    have hbelow {e : Obj.Entry} (he : e ∈ entries g) {c : Nat}
        (hcm : c ∈ entryOwned F (owned F (depth - 1)) g e) : s.block < c :=
      hF.lt_of_mem_owned hs (howned ▸ List.mem_append_left _ (List.mem_flatMap.mpr ⟨e, he, hcm⟩))
    obtain ⟨m₂, h₂⟩ := entries_frees hF hs hc
      (fun j => objectDeallocateEntryValue depth (some ⟨b, 8 + j * 24⟩))
      (entryOwned F (owned F (depth - 1)) g)
      (fun j e m₁ hj ha _ hB => by
        have he := List.mem_of_getElem? hj
        obtain ⟨d, rfl⟩ := hF.deep_pos hs hd he
        exact hround d e _ m₁ rfl he ha hB)
      (fun e he => hF.cur_not_mem_entryOwned hs he hc)
      (fun e he hmem => Nat.lt_irrefl _ (hbelow he hmem))
      (Inv.entries_pairwise hI fun e he e' he' hne => hF.entryOwned_disjoint hs he he' hne)
      hms hmb (fun e he c hcm =>
        hm c (List.mem_append_left _ (List.mem_flatMap.mpr ⟨e, he, hcm⟩)))
    have hload : m₁.load .ptr (s + 8) = some (some ⟨b, 0⟩) :=
      (slot_load hI hms).trans (by rw [hc]; rfl)
    refine ⟨m₂, .load hload ?_⟩
    rw [if_pos (Option.some_ne_none _)]
    refine .load (o := .relaxed) (count_load hI hbuf hmb) ?_
    show Frees (forEntries _ (objBufEntries (some ⟨b, 0⟩)) (UInt32.ofNat (entries g).length).toNat 0
      >>= fun _ => free (some ⟨b, 0⟩)) _ _ _
    rw [(hI.buf_at hbuf).count_toNat, forEntries_eq]
    exact h₂

/-- **The recursive walker frees what is below a slot**, the levels being enough. -/
theorem deallocateBelow_frees (hF : Forest root m F) (hs : F s = some g) (hd : Deep m depth g)
    (hms : m₁.block s.block = m.block s.block)
    (hm : ∀ b ∈ owned F depth g, m₁.block b = m.block b) :
    ∃ m₂, Frees (deallocateBelow depth (some s)) m₁ (owned F depth g) m₂ := by
  induction depth generalizing s g m₁ with
  | zero =>
    exact deallocateBelow_round hF hs hd
      (fun d e a m₁ h => absurd h (Nat.succ_ne_zero d).symm) hms hm
  | succ depth ih =>
    refine deallocateBelow_round hF hs hd (fun d e a m₁ h he ha hB => ?_) hms hm
    obtain rfl : depth = d := Nat.succ.inj h
    refine entryValue_frees hF hs he (fun h m₁ hn hme hmh => ?_) ha hB
    exact ih (nested_eq_some.mp hn).2 (hF.deep_nested hd he hn) hme hmh

/-! ## The header -/

theorem objectBlocks_nodup (hF : Forest root m F) (hs : F s = some g) : (objectBlocks g).Nodup := by
  have hsub : (objectBlocks g).Sublist (owned F 1 g) :=
    (List.Sublist.flatMap_right _ fun e _ => List.sublist_append_right _ _).append_right _
  exact (hF.owned_nodup hs).sublist hsub

/-- **`object::deallocate` frees the blocks of the object in the slot**, and
nothing below a nested one; the slot is empty then. -/
theorem objectDeallocate_frees (hF : Forest root m F) (hs : F s = some g)
    (hlt : objectCount m s < 2 ^ 27) :
    ∃ m', Ends (objectDeallocate (some s)) m (objectBlocks g) m' ∧ objectBuf m' s = none := by
  have hI := hF.inv s g hs
  rw [objectDeallocate, if_neg (Option.some_ne_none s), loadPtr_bind]
  cases hc : g.cur with
  | none =>
    have hload : m.load .ptr (s + 8) = some none := hI.repr.slot_ptr.trans (by rw [hc]; rfl)
    refine ⟨m, .load hload ?_, hI.objectBuf_eq.trans (by rw [hc]; rfl)⟩
    rw [objectBlocks, entries_none hc, hc]
    exact .nil m
  | some b =>
    obtain ⟨cap, hbuf⟩ := hI.cur_heap hc
    have hblocks : objectBlocks g = (entries g).flatMap (entryBlocks g) ++ [b] := by
      rw [objectBlocks, hc]
      rfl
    have hlen := hI.objectCount_eq ▸ hlt
    have hslot : s.block ∉ objectBlocks g := by
      intro hmem
      obtain ⟨n, hn⟩ := Inv.objectBlocks_heap hI hmem
      exact Nat.lt_irrefl _ (hF.above s g _ n hs hn)
    obtain ⟨m₂, h₂⟩ : ∃ m₂, Frees (rounds (fun j => deallocateEntry (some ⟨b, 8 + j * 24⟩))
        (entries g).length 0 >>= fun _ => free (some ⟨b, 0⟩)) m
        ((entries g).flatMap (entryBlocks g) ++ [b]) m₂ := entries_frees hF hs hc
      (fun j => deallocateEntry (some ⟨b, 8 + j * 24⟩)) (entryBlocks g)
      (fun j e m₁ hj ha _ hB => deallocateEntry_frees hI (List.mem_of_getElem? hj) ha hB)
      (fun e he => Inv.cur_not_mem_entryBlocks hI he hc)
      (fun e he hmem => hslot (mem_objectBlocks_of_entry he hmem))
      (Inv.entries_pairwise hI fun e he e' he' hne => hF.entryBlocks_disjoint hs he he' hne)
      rfl rfl fun _ _ _ _ => rfl
    rw [hblocks] at hslot ⊢
    have hv : m₂.Valid (s + 8) 8 := by
      obtain ⟨sz, hsz, hle⟩ := hI.repr.slot_valid
      exact ⟨sz, (Mem.sizeOf_of_block (h₂.other _ hslot)).trans hsz, hle⟩
    have hload : m.load .ptr (s + 8) = some (some ⟨b, 0⟩) :=
      hI.repr.slot_ptr.trans (by rw [hc]; rfl)
    have hend := h₂.toEnds.bind (f := fun _ => store .plain .ptr (some (s + 8)) none) (.store hv)
    refine ⟨m₂.write (s + 8) (Kind.ptr.encode none), .load hload ?_, ?_⟩
    · rw [if_neg (Option.some_ne_none _)]
      refine .load (o := .plain) (hI.buf_at hbuf).count ?_
      show Ends (deallocateEntries (some ⟨b, 8⟩) (UInt32.ofNat (entries g).length).toNat
        0 >>= fun _ => free (some ⟨b, 0⟩) >>= fun _ => store .plain .ptr (some (s + 8)) none) _ _ _
      rw [(hI.buf_at hbuf).count_toNat, deallocateEntries_eq _ _ (by omega), ← Prog.bind_assoc]
      rwa [List.append_nil] at hend
    · have hnull : (m₂.write (s + 8) (Kind.ptr.encode none)).load .ptr (s + 8) = some none :=
        Mem.load_write_same (k := .ptr) none hv
      rw [objectBuf, hnull]
      rfl

end frees
end Msm.Tree
