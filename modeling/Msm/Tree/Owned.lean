import Msm.Tree.Sessions

/-! # The blocks an object owns

The blocks below a slot: the entries buffer of every object one gets to from it,
the value blocks of the entries and the buffers of string values. `owned` lists
them in the order a recursive walk of the entries comes to them, and lists no
block twice. -/
namespace Msm.Tree
open Msm.Exec Msm.CMem Msm.Api Msm.Obj

/-- The blocks of one object: its entries buffer, the value blocks of its fields
and the buffers of its string fields. -/
inductive ObjectBlock (m : Mem) (s : Addr) : Nat → Prop
  | buf {b : Nat} : objectBuf m s = some ⟨b, 0⟩ → ObjectBlock m s b
  | value {k : UInt64} {f : Field} : (k, f) ∈ objectFields m s → ObjectBlock m s f.slot
  | string {k : UInt64} {v b : Nat} {bs : List UInt8} : (k, ⟨v, .string bs⟩) ∈ objectFields m s →
      m.load .ptr ⟨v, 8⟩ = some (some ⟨b, 0⟩) → ObjectBlock m s b

/-- The blocks one gets to from a slot. -/
def Below (m : Mem) (s : Addr) (b : Nat) : Prop := ∃ t, ObjectAt m s t ∧ ObjectBlock m t b

/-! ## One object -/

/-- The value block of an entry, after the string buffer it points to. -/
def entryBlocks (g : State) (e : Obj.Entry) : List Nat :=
  match g.heap e.val with
  | some (.val (.string (some b))) => [b, e.val]
  | _ => [e.val]

/-- The blocks of one object, in the order a walk of its entries comes to them. -/
def objectBlocks (g : State) : List Nat := (entries g).flatMap (entryBlocks g) ++ g.cur.toList

section blocks
variable {s : Addr} {m : Mem} {g : State} {e e' : Obj.Entry} {b v : Nat}

theorem entryBlocks_string (hv : g.heap e.val = some (.val (.string (some b)))) :
    entryBlocks g e = [b, e.val] := by
  rw [entryBlocks, hv]

theorem entryBlocks_plain (hv : ∀ b, g.heap e.val ≠ some (.val (.string (some b)))) :
    entryBlocks g e = [e.val] := by
  unfold entryBlocks
  split
  · rename_i b hb
    exact absurd hb (hv b)
  · rfl

theorem mem_entryBlocks :
    b ∈ entryBlocks g e ↔ b = e.val ∨ g.heap e.val = some (.val (.string (some b))) := by
  by_cases hv : ∃ c, g.heap e.val = some (.val (.string (some c)))
  · obtain ⟨c, hc⟩ := hv
    rw [entryBlocks_string hc, hc]
    simp [or_comm, eq_comm]
  · have hv' (c : Nat) : g.heap e.val ≠ some (.val (.string (some c))) := fun hc => hv ⟨c, hc⟩
    rw [entryBlocks_plain hv', List.mem_singleton, or_iff_left (hv' b)]

theorem val_mem_entryBlocks (g : State) (e : Obj.Entry) : e.val ∈ entryBlocks g e :=
  mem_entryBlocks.mpr (.inl rfl)

/-- A block of an entry holds its value, or is the buffer of its string. -/
theorem Inv.entryBlocks_cases (hI : Inv s m g) (he : e ∈ entries g) (hb : b ∈ entryBlocks g e) :
    (b = e.val ∧ ∃ p, g.heap b = some (.val p)) ∨
      (g.heap e.val = some (.val (.string (some b))) ∧ ∃ bs, g.heap b = some (.str bs)) := by
  rcases mem_entryBlocks.mp hb with rfl | hv
  · obtain ⟨p, hp, _⟩ := hI.entry_payload he
    exact .inl ⟨rfl, p, hp⟩
  · exact .inr ⟨hv, hI.val_str _ _ hv⟩

theorem Inv.entryBlocks_nodup (hI : Inv s m g) (e : Obj.Entry) : (entryBlocks g e).Nodup := by
  unfold entryBlocks
  split
  · rename_i b hv
    obtain ⟨bs, hb⟩ := hI.val_str _ _ hv
    rw [List.nodup_cons]
    refine ⟨fun h => ?_, List.nodup_singleton _⟩
    rw [List.mem_singleton.mp h, hv] at hb
    cases hb
  · exact List.nodup_singleton _

theorem Inv.cur_not_mem_entryBlocks (hI : Inv s m g) (he : e ∈ entries g) (hc : g.cur = some b) :
    b ∉ entryBlocks g e := by
  intro hb
  obtain ⟨cap, hbuf⟩ := hI.cur_heap hc
  rcases Inv.entryBlocks_cases hI he hb with ⟨_, p, hp⟩ | ⟨_, bs, hs⟩
  · rw [hbuf] at hp
    cases hp
  · rw [hbuf] at hs
    cases hs

/-- Every block of the object has been published. -/
theorem Inv.objectBlocks_heap (hI : Inv s m g) (hb : b ∈ objectBlocks g) :
    ∃ n, g.heap b = some n := by
  rcases List.mem_append.mp hb with hb | hb
  · obtain ⟨e, he, hb⟩ := List.mem_flatMap.mp hb
    rcases Inv.entryBlocks_cases hI he hb with ⟨_, p, hp⟩ | ⟨_, bs, hs⟩
    · exact ⟨_, hp⟩
    · exact ⟨_, hs⟩
  · obtain ⟨cap, hbuf⟩ := hI.cur_heap (Option.mem_toList.mp hb)
    exact ⟨_, hbuf⟩

/-- The fields as a reader sees them, one for each entry. -/
theorem mem_objectFields (hI : Inv s m g) {k : UInt64} {f : Field} :
    (k, f) ∈ objectFields m s ↔ ∃ e ∈ entries g, e.hash = k ∧ f = ⟨e.val, valueAt g e.val⟩ := by
  rw [hI.objectFields_eq, fields, List.mem_map]
  constructor
  · rintro ⟨e, he, heq⟩
    cases heq
    exact ⟨e, he, rfl, rfl⟩
  · rintro ⟨e, he, rfl, rfl⟩
    exact ⟨e, he, rfl⟩

/-- A field is a nested object exactly when its block is published as a slot. -/
theorem mem_objectFields_object (hI : Inv s m g) {k : UInt64} :
    (k, ⟨v, .object⟩) ∈ objectFields m s ↔
      ∃ e ∈ entries g, e.hash = k ∧ e.val = v ∧ g.heap v = some (.val .object) := by
  constructor
  · intro hk
    have hslot := slot_of_mem hI (hI.objectFields_eq ▸ hk)
    obtain ⟨e, he, hh, hf⟩ := (mem_objectFields hI).mp hk
    exact ⟨e, he, hh, (congrArg Field.slot hf).symm, hslot⟩
  · rintro ⟨e, he, hh, rfl, hslot⟩
    refine (mem_objectFields hI).mpr ⟨e, he, hh, ?_⟩
    rw [valueAt, hslot]
    rfl

theorem Inv.string_load (hI : Inv s m g) (hv : g.heap v = some (.val (.string (some b)))) :
    m.load .ptr ⟨v, 8⟩ = some (some ⟨b, 0⟩) := (hI.payload_at hv).2

/-- The blocks of an object in memory are those its ghost state lists. -/
theorem objectBlock_iff (hI : Inv s m g) : ObjectBlock m s b ↔ b ∈ objectBlocks g := by
  rw [objectBlocks, List.mem_append, List.mem_flatMap, Option.mem_toList]
  constructor
  · intro h
    cases h with
    | buf h =>
      rw [hI.objectBuf_eq] at h
      cases hc : g.cur with
      | none =>
        rw [hc] at h
        cases h
      | some c =>
        rw [hc] at h
        cases h
        exact .inr rfl
    | value h =>
      obtain ⟨e, he, _, rfl⟩ := (mem_objectFields hI).mp h
      exact .inl ⟨e, he, val_mem_entryBlocks g e⟩
    | string h hl =>
      obtain ⟨e, he, _, hf⟩ := (mem_objectFields hI).mp h
      obtain ⟨p, hp, _⟩ := hI.entry_payload he
      obtain ⟨rfl, hval⟩ : _ = e.val ∧ _ = valueAt g e.val := by simpa using hf
      rw [valueAt, hp] at hval
      have hat := (hI.payload_at hp).2
      cases p with
      | scalar x => cases hval
      | object => cases hval
      | string buf =>
        have hbuf : some (basePtr buf) = some (some ⟨b, 0⟩) := hat.symm.trans hl
        cases buf with
        | none => cases hbuf
        | some c =>
          cases hbuf
          exact .inl ⟨e, he, mem_entryBlocks.mpr (.inr hp)⟩
  · rintro (⟨e, he, hb⟩ | hc)
    · have hfield := (mem_objectFields hI).mpr ⟨e, he, rfl, rfl⟩
      rcases Inv.entryBlocks_cases hI he hb with ⟨rfl, _⟩ | ⟨hv, bs, hs⟩
      · exact .value hfield
      · have hval : valueAt g e.val = .string bs := by simp only [valueAt, hv, Payload.value, hs]
        rw [hval] at hfield
        exact .string hfield (Inv.string_load hI hv)
    · refine .buf ?_
      rw [hI.objectBuf_eq, hc]
      rfl

end blocks

/-! ## Objects below objects -/

section at_
variable {root s t u : Addr} {m : Mem}

theorem ObjectAt.trans (h : ObjectAt m s t) (h' : ObjectAt m t u) : ObjectAt m s u := by
  induction h' with
  | here => exact h
  | field _ hk ih => exact .field ih hk

/-- The way to an object below begins with a field. -/
theorem ObjectAt.cases_head (h : ObjectAt m s t) :
    t = s ∨ ∃ k v, (k, (⟨v, .object⟩ : Field)) ∈ objectFields m s ∧ ObjectAt m ⟨v, 0⟩ t := by
  induction h with
  | here => exact .inl rfl
  | field _ hk ih =>
    rcases ih with rfl | ⟨k', v', hk', hat⟩
    · exact .inr ⟨_, _, hk, .here⟩
    · exact .inr ⟨k', v', hk', hat.field hk⟩

end at_

section forest
variable {root s t : Addr} {m : Mem} {F : Ghosts} {g h : State} {e e' : Obj.Entry} {b : Nat}

theorem Forest.at_ghost (hF : Forest root m F) (hs : F s = some g) (hat : ObjectAt m s t) :
    ∃ h, F t = some h := by
  induction hat with
  | here => exact ⟨g, hs⟩
  | field _ hk ih =>
    obtain ⟨h, hh⟩ := ih
    exact hF.child_of_mem hh hk

theorem Forest.at_le (hF : Forest root m F) (hs : F s = some g) (hat : ObjectAt m s t) :
    s.block ≤ t.block := by
  induction hat with
  | here => exact Nat.le_refl _
  | field hat hk ih =>
    obtain ⟨h, hh⟩ := hF.at_ghost hs hat
    have hI := hF.inv _ h hh
    have := hF.above _ h _ _ hh (slot_of_mem hI (hI.objectFields_eq ▸ hk))
    exact Nat.le_of_lt (Nat.lt_of_le_of_lt ih this)

/-- Two nested objects of one object have nothing below them in common. -/
theorem Forest.at_unique (hF : Forest root m F) (hs : F s = some g) {v w : Nat}
    (hv : g.heap v = some (.val .object)) (hw : g.heap w = some (.val .object))
    (hat : ObjectAt m ⟨v, 0⟩ t) (hat' : ObjectAt m ⟨w, 0⟩ t) : v = w := by
  obtain ⟨hgv, hFv⟩ := hF.child s g v hs hv
  obtain ⟨hgw, hFw⟩ := hF.child s g w hs hw
  -- the object around the one at `v` is `s`, which lies below neither
  have hpar {x y : Nat} {p : Addr} {q : State} (hx : g.heap x = some (.val .object))
      (hy : s.block < y) (hFy : ∃ q, F ⟨y, 0⟩ = some q) (hp : ObjectAt m ⟨y, 0⟩ p)
      (hq : F p = some q) (hxp : q.heap x = some (.val .object)) : False := by
    obtain ⟨_, hFy⟩ := hFy
    obtain rfl := hF.apart p s q g x _ _ hq hs hxp hx
    have : y ≤ p.block := hF.at_le hFy hp
    omega
  induction hat with
  | here =>
    cases hat' with
    | here => rfl
    | field hp hk =>
      obtain ⟨q, hq⟩ := hF.at_ghost hFw hp
      have hI := hF.inv _ q hq
      exact (hpar hv (hF.above s g w _ hs hw) ⟨_, hFw⟩ hp hq
        (slot_of_mem hI (hI.objectFields_eq ▸ hk))).elim
  | field hp hk ih =>
    obtain ⟨q, hq⟩ := hF.at_ghost hFv hp
    have hI := hF.inv _ q hq
    have hslot := slot_of_mem hI (hI.objectFields_eq ▸ hk)
    cases hat' with
    | here => exact (hpar hw (hF.above s g v _ hs hv) ⟨_, hFv⟩ hp hq hslot).elim
    | field hp' hk' =>
      obtain ⟨q', hq'⟩ := hF.at_ghost hFw hp'
      have hI' := hF.inv _ q' hq'
      obtain rfl := hF.apart _ _ q q' _ _ _ hq hq' hslot
        (slot_of_mem hI' (hI'.objectFields_eq ▸ hk'))
      exact ih hp'

/-- A block belongs to one object. -/
theorem Forest.owner_unique (hF : Forest root m F) (hs : F s = some g) (ht : F t = some h)
    (hb : ObjectBlock m s b) (hb' : ObjectBlock m t b) : s = t := by
  have hI := hF.inv s g hs
  have hI' := hF.inv t h ht
  obtain ⟨n, hn⟩ := Inv.objectBlocks_heap hI ((objectBlock_iff hI).mp hb)
  obtain ⟨n', hn'⟩ := Inv.objectBlocks_heap hI' ((objectBlock_iff hI').mp hb')
  exact hF.apart s t g h b n n' hs ht hn hn'

end forest

/-! ## The whole tree -/

/-- The object in the value block of an entry. -/
def nested (F : Ghosts) (g : State) (e : Obj.Entry) : Option State :=
  match g.heap e.val with
  | some (.val .object) => F ⟨e.val, 0⟩
  | _ => none

/-- What the entry owns, with `own` for the object in it. -/
def entryOwned (F : Ghosts) (own : State → List Nat) (g : State) (e : Obj.Entry) : List Nat :=
  (nested F g e).elim [] own ++ entryBlocks g e

/-- The blocks of an object and of those below it, `depth` levels down. -/
def owned (F : Ghosts) : Nat → State → List Nat
  | 0, g => g.cur.toList
  | depth + 1, g => (entries g).flatMap (entryOwned F (owned F depth) g) ++ g.cur.toList

section owned
variable {root s t : Addr} {m : Mem} {F : Ghosts} {g h : State} {e e' : Obj.Entry} {b depth : Nat}

theorem nested_eq_some : nested F g e = some h ↔
    g.heap e.val = some (.val .object) ∧ F ⟨e.val, 0⟩ = some h := by
  unfold nested
  split
  · rename_i hv
    exact (and_iff_right hv).symm
  · rename_i hne
    constructor
    · intro hn
      cases hn
    · rintro ⟨hv, _⟩
      exact (hne hv).elim

theorem mem_entryOwned {own : State → List Nat} : b ∈ entryOwned F own g e ↔
    (∃ h, nested F g e = some h ∧ b ∈ own h) ∨ b ∈ entryBlocks g e := by
  rw [entryOwned, List.mem_append]
  cases nested F g e with
  | none => simp
  | some h => simp

theorem Forest.nested_at (hF : Forest root m F) (hs : F s = some g) (he : e ∈ entries g)
    (hn : nested F g e = some h) : ObjectAt m s ⟨e.val, 0⟩ :=
  .field .here ((mem_objectFields_object (hF.inv s g hs)).mpr
    ⟨e, he, rfl, rfl, (nested_eq_some.mp hn).1⟩)

/-- Whatever the depth, the blocks listed are below the slot. -/
theorem Forest.below_of_mem_owned (hF : Forest root m F) (hs : F s = some g)
    (hb : b ∈ owned F depth g) : Below m s b := by
  induction depth generalizing s g with
  | zero =>
    exact ⟨s, .here, (objectBlock_iff (hF.inv s g hs)).mpr (List.mem_append_right _ hb)⟩
  | succ depth ih =>
    have hown := objectBlock_iff (b := b) (hF.inv s g hs)
    rcases List.mem_append.mp hb with hb | hb
    · obtain ⟨e, he, hb⟩ := List.mem_flatMap.mp hb
      rcases mem_entryOwned.mp hb with ⟨h, hn, hb⟩ | hb
      · obtain ⟨t, hat, ht⟩ := ih (nested_eq_some.mp hn).2 hb
        exact ⟨t, (hF.nested_at hs he hn).trans hat, ht⟩
      · exact ⟨s, .here, hown.mpr (List.mem_append_left _ (List.mem_flatMap.mpr ⟨e, he, hb⟩))⟩
    · exact ⟨s, .here, hown.mpr (List.mem_append_right _ hb)⟩

/-- What is below a slot is allocated after it. -/
theorem Forest.lt_of_mem_owned (hF : Forest root m F) (hs : F s = some g)
    (hb : b ∈ owned F depth g) : s.block < b := by
  obtain ⟨t, hat, ht⟩ := hF.below_of_mem_owned hs hb
  obtain ⟨h, hh⟩ := hF.at_ghost hs hat
  have hI := hF.inv t h hh
  obtain ⟨n, hn⟩ := Inv.objectBlocks_heap hI ((objectBlock_iff hI).mp ht)
  exact Nat.lt_of_le_of_lt (hF.at_le hs hat) (hF.above t h b n hh hn)

/-- The levels still to come are enough: an object is allocated after the one
around it. -/
def Deep (m : Mem) (depth : Nat) (g : State) : Prop := ∀ e ∈ entries g, m.next ≤ depth + e.val

theorem Forest.entry_lt (hF : Forest root m F) (hs : F s = some g) (he : e ∈ entries g) :
    s.block < e.val ∧ e.val < m.next := by
  have hI := hF.inv s g hs
  obtain ⟨p, hp, _⟩ := hI.entry_payload he
  exact ⟨hF.above s g _ _ hs hp, hI.repr.node_lt hp⟩

theorem Forest.deep_pos (hF : Forest root m F) (hs : F s = some g) (hd : Deep m depth g)
    (he : e ∈ entries g) : ∃ d, depth = d + 1 := by
  have := (hF.entry_lt hs he).2
  have := hd e he
  exact ⟨depth - 1, by omega⟩

theorem Forest.deep_nested (hF : Forest root m F) (hd : Deep m (depth + 1) g)
    (he : e ∈ entries g) (hn : nested F g e = some h) : Deep m depth h := by
  intro e' he'
  have := (hF.entry_lt (nested_eq_some.mp hn).2 he').1
  have := hd e he
  simp only at *
  omega

/-- With no level left there is nothing to walk. -/
theorem Forest.entries_nil (hF : Forest root m F) (hs : F s = some g) (hd : Deep m 0 g) :
    entries g = [] := by
  refine List.eq_nil_iff_forall_not_mem.mpr fun e he => ?_
  obtain ⟨d, hd'⟩ := hF.deep_pos hs hd he
  cases hd'

/-- With levels enough, all blocks below are listed. -/
theorem Forest.mem_owned_of_at (hF : Forest root m F) (hs : F s = some g) (hd : Deep m depth g)
    (hat : ObjectAt m s t) (hb : ObjectBlock m t b) : b ∈ owned F depth g := by
  induction depth generalizing s g with
  | zero =>
    have hnil := hF.entries_nil hs hd
    rcases hat.cases_head with rfl | ⟨k, v, hk, _⟩
    · have hmem := (objectBlock_iff (hF.inv t g hs)).mp hb
      rwa [objectBlocks, hnil] at hmem
    · obtain ⟨e, he, _⟩ := (mem_objectFields (hF.inv s g hs)).mp hk
      rw [hnil] at he
      cases he
  | succ depth ih =>
    have hI := hF.inv s g hs
    rcases hat.cases_head with rfl | ⟨k, v, hk, hat⟩
    · have hmem := (objectBlock_iff hI).mp hb
      rcases List.mem_append.mp hmem with hmem | hmem
      · obtain ⟨e, he, hmem⟩ := List.mem_flatMap.mp hmem
        exact List.mem_append_left _
          (List.mem_flatMap.mpr ⟨e, he, mem_entryOwned.mpr (.inr hmem)⟩)
      · exact List.mem_append_right _ hmem
    · obtain ⟨e, he, _, rfl, hslot⟩ := (mem_objectFields_object hI).mp hk
      obtain ⟨h, hh⟩ := hF.child s g _ hs hslot
      have hn : nested F g e = some h := nested_eq_some.mpr ⟨hslot, hh⟩
      have hmem := ih hh (hF.deep_nested hd he hn) hat
      exact List.mem_append_left _
        (List.mem_flatMap.mpr ⟨e, he, mem_entryOwned.mpr (.inl ⟨h, hn, hmem⟩)⟩)

/-- With levels enough, the list is what is below the slot. -/
theorem Forest.mem_owned_iff (hF : Forest root m F) (hs : F s = some g) (hd : Deep m depth g) :
    b ∈ owned F depth g ↔ Below m s b := by
  constructor
  · exact hF.below_of_mem_owned hs
  · rintro ⟨t, hat, ht⟩
    exact hF.mem_owned_of_at hs hd hat ht

/-! ## No block twice -/

/-- Two entries of an object have no block in common. -/
theorem Forest.entryBlocks_disjoint (hF : Forest root m F) (hs : F s = some g)
    (he : e ∈ entries g) (he' : e' ∈ entries g) (hne : e ≠ e') :
    (entryBlocks g e).Disjoint (entryBlocks g e') := by
  intro b hb hb'
  have hI := hF.inv s g hs
  have hinj (hv : e.val = e'.val) : False :=
    hne (hI.val_inj e e' (hI.published he) (hI.published he') hv)
  rcases Inv.entryBlocks_cases hI he hb with ⟨hv, p, hp⟩ | ⟨hs₁, bs, hstr⟩
  · rcases Inv.entryBlocks_cases hI he' hb' with ⟨hv', _⟩ | ⟨_, bs, hstr⟩
    · exact hinj (hv.symm.trans hv')
    · rw [hp] at hstr
      cases hstr
  · rcases Inv.entryBlocks_cases hI he' hb' with ⟨_, p, hp⟩ | ⟨hs₂, _⟩
    · rw [hp] at hstr
      cases hstr
    · exact hinj (hF.strings s g _ _ b hs hs₁ hs₂)

/-- What is below a nested object is not the object's own. -/
theorem Forest.nested_apart (hF : Forest root m F) (hs : F s = some g) (he : e ∈ entries g)
    (hn : nested F g e = some h) (hb : Below m ⟨e.val, 0⟩ b) : b ∉ objectBlocks g := by
  intro hmem
  obtain ⟨t, hat, ht⟩ := hb
  have hFe := (nested_eq_some.mp hn).2
  obtain ⟨q, hq⟩ := hF.at_ghost hFe hat
  obtain rfl := hF.owner_unique hs hq ((objectBlock_iff (hF.inv s g hs)).mpr hmem) ht
  have hle := hF.at_le hFe hat
  have := (hF.entry_lt hs he).1
  simp only at hle
  omega

theorem mem_objectBlocks_of_entry (he : e ∈ entries g) (hb : b ∈ entryBlocks g e) :
    b ∈ objectBlocks g := List.mem_append_left _ (List.mem_flatMap.mpr ⟨e, he, hb⟩)

theorem mem_objectBlocks_of_cur (hb : b ∈ g.cur.toList) : b ∈ objectBlocks g :=
  List.mem_append_right _ hb

/-- Two entries of an object own nothing in common. -/
theorem Forest.entryOwned_disjoint (hF : Forest root m F) (hs : F s = some g)
    (he : e ∈ entries g) (he' : e' ∈ entries g) (hne : e ≠ e') :
    (entryOwned F (owned F depth) g e).Disjoint (entryOwned F (owned F depth) g e') := by
  have hI := hF.inv s g hs
  intro b hb hb'
  rcases mem_entryOwned.mp hb with ⟨h, hn, hb⟩ | hb
  · have hbelow := hF.below_of_mem_owned (nested_eq_some.mp hn).2 hb
    rcases mem_entryOwned.mp hb' with ⟨h', hn', hb'⟩ | hb'
    · obtain ⟨t, hat, ht⟩ := hbelow
      obtain ⟨t', hat', ht'⟩ := hF.below_of_mem_owned (nested_eq_some.mp hn').2 hb'
      obtain ⟨q, hq⟩ := hF.at_ghost (nested_eq_some.mp hn).2 hat
      obtain ⟨q', hq'⟩ := hF.at_ghost (nested_eq_some.mp hn').2 hat'
      obtain rfl := hF.owner_unique hq hq' ht ht'
      have hv := hF.at_unique hs (nested_eq_some.mp hn).1 (nested_eq_some.mp hn').1 hat hat'
      exact hne (hI.val_inj e e' (hI.published he) (hI.published he') hv)
    · exact hF.nested_apart hs he hn hbelow (mem_objectBlocks_of_entry he' hb')
  · rcases mem_entryOwned.mp hb' with ⟨h', hn', hb'⟩ | hb'
    · have hbelow := hF.below_of_mem_owned (nested_eq_some.mp hn').2 hb'
      exact hF.nested_apart hs he' hn' hbelow (mem_objectBlocks_of_entry he hb)
    · exact hF.entryBlocks_disjoint hs he he' hne hb hb'

theorem Inv.entries_pairwise (hI : Inv s m g) {R : Obj.Entry → Obj.Entry → Prop}
    (h : ∀ e ∈ entries g, ∀ e' ∈ entries g, e ≠ e' → R e e') : (entries g).Pairwise R :=
  (List.Nodup.of_map _ hI.entries_nodup).pairwise_of_forall_ne h

theorem Forest.cur_not_mem_entryOwned (hF : Forest root m F) (hs : F s = some g)
    (he : e ∈ entries g) (hc : g.cur = some b) : b ∉ entryOwned F (owned F depth) g e := by
  intro hb
  rcases mem_entryOwned.mp hb with ⟨h, hn, hb⟩ | hb
  · exact hF.nested_apart hs he hn (hF.below_of_mem_owned (nested_eq_some.mp hn).2 hb)
      (mem_objectBlocks_of_cur (Option.mem_toList.mpr hc))
  · exact Inv.cur_not_mem_entryBlocks (hF.inv s g hs) he hc hb

/-- **No block is listed twice.** -/
theorem Forest.owned_nodup (hF : Forest root m F) (hs : F s = some g) :
    (owned F depth g).Nodup := by
  induction depth generalizing s g with
  | zero => exact g.cur.toList_nodup
  | succ depth ih =>
    have hI := hF.inv s g hs
    refine List.nodup_append'.mpr ⟨List.pairwise_flatMap.mpr ⟨fun e he => ?_, ?_⟩,
      g.cur.toList_nodup, ?_⟩
    · refine List.nodup_append'.mpr ⟨?_, Inv.entryBlocks_nodup hI e, ?_⟩
      · cases hn : nested F g e with
        | none => exact List.nodup_nil
        | some h => exact ih (nested_eq_some.mp hn).2
      · intro b hb hb'
        cases hn : nested F g e with
        | none =>
          rw [hn] at hb
          cases hb
        | some h =>
          rw [hn] at hb
          exact hF.nested_apart hs he hn (hF.below_of_mem_owned (nested_eq_some.mp hn).2 hb)
            (mem_objectBlocks_of_entry he hb')
    · refine Inv.entries_pairwise hI fun e he e' he' hne => ?_
      intro b hb b' hb' heq
      exact hF.entryOwned_disjoint hs he he' hne hb (heq ▸ hb')
    · intro b hb hc
      obtain ⟨e, he, hb⟩ := List.mem_flatMap.mp hb
      exact hF.cur_not_mem_entryOwned hs he (Option.mem_toList.mp hc) hb

end owned
end Msm.Tree
