import Msm.Api.Segment
import Msm.Seg.Runs
import Msm.Typed.Statements

/-! # A process of typed segments

A process creates segments, opens them by name, works on them through typed views
and closes them. What it does is a program on a map from names to typed values:
no two segments share a block, a statement on one leaves the others as they are,
and a close frees what its segment owns. A buffer that a slot has given up is
nobody's, and stays as it is to the end of the process. -/
namespace Msm.Seg
open Msm.Exec Msm.CMem Msm.Api Msm.Own

/-! ## Commands -/

inductive Command where
  | create (name : CStr) (type : Ty)
  | use (name : CStr) (type : Ty) (st : Typed.Statement type)
  | close (name : CStr)
  | getBase (name : CStr)

inductive Outcome where
  | view (p : Ptr)
  | threw (e : RuntimeError)
  | got (x : Typed.Got)
  | closed
  | base (p : Ptr)

def Command.exec : Command → Process → Except Stop (Outcome × Process)
  | .create name type, s => do
    let (r, s) ← segmentCreate type (some name) s
    match r with
    | .error e => pure (.threw e, s)
    | .ok p => pure (.view p, s)
  | .use name _ st, s => do
    let (r, s) ← segmentOpen (some name) s
    match r with
    | .error e => pure (.threw e, s)
    | .ok p => do
      let (x, m) ← onHeap (st.code p) s.mem
      pure (.got x, { s with mem := m })
  | .close name, s => do
    let (_, s) ← segmentClose (some name) s
    pure (.closed, s)
  | .getBase name, s => do
    let (p, s) ← segmentGetBase (some name) s
    pure (.base p, s)

/-! ## What they mean -/

/-- The open segments: a type and a value under each name. -/
abbrev Segments := CStr → Option (Σ type : Ty, type.Val)

inductive Reply where
  | view
  | threw (e : RuntimeError)
  | got (r : Typed.Reply)
  | closed
  | base (isOpen : Bool)

/-- A view of another type than the segment's is not a view of its value. -/
noncomputable def Command.meaning (σ : Segments) : Command → Except Stop (Reply × Segments)
  | .create name type => match σ name with
    | some _ => .error (.aborted "[msm_allocator] FATAL: duplicate name '%s'\n" [.str name.bytes])
    | none => .ok (.view, Function.update σ name (some ⟨type, type.zero⟩))
  | .use name type st => match σ name with
    | none => .ok (.threw ⟨"msm::segment::open failed for '%s'", name⟩, σ)
    | some x => open Classical in
      if h : x.1 = type then do
        let (r, v) ← (st.meaning (h ▸ x.2)).mapError Stop.fault
        pure (.got r, Function.update σ name (some ⟨type, v⟩))
      else .error (.fault .outOfBounds)
  | .close name => .ok (.closed, Function.update σ name none)
  | .getBase name => .ok (.base (σ name).isSome, σ)

theorem meaning_use {σ : Segments} {name : CStr} {type : Ty} {v : type.Val}
    (h : σ name = some ⟨type, v⟩) (st : Typed.Statement type) :
    (Command.use name type st).meaning σ = ((st.meaning v).mapError Stop.fault).map fun rv =>
      (.got rv.1, Function.update σ name (some ⟨type, rv.2⟩)) := by
  simp only [Command.meaning, h, dif_pos]
  cases st.meaning v <;> rfl

/-- The types are below 4 GiB, with distinct field names and without objects; a
segment is opened as what it was created as, and a statement fits its value. -/
def Command.Allowed (σ : Segments) : Command → Prop
  | .create _ type => type.Sound ∧ type.size < 2 ^ 32 ∧ type.WithoutObject
  | .use name type st => ∀ x, σ name = some x → ∃ v, x = ⟨type, v⟩ ∧ st.Fits v
  | _ => True

def Outcome.Shows (s : Process) : Outcome → Reply → Prop
  | .view p, .view => p ≠ none
  | .threw e, .threw e' => e = e'
  | .got x, .got r => x.Shows s.mem r
  | .closed, .closed => True
  | .base p, .base isOpen => p.isSome = isOpen
  | _, _ => False

/-- The block is the root of the segment, or a slot of the segment owns it. -/
def Owns (s : Process) (name : CStr) (type : Ty) (c : Nat) : Prop :=
  ∃ b, msmGet (some name) s = .ok (some ⟨b, 0⟩, s) ∧
    (c = b ∨ ∃ x, Owner s.mem type ⟨b, 0⟩ x c)

/-- The process has exactly these segments, with these values, on disjoint blocks. -/
structure Agrees (s : Process) (σ : Segments) : Prop where
  absent : ∀ n, σ n = none → msmGet (some n) s = .ok (none, s)
  shows : ∀ n x, σ n = some x →
    ∃ b, msmGet (some n) s = .ok (some ⟨b, 0⟩, s) ∧ x.1.Shows s.mem ⟨b, 0⟩ x.2
  apart : ∀ n n' x x' c, σ n = some x → σ n' = some x' → Owns s n x.1 c → Owns s n' x'.1 c → n = n'

/-! ## The invariant -/

/-- The root of a segment, and the blocks that slots of the segment own. -/
def footprint (m : Mem) (type : Ty) (b : Nat) : List Nat := b :: type.shape.blocks m ⟨b, 0⟩

/-- The segment is in the registry with its root `b`, and holds its value. -/
structure Live (s : Process) (name : CStr) (b : Nat) (x : Σ type : Ty, type.Val) : Prop where
  entry : Keyed.find s.registry name =
    some ⟨some ⟨b, 0⟩, x.1.slotSize, some fun ptr => x.1.deallocate ptr, 0⟩
  sound : x.1.Sound
  size : x.1.size < 2 ^ 32
  plain : x.1.WithoutObject
  holds : Typed.Holds x.1 ⟨b, 0⟩ s.mem x.2

structure Stored (s : Process) (σ : Segments) (β : CStr → Nat) : Prop where
  script : s.mem.script = []
  live : ∀ n x, σ n = some x → Live s n (β n) x
  absent : ∀ n, σ n = none → Keyed.find s.registry n = none
  apart : ∀ n n' x x', σ n = some x → σ n' = some x' → n ≠ n' →
    (footprint s.mem x.1 (β n)).Disjoint (footprint s.mem x'.1 (β n'))

section live
variable {s s' : Process} {n : CStr} {b : Nat} {x : Σ type : Ty, type.Val}

theorem msmGet_of_find {e : Entry} (h : Keyed.find s.registry n = some e) :
    msmGet (some n) s = .ok (e.ptr, s) := by
  simp only [msmGet, h]

theorem msmGet_of_absent (h : Keyed.find s.registry n = none) :
    msmGet (some n) s = .ok (none, s) := by
  simp only [msmGet, h]

theorem Live.get (h : Live s n b x) : msmGet (some n) s = .ok (some ⟨b, 0⟩, s) :=
  msmGet_of_find h.entry

theorem Live.lt (h : Live s n b x) {c : Nat} (hc : c ∈ footprint s.mem x.1 b) : c < s.mem.next := by
  rcases List.mem_cons.mp hc with rfl | hc
  · exact h.holds.held.valid.lt
  · exact h.holds.held.lt hc

/-- The footprint is what the segment owns. -/
theorem Live.owns_iff (h : Live s n b x) (c : Nat) :
    Owns s n x.1 c ↔ c ∈ footprint s.mem x.1 b := by
  have hsize : x.1.size < 2 ^ 64 := by have := h.size; omega
  have hmem : (∃ y, Owner s.mem x.1 ⟨b, 0⟩ y c) ↔ c ∈ x.1.shape.blocks s.mem ⟨b, 0⟩ := by
    simp only [owner_iff hsize h.holds.held, Shape.blocks, List.mem_map, Prod.exists,
      exists_eq_right]
  rw [footprint, List.mem_cons, ← hmem]
  constructor
  · rintro ⟨b', hb', hc⟩
    rw [h.get] at hb'
    cases hb'
    exact hc
  · exact fun hc => ⟨b, h.get, hc⟩

/-- A segment none of whose blocks has changed. -/
theorem Live.frame (h : Live s n b x) (hreg : Keyed.find s'.registry n = Keyed.find s.registry n)
    (hscript : s'.mem.script = [])
    (hb : ∀ c ∈ footprint s.mem x.1 b, s'.mem.block c = s.mem.block c) :
    Live s' n b x ∧ footprint s'.mem x.1 b = footprint s.mem x.1 b := by
  have hroot := hb b List.mem_cons_self
  obtain ⟨hheld, hblocks⟩ := h.holds.held.frame (Mem.sizeOf_of_block hroot)
    (fun o _ _ => Mem.cellAt_of_block hroot o) fun c hc => hb c (List.mem_cons_of_mem b hc)
  have hv := hheld.valid
  rw [x.1.size_shape] at hv
  have hshows := x.1.shows_move h.holds.held hv
    (Mem.read_congr fun o _ _ => Mem.cellAt_of_block hroot o)
    (fun c hc => hb c (List.mem_cons_of_mem b hc)) h.holds.shows
  exact ⟨⟨hreg.trans h.entry, h.sound, h.size, h.plain, hscript, hheld, hshows⟩,
    congrArg (b :: ·) hblocks⟩

end live

theorem Stored.agrees {s : Process} {σ : Segments} {β : CStr → Nat} (h : Stored s σ β) :
    Agrees s σ where
  absent n hn := msmGet_of_absent (h.absent n hn)
  shows n x hx := ⟨β n, (h.live n x hx).get, (h.live n x hx).holds.shows⟩
  apart n n' x x' c hx hx' hc hc' := by
    by_contra hne
    exact h.apart n n' x x' hx hx' hne (((h.live n x hx).owns_iff c).mp hc)
      (((h.live n' x' hx').owns_iff c).mp hc')

/-! ## One command -/

/-- What a command does to the blocks: those of no segment stay as they are, and
what a segment owns afterwards it owned before, or it is new. -/
structure Moves (s : Process) (σ : Segments) (β : CStr → Nat) (s' : Process) (σ' : Segments)
    (β' : CStr → Nat) : Prop where
  next_le : s.mem.next ≤ s'.mem.next
  other : ∀ c, c < s.mem.next → (∀ n x, σ n = some x → c ∉ footprint s.mem x.1 (β n)) →
    s'.mem.block c = s.mem.block c
  fresh : ∀ n x, σ' n = some x → ∀ c ∈ footprint s'.mem x.1 (β' n),
    (∃ y, σ n = some y ∧ c ∈ footprint s.mem y.1 (β n)) ∨ s.mem.next ≤ c

section steps
variable {s s' : Process} {σ : Segments} {β : CStr → Nat} {n : CStr}
  {x : Σ type : Ty, type.Val}

theorem Moves.refl (s : Process) (σ : Segments) (β : CStr → Nat) : Moves s σ β s σ β :=
  ⟨Nat.le_refl _, fun _ _ _ => rfl, fun _ x hx _ hc => .inl ⟨x, hx, hc⟩⟩

/-- Only blocks that the segments at `n` own have changed, and new ones. -/
structure Around (s : Process) (σ : Segments) (β : CStr → Nat) (n : CStr) (s' : Process) :
    Prop where
  next_le : s.mem.next ≤ s'.mem.next
  script : s'.mem.script = []
  registry : ∀ k, k ≠ n → Keyed.find s'.registry k = Keyed.find s.registry k
  other : ∀ c, c < s.mem.next → (∀ y, σ n = some y → c ∉ footprint s.mem y.1 (β n)) →
    s'.mem.block c = s.mem.block c

/-- The other segments are as they were. -/
theorem Stored.others (h : Stored s σ β) (ha : Around s σ β n s') {k : CStr}
    {y : Σ type : Ty, type.Val} (hk : k ≠ n) (hy : σ k = some y) :
    Live s' k (β k) y ∧ footprint s'.mem y.1 (β k) = footprint s.mem y.1 (β k) := by
  have hlive := h.live k y hy
  refine hlive.frame (ha.registry k hk) ha.script fun c hc =>
    ha.other c (hlive.lt hc) fun z hz hcz => ?_
  exact h.apart k n y z hy hz hk hc hcz

/-- A segment has come, or has another value. -/
theorem Stored.put (h : Stored s σ β) (ha : Around s σ β n s') {b : Nat} (hlive : Live s' n b x)
    (hfresh : ∀ c ∈ footprint s'.mem x.1 b,
      (∃ y, σ n = some y ∧ c ∈ footprint s.mem y.1 (β n)) ∨ s.mem.next ≤ c) :
    Stored s' (Function.update σ n (some x)) (Function.update β n b) ∧
      Moves s σ β s' (Function.update σ n (some x)) (Function.update β n b) := by
  have hself {y : Σ type : Ty, type.Val} (hy : Function.update σ n (some x) n = some y) :
      x = y := by
    rw [Function.update_self] at hy
    exact Option.some.inj hy
  have hother {k : CStr} (hk : k ≠ n) {y : Σ type : Ty, type.Val}
      (hy : Function.update σ n (some x) k = some y) : σ k = some y := by
    rwa [Function.update_of_ne hk] at hy
  have hdisj {k : CStr} (hk : k ≠ n) {y : Σ type : Ty, type.Val} (hy : σ k = some y) :
      (footprint s'.mem x.1 b).Disjoint (footprint s.mem y.1 (β k)) := by
    intro c hc hcy
    rcases hfresh c hc with ⟨z, hz, hcz⟩ | hge
    · exact h.apart k n y z hy hz hk hcy hcz
    · exact Nat.not_lt.mpr hge ((h.live k y hy).lt hcy)
  constructor
  · refine ⟨ha.script, fun k y hy => ?_, fun k hk => ?_, fun k k' y y' hy hy' hne => ?_⟩
    · by_cases hk : k = n
      · subst hk
        obtain rfl := hself hy
        rw [Function.update_self]
        exact hlive
      · rw [Function.update_of_ne hk]
        exact (h.others ha hk (hother hk hy)).1
    · by_cases hkn : k = n
      · rw [hkn, Function.update_self] at hk
        cases hk
      · rw [Function.update_of_ne hkn] at hk
        rw [ha.registry k hkn]
        exact h.absent k hk
    · by_cases hk : k = n
      · subst hk
        have hk' : k' ≠ k := Ne.symm hne
        obtain rfl := hself hy
        rw [Function.update_self, Function.update_of_ne hk', (h.others ha hk' (hother hk' hy')).2]
        exact hdisj hk' (hother hk' hy')
      · rw [Function.update_of_ne hk, (h.others ha hk (hother hk hy)).2]
        by_cases hk' : k' = n
        · subst hk'
          obtain rfl := hself hy'
          rw [Function.update_self]
          exact fun c hc hc' => hdisj hk (hother hk hy) hc' hc
        · rw [Function.update_of_ne hk', (h.others ha hk' (hother hk' hy')).2]
          exact h.apart k k' y y' (hother hk hy) (hother hk' hy') hne
  · refine ⟨ha.next_le, fun c hc hnot => ha.other c hc fun y hy => hnot n y hy,
      fun k y hy c hc => ?_⟩
    by_cases hk : k = n
    · subst hk
      obtain rfl := hself hy
      rw [Function.update_self] at hc
      exact hfresh c hc
    · rw [Function.update_of_ne hk, (h.others ha hk (hother hk hy)).2] at hc
      exact .inl ⟨y, hother hk hy, hc⟩

/-- A segment has gone. -/
theorem Stored.drop (h : Stored s σ β) (ha : Around s σ β n s')
    (hgone : Keyed.find s'.registry n = none) : Stored s' (Function.update σ n none) β ∧
      Moves s σ β s' (Function.update σ n none) β := by
  have hother {k : CStr} {y : Σ type : Ty, type.Val}
      (hy : Function.update σ n none k = some y) : k ≠ n ∧ σ k = some y := by
    by_cases hk : k = n
    · rw [hk, Function.update_self] at hy
      cases hy
    · rw [Function.update_of_ne hk] at hy
      exact ⟨hk, hy⟩
  constructor
  · refine ⟨ha.script, fun k y hy => ?_, fun k hk => ?_, fun k k' y y' hy hy' hne => ?_⟩
    · obtain ⟨hk, hy⟩ := hother hy
      exact (h.others ha hk hy).1
    · by_cases hkn : k = n
      · rw [hkn]
        exact hgone
      · rw [Function.update_of_ne hkn] at hk
        rw [ha.registry k hkn]
        exact h.absent k hk
    · obtain ⟨hk, hy⟩ := hother hy
      obtain ⟨hk', hy'⟩ := hother hy'
      rw [(h.others ha hk hy).2, (h.others ha hk' hy').2]
      exact h.apart k k' y y' hy hy' hne
  · refine ⟨ha.next_le, fun c hc hnot => ha.other c hc fun y hy => hnot n y hy,
      fun k y hy c hc => ?_⟩
    obtain ⟨hk, hy⟩ := hother hy
    rw [(h.others ha hk hy).2] at hc
    exact .inl ⟨y, hy, hc⟩

/-- The command does what it means, and moves blocks as a command may. -/
def Steps (s : Process) (σ : Segments) (β : CStr → Nat) (c : Command) : Prop :=
  Does Outcome.Shows (fun s' σ' => ∃ β', Stored s' σ' β' ∧ Moves s σ β s' σ' β') (c.exec s)
    (c.meaning σ)

theorem Stored.mallocOk (h : Stored s σ β) : s.mem.mallocOk = true := by
  rw [Mem.mallocOk, h.script]
  rfl

theorem create_eq {type : Ty} (hsize : type.slotSize ≠ 0) (hm : s.mem.mallocOk = true) :
    (Command.create n type).exec s = match Keyed.find s.registry n with
      | some _ => .error (.aborted "[msm_allocator] FATAL: duplicate name '%s'\n" [.str n.bytes])
      | none => .ok (.view (some ⟨s.mem.next, 0⟩), ⟨Keyed.set s.registry n ⟨some ⟨s.mem.next, 0⟩,
          type.slotSize, some fun ptr => type.deallocate ptr, 0⟩,
        zeroedBlock s.mem type.slotSize.toNat⟩) := by
  simp only [Command.exec, segmentCreate, msmAlloc, allocEntry_eq, hsize, if_false, hm, if_true]
  cases Keyed.find s.registry n <;> rfl

/-- A new segment has a block of its own, zeroed. -/
theorem Stored.create (h : Stored s σ β) {type : Ty} (hsound : type.Sound)
    (hsize : type.size < 2 ^ 32) (hplain : type.WithoutObject) : Steps s σ β (.create n type) := by
  have hslot : type.slotSize.toNat = type.size := Ty.toNat_slotSize (by omega)
  have h0 : type.slotSize ≠ 0 := by
    intro h0
    have h8 := eight_le_size type
    rw [h0] at hslot
    have : (0 : UInt64).toNat = 0 := rfl
    omega
  rw [Steps, create_eq h0 h.mallocOk, Command.meaning]
  cases hσ : σ n with
  | some x =>
    rw [(h.live n x hσ).entry]
    rfl
  | none =>
    rw [h.absent n hσ]
    have hvalid :
        (s.mem.tick.alloc type.slotSize.toNat).Valid ⟨s.mem.next, 0⟩ type.slotSize.toNat :=
      ⟨_, Mem.sizeOf_alloc s.mem.tick _, Nat.le_of_eq (Nat.zero_add _)⟩
    have hkeeps : s.mem.Keeps (zeroedBlock s.mem type.slotSize.toNat) :=
      ((Mem.Keeps.refl s.mem).tick.alloc _).write (Nat.le_refl _)
    have hscript : (zeroedBlock s.mem type.slotSize.toNat).script = [] := by
      have htail : s.mem.script.tail = [] := by rw [h.script]; rfl
      rw [zeroedBlock, Mem.write_script]
      exact htail
    have hz : (zeroedBlock s.mem type.slotSize.toNat).read ⟨s.mem.next, 0⟩ type.slotSize.toNat =
        List.replicate type.slotSize.toNat (.byte 0) :=
      Mem.read_write_all hvalid List.length_replicate
    have hv : (zeroedBlock s.mem type.slotSize.toNat).Valid ⟨s.mem.next, 0⟩ type.slotSize.toNat :=
      (Mem.valid_write ..).mpr hvalid
    have hholds := Typed.Holds.start (r := ⟨s.mem.next, 0⟩) hsize hscript hv hz
    have hempty :
        type.shape.blocks (zeroedBlock s.mem type.slotSize.toNat) ⟨s.mem.next, 0⟩ = [] := by
      rw [hslot] at hz hv ⊢
      rw [← type.size_shape] at hz hv ⊢
      exact (Shape.held_zero hv hz).2
    have hlive : Live ⟨Keyed.set s.registry n ⟨some ⟨s.mem.next, 0⟩, type.slotSize,
        some fun ptr => type.deallocate ptr, 0⟩, zeroedBlock s.mem type.slotSize.toNat⟩ n s.mem.next
        ⟨type, type.zero⟩ := ⟨Keyed.find_set_self, hsound, hsize, hplain, hholds⟩
    obtain ⟨hs, hm⟩ := h.put ⟨hkeeps.next_le, hscript, fun k hk => Keyed.find_set_of_ne hk,
      fun c hc _ => hkeeps.block_eq c hc⟩ hlive fun c hc => by
        rw [footprint, hempty, List.mem_singleton] at hc
        exact .inr (Nat.le_of_eq hc.symm)
    exact ⟨_, _, rfl, Option.some_ne_none _, _, hs, hm⟩

/-- A statement on an open segment. -/
theorem Stored.use (h : Stored s σ β) {type : Ty} {st : Typed.Statement type}
    (hfits : ∀ x, σ n = some x → ∃ v, x = ⟨type, v⟩ ∧ st.Fits v) :
    Steps s σ β (.use n type st) := by
  rw [Steps]
  cases hσ : σ n with
  | none =>
    simp only [Command.meaning, hσ]
    refine ⟨.threw ⟨"msm::segment::open failed for '%s'", n⟩, s, ?_, rfl, β, h, .refl s σ β⟩
    simp only [Command.exec, segmentOpen, msmGet_of_absent (h.absent n hσ)]
    rfl
  | some x =>
    obtain ⟨v, rfl, hst⟩ := hfits x hσ
    have hlive := h.live n _ hσ
    have hexec : (Command.use n type st).exec s =
        (onHeap (st.code (some ⟨β n, 0⟩)) s.mem).map
          fun r => (.got r.1, { s with mem := r.2 }) := by
      simp only [Command.exec, segmentOpen, hlive.get]
      rfl
    have hdoes := hlive.holds.statement hlive.sound hlive.size hst
    rw [meaning_use hσ, hexec, onHeap]
    cases hmean : st.meaning v with
    | error f =>
      rw [hmean] at hdoes
      have hfault : (st.code (some ⟨β n, 0⟩)).run s.mem = .error f := hdoes
      rw [hfault]
      rfl
    | ok rv =>
      rw [hmean] at hdoes
      obtain ⟨got, m', hr, hshow, hholds, he⟩ := hdoes
      rw [hr]
      have hlive' : Live { s with mem := m' } n (β n) ⟨type, rv.2⟩ :=
        ⟨hlive.entry, hlive.sound, hlive.size, hlive.plain, hholds⟩
      have haround : Around s σ β n { s with mem := m' } :=
        ⟨he.next_le, hholds.script, fun _ _ => rfl, fun c hc hnot => by
          have hnot' := hnot _ hσ
          rw [footprint, List.mem_cons, not_or] at hnot'
          exact he.other c hc hnot'.1 hnot'.2⟩
      obtain ⟨hs, hm⟩ := h.put haround hlive' fun c hc => by
        rcases List.mem_cons.mp hc with rfl | hc
        · exact .inl ⟨_, hσ, List.mem_cons_self⟩
        · exact (he.fresh c hc).imp_left fun hc => ⟨_, hσ, List.mem_cons_of_mem _ hc⟩
      exact ⟨.got got, _, rfl, hshow, _, hs, hm⟩

/-- What a close does: it frees the footprint of its segment, each block once. -/
theorem Live.close {b : Nat} (h : Live s n b x) : ∃ m', (segmentClose (some n) s) =
      .ok ((), ⟨Keyed.remove s.registry n, m'⟩) ∧
    (∃ bs, Ends (destroyEntry ⟨some ⟨b, 0⟩, x.1.slotSize, some fun ptr => x.1.deallocate ptr, 0⟩)
      s.mem bs m' ∧ bs.Perm (footprint s.mem x.1 b)) ∧
    ∀ c, c < s.mem.next → c ∉ footprint s.mem x.1 b → m'.block c = s.mem.block c := by
  have hsize : x.1.size < 2 ^ 64 := by have := h.size; omega
  obtain ⟨m₁, hrun, he⟩ := x.1.releases h.plain hsize ⟨b, 0⟩ s.mem h.holds.held
  have hroot : m₁.sizeOf b ≠ none := by
    obtain ⟨sz, hsz, _⟩ := he.held.valid
    rw [hsz]
    exact Option.some_ne_none sz
  have hfree : Ends (free (some ⟨b, 0⟩)) m₁ [b] (m₁.free b) := (Frees.last rfl hroot).toEnds
  have hend := hrun.bind (f := fun _ => free (some ⟨b, 0⟩)) hfree
  refine ⟨m₁.free b, ?_, ⟨_, hend, ?_⟩, fun c hc hnot => ?_⟩
  · simp only [segmentClose, msmFree, h.entry, onHeap, destroyEntry]
    rw [hend.run]
    rfl
  · exact List.perm_append_singleton b _
  · rw [footprint, List.mem_cons, not_or] at hnot
    rw [m₁.block_free_of_ne hnot.1, he.other c hc hnot.1 hnot.2]

theorem Stored.close (h : Stored s σ β) : Steps s σ β (.close n) := by
  rw [Steps, Command.meaning]
  cases hσ : σ n with
  | none =>
    refine ⟨.closed, s, ?_, trivial, β, ?_⟩
    · simp only [Command.exec, segmentClose, msmFree, h.absent n hσ]
      rfl
    · exact h.drop ⟨Nat.le_refl _, h.script, fun _ _ => rfl, fun _ _ _ => rfl⟩ (h.absent n hσ)
  | some x =>
    obtain ⟨m', hc, ⟨bs, hend, _⟩, hother⟩ := (h.live n x hσ).close
    refine ⟨.closed, ⟨Keyed.remove s.registry n, m'⟩, ?_, trivial, β, ?_⟩
    · simp only [Command.exec, hc]
      rfl
    · refine h.drop ⟨Mem.run_next_le hend.run, ?_, fun k hk => Keyed.find_remove_of_ne hk,
        fun c hlt hnot => hother c hlt (hnot x hσ)⟩ Keyed.find_remove_self
      exact Prog.run_keep (P := fun m : Mem => m.script = [])
        (fun _ _ _ _ h he => Mem.exec_script_nil h he) h.script hend.run

theorem Stored.getBase (h : Stored s σ β) : Steps s σ β (.getBase n) := by
  rw [Steps, Command.meaning]
  cases hσ : σ n with
  | none =>
    refine ⟨.base none, s, ?_, rfl, β, h, .refl s σ β⟩
    simp only [Command.exec, segmentGetBase, msmGet_of_absent (h.absent n hσ)]
    rfl
  | some x =>
    refine ⟨.base (some ⟨β n, 0⟩), s, ?_, rfl, β, h, .refl s σ β⟩
    simp only [Command.exec, segmentGetBase, (h.live n x hσ).get]
    rfl

/-- **One command** does what it means. -/
theorem Stored.command (h : Stored s σ β) {c : Command} (hc : c.Allowed σ) : Steps s σ β c := by
  cases c with
  | create name type => exact h.create hc.1 hc.2.1 hc.2.2
  | use name type st => exact h.use hc
  | close name => exact h.close
  | getBase name => exact h.getBase

end steps

/-! ## Runs -/

section runs
variable {s s' : Process} {σ : Segments} {β : CStr → Nat} {m₀ : Mem} {cs cs' : List Command}

/-- Commands that are allowed one after the other. -/
abbrev AllAllowed (σ : Segments) (cs : List Command) : Prop :=
  Exec.Allowed Command.meaning (fun _ σ c => c.Allowed σ) [] σ cs

theorem Stored.start (hm : m₀.script = []) : Stored ⟨[], m₀⟩ (fun _ => none) fun _ => 0 where
  script := hm
  live n x hx := by cases hx
  absent _ _ := rfl
  apart n n' x x' hx := by cases hx

/-- The blocks from `s` on: those of no segment stay as they are, and nobody's. -/
structure Keeps (s : Process) (σ : Segments) (β : CStr → Nat) (s' : Process) (σ' : Segments) :
    Prop where
  next_le : s.mem.next ≤ s'.mem.next
  kept : ∀ c, c < s.mem.next → (∀ n x, σ n = some x → c ∉ footprint s.mem x.1 (β n)) →
    s'.mem.block c = s.mem.block c ∧ ∀ n x, σ' n = some x → ¬ Owns s' n x.1 c

theorem Stored.run (h : Stored s σ β) (hr : Ran Command.exec s cs s') (ha : AllAllowed σ cs) :
    ∃ σ' β', after Command.meaning σ cs = .ok σ' ∧ Stored s' σ' β' ∧ Keeps s σ β s' σ' := by
  let R (_ : List Command) (s' : Process) (σ' : Segments) : Prop :=
    ∃ β', Stored s' σ' β' ∧ Keeps s σ β s' σ'
  have h0 : R [] s σ := by
    refine ⟨β, h, Nat.le_refl _, fun c _ hnot => ⟨rfl, fun n x hx hc => ?_⟩⟩
    exact hnot n x hx (((h.live n x hx).owns_iff c).mp hc)
  have hstep (cs : List Command) (s₁ : Process) (σ₁ : Segments) (c : Command) (hR : R cs s₁ σ₁)
      (hc : c.Allowed σ₁) : Does Outcome.Shows (R (cs ++ [c])) (c.exec s₁) (c.meaning σ₁) := by
    obtain ⟨β₁, h₁, hk⟩ := hR
    refine (h₁.command hc).mono (fun _ _ _ => id) fun s₂ σ₂ ⟨β₂, h₂, hm⟩ => ?_
    refine ⟨β₂, h₂, Nat.le_trans hk.next_le hm.next_le, fun b hb hnot => ?_⟩
    obtain ⟨hsame, hown⟩ := hk.kept b hb hnot
    have hnot₁ (n : CStr) (x : Σ type : Ty, type.Val) (hx : σ₁ n = some x) :
        b ∉ footprint s₁.mem x.1 (β₁ n) := fun hin =>
      hown n x hx (((h₁.live n x hx).owns_iff b).mpr hin)
    have hlt := Nat.lt_of_lt_of_le hb hk.next_le
    refine ⟨(hm.other b hlt hnot₁).trans hsame, fun n x hx hc => ?_⟩
    rcases hm.fresh n x hx b (((h₂.live n x hx).owns_iff b).mp hc) with ⟨y, hy, hin⟩ | hge
    · exact hnot₁ n y hy hin
    · exact Nat.not_lt.mpr hge hlt
  obtain ⟨σ', hafter, β', hs, hk⟩ := hr.refines h0 hstep ha
  exact ⟨σ', β', hafter, hs, hk⟩

/-- **A process of segments is a map from names to typed values.** From an empty
registry, with memory for all, in every state that commands reach there are exactly
the segments they mean, each with its value and on blocks of its own; and any next
command returns or throws what its meaning says and leaves the segments it means, or
ends the process as its meaning says: by the diagnostic of a duplicate name, or by a
null dereference. -/
theorem segments_refine_values (hm : m₀.script = []) (hr : Ran Command.exec ⟨[], m₀⟩ cs s)
    (ha : AllAllowed (fun _ => none) cs) :
    ∃ σ, after Command.meaning (fun _ => none) cs = .ok σ ∧ Agrees s σ ∧
      ∀ c : Command, c.Allowed σ → Does Outcome.Shows Agrees (c.exec s) (c.meaning σ) := by
  obtain ⟨σ, β, hafter, h, _⟩ := (Stored.start hm).run hr ha
  refine ⟨σ, hafter, h.agrees, fun c hc => ?_⟩
  exact (h.command hc).mono (fun _ _ _ => id) fun _ _ ⟨_, h', _⟩ => h'.agrees

/-- **What no segment owns is never touched again.** Whatever commands follow, a block
that is of no open segment, such as a buffer that a slot has given up, keeps its bytes,
is not freed and comes to belong to no segment. -/
theorem unowned_blocks_kept (hm : m₀.script = []) (hr : Ran Command.exec ⟨[], m₀⟩ cs s)
    (ha : AllAllowed (fun _ => none) cs) (hσ : after Command.meaning (fun _ => none) cs = .ok σ)
    (hr' : Ran Command.exec s cs' s') (ha' : AllAllowed σ cs') {c : Nat} (hc : c < s.mem.next)
    (hnot : ∀ n x, σ n = some x → ¬ Owns s n x.1 c) :
    s'.mem.block c = s.mem.block c ∧ ∃ σ', after Command.meaning σ cs' = .ok σ' ∧
      ∀ n x, σ' n = some x → ¬ Owns s' n x.1 c := by
  obtain ⟨σ₁, β, hσ₁, h, _⟩ := (Stored.start hm).run hr ha
  obtain rfl : σ = σ₁ := Except.ok.inj (hσ.symm.trans hσ₁)
  obtain ⟨σ', β', hσ', _, hk⟩ := h.run hr' ha'
  obtain ⟨hsame, hown⟩ := hk.kept c hc fun n x hx hin =>
    hnot n x hx (((h.live n x hx).owns_iff c).mpr hin)
  exact ⟨hsame, σ', hσ', hown⟩

/-- **A close frees what its segment owns**, each block once and nothing else. -/
theorem close_frees_owned (hm : m₀.script = []) (hr : Ran Command.exec ⟨[], m₀⟩ cs s)
    (ha : AllAllowed (fun _ => none) cs) (hσ : after Command.meaning (fun _ => none) cs = .ok σ)
    {n : CStr} {x : Σ type : Ty, type.Val} (hx : σ n = some x) :
    ∃ it m' bs, Keyed.find s.registry n = some it ∧ Ends (destroyEntry it) s.mem bs m' ∧
      (Command.close n).exec s = .ok (.closed, ⟨Keyed.remove s.registry n, m'⟩) ∧ bs.Nodup ∧
      ∀ c, c ∈ bs ↔ Owns s n x.1 c := by
  obtain ⟨σ₁, β, hσ₁, h, _⟩ := (Stored.start hm).run hr ha
  obtain rfl : σ = σ₁ := Except.ok.inj (hσ.symm.trans hσ₁)
  have hlive := h.live n x hx
  obtain ⟨m', hc, ⟨bs, hend, hperm⟩, _⟩ := hlive.close
  refine ⟨_, m', bs, hlive.entry, hend, ?_, hperm.nodup_iff.mpr ?_, fun c => ?_⟩
  · simp only [Command.exec, hc]
    rfl
  · exact List.nodup_cons.mpr ⟨hlive.holds.held.apart, hlive.holds.held.nodup⟩
  · rw [hperm.mem_iff, hlive.owns_iff]

end runs

/-! Two strings, one after the other, in one slot: the buffer of the first is nobody's,
and stays when the segment is closed. -/

def label : CStr := ⟨[116], by decide⟩

def setLabel (str : CStr) : Command :=
  .use label .string ⟨.string, .here, .change (.setString (some str))⟩

def labelled : List Command := [.create label .string, setLabel label, setLabel graph]

theorem labelled_ran : ∃ s s', Ran Command.exec ⟨[], ⟨[], []⟩⟩ labelled s ∧
    Ran Command.exec s [.close label] s' ∧ s.mem.next = 3 ∧
    msmGet (some label) s = .ok (some ⟨0, 0⟩, s) ∧
    s.mem.load .ptr ⟨0, 8⟩ = some (some ⟨2, 0⟩) := by
  have h₁ : Ran Command.exec ⟨[], ⟨[], []⟩⟩ [.create label .string] _ := .one rfl
  have h₂ : Ran Command.exec _ ([.create label .string] ++ [setLabel label]) _ := h₁.next rfl
  have h₃ : Ran Command.exec _ (_ ++ [setLabel graph]) _ := h₂.next rfl
  exact ⟨_, _, h₃, .one rfl, rfl, rfl, rfl⟩

section label
variable {σ : Segments} {bs : List UInt8} {str : CStr}

theorem setLabel_allowed (hσ : σ label = some ⟨.string, bs⟩)
    (hlen : str.bytes.length + 1 < 2 ^ 32) : (setLabel str).Allowed σ := by
  intro x hx
  rw [hσ] at hx
  cases hx
  exact ⟨bs, rfl, fun _ _ => hlen⟩

theorem setLabel_meaning (hσ : σ label = some ⟨.string, bs⟩) : (setLabel str).meaning σ =
    .ok (.got .nothing, Function.update σ label (some ⟨.string, str.bytes⟩)) := by
  rw [setLabel, meaning_use hσ]
  rfl

end label

theorem labelled_allowed : AllAllowed (fun _ => none) labelled := by
  refine ⟨⟨trivial, by decide, trivial⟩, fun r σ h => ?_⟩
  cases h
  refine ⟨@setLabel_allowed _ [] _ rfl (by decide), fun r σ h => ?_⟩
  rw [@setLabel_meaning _ [] _ rfl] at h
  cases h
  exact ⟨@setLabel_allowed _ label.bytes _ rfl (by decide), fun _ _ _ => trivial⟩

theorem labelled_after : ∃ σ, after Command.meaning (fun _ => none) labelled = .ok σ ∧
    σ label = some ⟨.string, graph.bytes⟩ ∧ ∀ n, n ≠ label → σ n = none := by
  let σ₁ : Segments := Function.update (fun _ => none) label (some ⟨.string, ([] : List UInt8)⟩)
  let σ₂ : Segments := Function.update σ₁ label (some ⟨.string, label.bytes⟩)
  let σ₃ : Segments := Function.update σ₂ label (some ⟨.string, graph.bytes⟩)
  have h₂ : (setLabel label).meaning σ₁ = .ok (.got .nothing, σ₂) := setLabel_meaning rfl
  have h₃ : (setLabel graph).meaning σ₂ = .ok (.got .nothing, σ₃) := setLabel_meaning rfl
  refine ⟨σ₃, ?_, rfl, fun n hn => ?_⟩
  · show after Command.meaning σ₁ [setLabel label, setLabel graph] = _
    rw [after, h₂]
    show after Command.meaning σ₂ [setLabel graph] = _
    rw [after, h₃]
    rfl
  · simp only [σ₃, σ₂, σ₁, Function.update_of_ne hn]

theorem segments_refine_values_label : ∃ s s' x, Ran Command.exec ⟨[], ⟨[], []⟩⟩ labelled s ∧
    Command.exec (.use label .string ⟨.string, .here, .read .cStr⟩) s = .ok (.got x, s') ∧
    x.Shows s'.mem (.chars graph.bytes) := by
  obtain ⟨s, _, hr, -⟩ := labelled_ran
  obtain ⟨σ', hσ', hlabel, -⟩ := labelled_after
  obtain ⟨σ, hσ, -, hnext⟩ := segments_refine_values rfl hr labelled_allowed
  obtain rfl : σ = σ' := Except.ok.inj (hσ.symm.trans hσ')
  have hread := hnext (.use label .string ⟨.string, .here, .read .cStr⟩) fun x hx => by
    rw [hlabel] at hx
    cases hx
    exact ⟨_, rfl, fun _ _ => trivial⟩
  rw [meaning_use hlabel] at hread
  obtain ⟨o, s', hexec, hshow, -⟩ := hread
  cases o with
  | got x => exact ⟨s, s', x, hr, hexec, hshow⟩
  | _ => cases hshow

theorem unowned_blocks_kept_label : ∃ s s', Ran Command.exec ⟨[], ⟨[], []⟩⟩ labelled s ∧
    Ran Command.exec s [.close label] s' ∧ s'.mem.block 1 = s.mem.block 1 := by
  obtain ⟨s, s', hr, hr', hnext, hget, hload⟩ := labelled_ran
  obtain ⟨σ, hσ, hlabel, hother⟩ := labelled_after
  refine ⟨s, s', hr, hr', (unowned_blocks_kept rfl hr labelled_allowed hσ hr'
    ⟨trivial, fun _ _ _ => trivial⟩ (by omega) fun n x hx hown => ?_).1⟩
  by_cases hn : n = label
  · subst hn
    rw [hlabel] at hx
    cases hx
    obtain ⟨b, hb, hc⟩ := hown
    rw [hget] at hb
    cases hb
    rcases hc with hc | ⟨y, hy⟩
    · cases hc
    · cases hy with
      | string hl => cases hload.symm.trans hl
  · rw [hother n hn] at hx
    cases hx

theorem close_frees_owned_label : ∃ s it m' bs, Ran Command.exec ⟨[], ⟨[], []⟩⟩ labelled s ∧
    Ends (destroyEntry it) s.mem bs m' ∧ bs.Nodup ∧ ∀ c, c ∈ bs ↔ Owns s label .string c := by
  obtain ⟨s, _, hr, -⟩ := labelled_ran
  obtain ⟨σ, hσ, hlabel, -⟩ := labelled_after
  obtain ⟨it, m', bs, -, hend, -, hnodup, hmem⟩ :=
    close_frees_owned rfl hr labelled_allowed hσ hlabel
  exact ⟨s, it, m', bs, hr, hend, hnodup, hmem⟩

end Msm.Seg
