import Msm.Arr.Push

/-! # The array as a growable list

One caller pushes (push_back, or prepare_push, any writes into the element, and
commit_push), reserves, clears, and overwrites elements it gets. The model is a
list of elements with a capacity; after every sequence of calls the array shows
the model that the same sequence gives. -/
namespace Msm.Arr.Growable
open Msm.Exec Msm.CMem Msm.Api

/-! ## The model -/

structure Model where
  items : List (List Cell)
  cap : Nat

namespace Model

def empty : Model := ⟨[], 0⟩

/-- The capacity that a push needs: a full array doubles it. -/
def room (s : Model) : Nat := if s.items.length < s.cap then s.cap else doubled s.cap

def push (s : Model) (v : List Cell) : Model := ⟨s.items ++ [v], s.room⟩

end Model

inductive Call where
  | pushBack
  /-- prepare_push, the writes `fs` (offset and bytes) into the element, commit_push -/
  | append (fs : List (Nat × List Cell))
  | reserve (newCap : UInt32)
  | clear
  /-- a write into the element that `msm_array_get` gives -/
  | overwrite (i : UInt32) (d : Nat) (cs : List Cell)

/-- The caller writes inside the element. -/
def Call.Fits (n : Nat) : Call → Prop
  | .append fs => ∀ x ∈ fs, x.1 + x.2.length ≤ n
  | .overwrite _ d cs => d + cs.length ≤ n
  | _ => True

/-- An element after the writes `fs`. -/
def filled (v : List Cell) (fs : List (Nat × List Cell)) : List Cell :=
  fs.foldl (fun v x => Mem.splice v x.1 x.2) v

/-- What the call makes of the list, for elements of `n` bytes. -/
def Call.apply (n : Nat) (s : Model) : Call → Model
  | .pushBack => s.push (zeros n)
  | .append fs => s.push (filled (zeros n) fs)
  | .reserve newCap => ⟨s.items, max s.cap newCap.toNat⟩
  | .clear => ⟨[], s.cap⟩
  | .overwrite i d cs => ⟨s.items.modify i.toNat (Mem.splice · d cs), s.cap⟩

def after (n : Nat) (s : Model) (cs : List Call) : Model := cs.foldl (Call.apply n) s

/-! ## The calls -/

def fill (p : Ptr) : List (Nat × List Cell) → CProg Unit
  | [] => pure ()
  | x :: fs => do
    copyIn (p + x.1) x.2
    fill p fs

def Call.code (slot : Addr) (itemSize : UInt32) : Call → CProg Unit
  | .pushBack => do
    let _ ← msmArrayPushBack (some slot) itemSize
    pure ()
  | .append fs => do
    let e ← msmArrayPreparePush (some slot) itemSize
    fill e fs
    msmArrayCommitPush (some slot)
  | .reserve newCap => msmArrayReserve (some slot) newCap itemSize
  | .clear => msmArrayClear (some slot)
  | .overwrite i d cs => do
    let p ← msmArrayGet (some slot) i itemSize
    if p = none then pure () else copyIn (p + d) cs

def runCalls (slot : Addr) (itemSize : UInt32) : List Call → CProg Unit
  | [] => pure ()
  | c :: cs => do
    c.code slot itemSize
    runCalls slot itemSize cs

/-- What the array C API shows of the slot is the model. -/
structure Shows (slot : Addr) (itemSize : UInt32) (m : Mem) (s : Model) : Prop where
  size : returned (msmArraySize (some slot)) m = .ok (UInt32.ofNat s.items.length)
  capacity : returned (msmArrayCapacity (some slot)) m = .ok (UInt32.ofNat s.cap)
  size_le : s.items.length ≤ s.cap
  cap_lt : s.cap < 2 ^ 32
  get : ∀ i v, s.items[i.toNat]? = some v → ∃ a,
    returned (msmArrayGet (some slot) i itemSize) m = .ok (some a) ∧
      m.Valid a itemSize.toNat ∧ m.read a itemSize.toNat = v
  get_none : ∀ i, s.items[i.toNat]? = none →
    returned (msmArrayGet (some slot) i itemSize) m = .ok none

variable {slot : Addr} {itemSize : UInt32} {m : Mem} {g : State itemSize.toNat} {s : Model}

/-- Between calls the slot holds the model. -/
structure Holds (slot : Addr) (itemSize : UInt32) (m : Mem) (g : State itemSize.toNat)
    (s : Model) : Prop where
  idle : Idle slot itemSize m g
  script : m.script = []
  items : contents g = s.items
  cap : (cur g).cap = s.cap

theorem Holds.length (h : Holds slot itemSize m g s) : (cur g).size = s.items.length := by
  rw [← h.items, contents, Node.length_items]

theorem holds_empty {m₀ : Mem} (h0 : Zeroed m₀ slot) (hs : m₀.script = []) :
    Holds slot itemSize m₀ (Ghost.empty _) .empty := ⟨⟨inv_empty h0, rfl⟩, hs, rfl, rfl⟩

theorem Holds.mallocOk (h : Holds slot itemSize m g s) : m.mallocOk = true := by
  rw [Mem.mallocOk, h.script]; rfl

/-! ## What the API shows -/

theorem Holds.size (h : Holds slot itemSize m g s) :
    returned (msmArraySize (some slot)) m = .ok (UInt32.ofNat s.items.length) := by
  have hp := Mem.exec_load (o := .acquire) h.idle.1.repr.slot_ptr
  rw [← h.length]
  cases hc : g.cur with
  | none =>
    rw [hc] at hp
    simp [returned, msmArraySize, atomicLoadPtr, Prog.run, hp, Except.map, cur_none hc, Node.empty]
  | some b =>
    rw [hc] at hp
    have hs := Mem.exec_load (o := .acquire) (h.idle.1.cur_at hc).size
    simp [returned, msmArraySize, atomicLoadPtr, arrBufSize, atomicLoadU32, loadU32, Prog.run, hp,
      hs, Except.map]

theorem Holds.capacity (h : Holds slot itemSize m g s) :
    returned (msmArrayCapacity (some slot)) m = .ok (UInt32.ofNat s.cap) := by
  have hp := Mem.exec_load (o := .relaxed) h.idle.1.repr.slot_ptr
  rw [← h.cap]
  cases hc : g.cur with
  | none =>
    rw [hc] at hp
    simp [returned, msmArrayCapacity, atomicLoadPtr, Prog.run, hp, Except.map, cur_none hc,
      Node.empty]
  | some b =>
    rw [hc] at hp
    have hs := Mem.exec_load (o := .relaxed) (h.idle.1.cur_at hc).cap
    simp [returned, msmArrayCapacity, atomicLoadPtr, arrBufCap, atomicLoadU32, loadU32, Prog.run,
      hp, hs, Except.map]

/-- The address of element `i` of the current buffer, null from the size on. -/
def elemPtr (g : State itemSize.toNat) (i : Nat) : Ptr :=
  if i < (cur g).size then g.cur.map (⟨·, 8 + i * itemSize.toNat⟩) else none

theorem get_run (h : Inv slot itemSize.toNat m g) (hn : itemSize ≠ 0) (i : UInt32) :
    (msmArrayGet (some slot) i itemSize).run m = .ok (elemPtr g i.toNat, m) := by
  have hp := Mem.exec_load (o := .acquire) h.repr.slot_ptr
  unfold elemPtr
  cases hc : g.cur with
  | none =>
    rw [hc] at hp
    simp [msmArrayGet, hn, atomicLoadPtr, Prog.run, hp]
  | some b =>
    rw [hc] at hp
    have hs := Mem.exec_load (o := .acquire) (h.cur_at hc).size
    have hle : UInt32.ofNat (cur g).size ≤ i ↔ ¬ i.toNat < (cur g).size := by
      rw [UInt32.le_iff_toNat_le, size_toNat, Nat.not_lt]
    simp only [msmArrayGet, reduceCtorEq, hn, or_self, if_false, atomicLoadPtr, loadPtr_bind,
      Ptr.some_add, Prog.run, hp, basePtr_some, arrBufSize, atomicLoadU32, loadU32_bind, hs, hle]
    by_cases hi : i.toNat < (cur g).size
    · simp [hi, arrBufData, arrBufHeader, Prog.run]
    · simp [hi, Prog.run]

/-- An element below the size is in memory where `elemPtr` says. -/
theorem Holds.elem (h : Holds slot itemSize m g s) (hn : itemSize ≠ 0) {i : Nat} {v : List Cell}
    (hv : s.items[i]? = some v) : ∃ b, g.cur = some b ∧
      elemPtr g i = some ⟨b, 8 + i * itemSize.toNat⟩ ∧ i < (cur g).size ∧
      m.Valid ⟨b, 8 + i * itemSize.toNat⟩ itemSize.toNat ∧
      m.read ⟨b, 8 + i * itemSize.toNat⟩ itemSize.toNat = v := by
  have hpos : 0 < itemSize.toNat := Nat.pos_of_ne_zero fun h0 => hn (UInt32.toNat_inj.mp h0)
  have hi : i < (cur g).size := by
    rw [h.length]
    exact (List.getElem?_eq_some_iff.mp hv).1
  have hsize := (cur g).size_le
  have hcap := (cur g).elems_le
  obtain ⟨b, hb⟩ : ∃ b, g.cur = some b := by
    cases hc : g.cur with
    | none => rw [cur_none hc] at hi; exact absurd hi (Nat.not_lt_zero i)
    | some b => exact ⟨b, rfl⟩
  have hat := h.idle.1.cur_at hb
  have hget : (cur g).elems[i]? = some v := by
    rw [← Node.items_get hi, show (cur g).items = s.items from h.items]
    exact hv
  exact ⟨b, hb, by simp [elemPtr, hi, hb], hi, (hat.valid_elem hpos i).mpr (by omega),
    hat.elem i v hget⟩

theorem Holds.shows (h : Holds slot itemSize m g s) (hn : itemSize ≠ 0) :
    Shows slot itemSize m s where
  size := h.size
  capacity := h.capacity
  size_le := by
    rw [← h.length, ← h.cap]
    exact Nat.le_trans (cur g).size_le (cur g).elems_le
  cap_lt := by
    rw [← h.cap]
    exact (cur g).cap_lt
  get i v hv := by
    obtain ⟨b, _, hp, _, hvalid, hread⟩ := h.elem hn hv
    refine ⟨_, ?_, hvalid, hread⟩
    simp [returned, get_run h.idle.1 hn, hp, Except.map]
  get_none i hv := by
    have hi : ¬ i.toNat < (cur g).size := by
      rw [h.length]
      exact Nat.not_lt.mpr (List.getElem?_eq_none_iff.mp hv)
    simp [returned, get_run h.idle.1 hn, elemPtr, hi, Except.map]

/-! ## One call -/

/-- A push is under way: the element after the last one holds `v`. -/
structure Filling (slot : Addr) (itemSize : UInt32) (m : Mem) (g : State itemSize.toNat)
    (s : Model) (b : Nat) (v : List Cell) : Prop where
  inv : Inv slot itemSize.toNat m g
  script : m.script = []
  cur_eq : g.cur = some b
  filling : (cur g).filling = true
  items : contents g = s.items
  cap : (cur g).cap = s.room
  elem : (cur g).elems[(cur g).size]? = some v

theorem Filling.length {b : Nat} {v : List Cell} (h : Filling slot itemSize m g s b v) :
    (cur g).size = s.items.length := by
  rw [← h.items, contents, Node.length_items]

/-- No fault is expected. -/
abbrev noFault {n : Nat} : Fault → Mem → State n → Prop := fun _ _ _ => False

theorem prepare_safe (h : Holds slot itemSize m g s) (hn : itemSize ≠ 0)
    (hlen : s.items.length < 2 ^ 31) :
    (msmArrayPreparePush (some slot) itemSize).Safe (T slot itemSize.toNat .prepare) noFault
      (fun p m' g' => ∃ b, p = some ⟨b, 8 + s.items.length * itemSize.toNat⟩ ∧
        (s.items.length < s.cap → g'.cur = g.cur) ∧
        Filling slot itemSize m' g' s b (zeros itemSize.toNat)) m g := by
  have hm := h.mallocOk
  refine msmArrayPreparePush_safe h.idle.1 hn h.idle.2 ?_ ?_ ?_
  · intro _ hfail
    rw [hm] at hfail
    cases hfail
  · intro _ _ hfull hbad
    rcases hbad with hbig | hfail
    · rw [h.length] at hfull; omega
    · rw [hm] at hfail; cases hfail
  · intro m' g' b _ hI hb hitems hsize hf helem hscript hroom hkeep
    rw [h.length, h.cap] at hkeep
    refine ⟨b, by rw [hsize, h.length], hkeep, hI, ?_, hb, hf, hitems.trans h.items, ?_, helem⟩
    · rcases hscript with hs | hs
      · rw [hs, h.script]
      · rw [hs, h.script]; rfl
    · rw [hroom, h.length, h.cap]
      rfl

theorem writes_safe {b : Nat} {v : List Cell} (h : Filling slot itemSize m g s b v)
    (hn : itemSize ≠ 0) {fs : List (Nat × List Cell)}
    (hfit : ∀ x ∈ fs, x.1 + x.2.length ≤ itemSize.toNat) :
    (fill (some ⟨b, 8 + s.items.length * itemSize.toNat⟩) fs).Safe (T slot itemSize.toNat .fill)
      noFault
      (fun _ m' g' => Filling slot itemSize m' g' s b (filled v fs)) m g := by
  induction fs generalizing m g v with
  | nil => exact h
  | cons x fs ih =>
    have hx := hfit x List.mem_cons_self
    refine Prog.Safe.bind ?_
    rw [← h.length]
    refine fill_safe h.inv hn h.cur_eq h.filling h.elem hx ?_
    intro m' g' hroom hscript hI hu
    have hcur := hu.cur_eq
    have hb : g'.cur = some b := by
      obtain ⟨c, hc, rfl⟩ := hu
      exact h.cur_eq
    have h' : Filling slot itemSize m' g' s b (Mem.splice v x.1 x.2) := by
      refine ⟨hI, hscript.trans h.script, hb, by rw [hcur]; rfl, ?_, ?_, ?_⟩
      · rw [contents, hcur, Node.items_touch]
        exact h.items
      · rw [hcur]
        exact h.cap
      · rw [hcur, Node.touch_get]
        exact if_pos rfl
    rw [h.length]
    exact ih h' fun y hy => hfit y (List.mem_cons_of_mem x hy)

theorem commit_safe {b : Nat} {v : List Cell} (h : Filling slot itemSize m g s b v) :
    (msmArrayCommitPush (some slot)).Safe (T slot itemSize.toNat .commit) noFault
      (fun _ m' g' => g'.cur = some b ∧ Holds slot itemSize m' g' (s.push v)) m g := by
  refine msmArrayCommitPush_safe h.inv h.cur_eq h.filling ?_
  intro m' g' hscript hI hu
  have hcur := hu.cur_eq
  refine ⟨?_, ⟨hI, by rw [hcur]; rfl⟩, hscript.trans h.script, ?_, ?_⟩
  · obtain ⟨c, hc, rfl⟩ := hu
    exact h.cur_eq
  · rw [contents, hcur, Node.items_commit _ h.filling h.elem]
    exact congrArg (· ++ [v]) h.items
  · rw [hcur]
    exact h.cap

/-- push_back gives the address of a new element of zeros. -/
theorem pushBack_safe (h : Holds slot itemSize m g s) (hn : itemSize ≠ 0)
    (hlen : s.items.length < 2 ^ 31) :
    (msmArrayPushBack (some slot) itemSize).Safe anyMove noFault
      (fun p m' g' => p = elemPtr g' s.items.length ∧
        Holds slot itemSize m' g' (s.push (zeros itemSize.toNat))) m g := by
  refine Prog.Safe.bind ((prepare_safe h hn hlen).any.post ?_)
  intro p m' g' hp
  obtain ⟨b, rfl, _, h'⟩ := hp
  rw [if_pos (Option.some_ne_none _)]
  refine Prog.Safe.bind ((commit_safe h').any.post ?_)
  intro _ m'' g'' hc
  obtain ⟨hb, h''⟩ := hc
  have hsize : s.items.length < (cur g'').size := by
    rw [h''.length]
    simp [Model.push]
  exact ⟨by simp [elemPtr, hsize, hb], h''⟩

/-- A write into an element below the size. -/
theorem Holds.put (h : Holds slot itemSize m g s) (hn : itemSize ≠ 0) {i : Nat} {v : List Cell}
    (hv : s.items[i]? = some v) {d : Nat} {cs : List Cell} (hd : d + cs.length ≤ itemSize.toNat) :
    ∃ a g', elemPtr g i = some a ∧ (∀ j, elemPtr g' j = elemPtr g j) ∧ m.Valid (a + d) cs.length ∧
      Holds slot itemSize (m.write (a + d) cs) g' ⟨s.items.modify i (Mem.splice · d cs), s.cap⟩ := by
  obtain ⟨b, hb, hp, hi, hvalid, hread⟩ := h.elem hn hv
  have hwrite : (m.write ((⟨b, 8 + i * itemSize.toNat⟩ : Addr) + d) cs).read
      ⟨b, 8 + i * itemSize.toNat⟩ itemSize.toNat = Mem.splice v d cs := by
    rw [Mem.read_write_splice hvalid hd, hread]
  have hI := h.idle.1.put hb hd hwrite
  have hu : Update g (g.set b ((cur g).put i (Mem.splice v d cs)))
      ((cur g).put i (Mem.splice v d cs)) := ⟨b, hb, rfl⟩
  refine ⟨_, g.set b ((cur g).put i (Mem.splice v d cs)), hp, fun j => ?_, hvalid.mono hd,
    ⟨hI, by rw [hu.cur_eq]; exact h.idle.2⟩, h.script, ?_, ?_⟩
  · simp only [elemPtr, hu.cur_eq]
    rfl
  · rw [contents, hu.cur_eq, Node.items_put, show (cur g).items = s.items from h.items,
      List.modify_eq_set, hv]
    rfl
  · rw [hu.cur_eq]
    exact h.cap

theorem overwrite_safe (h : Holds slot itemSize m g s) (hn : itemSize ≠ 0) {i : UInt32} {d : Nat}
    {cs : List Cell} (hd : d + cs.length ≤ itemSize.toNat) :
    ((Call.overwrite i d cs).code slot itemSize).Safe anyMove noFault
      (fun _ m' g' => Holds slot itemSize m' g'
        ⟨s.items.modify i.toNat (Mem.splice · d cs), s.cap⟩) m g := by
  refine Prog.Safe.bind (Prog.Safe.of_run (get_run h.idle.1 hn i) ?_)
  cases hv : s.items[i.toNat]? with
  | none =>
    have hlen := List.getElem?_eq_none_iff.mp hv
    have hi : ¬ i.toNat < (cur g).size := by
      rw [h.length]
      exact Nat.not_lt.mpr hlen
    rw [elemPtr, if_neg hi, if_pos rfl, List.modify_eq_self hlen]
    exact h
  | some v =>
    obtain ⟨a, g', hp, _, hvalid, hput⟩ := h.put hn hv hd
    rw [hp, if_neg (Option.some_ne_none _)]
    exact Prog.safe_act g' (Mem.exec_copyIn hvalid) trivial hput

/-- Every call takes the model to the model it makes of it. -/
theorem Call.code_safe (h : Holds slot itemSize m g s) (hn : itemSize ≠ 0) {c : Call}
    (hfit : c.Fits itemSize.toNat) (hcap : s.cap < 2 ^ 31) :
    (c.code slot itemSize).Safe anyMove noFault
      (fun _ m' g' => Holds slot itemSize m' g' (c.apply itemSize.toNat s)) m g := by
  have hlen := Nat.lt_of_le_of_lt (h.shows hn).size_le hcap
  cases c with
  | pushBack =>
    refine Prog.Safe.bind ((pushBack_safe h hn hlen).post ?_)
    exact fun _ _ _ h' => h'.2
  | append fs =>
    refine Prog.Safe.bind ((prepare_safe h hn hlen).any.post ?_)
    intro p m' g' hp
    obtain ⟨b, rfl, _, h'⟩ := hp
    refine Prog.Safe.bind ((writes_safe h' hn hfit).any.post fun _ _ _ h'' => ?_)
    exact (commit_safe h'').any.post fun _ _ _ hc => hc.2
  | reserve newCap =>
    refine (msmArrayReserve_safe (o := .reserve) h.idle.1 hn ⟨h.idle.2, .inl rfl⟩ h.idle.2
      (fun g' hp => ⟨h.idle.2, .inr hp⟩) ?_ ?_ ?_).any
    · intro hle
      refine ⟨h.idle, h.script, h.items, ?_⟩
      rw [h.cap] at hle ⊢
      exact (Nat.max_eq_left hle).symm
    · intro _ hfail
      rw [h.mallocOk] at hfail
      cases hfail
    · intro m' hs hlt _ hscript hI
      have hcur : cur (grown m g newCap hs) = (cur g).grow newCap.toNat hs newCap.toNat_lt := by
        simp [grown, cur]
      refine ⟨⟨hI, by rw [hcur]; rfl⟩, by rw [hscript, h.script]; rfl, ?_, ?_⟩
      · rw [contents, hcur, Node.items_grow]
        exact h.items
      · rw [hcur]
        rw [h.cap] at hlt
        exact (Nat.max_eq_right (Nat.le_of_lt hlt)).symm
  | clear =>
    refine (msmArrayClear_safe h.idle.1 h.idle.2 ?_).any
    intro m' g' hscript hI hu
    rcases hu with ⟨rfl, hc⟩ | hu
    · refine ⟨⟨hI, h.idle.2⟩, hscript.trans h.script, ?_, h.cap⟩
      rw [contents, cur_none hc]
      rfl
    · refine ⟨⟨hI, by rw [hu.cur_eq]; rfl⟩, hscript.trans h.script, ?_, ?_⟩
      · rw [contents, hu.cur_eq]
        rfl
      · rw [hu.cur_eq]
        exact h.cap
  | overwrite i d cs => exact overwrite_safe h hn hfit

/-! ## Any sequence of calls -/

theorem runCalls_safe (h : Holds slot itemSize m g s) (hn : itemSize ≠ 0) {cs : List Call}
    (hfit : ∀ c ∈ cs, c.Fits itemSize.toNat)
    (hcap : ∀ ds, ds <+: cs → (after itemSize.toNat s ds).cap < 2 ^ 31) :
    (runCalls slot itemSize cs).Safe anyMove noFault
      (fun _ m' g' => Holds slot itemSize m' g' (after itemSize.toNat s cs)) m g := by
  induction cs generalizing m g s with
  | nil => exact h
  | cons c cs ih =>
    have hc := Call.code_safe h hn (hfit c List.mem_cons_self) (hcap [] List.nil_prefix)
    refine Prog.Safe.bind (hc.post fun _ m' g' h' => ?_)
    refine ih h' (fun d hd => hfit d (List.mem_cons_of_mem c hd)) fun ds hds => ?_
    exact hcap (c :: ds) (List.cons_prefix_cons.mpr ⟨rfl, hds⟩)

/-- **The array refines a growable list.** From a zeroed slot, with every
allocation granted and capacities below 2^31, every sequence of calls returns,
and what the array then shows is the list that the sequence makes. -/
theorem array_refines_list {m₀ : Mem} (h0 : Zeroed m₀ slot) (hs : m₀.script = [])
    (hn : itemSize ≠ 0) (cs : List Call) (hfit : ∀ c ∈ cs, c.Fits itemSize.toNat)
    (hcap : ∀ ds, ds <+: cs → (after itemSize.toNat .empty ds).cap < 2 ^ 31) :
    ∃ m, (runCalls slot itemSize cs).run m₀ = .ok ((), m) ∧
      Shows slot itemSize m (after itemSize.toNat .empty cs) := by
  obtain ⟨_, m, g, hrun, hm⟩ := (runCalls_safe (holds_empty h0 hs) hn hfit hcap).run_total
  exact ⟨m, hrun, hm.shows hn⟩

/-! One-byte elements: 7 is appended, the array is cleared, and push_back over the
dirty element appends a zero, which is then overwritten by 9. -/

def dirtyCalls : List Call := [.append [(0, [.byte 7])], .clear, .pushBack, .overwrite 0 0 [.byte 9]]

theorem dirtyCalls_cap (ds : List Call) (h : ds <+: dirtyCalls) : (after 1 .empty ds).cap ≤ 8 := by
  rw [← List.mem_inits] at h
  revert ds
  decide

theorem array_refines_list_dirty : ∃ m,
    (runCalls ⟨0, 0⟩ 1 dirtyCalls).run zeroedSlot = .ok ((), m) ∧
      Shows ⟨0, 0⟩ 1 m ⟨[[.byte 9]], 8⟩ := by
  refine array_refines_list zeroedSlot_zeroed rfl (by decide) dirtyCalls ?_ ?_
  · simp [dirtyCalls, Call.Fits]
  · intro ds h
    exact Nat.lt_of_le_of_lt (dirtyCalls_cap ds h) (by decide)

end Msm.Arr.Growable
