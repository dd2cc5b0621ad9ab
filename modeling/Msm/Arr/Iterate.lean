import Msm.Api.View
import Msm.Arr.Reads

/-! # Range iteration under a writer

`begin()` captures the data pointer of the slot's buffer, `end()` asks for the
size of whatever buffer the slot has by then, and the loop compares indices
only. It always ends, and it stays inside the captured buffer as long as the
array has not outgrown that buffer when its size is taken. -/
namespace Msm.Arr.Iterate
open Msm.Exec Msm.CMem Msm.Api

/-- A reader iterates: it calls `begin()` and `end()`. What the loop does then
is `Iterator.visit`. -/
abbrev reader (slot : Addr) : Client cmachine where
  Call := Unit
  Val := Iterator × Iterator
  code _ _ := some do
    let b ← arrayBegin (some slot)
    let e ← arrayEnd (some slot)
    pure (b, e)

/-- The loop from `b` to `e` dereferences `l` and ends. -/
def Visits (b e : Iterator) (l : List Iterator) : Prop := ∃ n, Iterator.visit e n b = some l

/-- The capacity of the buffer whose data begin at `base`. -/
def dataCap (m : Mem) : Ptr → Nat
  | none => 0
  | some d => (m.load .u32 ⟨d.block, d.off - 4⟩).elim 0 UInt32.toNat

/-- The dereferenced iterator stands for an element of the buffer it began in. -/
def InBuffer (itemSize : UInt32) (m : Mem) (it : Iterator) : Prop :=
  it.index.toNat < dataCap m it.base ∧
    ∃ a, it.deref itemSize = some a ∧ m.Valid a itemSize.toNat

/-! ## The loop -/

section loop
variable {base : Ptr} {e : Iterator}

/-- The loop ends, and what it dereferences lies between where it is and its end. -/
theorem visits_from {k : Nat} {it : Iterator} (hk : it.index.toNat + k = e.index.toNat) :
    ∃ l, Visits it e l ∧ ∀ x ∈ l, x.base = it.base ∧ x.index.toNat < e.index.toNat := by
  induction k generalizing it with
  | zero =>
    have he : it.index = e.index := UInt64.toNat_inj.mp (by omega)
    exact ⟨[], ⟨1, by simp [Iterator.visit, he]⟩, nofun⟩
  | succ k ih =>
    have hne : it.index ≠ e.index := fun h => by
      rw [h] at hk
      omega
    have hnext : it.next.index.toNat = it.index.toNat + 1 := by
      have := e.index.toNat_lt
      simp only [Iterator.next, UInt64.toNat_add, UInt64.toNat_one]
      omega
    obtain ⟨l, ⟨n, hn⟩, hl⟩ := @ih it.next (by omega)
    refine ⟨it :: l, ⟨n + 1, by simp [Iterator.visit, hne, hn]⟩, fun x hx => ?_⟩
    rcases List.mem_cons.mp hx with rfl | hx
    · exact ⟨rfl, by omega⟩
    · exact hl x hx

theorem visit_mono {n k : Nat} {it : Iterator} {l : List Iterator}
    (h : Iterator.visit e n it = some l) : Iterator.visit e (n + k) it = some l := by
  induction n generalizing it l with
  | zero => cases h
  | succ n ih =>
    rw [Nat.add_right_comm]
    simp only [Iterator.visit] at h ⊢
    split at h
    · obtain ⟨l', hl', rfl⟩ := Option.map_eq_some_iff.mp h
      rw [if_pos (by assumption), ih hl']
      rfl
    · rw [if_neg (by assumption)]
      exact h

theorem Visits.unique {it : Iterator} {l l' : List Iterator} (h : Visits it e l)
    (h' : Visits it e l') : l = l' := by
  obtain ⟨n, hn⟩ := h
  obtain ⟨n', hn'⟩ := h'
  have h1 := visit_mono (k := n') hn
  have h2 := visit_mono (k := n) hn'
  rw [Nat.add_comm] at h2
  exact Option.some.inj (h1.symm.trans h2)

end loop

/-! ## Where an iteration stands -/

/-- After `begin()`. -/
def atEnd (slot : Addr) (b : Iterator) : CProg (Iterator × Iterator) := do
  let e ← arrayEnd (some slot)
  pure (b, e)

/-- Inside `end()`, before `size()`. -/
def atSize (slot : Addr) (b : Iterator) (q : Ptr) : CProg (Iterator × Iterator) := do
  let n ← msmArraySize (some slot)
  pure (b, ⟨q, n.toUInt64⟩)

/-- Inside `size()`, before the load of the size of the buffer at `a`. -/
def atLoad (a : Addr) (b : Iterator) (q : Ptr) : CProg (Iterator × Iterator) :=
  .act (.load .acquire .u32 (some a)) fun n => .ret (b, ⟨q, n.toUInt64⟩)

theorem atSize_eq (slot : Addr) (b : Iterator) (q : Ptr) : atSize slot b q =
    .act (.load .acquire .ptr (some (slot + 8))) fun p => match p with
      | none => .ret (b, ⟨q, 0⟩)
      | some a => atLoad a b q := by
  simp only [atSize, msmArraySize, reduceCtorEq, if_false, atomicLoadPtr, loadPtr_bind,
    Prog.act_bind, Ptr.some_add]
  refine congrArg (Prog.act (M := cmachine) _) (funext fun p => ?_)
  cases p with
  | none => rfl
  | some a => rfl

/-- The data pointer of the buffer at `buf`, as `begin()` and `end()` compute it. -/
abbrev dataOf (buf : Ptr) : Ptr := if buf ≠ none then buf + 8 else none

theorem atEnd_eq (slot : Addr) (b : Iterator) : atEnd slot b =
    .act (.load .plain .ptr (some (slot + 8))) fun buf => atSize slot b (dataOf buf) := by
  simp only [atEnd, arrayEnd, loadPtr_bind, Prog.bind_assoc, Prog.act_bind, Ptr.some_add]
  rfl

theorem iterate_eq (slot : Addr) :
    (do
      let b ← arrayBegin (some slot)
      let e ← arrayEnd (some slot)
      pure (b, e) : CProg (Iterator × Iterator)) =
    .act (.load .plain .ptr (some (slot + 8))) fun buf => atEnd slot ⟨dataOf buf, 0⟩ := by
  simp only [arrayBegin, loadPtr_bind, Prog.act_bind, Ptr.some_add]
  rfl

/-- The reader began at `b` and is about to load the size of the buffer at `a`. -/
def Measuring {slot : Addr} (x : Thread (reader slot)) (b : Iterator) (a : Addr) : Prop :=
  ∃ q, x.cur = some ((), atLoad a b q)

/-- A reader is about to load the size of the slot's buffer, and the array is
larger than the buffer that its `begin()` captured. -/
def Outgrown {ι : Type} {slot : Addr} {itemSize : UInt32} {clears : Bool}
    (x : Sys (writer slot itemSize clears) (reader slot) ι) (i : ι) : Prop :=
  ∃ b a, Measuring (x.reader i) b a ∧ bufPtr x.state slot = some a ∧
    dataCap x.state b.base < arraySize x.state slot

theorem reader_only (slot : Addr) : (reader slot).Only Act.IsRead := by
  intro log c p hp
  cases hp
  rw [iterate_eq]
  refine ⟨trivial, fun buf => ?_⟩
  dsimp only
  rw [atEnd_eq]
  refine ⟨trivial, fun buf' => ?_⟩
  dsimp only
  rw [atSize_eq]
  refine ⟨trivial, fun q => ?_⟩
  cases q with
  | none => trivial
  | some a => exact ⟨trivial, fun _ => trivial⟩

section point
variable {n : Nat} {slot : Addr} {g g' : State n}

/-- The captured buffer has the capacity `c`; no buffer has none. -/
def CapIs (g : State n) (base : Ptr) (c : Nat) : Prop :=
  (base = none ∧ c = 0) ∨ ∃ b x, base = some ⟨b, 8⟩ ∧ g.heap b = some x ∧ c = x.cap

theorem cap_keep (h : Move g g') {b : Nat} {x : Node} (hx : g.heap b = some x) :
    ∃ x', g'.heap b = some x' ∧ x'.cap = x.cap := by
  cases h with
  | same => exact ⟨x, hx, rfl⟩
  | publish h => exact ⟨x, h.heap_of hx, rfl⟩
  | touch v hv h => exact h.keeps (P := fun x y => y.cap = x.cap) (fun _ => rfl) rfl hx
  | commit hf h => exact h.keeps (P := fun x y => y.cap = x.cap) (fun _ => rfl) rfl hx
  | clear _ h => exact h.keeps (P := fun x y => y.cap = x.cap) (fun _ => rfl) rfl hx

/-- A buffer that is not the slot's any more does not change. -/
theorem past_keep (h : Move g g') {b : Nat} {x : Node} (hx : g.heap b = some x)
    (hb : g'.cur ≠ some b) : g'.heap b = some x := by
  have hupdate {y : Node} (hu : Update g g' y) : g'.heap b = some x := by
    have hcur : g'.cur = g.cur := by obtain ⟨c, _, rfl⟩ := hu; rfl
    rcases hu.heap_of hx with ⟨hc, _⟩ | ⟨_, hx'⟩
    · exact absurd (hcur.trans hc) hb
    · exact hx'
  cases h with
  | same => exact hx
  | publish h => exact h.heap_of hx
  | touch v hv h => exact hupdate h
  | commit hf h => exact hupdate h
  | clear _ h => exact hupdate h

theorem CapIs.move {base : Ptr} {c : Nat} (h : CapIs g base c) (hm : Move g g') :
    CapIs g' base c := by
  rcases h with h | ⟨b, x, hb, hx, hc⟩
  · exact .inl h
  · obtain ⟨x', hx', he⟩ := cap_keep hm hx
    exact .inr ⟨b, x', hb, hx', hc.trans he.symm⟩

theorem CapIs.dataCap {m : Mem} {base : Ptr} {c : Nat} (h : CapIs g base c) (hI : Inv slot n m g) :
    dataCap m base = c := by
  rcases h with ⟨rfl, rfl⟩ | ⟨b, x, rfl, hx, rfl⟩
  · rfl
  · simp only [Iterate.dataCap, (hI.repr.node b x hx).cap, Option.elim_some, cap_toNat]

/-- Where an iteration stands. `P` is what the array has to do for the size to
be within the captured capacity. -/
inductive Point (slot : Addr) (P : Prop) (g : State n) : Thread (reader slot) → Prop
  | idle {log : List (Unit × (Iterator × Iterator))} : Point slot P g ⟨log, none⟩
  | start {log : List (Unit × (Iterator × Iterator))} {p : CProg (Iterator × Iterator)} :
      (reader slot).code log () = some p → Point slot P g ⟨log, some ((), p)⟩
  | atEnd {log : List (Unit × (Iterator × Iterator))} {base : Ptr} {c : Nat} : CapIs g base c →
      Point slot P g ⟨log, some ((), atEnd slot ⟨base, 0⟩)⟩
  | atSize {log : List (Unit × (Iterator × Iterator))} {base q : Ptr} {c : Nat} : CapIs g base c →
      Point slot P g ⟨log, some ((), atSize slot ⟨base, 0⟩ q)⟩
  | atLoad {log : List (Unit × (Iterator × Iterator))} {base q : Ptr} {c b : Nat} {x : Node} :
      CapIs g base c → g.heap b = some x → (P → x.size ≤ c) →
      Point slot P g ⟨log, some ((), atLoad ⟨b, 0⟩ ⟨base, 0⟩ q)⟩
  | done {log : List (Unit × (Iterator × Iterator))} {base : Ptr} {e : Iterator} {c : Nat} :
      CapIs g base c → (P → e.index.toNat ≤ c) →
      Point slot P g ⟨log, some ((), .ret (⟨base, 0⟩, e))⟩

/-- The data pointer of the slot's buffer. -/
theorem capIs_cur {m : Mem} (hI : Inv slot n m g) :
    CapIs g (if basePtr g.cur ≠ none then basePtr g.cur + 8 else none) (cur g).cap := by
  cases hc : g.cur with
  | none => exact .inl ⟨by simp, by rw [cur_none hc]; rfl⟩
  | some b => exact .inr ⟨b, cur g, by simp, hI.cur_node hc, rfl⟩

end point

variable {ι : Type} {slot : Addr} {itemSize : UInt32} {clears : Bool} {m₀ : Mem}

section run
variable {ρ : Run (writer slot itemSize clears) (reader slot) ι m₀}
  {γ : Nat → State itemSize.toNat} (h : Trail ρ γ)
include h

theorem capIs_mono {base : Ptr} {c t u : Nat} (hc : CapIs (γ t) base c) (htu : t ≤ u) :
    CapIs (γ u) base c := by
  induction u, htu using Nat.le_induction with
  | base => exact hc
  | succ u _ ih => exact ih.move (h.move u)

/-- The size of the slot's buffer, when a reader is about to load it. -/
theorem size_le_of_not_outgrown {t : Nat} {i : ι} {base q : Ptr} {b c : Nat} {x : Node}
    {log : List (Unit × (Iterator × Iterator))}
    (hr : (ρ.sys t).reader i = ⟨log, some ((), atLoad ⟨b, 0⟩ ⟨base, 0⟩ q)⟩)
    (hc : CapIs (γ t) base c) (hx : (γ t).heap b = some x) (hcur : (γ t).cur = some b)
    (hno : ¬ Outgrown (ρ.sys t) i) : x.size ≤ c := by
  have hsize : arraySize (ρ.state t) slot = x.size := by
    rw [(h.inv t).arraySize_eq, cur_eq hcur hx]
  have hbuf : bufPtr (ρ.state t) slot = some ⟨b, 0⟩ := by
    rw [(h.inv t).bufPtr_eq, hcur]
    rfl
  refine Nat.le_of_not_lt fun hlt => hno ⟨⟨base, 0⟩, ⟨b, 0⟩, ⟨q, by rw [hr]⟩, hbuf, ?_⟩
  have hcap : dataCap (ρ.state t) base = c := hc.dataCap (h.inv t)
  show dataCap (ρ.state t) base < arraySize (ρ.state t) slot
  rw [hcap, hsize]
  exact hlt

/-- An iteration that rests while the array moves. -/
theorem point_later {P : Prop} {t : Nat} {i : ι} (hP : P → ¬ Outgrown (ρ.sys (t + 1)) i)
    (hp : Point slot P (γ t) ((ρ.sys (t + 1)).reader i)) :
    Point slot P (γ (t + 1)) ((ρ.sys (t + 1)).reader i) := by
  have hm := h.move t
  generalize hx : (ρ.sys (t + 1)).reader i = x at hp ⊢
  cases hp with
  | idle => exact .idle
  | start hcode => exact .start hcode
  | atEnd hc => exact .atEnd (hc.move hm)
  | atSize hc => exact .atSize (hc.move hm)
  | @atLoad log base q c b y hc hy hle =>
    by_cases hcur : (γ (t + 1)).cur = some b
    · refine .atLoad (hc.move hm) ((h.inv _).cur_node hcur) fun hp => ?_
      exact size_le_of_not_outgrown h hx (hc.move hm) ((h.inv _).cur_node hcur) hcur (hP hp)
    · exact .atLoad (hc.move hm) (past_keep hm hy hcur) hle
  | done hc hle => exact .done (hc.move hm) hle

/-- One step of an iteration, as a step of the point where it stands. -/
theorem point_step {P : Prop} {t : Nat} {i : ι} (hP : P → ¬ Outgrown (ρ.sys (t + 1)) i)
    (hp : Point slot P (γ t) ((ρ.sys t).reader i))
    (hstep : Thread.Step (ρ.state t) ((ρ.sys t).reader i) (ρ.state (t + 1))
      ((ρ.sys (t + 1)).reader i)) :
    Point slot P (γ (t + 1)) ((ρ.sys (t + 1)).reader i) := by
  have hm := h.move t
  have hI := h.inv t
  have hslot {o : Order} := Mem.exec_load (o := o) hI.repr.slot_ptr
  have hsame : ρ.state (t + 1) = ρ.state t :=
    hstep.state_eq (fun a ha _ _ _ he => ha.state_eq he) (ρ.reader_only (reader_only slot) i t)
  generalize hx : (ρ.sys t).reader i = x at hp hstep
  generalize hx' : (ρ.sys (t + 1)).reader i = x' at hstep ⊢
  generalize hs : ρ.state (t + 1) = s' at hstep
  cases hp with
  | idle =>
    cases hstep with
    | start hcode => exact .start hcode
  | start hcode =>
    cases hcode
    rw [iterate_eq] at hstep
    cases hstep with
    | act he =>
      have he' := hslot.symm.trans he
      cases he'
      exact .atEnd ((capIs_cur hI).move hm)
  | atEnd hc =>
    rw [atEnd_eq] at hstep
    cases hstep with
    | act he =>
      have he' := hslot.symm.trans he
      cases he'
      exact .atSize (hc.move hm)
  | atSize hc =>
    rw [atSize_eq] at hstep
    cases hstep with
    | act he =>
      have he' := hslot.symm.trans he
      cases he'
      cases hcur : (γ t).cur with
      | none => exact .done (hc.move hm) fun _ => Nat.zero_le _
      | some b =>
        obtain ⟨y, hy, _⟩ := cap_keep hm (hI.cur_node hcur)
        refine .atLoad (hc.move hm) hy fun hp => ?_
        have hcur' : (γ (t + 1)).cur = some b := by
          have h1 := (h.inv (t + 1)).bufPtr_eq
          rw [hsame, hI.bufPtr_eq, hcur] at h1
          cases hc' : (γ (t + 1)).cur with
          | none => rw [hc'] at h1; cases h1
          | some b' => rw [hc'] at h1; cases h1; rfl
        rw [hcur] at hx'
        exact size_le_of_not_outgrown h hx' (hc.move hm) hy hcur' (hP hp)
  | @atLoad log base q c b y hc hy hle =>
    cases hstep with
    | act he =>
      have he' := (Mem.exec_load (hI.repr.node b y hy).size).symm.trans he
      cases he'
      refine .done (hc.move hm) fun hp => ?_
      rw [UInt32.toNat_toUInt64, size_toNat]
      exact hle hp
  | done hc hle =>
    cases hstep with
    | finish => exact .idle

theorem point {P : Prop} (hP : P → ∀ t i, ¬ Outgrown (ρ.sys t) i) (i : ι) (t : Nat) :
    Point slot P (γ t) ((ρ.sys t).reader i) := by
  induction t with
  | zero =>
    rw [ρ.sys_zero]
    exact .idle
  | succ t ih =>
    rcases ρ.reader_succ i t with hr | hr
    · exact point_later h (fun hp => hP hp _ i) (by rw [hr]; exact ih)
    · exact point_step h (fun hp => hP hp _ i) ih hr

/-- No step of an iteration faults. -/
theorem reader_not_faults (i : ι) (t : Nat) :
    ¬ ((ρ.sys t).reader i).Faults (ρ.state t) := by
  have hp := point h (P := False) (fun hf => hf.elim) i t
  have hI := h.inv t
  have hslot {o : Order} := Mem.exec_load (o := o) hI.repr.slot_ptr
  rintro ⟨c, a, k, f, hc, he⟩
  generalize (ρ.sys t).reader i = x at hp hc
  cases hp with
  | idle => cases hc
  | start hcode =>
    cases hcode
    rw [iterate_eq] at hc
    cases hc
    cases hslot.symm.trans he
  | atEnd _ =>
    rw [atEnd_eq] at hc
    cases hc
    cases hslot.symm.trans he
  | atSize _ =>
    rw [atSize_eq] at hc
    cases hc
    cases hslot.symm.trans he
  | atLoad _ hx _ =>
    cases hc
    cases (Mem.exec_load (hI.repr.node _ _ hx).size).symm.trans he
  | done _ _ => cases hc

/-- What an iteration has when `end()` returns. -/
theorem returned {P : Prop} (hP : P → ∀ t i, ¬ Outgrown (ρ.sys t) i) {i : ι} {t : Nat}
    {b e : Iterator} (hr : ρ.Returns i t () (b, e)) :
    b.index = 0 ∧ ∃ c, CapIs (γ (t + 1)) b.base c ∧ (P → e.index.toNat ≤ c) := by
  obtain ⟨log, a, k, _, hx⟩ := hr
  have hp := point h hP i (t + 1)
  rw [hx] at hp
  generalize hy : (⟨log, some ((), .ret (b, e))⟩ : Thread (reader slot)) = y at hp
  cases hp with
  | idle => cases hy
  | start hcode =>
    cases hcode
    rw [iterate_eq] at hy
    cases hy
  | atEnd _ =>
    rw [atEnd_eq] at hy
    cases hy
  | atSize _ =>
    rw [atSize_eq] at hy
    cases hy
  | atLoad _ _ _ => cases hy
  | done hc hle =>
    cases hy
    exact ⟨rfl, _, hc, hle⟩

/-- An index below the captured capacity is an element of that buffer ever after. -/
theorem inBuffer (hn : itemSize ≠ 0) {t : Nat} {it : Iterator} {c : Nat}
    (hc : CapIs (γ t) it.base c) (hlt : it.index.toNat < c) :
    InBuffer itemSize (ρ.state t) it := by
  have hpos : 0 < itemSize.toNat := Nat.pos_of_ne_zero fun h0 => hn (UInt32.toNat_inj.mp h0)
  refine ⟨by rw [hc.dataCap (h.inv t)]; exact hlt, ?_⟩
  rcases hc with ⟨_, rfl⟩ | ⟨b, x, hb, hx, rfl⟩
  · exact absurd hlt (Nat.not_lt_zero _)
  · refine ⟨⟨b, 8 + it.index.toNat * itemSize.toNat⟩, by simp [Iterator.deref, hb], ?_⟩
    exact (((h.inv t).repr.node b x hx).valid_elem hpos _).mpr hlt

end run

/-- **A range loop stays inside its buffer unless the array outgrows it.** In any
interleaving of a writer that reserves, pushes and clears with readers that
iterate: no thread accesses memory outside a block, every loop ends, and if no
reader measures an array larger than the buffer its `begin()` captured, then
every element a loop dereferences is one of that buffer, whenever it does so. -/
theorem iteration_stays_inside (h0 : Zeroed m₀ slot) (hs : m₀.script = []) (hn : itemSize ≠ 0)
    (ρ : Run (writer slot itemSize clears) (reader slot) ι m₀) :
    (∀ t, ¬ (ρ.sys t).writer.Faults (ρ.state t) ∧
      ∀ i, ¬ ((ρ.sys t).reader i).Faults (ρ.state t)) ∧
    (∀ i t b e, ρ.Returns i t () (b, e) → ∃ l, Visits b e l) ∧
    ((∀ t i, ¬ Outgrown (ρ.sys t) i) → ∀ i t b e l, ρ.Returns i t () (b, e) → Visits b e l →
      ∀ it ∈ l, it.base = b.base ∧ ∀ u, t < u → InBuffer itemSize (ρ.state u) it) := by
  obtain ⟨γ, h⟩ := exists_trail (reader_only slot) h0 hs hn ρ
  have hloop {i : ι} {t : Nat} {b e : Iterator} (hr : ρ.Returns i t () (b, e)) :
      ∃ l, Visits b e l ∧ ∀ x ∈ l, x.base = b.base ∧ x.index.toNat < e.index.toNat := by
    obtain ⟨hb, _⟩ := returned h (P := False) (fun hf => hf.elim) hr
    exact visits_from (k := e.index.toNat) (by rw [hb]; exact Nat.zero_add _)
  refine ⟨fun t => ⟨h.writer_not_faults t, fun i => reader_not_faults h i t⟩, ?_, ?_⟩
  · intro i t b e hr
    obtain ⟨l, hl, _⟩ := hloop hr
    exact ⟨l, hl⟩
  · intro hno i t b e l hr hl it hit
    obtain ⟨l', hl', hall⟩ := hloop hr
    obtain rfl := hl.unique hl'
    obtain ⟨hbase, hlt⟩ := hall it hit
    obtain ⟨_, c, hc, hle⟩ := returned h (P := True) (fun _ => hno) hr
    refine ⟨hbase, fun u hu => ?_⟩
    have hcu := capIs_mono h hc hu
    rw [← hbase] at hcu
    exact inBuffer h hn hcu (Nat.lt_of_lt_of_le hlt (hle trivial))

/-! Two runs. In the first the writer pushes an element before `begin()` and one
between `begin()` and `end()`, and the loop visits both. In the second a reader
calls `begin()` on the empty slot, the writer pushes one element, and then the
reader calls `end()`: the loop dereferences its null base. -/

def pushInside (t : Nat) : Choice (writer ⟨0, 0⟩ 4 false) (reader ⟨0, 0⟩) Unit :=
  if t < 11 then .writer .prepare
  else if t < 14 then .writer (.fill 0 [.byte 7, .byte 0, .byte 0, .byte 0])
  else if t < 19 then .writer .commit
  else if t < 21 then .reader () ()
  else if t < 27 then .writer .prepare
  else if t < 30 then .writer (.fill 0 [.byte 8, .byte 0, .byte 0, .byte 0])
  else if t < 35 then .writer .commit
  else if t < 39 then .reader () ()
  else .writer .commit

def pushBetween (t : Nat) : Choice (writer ⟨0, 0⟩ 4 false) (reader ⟨0, 0⟩) Unit :=
  if t < 2 then .reader () ()
  else if t < 13 then .writer .prepare
  else if t < 16 then .writer (.fill 0 [.byte 7, .byte 0, .byte 0, .byte 0])
  else if t < 21 then .writer .commit
  else .reader () ()

/-- What the iteration has captured when it is about to load a size. -/
def measured {slot : Addr} (x : Thread (reader slot)) : Option Ptr :=
  match x.cur with
  | some (_, .act (.load _ .u32 _) k) => match k (0 : UInt32) with
    | .ret (b, _) => some b.base
    | .act .. => none
  | _ => none

theorem Measuring.measured_eq {slot a : Addr} {x : Thread (reader slot)} {b : Iterator}
    (h : Measuring x b a) : measured x = some b.base := by
  obtain ⟨q, hq⟩ := h
  rw [measured, hq]
  rfl

theorem pushInside_measured : ∀ t < 40,
    (measured (((Run.ofSchedule zeroedSlot pushInside).sys t).reader ())).all (fun p =>
      arraySize ((Run.ofSchedule zeroedSlot pushInside).state t) ⟨0, 0⟩ ≤
        dataCap ((Run.ofSchedule zeroedSlot pushInside).state t) p) = true := by
  decide +kernel

theorem pushInside_not_outgrown (t : Nat) (i : Unit) :
    ¬ Outgrown ((Run.ofSchedule zeroedSlot pushInside).sys t) i := by
  rintro ⟨b, a, hm, _, hlt⟩
  have hle (u : Nat) (hu : u < 40)
      (h : (Run.ofSchedule zeroedSlot pushInside).sys t =
        (Run.ofSchedule zeroedSlot pushInside).sys u) : False := by
    rw [h] at hm hlt
    have hall := pushInside_measured u hu
    rw [hm.measured_eq, Option.all_some, decide_eq_true_iff] at hall
    exact absurd hlt (Nat.not_lt.mpr hall)
  rcases Nat.lt_or_ge t 40 with ht | ht
  · exact hle t ht rfl
  · refine hle 39 (by decide) (Run.ofSchedule_stays (by omega) rfl fun u hu => ⟨.commit, ?_, rfl⟩)
    simp only [pushInside]
    split_ifs <;> first | omega | rfl

theorem iteration_stays_inside_pushed : Visits ⟨some ⟨1, 8⟩, 0⟩ ⟨some ⟨1, 8⟩, 2⟩
      [⟨some ⟨1, 8⟩, 0⟩, ⟨some ⟨1, 8⟩, 1⟩] ∧
    InBuffer 4 ((Run.ofSchedule zeroedSlot pushInside).state 40) ⟨some ⟨1, 8⟩, 1⟩ := by
  obtain ⟨_, _, h⟩ :=
    iteration_stays_inside zeroedSlot_zeroed rfl (by decide) (Run.ofSchedule zeroedSlot pushInside)
  have hvisits : Visits ⟨some ⟨1, 8⟩, 0⟩ ⟨some ⟨1, 8⟩, 2⟩
      [⟨some ⟨1, 8⟩, 0⟩, ⟨some ⟨1, 8⟩, 1⟩] := ⟨3, rfl⟩
  have hin := h pushInside_not_outgrown () 37 ⟨some ⟨1, 8⟩, 0⟩ ⟨some ⟨1, 8⟩, 2⟩ _
    ⟨_, _, _, rfl, rfl⟩ hvisits ⟨some ⟨1, 8⟩, 1⟩ (by simp)
  exact ⟨hvisits, hin.2 40 (by decide)⟩

theorem push_between_begin_and_end :
    ¬ ∀ (slot : Addr) (itemSize : UInt32) (m₀ : Mem), Zeroed m₀ slot → m₀.script = [] →
      itemSize ≠ 0 → ∀ (ρ : Run (writer slot itemSize false) (reader slot) Unit m₀) (t : Nat)
        (b e : Iterator) (l : List Iterator), ρ.Returns () t () (b, e) → Visits b e l →
        ∀ it ∈ l, it.base = b.base ∧ InBuffer itemSize (ρ.state (t + 1)) it := by
  intro h
  have hin := h ⟨0, 0⟩ 4 zeroedSlot zeroedSlot_zeroed rfl (by decide)
    (Run.ofSchedule zeroedSlot pushBetween) 23 ⟨none, 0⟩ ⟨some ⟨1, 8⟩, 1⟩ [⟨none, 0⟩]
    ⟨_, _, _, rfl, rfl⟩ ⟨2, rfl⟩ ⟨none, 0⟩ (List.mem_singleton.mpr rfl)
  exact absurd hin.2.1 (by decide)

end Msm.Arr.Iterate
