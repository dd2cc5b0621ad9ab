import Msm.Arr.Reads
import Msm.Str.Exact
import Msm.Typed.Views

/-! # One writer and any number of readers of a typed slot

The writer gets views and changes what they lead to, by any operation that frees
nothing; the readers get views of their own and read. All hold their views, and the
pointers to strings, as long as they like, in any order of steps. The contract of
the writer keeps the memory to a heap that only grows, so whatever a thread has got
once stays right. -/
namespace Msm.Typed
open Msm.Exec Msm.CMem Msm.Api Msm.Own

/-- What a call is given. -/
def Call.given : Call → Given
  | .change _ op => op.given
  | _ => ⟨fun _ => False, fun _ => False⟩

/-- The call adds an element. -/
def Call.pushes : Call → Bool
  | .emplaceBack _ => true
  | .change _ op => op.pushes
  | _ => false

abbrev calls (log : Log) : List Call := log.map Prod.fst

def givenBy (cs : List Call) : Given where
  scalar v := ∃ c ∈ cs, c.given.scalar v
  chars bs := ∃ c ∈ cs, c.given.chars bs

def pushed (log : Log) : Nat := (calls log).countP Call.pushes

/-- The writer makes any call, and adds 2^31 elements at most. -/
abbrev writer (T : Ty) (r : Nat) : Client cmachine where
  Call := Call
  Val := Value
  code log c := if pushed log + c.pushes.toNat ≤ 2 ^ 31 then c.code T r log else none

abbrev reader (T : Ty) (r : Nat) : Client cmachine where
  Call := Call
  Val := Value
  code log c := if c.reads then c.code T r log else none

section contract
variable {T : Ty} {r : Nat} {A : Given} {log : Log} {c : Call} {x : Value} {p : CProg Value}
  {m : Mem} {h : Heap}

theorem givenBy_append (cs cs' : List Call) : (givenBy cs).Le (givenBy (cs ++ cs')) :=
  ⟨fun _ ⟨c, hc, hv⟩ => ⟨c, List.mem_append_left _ hc, hv⟩,
    fun _ ⟨c, hc, hb⟩ => ⟨c, List.mem_append_left _ hc, hb⟩⟩

theorem given_le {cs : List Call} (hc : c ∈ cs) : c.given.Le (givenBy cs) :=
  ⟨fun _ hv => ⟨c, hc, hv⟩, fun _ hb => ⟨c, hc, hb⟩⟩

theorem calls_append : calls (log ++ [(c, x)]) = calls log ++ [c] := List.map_append

theorem pushed_append : pushed (log ++ [(c, x)]) = pushed log + c.pushes.toNat := by
  rw [pushed, calls_append, List.countP_append, List.countP_singleton, pushed]
  cases c.pushes <;> rfl

/-! ## Calls that read -/

theorem arrayAt_only (item : Ty) (p : Ptr) (i : UInt64) : (arrayAt item p i).Only Act.IsRead := by
  cases p with
  | none => trivial
  | some a => exact Arr.msmArrayGet_only a i.toUInt32 item.itemSize

theorem Query.only {t : Ty} (q : Query t) (p : Ptr) : (q.code p).Only Act.IsRead := by
  have hlength : (msmStringLength p).Only Act.IsRead := by
    cases p with
    | none => trivial
    | some a => exact Str.msmStringLength_only a
  have hsize : (msmArraySize p).Only Act.IsRead := by
    cases p with
    | none => trivial
    | some a => exact Arr.msmArraySize_only a
  cases q with
  | @value k =>
    refine Prog.only_bind ?_ fun _ => trivial
    rw [read_eq]
    exact ⟨trivial, fun _ => trivial⟩
  | cStr => exact Prog.only_bind (Obj.only_msmStringGet p) fun _ => trivial
  | length => exact Prog.only_bind hlength fun _ => trivial
  | stringEmpty =>
    exact Prog.only_bind (Prog.only_bind hlength fun _ => trivial) fun _ => trivial
  | size => exact Prog.only_bind hsize fun _ => trivial
  | arrayEmpty => exact Prog.only_bind (Prog.only_bind hsize fun _ => trivial) fun _ => trivial

theorem call_only (hreads : c.reads = true) (hp : c.code T r log = some p) :
    p.Only Act.IsRead := by
  cases c with
  | root =>
    cases hp
    trivial
  | field n name =>
    simp only [Call.code] at hp
    split at hp
    · obtain ⟨v, _, rfl⟩ := Option.map_eq_some_iff.mp hp
      trivial
    · cases hp
  | item n i =>
    simp only [Call.code] at hp
    split at hp
    · cases hp
      exact Prog.only_bind (arrayAt_only _ _ i) fun _ => trivial
    · cases hp
  | emplaceBack n => cases hreads
  | change n op => cases hreads
  | read n q =>
    simp only [Call.code] at hp
    split at hp
    · split at hp
      · cases hp
        exact Prog.only_bind (q.only _) fun _ => trivial
      · cases hp
    · cases hp
  | next n =>
    simp only [Call.code] at hp
    split at hp
    · rename_i q _
      split at hp
      · cases hp
      · cases hp
        refine Prog.only_bind ?_ fun _ => trivial
        cases q with
        | null => exact ⟨trivial, fun _ => trivial⟩
        | own _ => trivial
        | shared _ => exact ⟨trivial, fun _ => trivial⟩
    · cases hp

theorem reader_only (T : Ty) (r : Nat) : (reader T r).Only Act.IsRead := by
  intro log c p hp
  simp only [reader] at hp
  split at hp
  · rename_i hreads
    exact call_only hreads hp
  · cases hp

/-! ## The contract of the writer -/

/-- Between two calls of the writer. -/
structure Idle (T : Ty) (r : Nat) (log : Log) (m : Mem) (h : Heap) : Prop extends
    Point (givenBy (calls log)) h m where
  held : LogOk (givenBy (calls log)) h log
  root : h.content r = some (.root T)
  count : h.pushes ≤ pushed log

theorem Idle.append {m' : Mem} {h' : Heap} (hi : Idle T r log m h)
    (ha : After (givenBy (calls log ++ [c])) h c.pushes.toNat m' h')
    (hl : LogOk (givenBy (calls log ++ [c])) h' (log ++ [(c, x)])) :
    Idle T r (log ++ [(c, x)]) m' h' := by
  have hcount := hi.count
  have hcount' := ha.count
  refine ⟨?_, ?_, ha.grows.content _ _ hi.root, ?_⟩
  · rw [calls_append]
    exact ha.toPoint
  · rw [calls_append]
    exact hl
  · rw [pushed_append]
    omega

def contract (T : Ty) (r : Nat) : Contract (writer T r) Heap where
  Idle := Idle T r
  T c := Moves c.given
  F _ _ _ := False

/-- A change of the slot that a view leads to. -/
theorem change_safe {n : Nat} {t : Ty} {op : Op t} (hi : Idle T r log m h)
    (hpush : pushed log + op.pushes.toNat ≤ 2 ^ 31)
    (hp : Call.code T r log (.change n op) = some p) :
    p.Safe (Moves op.given) (fun _ _ _ => False)
      (fun x => Idle T r (log ++ [(.change n op, x)])) m h := by
  have hA := givenBy_append (calls log) [.change n op]
  have hSA : op.given.Le (givenBy (calls log ++ [.change n op])) :=
    given_le (c := .change n op) (List.mem_append_right _ List.mem_cons_self)
  have hdone (m' : Mem) (h' : Heap)
      (ha : After (givenBy (calls log ++ [.change n op])) h op.pushes.toNat m' h') :
      Idle T r (log ++ [(.change n op, .got .nothing)]) m' h' :=
    hi.append ha ((hi.held.mono hA ha.grows).append trivial fun _ _ hn => by cases hn)
  have hpoint : Point (givenBy (calls log ++ [.change n op])) h m := ⟨hi.store.mono hA, hi.script⟩
  have hcount := hi.count
  simp only [Call.code] at hp
  split at hp
  · rename_i v hv
    split at hp
    · rename_i hok
      obtain ⟨rfl, hshare, hnull⟩ := hok
      cases hp
      refine .bind ?_
      cases ha : v.ptr with
      | none =>
        rw [ha] at hnull
        refine op.safe_null (hnull.resolve_left (by simp)) (hdone m h ?_)
        exact ⟨hpoint, .refl h, Nat.le_add_right _ _⟩
      | some a =>
        refine op.safe hpoint hSA (hi.held.view hv ha) hshare (.refl _)
          (fun he => ?_) hdone
        rw [he] at hpush
        exact Nat.lt_of_le_of_lt hcount hpush
    · cases hp
  · cases hp

theorem emplaceBack_safe {n : Nat} (hi : Idle T r log m h) (hpush : pushed log + 1 ≤ 2 ^ 31)
    (hp : Call.code T r log (.emplaceBack n) = some p) :
    p.Safe (Moves (Call.given (.emplaceBack n))) (fun _ _ _ => False)
      (fun x => Idle T r (log ++ [(.emplaceBack n, x)])) m h := by
  have hA := givenBy_append (calls log) [.emplaceBack n]
  have hSA : (Call.given (.emplaceBack n)).Le (givenBy (calls log ++ [.emplaceBack n])) :=
    given_le (List.mem_append_right _ List.mem_cons_self)
  have hpoint : Point (givenBy (calls log ++ [.emplaceBack n])) h m := ⟨hi.store.mono hA, hi.script⟩
  have hcount := hi.count
  have hdone (m' : Mem) (h' : Heap) (v : View)
      (ha : After (givenBy (calls log ++ [.emplaceBack n])) h 1 m' h')
      (hv : ∀ a, v.ptr = some a → At h' v.type a) :
      Idle T r (log ++ [(.emplaceBack n, .view v)]) m' h' :=
    hi.append ha ((hi.held.mono hA ha.grows).append hv fun _ _ hn => by cases hn)
  simp only [Call.code] at hp
  split at hp
  · rename_i t q hv
    cases hp
    refine .bind ?_
    cases q with
    | none =>
      refine hdone m h _ ⟨hpoint, .refl h, Nat.le_add_right _ _⟩ fun a ha => ?_
      cases ha
    | some a =>
      refine msmArrayPushBack_safe hpoint hSA (hi.held.view hv rfl) (by omega) ?_
      intro m' h' p ha hat
      refine hdone m' h' ⟨t, some p⟩ ha fun b hb => ?_
      cases hb
      exact hat
  · cases hp

theorem contract_holds (T : Ty) (r : Nat) : (contract T r).Holds fun _ => True := by
  intro log (c : Call) p m h hi _ hp
  simp only [writer] at hp
  split at hp
  · rename_i hpush
    cases hreads : c.reads with
    | true =>
      have hA := givenBy_append (calls log) [c]
      have hc : Course T r (fun _ => m) (fun _ => h) (fun _ => givenBy (calls log ++ [c])) :=
        ⟨fun _ => hi.store.mono hA, fun _ => hi.root, fun _ _ _ => .refl h, fun _ _ _ => .refl _⟩
      have hread := call_sampled (s := 0) hc (hi.held.mono hA (.refl h)) hreads hp
      refine (hread.mono fun x _ _ hl => ?_).safe (call_only hreads hp) fun a _ => Step.refl
      exact hi.append ⟨⟨hi.store.mono hA, hi.script⟩, .refl h, Nat.le_add_right _ _⟩ hl
    | false =>
      cases c with
      | emplaceBack n => exact emplaceBack_safe hi hpush hp
      | change n op => exact change_safe hi hpush hp
      | _ => cases hreads
  · cases hp

end contract

/-! ## Every run -/

/-- What a thread has got so far: its views lead to slots of their types, and what it
has read was given to calls, a string at once to its end. -/
structure Sees (A : Given) (h : Heap) (m : Mem) (log : Log) : Prop where
  view : ∀ c v a, (c, .view v) ∈ log → v.ptr = some a → Located A h m v.type a
  scalar : ∀ c v, (c, .got (.scalar v)) ∈ log → A.Number v
  length : ∀ n k, (.read n .length, .got (.number k)) ∈ log →
    ∃ bs, A.Text bs ∧ k.toNat = bs.length
  chars : ∀ n p, charsOf log n = some p → ∃ bs, A.Text bs ∧ 0 ∉ bs ∧
    charsRead log n <+: bs ++ [0] ∧ (0 ∈ charsRead log n → charsRead log n = bs ++ [0])

section runs
variable {T : Ty} {r : Nat} {ι : Type} {m₀ m m' : Mem} {h h' : Heap}
  {x x' : Thread (writer T r)}

theorem LogOk.sees {A : Given} {log : Log} (hl : LogOk A h log) (hs : Store A h m) :
    Sees A h m log where
  view c v a hin ha := (hl.entry c _ hin a ha).located hs
  scalar c v hin := hl.entry c _ hin
  length n k hin := hl.entry _ _ hin
  chars n p hp := by
    obtain ⟨bs, _, ht, h0, hpre⟩ := hl.chars n p hp
    exact ⟨bs, ht, h0, hpre, fun hin => Str.prefix_terminated hpre hin h0⟩

/-- The calls that the writer has begun. -/
def begun (x : Thread (writer T r)) : List Call :=
  calls x.log ++ (x.cur.map Prod.fst).toList

theorem begun_idle (log : Log) : begun (⟨log, none⟩ : Thread (writer T r)) = calls log :=
  List.append_nil _

/-- The memory and what the writer has got keep to the heap. -/
structure Right (x : Thread (writer T r)) (m : Mem) (h : Heap) : Prop where
  store : Store (givenBy (begun x)) h m
  held : LogOk (givenBy (begun x)) h x.log
  root : h.content r = some (.root T)

/-- A step of the writer. -/
theorem Right.step (hr : Right x m h) (ht : (contract T r).Tracks x m h x' m' h')
    (hat : (contract T r).At x' m' h') :
    Right x' m' h' ∧ h.Extends h' ∧ (givenBy (begun x)).Le (givenBy (begun x')) := by
  cases ht with
  | rest => exact ⟨hr, .refl h, .refl _⟩
  | @start _ _ log c p _ =>
    obtain ⟨hs, hl, hroot⟩ := hr
    rw [begun_idle] at hs hl ⊢
    have hA := givenBy_append (calls log) [c]
    exact ⟨⟨hs.mono hA, hl.mono hA (.refl h), hroot⟩, .refl h, hA⟩
  | @act _ _ _ _ log c a k res _ hstep =>
    have hext := hstep.grows
    have hS : c.given.Le (givenBy (calls log ++ [c])) :=
      given_le (List.mem_append_right _ List.mem_cons_self)
    exact ⟨⟨hstep.store _ hS hr.store, hr.held.mono (.refl _) hext, hext.content _ _ hr.root⟩,
      hext, .refl _⟩
  | @finish _ _ log c v =>
    have hbegun : begun (⟨log ++ [(c, v)], none⟩ : Thread (writer T r)) = calls log ++ [c] := by
      rw [begun_idle, calls_append]
    have hi : Idle T r (log ++ [(c, v)]) m h := hat
    refine ⟨⟨?_, ?_, hr.root⟩, .refl h, ?_⟩
    · rw [hbegun]
      exact hr.store
    · rw [begun_idle]
      exact hi.held
    · rw [hbegun]
      exact .refl _

/-- A zeroed slot is the heap with its root. -/
theorem idle_zero (hsound : T.Sound) (hsize : T.size < 2 ^ 32) (hm : m₀.script = [])
    (hv : m₀.Valid ⟨r, 0⟩ T.slotSize.toNat)
    (hz : m₀.read ⟨r, 0⟩ T.slotSize.toNat = List.replicate T.slotSize.toNat (.byte 0)) :
    Idle T r [] m₀ (Heap.add ⟨fun _ => none, 0⟩ r (.root T)) := by
  rw [Ty.toNat_slotSize (Nat.lt_trans hsize (by decide))] at hv hz
  refine ⟨⟨Store.add (fun b c hc => by cases hc) rfl ⟨hsound, hsize, hv, slotOk_zero T hv hz⟩, hm⟩,
    logOk_nil, Heap.add_content_self _ r _, Nat.le_refl _⟩

/-- The heaps of a run. -/
theorem exists_heaps (hsound : T.Sound) (hsize : T.size < 2 ^ 32) (hm : m₀.script = [])
    (hv : m₀.Valid ⟨r, 0⟩ T.slotSize.toNat)
    (hz : m₀.read ⟨r, 0⟩ T.slotSize.toNat = List.replicate T.slotSize.toNat (.byte 0))
    (ρ : Run (writer T r) (reader T r) ι m₀) : ∃ γ : Nat → Heap,
      Course T r ρ.state γ (fun t => givenBy (begun (ρ.sys t).writer)) ∧
      ∀ t, LogOk (givenBy (begun (ρ.sys t).writer)) (γ t) (ρ.sys t).writer.log ∧
        ¬ (ρ.sys t).writer.Faults (ρ.state t) := by
  have hidle := idle_zero hsound hsize hm hv hz
  obtain ⟨γ, hγ0, hγ⟩ := ρ.ghost (reader_only T r) (fun a ha _ _ _ he => ha.state_eq he)
    (contract_holds T r) hidle fun _ => trivial
  have hright (t : Nat) : Right (ρ.sys t).writer (ρ.state t) (γ t) := by
    induction t with
    | zero =>
      rw [ρ.state_zero, ρ.sys_zero, hγ0]
      exact ⟨hidle.store, hidle.held, hidle.root⟩
    | succ t ih => exact (ih.step (hγ t).2 (hγ (t + 1)).1).1
  have hstep (t : Nat) := ((hright t).step (hγ t).2 (hγ (t + 1)).1).2
  refine ⟨γ, ⟨fun t => (hright t).store, fun t => (hright t).root, fun t u htu => ?_,
    fun t u htu => ?_⟩, fun t => ⟨(hright t).held, (hγ t).1.not_faults fun _ => id⟩⟩
  · induction u, htu using Nat.le_induction with
    | base => exact .refl _
    | succ u _ ih => exact ih.trans (hstep u).1
  · induction u, htu using Nat.le_induction with
    | base => exact .refl _
    | succ u _ ih => exact ih.trans (hstep u).2

/-- **Views stay typed.** In any interleaving of one writer and any number of readers
from a zeroed slot of a type, no thread ever accesses memory outside a block. There
are heaps that only grow and that the memory keeps to, and in them every view that a
thread holds, however old, leads to a slot of its type; every number that it has read
is zero or was given to a call of the writer; and every string and length that it has
read is of one string, empty or given to a call of the writer. -/
theorem held_views_typed (hsound : T.Sound) (hsize : T.size < 2 ^ 32) (hm : m₀.script = [])
    (hv : m₀.Valid ⟨r, 0⟩ T.slotSize.toNat)
    (hz : m₀.read ⟨r, 0⟩ T.slotSize.toNat = List.replicate T.slotSize.toNat (.byte 0))
    (ρ : Run (writer T r) (reader T r) ι m₀) :
    (∀ t, ¬ (ρ.sys t).writer.Faults (ρ.state t) ∧
      ∀ i, ¬ ((ρ.sys t).reader i).Faults (ρ.state t)) ∧
    ∃ γ : Nat → Heap, (∀ t u, t ≤ u → (γ t).Extends (γ u)) ∧ ∀ t,
      Store (givenBy (begun (ρ.sys t).writer)) (γ t) (ρ.state t) ∧
      Sees (givenBy (begun (ρ.sys t).writer)) (γ t) (ρ.state t) (ρ.sys t).writer.log ∧
      ∀ i, Sees (givenBy (begun (ρ.sys t).writer)) (γ t) (ρ.state t)
        ((ρ.sys t).reader i).log := by
  obtain ⟨γ, hc, hw⟩ := exists_heaps hsound hsize hm hv hz ρ
  have hlog (i : ι) (t : Nat) := ρ.log_inv
    (I := fun log t => LogOk (givenBy (begun (ρ.sys t).writer)) (γ t) log) logOk_nil
    (fun log t u hl htu => hl.mono (hc.given t u htu) (hc.grows t u htu))
    (fun log c p t hl hp => by
      simp only at hp
      split at hp
      · rename_i hreads
        exact call_sampled hc hl hreads hp
      · cases hp) i t
  refine ⟨fun t => ⟨(hw t).2, fun i => (hlog i t).2⟩, γ, hc.grows, fun t => ?_⟩
  exact ⟨hc.store t, (hw t).1.sees (hc.store t), fun i => (hlog i t).1.sees (hc.store t)⟩

end runs

/-! The writer sets the string of a `track`; a reader gets a pointer to it and reads a
character; the writer clears the string; the reader reads on to the NUL. -/

def setClear (t : Nat) : Choice (writer track 0) (reader track 0) Unit :=
  if t < 2 then .writer Call.root
  else if t < 4 then .writer (Call.field 0 Rec.idName)
  else if t < 12 then .writer (Call.change 1 (.setString (some Obj.nameA)))
  else if t < 14 then .reader () Call.root
  else if t < 16 then .reader () (Call.field 0 Rec.idName)
  else if t < 20 then .reader () (Call.read 1 .cStr)
  else if t < 23 then .reader () (Call.next 2)
  else if t < 26 then .writer (Call.change 1 .clearString)
  else .reader () (Call.next 2)

theorem held_views_typed_track : ∃ bs,
    (givenBy (begun ((Run.ofSchedule zeroTrack setClear).sys 29).writer)).Text bs ∧
      [97, 0] = bs ++ [0] := by
  have h := held_views_typed track_sound (by decide) rfl (by decide) rfl
    (Run.ofSchedule zeroTrack setClear)
  obtain ⟨γ, _, hγ⟩ := h.2
  obtain ⟨bs, ht, _, _, hend⟩ := ((hγ 29).2.2 ()).chars 2 (.shared ⟨1, 8⟩) rfl
  exact ⟨bs, ht, hend (by decide)⟩

end Msm.Typed
