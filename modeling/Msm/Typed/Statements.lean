import Msm.Exec.Refine
import Msm.Obj.Plain
import Msm.Typed.Writes

/-! # Programs on a typed slot

A program of statements `view.get<Name>()[i]... op` on the slot of a type is a
program on a value of the type: each statement follows its route and reads or
changes the component there. Without a target, the view is null: a string or an
array operation does nothing and reads as empty, and a primitive one ends the
process. -/
namespace Msm.Typed
open Msm.Exec Msm.CMem Msm.Api Msm.Own

/-! ## Statements -/

/-- The operations of a view that change its slot. -/
inductive Op : Ty → Type
  | assign (v : Scalar) : Op (.prim v.prim)
  | setString (str : Option CStr) : Op .string
  | clearString : Op .string
  | emplaceBack {item : Ty} : Op (.array item)
  | pushScalar (v : Scalar) : Op (.array (.prim v.prim))
  | pushString (str : Option CStr) : Op (.array .string)
  | emplaceWith {fs : Fields} (args : Args fs) : Op (.array (.record fs))
  | reserve {item : Ty} (newCap : UInt32) : Op (.array item)
  | clear {item : Ty} : Op (.array item)
  | destroy {item : Ty} : Op (.array item)

def Op.code {t : Ty} (ptr : Ptr) : Op t → CProg Unit
  | .assign v => v.assign ptr
  | .setString str => stringAssign ptr str
  | .clearString => msmStringClear ptr
  | @Op.emplaceBack item => do
    let _ ← Api.emplaceBack item ptr
    pure ()
  | .pushScalar v => pushBack (.prim v.prim) ptr fun slot => v.assign slot
  | .pushString str => pushBack .string ptr fun slot => stringAssign slot str
  | @Op.emplaceWith fs args => emplaceBackWith fs ptr args.list
  | @Op.reserve item newCap => msmArrayReserve ptr newCap item.itemSize
  | .clear => msmArrayClear ptr
  | .destroy => arrayDestroy ptr

/-- The reads of a view. -/
inductive Query : Ty → Type
  | value {k : Prim} : Query (.prim k)
  | cStr : Query .string
  | length : Query .string
  | stringEmpty : Query .string
  | size {item : Ty} : Query (.array item)
  | arrayEmpty {item : Ty} : Query (.array item)

inductive Got where
  | nothing
  | scalar (v : Scalar)
  | chars (p : CharPtr)
  | number (n : UInt32)
  | bool (b : Bool)

def Query.code {t : Ty} (ptr : Ptr) : Query t → CProg Got
  | @Query.value k => do
    let v ← k.read ptr
    pure (.scalar v)
  | .cStr => do
    let p ← msmStringGet ptr
    pure (.chars p)
  | .length => do
    let n ← msmStringLength ptr
    pure (.number n)
  | .stringEmpty => do
    let b ← Api.stringEmpty ptr
    pure (.bool b)
  | .size => do
    let n ← msmArraySize ptr
    pure (.number n)
  | .arrayEmpty => do
    let b ← Api.arrayEmpty ptr
    pure (.bool b)

inductive Use (t : Ty) where
  | change (op : Op t)
  | read (q : Query t)

def Use.code {t : Ty} (ptr : Ptr) : Use t → CProg Got
  | .change op => do
    op.code ptr
    pure .nothing
  | .read q => q.code ptr

/-- A route from the view of `T`, and what is done with the view it leads to. -/
structure Statement (T : Ty) where
  type : Ty
  route : Route T type
  use : Use type

def Statement.code {T : Ty} (root : Ptr) (st : Statement T) : CProg Got := do
  let p ← st.route.follow root
  st.use.code p

/-! ## What they mean -/

inductive Reply where
  | nothing
  | scalar (v : Scalar)
  | chars (bs : List UInt8)
  | number (n : Nat)
  | bool (b : Bool)

def Op.effect {t : Ty} : Op t → t.Val → t.Val
  | .assign v, _ => v.val
  | .setString str, _ => Api.chars str
  | .clearString, _ => ([] : List UInt8)
  | @Op.emplaceBack item, (vs : List item.Val) => vs ++ [item.zero]
  | .pushScalar v, (vs : List v.prim.Val) => vs ++ [v.val]
  | .pushString str, (vs : List (List UInt8)) => vs ++ [Api.chars str]
  | @Op.emplaceWith fs args, (vs : List fs.Vals) => vs ++ [args.fill fs.zeros]
  | .reserve _, vs => vs
  | @Op.clear item, _ => ([] : List item.Val)
  | @Op.destroy item, _ => ([] : List item.Val)

def Query.answer {t : Ty} : Query t → t.Val → Reply
  | .value, v => .scalar v.1
  | .cStr, (bs : List UInt8) => .chars bs
  | .length, (bs : List UInt8) => .number bs.length
  | .stringEmpty, (bs : List UInt8) => .bool bs.isEmpty
  | @Query.size item, (vs : List item.Val) => .number vs.length
  | @Query.arrayEmpty item, (vs : List item.Val) => .bool vs.isEmpty

/-- On a null view the operation does nothing; otherwise it ends the process. -/
def Op.nullOk {t : Ty} : Op t → Bool
  | .assign _ => false
  | .pushScalar _ => false
  | .emplaceWith args => args.list.isEmpty
  | .destroy => false
  | _ => true

/-- The answer of a null view: that of the zero value, if there is one. -/
def Query.nullAnswer {t : Ty} : Query t → Except Fault Reply
  | .value => .error .nullDeref
  | .cStr => .ok (.chars [])
  | .length => .ok (.number 0)
  | .stringEmpty => .ok (.bool true)
  | .size => .ok (.number 0)
  | .arrayEmpty => .ok (.bool true)

def Use.meaning {t : Ty} (w : t.Val) : Use t → Reply × t.Val
  | .change op => (.nothing, op.effect w)
  | .read q => (q.answer w, w)

def Use.nullMeaning {t : Ty} : Use t → Except Fault Reply
  | .change op => if op.nullOk then .ok .nothing else .error .nullDeref
  | .read q => q.nullAnswer

def Statement.meaning {T : Ty} (v : T.Val) (st : Statement T) : Except Fault (Reply × T.Val) :=
  match st.route.get v with
  | some w => .ok ((st.use.meaning w).1, st.route.set (st.use.meaning w).2 v)
  | none => st.use.nullMeaning.map fun r => (r, v)

/-- What was got shows the reply; a string, when the pointer points to it. -/
def Got.Shows (m : Mem) : Got → Reply → Prop
  | .nothing, .nothing => True
  | .scalar v, .scalar w => v = w
  | .chars p, .chars bs => Obj.Points m p bs
  | .number n, .number k => n.toNat = k
  | .bool b, .bool c => b = c
  | _, _ => False

/-! ## What an operation asks for -/

/-- A string fits a 32-bit buffer size, and so do the bytes of the items after a push. -/
def Op.Fits {t : Ty} : Op t → t.Val → Prop
  | .setString str, _ => (Api.chars str).length + 1 < 2 ^ 32
  | @Op.emplaceBack item, (vs : List item.Val) => (vs.length + 1) * item.size < 2 ^ 32
  | .pushScalar v, (vs : List v.prim.Val) => (vs.length + 1) * v.prim.size < 2 ^ 32
  | .pushString str, (vs : List (List UInt8)) =>
    (vs.length + 1) * Ty.string.size < 2 ^ 32 ∧ (Api.chars str).length + 1 < 2 ^ 32
  | @Op.emplaceWith fs _, (vs : List fs.Vals) => (vs.length + 1) * (Ty.record fs).size < 2 ^ 32
  | _, _ => True

def Use.Fits {t : Ty} (w : t.Val) : Use t → Prop
  | .change op => op.Fits w
  | .read _ => True

def Statement.Fits {T : Ty} (v : T.Val) (st : Statement T) : Prop :=
  ∀ w, st.route.get v = some w → st.use.Fits w

/-! ## One statement -/

section target
variable {m : Mem} {a : Addr} {t : Ty} {w : t.Val}

/-- **An operation leaves its effect.** -/
theorem Op.leaves (op : Op t) (hsound : t.Sound) (hm : m.script = []) (h : t.shape.Held m a)
    (hs : t.Shows m a w) (hfits : op.Fits w) : Leaves t a (op.code (some a)) m (op.effect w) := by
  have hok : m.mallocOk = true := by rw [Mem.mallocOk, hm]; rfl
  cases op with
  | assign v => exact assign_leaves h
  | setString str => exact stringAssign_leaves h hok hfits
  | clearString => exact clearString_leaves h
  | @emplaceBack item =>
    refine pushThen_leaves h hs (toNat_itemSize_of_sound hsound) hfits hm fun m₁ p _ h₁ hz => ?_
    exact ⟨m₁, rfl, .refl h₁, hz⟩
  | pushScalar v =>
    refine pushThen_leaves h hs (toNat_itemSize_of_sound hsound) hfits hm fun m₁ p _ h₁ _ => ?_
    exact assign_leaves h₁
  | pushString str =>
    refine pushThen_leaves h hs (toNat_itemSize_of_sound hsound) hfits.1 hm
      fun m₁ p hm₁ h₁ _ => ?_
    exact stringAssign_leaves h₁ (by rw [Mem.mallocOk, hm₁]; rfl) hfits.2
  | @emplaceWith fs args =>
    refine pushThen_leaves h hs (toNat_itemSize_of_sound hsound) hfits hm fun m₁ p _ h₁ hz => ?_
    exact writeFields_leaves args (by have := hsound.1; omega) h₁ hz
  | reserve newCap => exact reserve_leaves h hs hok
  | clear => exact clear_leaves h
  | destroy => exact destroy_leaves h

/-! ### Reads -/

theorem length_run {bs : List UInt8} (h : Ty.string.shape.Held m a) (hs : StringAt m a bs) :
    ∃ n, (msmStringLength (some a)).run m = .ok (n, m) ∧ n.toNat = bs.length := by
  have hl := h.ok.1
  rcases hs with ⟨rfl, hp⟩ | ⟨b, hp, hat⟩
  · rw [hp] at hl
    refine ⟨0, ?_, rfl⟩
    simp only [msmStringLength, reduceCtorEq, if_false, atomicLoadPtr, loadPtr_bind, Ptr.some_add,
      Prog.run, Mem.exec_load hl]
    rfl
  · rw [hp] at hl
    have hlt := hat.lt
    rw [List.length_map] at hlt
    refine ⟨UInt32.ofNat (bs.map Cell.byte).length, ?_, ?_⟩
    · simp only [msmStringLength, reduceCtorEq, if_false, atomicLoadPtr, loadPtr_bind, Ptr.some_add,
        Prog.run, Mem.exec_load hl, basePtr_some, strBufLen, atomicLoadU32, loadU32,
        Mem.exec_load hat.len]
    · rw [List.length_map, UInt32.toNat_ofNat']
      omega

theorem cStr_run {bs : List UInt8} (h : Ty.string.shape.Held m a) (hs : StringAt m a bs) :
    ∃ p, (msmStringGet (some a)).run m = .ok (p, m) ∧ Obj.Points m p bs := by
  have hl := h.ok.1
  rcases hs with ⟨rfl, hp⟩ | ⟨b, hp, hat⟩
  · rw [hp] at hl
    refine ⟨.own [], ?_, rfl⟩
    simp only [msmStringGet, reduceCtorEq, if_false, atomicLoadPtr, loadPtr_bind, Ptr.some_add,
      Prog.run, Mem.exec_load hl]
    rfl
  · rw [hp] at hl
    refine ⟨.shared ⟨b, 8⟩, ?_, ?_⟩
    · simp only [msmStringGet, reduceCtorEq, if_false, atomicLoadPtr, loadPtr_bind, Ptr.some_add,
        Prog.run, Mem.exec_load hl, basePtr_some, strBufLen, atomicLoadU32, loadU32_bind,
        Mem.exec_load hat.len, hat.len_ne_zero]
      rfl
    · have hdata := hat.data
      have hsize := hat.size
      rw [List.length_map] at hdata hsize
      refine ⟨⟨_, hsize, Nat.le_refl _⟩, ?_⟩
      rw [hdata, List.map_append]
      rfl

theorem size_run {item : Ty} {vs : List item.Val} (h : (Ty.array item).shape.Held m a)
    (hs : (Ty.array item).Shows m a vs) :
    ∃ n, (msmArraySize (some a)).run m = .ok (n, m) ∧ n.toNat = vs.length := by
  obtain ⟨n, cap, hb⟩ := Shape.Held.bufferAt h
  refine ⟨n, ?_, length_of_bufferAt hs hb⟩
  have hl := hb.load
  cases hp : Shape.pointee m a with
  | none =>
    rw [hp] at hl hb
    obtain ⟨rfl, _⟩ := hb.empty rfl
    simp only [msmArraySize, reduceCtorEq, if_false, atomicLoadPtr, loadPtr_bind, Ptr.some_add,
      Prog.run, Mem.exec_load hl]
    rfl
  | some b =>
    rw [hp] at hl hb
    simp only [msmArraySize, reduceCtorEq, if_false, atomicLoadPtr, loadPtr_bind, Ptr.some_add,
      Prog.run, Mem.exec_load hl, basePtr_some, arrBufSize, atomicLoadU32, loadU32,
      Mem.exec_load (hb.buffer b rfl).load_size]

theorem decide_eq_zero {n : UInt32} {k : Nat} (h : n.toNat = k) :
    decide (n = 0) = decide (k = 0) := by
  rw [← h, ← UInt32.toNat_zero, decide_eq_decide, UInt32.toNat_inj]

/-- **A read returns the value** and leaves the memory as it is. -/
theorem Query.shows (q : Query t) (h : t.shape.Held m a) (hs : t.Shows m a w) :
    ∃ got, (q.code (some a)).run m = .ok (got, m) ∧ got.Shows m (q.answer w) := by
  cases q with
  | @value k =>
    obtain ⟨x, hx, hw⟩ := Option.map_eq_some_iff.mp hs
    refine ⟨.scalar (k.ofVal x), Prog.run_bind_ok ?_, hw⟩
    simp only [read_eq, Ptr.some_add, Prog.run, Mem.exec_load hx]
  | cStr =>
    obtain ⟨p, hr, hp⟩ := cStr_run h hs
    exact ⟨.chars p, Prog.run_bind_ok hr, hp⟩
  | length =>
    obtain ⟨n, hr, hn⟩ := length_run h hs
    exact ⟨.number n, Prog.run_bind_ok hr, hn⟩
  | stringEmpty =>
    obtain ⟨n, hr, hn⟩ := length_run h hs
    refine ⟨.bool (decide (n = 0)), Prog.run_bind_ok (Prog.run_bind_ok hr), ?_⟩
    exact (decide_eq_zero hn).trans (by cases (w : List UInt8) <;> rfl)
  | @size item =>
    obtain ⟨n, hr, hn⟩ := size_run h hs
    exact ⟨.number n, Prog.run_bind_ok hr, hn⟩
  | @arrayEmpty item =>
    obtain ⟨n, hr, hn⟩ := size_run h hs
    refine ⟨.bool (decide (n = 0)), Prog.run_bind_ok (Prog.run_bind_ok hr), ?_⟩
    exact (decide_eq_zero hn).trans (by cases (w : List item.Val) <;> rfl)

/-! ### Null views -/

theorem Op.code_null (op : Op t) (m : Mem) :
    (op.code none).run m = if op.nullOk then .ok ((), m) else .error .nullDeref := by
  cases op with
  | assign v => cases v <;> rfl
  | setString str => cases str <;> rfl
  | pushScalar v => cases v <;> rfl
  | pushString str => cases str <;> rfl
  | @emplaceWith fs args =>
    cases args with
    | nil => rfl
    | cons v args => cases v <;> rfl
  | _ => rfl

theorem Query.code_null (q : Query t) (m : Mem) :
    Does Got.Shows (fun m' (_ : Unit) => m' = m) ((q.code none).run m)
      (q.nullAnswer.map (·, ())) := by
  cases q with
  | @value k => cases k <;> rfl
  | cStr => exact ⟨_, m, rfl, rfl, rfl⟩
  | length => exact ⟨_, m, rfl, rfl, rfl⟩
  | stringEmpty => exact ⟨_, m, rfl, rfl, rfl⟩
  | size => exact ⟨_, m, rfl, rfl, rfl⟩
  | arrayEmpty => exact ⟨_, m, rfl, rfl, rfl⟩

end target

/-! ## Runs -/

/-- The slot of `T` at `r` holds the value, and the memory has room. -/
structure Holds (T : Ty) (r : Addr) (m : Mem) (v : T.Val) : Prop where
  script : m.script = []
  held : T.shape.Held m r
  shows : T.Shows m r v

section runs
variable {T : Ty} {r : Addr} {m m₀ : Mem} {v : T.Val}

theorem Holds.start (hsize : T.size < 2 ^ 32) (hm : m.script = []) (hv : m.Valid r T.slotSize.toNat)
    (hz : m.read r T.slotSize.toNat = List.replicate T.slotSize.toNat (.byte 0)) :
    Holds T r m T.zero := by
  rw [Ty.toNat_slotSize (by omega)] at hv hz
  refine ⟨hm, ?_, T.shows_zero hv hz⟩
  rw [← T.size_shape] at hv hz
  exact (Shape.held_zero hv hz).1

/-- **One statement** does to the value what it means. -/
theorem Holds.statement (h : Holds T r m v) (hsound : T.Sound) (hsize : T.size < 2 ^ 32)
    {st : Statement T} (hfits : st.Fits v) :
    Does Got.Shows (fun m' v' => Holds T r m' v' ∧ T.shape.Evolves r m m')
      ((st.code (some r)).run m) (st.meaning v) := by
  obtain ⟨t, route, use⟩ := st
  have hroute := route.follow_run hsound hsize h.held h.shows
  rw [Statement.meaning]
  simp only [Statement.Fits] at hfits ⊢
  cases hw : route.get v with
  | none =>
    simp only [hw] at hroute
    refine Does.of_bind hroute ?_
    cases use with
    | change op =>
      have hnull := op.code_null m
      cases hok : op.nullOk with
      | true =>
        rw [if_pos hok] at hnull
        rw [Use.nullMeaning, if_pos hok]
        exact ⟨.nothing, m, Prog.run_bind_ok hnull, trivial, h, .refl h.held⟩
      | false =>
        rw [hok, if_neg (Bool.false_ne_true)] at hnull
        rw [Use.nullMeaning, hok, if_neg (Bool.false_ne_true)]
        show (op.code none >>= fun _ => pure Got.nothing).run m = _
        rw [Prog.run_bind, hnull]
    | read q =>
      have hnull := q.code_null m
      rw [Use.nullMeaning]
      cases hq : q.nullAnswer with
      | error f =>
        rw [hq] at hnull
        exact hnull
      | ok reply =>
        rw [hq] at hnull
        obtain ⟨x, m', hr, hx, rfl⟩ := hnull
        exact ⟨x, m', hr, hx, h, .refl h.held⟩
  | some w =>
    simp only [hw] at hroute
    obtain ⟨x, hfollow, ht⟩ := hroute
    refine Does.of_bind hfollow ?_
    cases use with
    | change op =>
      obtain ⟨m', hr, he, hs⟩ := op.leaves ht.sound h.script ht.held ht.shows (hfits w hw)
      obtain ⟨he', hs'⟩ := ht.lift m' _ he hs
      have hscript : m'.script = [] := Prog.run_keep (P := fun m : Mem => m.script = [])
        (fun _ _ _ _ h he => Mem.exec_script_nil h he) h.script hr
      exact ⟨.nothing, m', Prog.run_bind_ok hr, trivial, ⟨hscript, he'.held, hs'⟩, he'⟩
    | read q =>
      obtain ⟨got, hr, hshow⟩ := q.shows ht.held ht.shows
      have hset : route.set w v = v := route.set_get hw
      refine ⟨got, m, hr, hshow, ?_, .refl h.held⟩
      show Holds T r m (route.set w v)
      rw [hset]
      exact h

/-- A run does to the value what its statements mean. -/
theorem Holds.run (h : Holds T r m₀ v) (hsound : T.Sound) (hsize : T.size < 2 ^ 32)
    {sts : List (Statement T)} (hr : Ran (fun st => (Statement.code (some r) st).run) m₀ sts m)
    (hfits : Allowed Statement.meaning (fun _ v st => st.Fits v) [] v sts) :
    ∃ v', after Statement.meaning v sts = .ok v' ∧ Holds T r m v' := by
  have hstep (sts : List (Statement T)) (m : Mem) (v : T.Val) (st : Statement T)
      (hh : Holds T r m v) (hst : st.Fits v) :
      Does Got.Shows (Holds T r) ((st.code (some r)).run m) (st.meaning v) :=
    (hh.statement hsound hsize hst).mono (fun _ _ _ => id) fun _ _ h => h.1
  exact hr.refines (R := fun _ m v => Holds T r m v) h hstep hfits

/-- **A program on a typed slot is a program on a value of its type.** From a zeroed
slot of a type below 4 GiB, with memory for all and no length, nor the bytes of the
items of an array, at 4 GiB, in every state that statements reach the slot holds the
value they mean; and any next statement returns what its meaning says and leaves the
slot with the value it means, or dereferences null where its meaning says. -/
theorem statements_refine_value (hsound : T.Sound) (hsize : T.size < 2 ^ 32)
    (hm : m₀.script = []) (hv : m₀.Valid r T.slotSize.toNat)
    (hz : m₀.read r T.slotSize.toNat = List.replicate T.slotSize.toNat (.byte 0))
    {sts : List (Statement T)} (hr : Ran (fun st => (Statement.code (some r) st).run) m₀ sts m)
    (hfits : Allowed Statement.meaning (fun _ v st => st.Fits v) [] T.zero sts) :
    ∃ v, after Statement.meaning T.zero sts = .ok v ∧ T.Shows m r v ∧
      ∀ st : Statement T, st.Fits v →
        Does Got.Shows (fun m' v' => T.Shows m' r v') ((st.code (some r)).run m)
          (st.meaning v) := by
  obtain ⟨v, hafter, hh⟩ := (Holds.start hsize hm hv hz).run hsound hsize hr hfits
  exact ⟨v, hafter, hh.shows, fun st hst =>
    (hh.statement hsound hsize hst).mono (fun _ _ _ => id) fun _ _ h => h.1.shows⟩

/-- The read through the route answers so, and leaves the memory as it is. -/
def Reads {u : Ty} (r : Addr) (route : Route T u) (q : Query u) (m : Mem)
    (answer : Except Fault Reply) : Prop :=
  Does Got.Shows (fun m' (_ : Unit) => m' = m)
    ((Statement.code (some r) ⟨u, route, .read q⟩).run m) (answer.map (·, ()))

/-- What a route leads to decides what is read through it. -/
theorem Holds.reads {u : Ty} (h : Holds T r m v) (hsound : T.Sound) (hsize : T.size < 2 ^ 32)
    (route : Route T u) (q : Query u) :
    Reads r route q m ((route.get v).elim q.nullAnswer fun w => .ok (q.answer w)) := by
  have hroute := route.follow_run hsound hsize h.held h.shows
  cases hw : route.get v with
  | none =>
    simp only [hw] at hroute
    exact Does.of_bind hroute (q.code_null m)
  | some w =>
    simp only [hw] at hroute
    obtain ⟨x, hfollow, ht⟩ := hroute
    obtain ⟨got, hr, hshow⟩ := q.shows ht.held ht.shows
    exact Does.of_bind hfollow ⟨got, m, hr, hshow, rfl⟩

/-- **Parts of a value are independent.** In every state that statements reach, a
statement changes no answer through a route that parts from its own: other fields,
other elements and what is below them, whatever it writes, appends or moves to a
larger buffer. -/
theorem parted_routes_independent (hsound : T.Sound) (hsize : T.size < 2 ^ 32)
    (hm : m₀.script = []) (hv : m₀.Valid r T.slotSize.toNat)
    (hz : m₀.read r T.slotSize.toNat = List.replicate T.slotSize.toNat (.byte 0))
    {sts : List (Statement T)} (hr : Ran (fun st => (Statement.code (some r) st).run) m₀ sts m)
    {st : Statement T}
    (hfits : Allowed Statement.meaning (fun _ v st => st.Fits v) [] T.zero (sts ++ [st]))
    {got : Got} {m' : Mem} (hst : (st.code (some r)).run m = .ok (got, m')) {u : Ty}
    {route : Route T u} (hparts : Route.Parts st.route route) (q : Query u) :
    ∃ answer, Reads r route q m answer ∧ Reads r route q m' answer := by
  obtain ⟨v, hafter, hh⟩ := (Holds.start hsize hm hv hz).run hsound hsize hr hfits.init
  have hdoes := hh.statement hsound hsize (hfits.last hafter)
  rw [hst] at hdoes
  obtain ⟨_, v', hmean, _, hh'⟩ := hdoes.returned
  have hsame : route.get v' = route.get v := by
    rw [Statement.meaning] at hmean
    split at hmean
    · cases hmean
      exact Route.get_set_other hparts _ v
    · cases hn : st.use.nullMeaning with
      | error f =>
        rw [hn] at hmean
        cases hmean
      | ok reply =>
        rw [hn] at hmean
        cases hmean
        rfl
  refine ⟨_, hh.reads hsound hsize route q, ?_⟩
  rw [← hsame]
  exact hh'.1.reads hsound hsize route q

end runs

/-! `view.get<id>() = "a"`, `view.get<pos>().push_back(7)`, and then a read of
`view.get<pos>()[0]`. -/

def track : Ty :=
  .record (.cons Rec.idName .string (.cons Rec.posName (.array (.prim .int32)) .nil))

def setId : Statement track :=
  ⟨.string, .field .first .here, .change (.setString (some Obj.nameA))⟩

def pushPos : Statement track :=
  ⟨.array (.prim .int32), .field (.next .first) .here, .change (.pushScalar (.int32 7))⟩

def readPos : Statement track :=
  ⟨.prim .int32, .field (.next .first) (.item 0 .here), .read .value⟩

def zeroTrack : Mem := ⟨[some ⟨40, fun _ => .byte 0⟩], []⟩

theorem track_ran : ∃ m₁ m,
    Ran (fun st => (Statement.code (some ⟨0, 0⟩) st).run) zeroTrack [setId] m₁ ∧
    (pushPos.code (some ⟨0, 0⟩)).run m₁ = .ok (.nothing, m) :=
  ⟨_, _, .one rfl, rfl⟩

theorem track_sound : track.Sound := ⟨rfl, trivial, ⟨by decide, trivial⟩, trivial⟩

theorem track_fits : Allowed Statement.meaning (fun _ v st => st.Fits v) [] track.zero
    [setId, pushPos] := by
  refine ⟨fun w _ => ?_, fun r v hm => ⟨fun w hw => ?_, fun _ _ _ => trivial⟩⟩
  · show Obj.nameA.bytes.length + 1 < 2 ^ 32
    decide
  · cases hm
    cases hw
    show (0 + 1) * Prim.int32.size < 2 ^ 32
    decide

theorem statements_refine_value_track : ∃ m got m',
    Ran (fun st => (Statement.code (some ⟨0, 0⟩) st).run) zeroTrack [setId, pushPos] m ∧
    (readPos.code (some ⟨0, 0⟩)).run m = .ok (got, m') ∧ got.Shows m' (.scalar (.int32 7)) := by
  obtain ⟨_, m, hm₁, hpush⟩ := track_ran
  have hm : Ran _ _ ([setId] ++ [pushPos]) m := hm₁.next hpush
  obtain ⟨v, hv, _, hnext⟩ :=
    statements_refine_value track_sound (by decide) rfl (by decide) rfl hm track_fits
  cases hv
  obtain ⟨got, m', hr, hshow, _⟩ := hnext readPos fun _ _ => trivial
  exact ⟨m, got, m', hm, hr, hshow⟩

theorem parted_routes_independent_track : ∃ m m' got,
    Ran (fun st => (Statement.code (some ⟨0, 0⟩) st).run) zeroTrack [setId] m ∧
    (pushPos.code (some ⟨0, 0⟩)).run m = .ok (got, m') ∧
    ∃ answer, Reads ⟨0, 0⟩ (.field .first .here : Route track .string) .cStr m answer ∧
      Reads ⟨0, 0⟩ (.field .first .here : Route track .string) .cStr m' answer := by
  obtain ⟨m, m', hm, hpush⟩ := track_ran
  refine ⟨m, m', _, hm, hpush, ?_⟩
  exact parted_routes_independent track_sound (by decide) rfl (by decide) rfl hm track_fits hpush
    (.fields (by decide)) .cStr

end Msm.Typed
