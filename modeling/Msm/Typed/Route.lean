import Msm.Own.Runs
import Msm.Typed.Value

/-! # Routes into a value

A chain of `get<Name>()` and `operator[]` on a typed view is a route into the
value of its slot: a lens whose target may be missing. The code follows the
route to a null pointer exactly when an index on it is out of range; otherwise
to a slot that holds the target, and a change there is a `set` of the whole. -/
namespace Msm.Api
open Msm.Exec Msm.CMem Msm.Own

/-! ## Fields -/

/-- A field of a record, by its position. -/
inductive Member : Fields → Ty → Type
  | first {name : FixedString} {t : Ty} {rest : Fields} : Member (.cons name t rest) t
  | next {name : FixedString} {u t : Ty} {rest : Fields} : Member rest t →
      Member (.cons name u rest) t

namespace Member

def index {fs : Fields} {t : Ty} : Member fs t → Nat
  | .first => 0
  | .next f => f.index + 1

def name {fs : Fields} {t : Ty} : Member fs t → FixedString
  | @first n _ _ => n
  | .next f => f.name

def get {fs : Fields} {t : Ty} : Member fs t → fs.Vals → t.Val
  | .first, vs => vs.1
  | .next f, vs => f.get vs.2

def set {fs : Fields} {t : Ty} : Member fs t → t.Val → fs.Vals → fs.Vals
  | .first, v, vs => (v, vs.2)
  | .next f, v, vs => (vs.1, f.set v vs.2)

section lemmas
variable {fs : Fields} {t : Ty} {m m' : Mem} {a : Addr}

theorem memberAt (f : Member fs t) : fs.memberAt f.index = some (f.name, t) := by
  induction f with
  | first => rfl
  | next f ih => exact ih

theorem typeAt (f : Member fs t) : fs.typeAt f.index = some t :=
  Fields.typeAt_of_memberAt f.memberAt

theorem get_set (f : Member fs t) (v : t.Val) (vs : fs.Vals) : f.get (f.set v vs) = v := by
  induction f with
  | first => rfl
  | next f ih => exact ih v vs.2

theorem set_get (f : Member fs t) (vs : fs.Vals) : f.set (f.get vs) vs = vs := by
  induction f with
  | first => rfl
  | next f ih => exact congrArg (Prod.mk vs.1) (ih vs.2)

/-- Fields at two positions are independent. -/
theorem get_set_other {u : Ty} (f : Member fs t) (f' : Member fs u) (h : f.index ≠ f'.index)
    (v : t.Val) (vs : fs.Vals) : f'.get (f.set v vs) = f'.get vs := by
  induction f with
  | first =>
    cases f' with
    | first => exact absurd rfl h
    | next f' => rfl
  | next f ih =>
    cases f' with
    | first => rfl
    | next f' => exact ih f' (fun he => h (congrArg (· + 1) he)) v vs.2

theorem shows {vs : fs.Vals} (f : Member fs t) (h : fs.Show m a vs) :
    t.Shows m (a + fs.before f.index) (f.get vs) := by
  induction f generalizing a with
  | first => exact h.1
  | next f ih =>
    have hrest := ih h.2
    rw [Addr.add_add] at hrest
    exact hrest

/-- A change of one field changes one component. -/
theorem show_set {vs : fs.Vals} {v : t.Val} (f : Member fs t) (hh : fs.shape.Held m a)
    (he : t.shape.Evolves (a + fs.before f.index) m m') (hs : fs.Show m a vs)
    (hv : t.Shows m' (a + fs.before f.index) v) : fs.Show m' a (f.set v vs) := by
  induction f generalizing a with
  | @first name t rest =>
    obtain ⟨_, hrest, hd⟩ := Shape.held_seq.mp hh
    rw [t.size_shape] at hrest hd
    refine ⟨hv, Fields.show_beside he.toConfined hrest rfl (.inr ?_) (fun c hc ht => hd ht hc) hs.2⟩
    exact Nat.le_of_eq (congrArg (a.off + ·) t.size_shape)
  | @next name u t rest f ih =>
    obtain ⟨hu, hrest, hd⟩ := Shape.held_seq.mp hh
    rw [u.size_shape] at hrest hd
    have hoff : a + (Fields.cons name u rest).before
        (Member.next f : Member (.cons name u rest) t).index =
          a + u.size + rest.before f.index := by
      rw [Addr.add_add]
      rfl
    rw [hoff] at he hv
    have hlift := (Fields.shape_field f.typeAt hrest).2 m' he
    refine ⟨Ty.shows_beside hlift.toConfined hu rfl (.inl (Nat.le_refl _))
      (fun c hc hr => hd hc hr) hs.1, ih hrest he hs.2 hv⟩

end lemmas
end Member

/-! ## Elements -/

section item
variable {item : Ty} {m m' : Mem} {a : Addr} {b i : Nat} {w : item.Val} {vs : List item.Val}

/-- A change of one element changes one value of the list. -/
theorem shows_item (hh : (Ty.array item).shape.Held m a) (hs : (Ty.array item).Shows m a vs)
    (hp : Shape.pointee m a = some b) (hi : i < count m b)
    (he : item.shape.Evolves ⟨b, 8 + i * item.size⟩ m m')
    (hw : item.Shows m' ⟨b, 8 + i * item.size⟩ w) : (Ty.array item).Shows m' a (vs.set i w) := by
  obtain ⟨hlen, hitems⟩ := hs
  have hapart {d : Nat} (hd : d ∈ item.shape.blocks m ⟨b, 8 + i * item.size⟩) : d ≠ a.block :=
    fun h => hh.apart (h ▸ blocks_item hp hi hd)
  obtain ⟨hbody, hne, _⟩ := Shape.Held.body hh hp
  have hslot : m'.block a.block = m.block a.block :=
    he.other _ hh.valid.lt hne fun hin => hapart hin rfl
  have hp' : Shape.pointee m' a = some b := by
    rw [Shape.pointee, Mem.load_of_block (a := a + 8) hslot]
    exact hp
  have hcount : count m' b = count m b := by
    rw [count, count,
      Mem.load_congr (a := ⟨b, 0⟩) he.sizeOf fun o _ h2 => he.outside o fun h3 => ?_]
    have := h3.1
    simp only [Kind.size] at h2
    simp only at this
    omega
  rw [hp, Option.elim_some] at hlen
  refine ⟨?_, fun c j v hc hv => ?_⟩
  · rw [hp', Option.elim_some, hcount, hlen, List.length_set]
  · obtain rfl : b = c := Option.some.inj (hp'.symm.trans hc)
    rw [List.getElem?_set] at hv
    split at hv
    · rename_i hij
      subst hij
      split at hv
      · cases hv
        exact hw
      · cases hv
    · rename_i hij
      have hj : j < count m b := by
        rw [hlen]
        exact (List.getElem?_eq_some_iff.mp hv).1
      obtain ⟨hitem, _⟩ := Ty.shape_item hh hp hj
      have hdisj := (items_row hbody).disjoint_rep hj hi (Ne.symm hij)
      rw [item.size_shape] at hdisj
      refine Ty.shows_beside he.toConfined hitem rfl ?_ (fun d hd hd' => hdisj hd hd')
        (hitems b j v hp hv)
      rw [item.size_shape]
      rcases Nat.lt_or_gt_of_ne hij with h | h
      · have := Nat.mul_le_mul_right item.size (Nat.succ_le_of_lt h)
        rw [Nat.succ_mul] at this
        right
        simp only
        omega
      · have := Nat.mul_le_mul_right item.size (Nat.succ_le_of_lt h)
        rw [Nat.succ_mul] at this
        left
        simp only
        omega

end item

/-! ## Routes -/

/-- A chain of `get<Name>()` and `operator[]` from a view of one type to a view of
another. -/
inductive Route : Ty → Ty → Type
  | here {t : Ty} : Route t t
  | field {fs : Fields} {t u : Ty} : Member fs t → Route t u → Route (.record fs) u
  | item {t u : Ty} : UInt64 → Route t u → Route (.array t) u

namespace Route

/-- What the route leads to; `operator[]` casts its index to 32 bits. -/
def get {T t : Ty} : Route T t → T.Val → Option t.Val
  | .here, v => some v
  | .field f r, vs => r.get (f.get vs)
  | @item s _ i r, (vs : List s.Val) => vs[i.toUInt32.toNat]?.bind r.get

/-- The value with another target of the route; without a target, the value. -/
def set {T t : Ty} : Route T t → t.Val → T.Val → T.Val
  | .here, w, _ => w
  | .field f r, w, vs => f.set (r.set w (f.get vs)) vs
  | @item s _ i r, w, (vs : List s.Val) => vs.modify i.toUInt32.toNat (r.set w)

/-- The chain of views. -/
def follow {T t : Ty} : Route T t → Ptr → CProg Ptr
  | .here, ptr => pure ptr
  | @field fs _ _ f r, ptr => r.follow ((fs.get f.name ptr).elim none Prod.fst)
  | @item s _ i r, ptr => do
    let p ← arrayAt s ptr i
    r.follow p

/-- The routes part: at two fields of a record, or at two elements. -/
inductive Parts : {T t u : Ty} → Route T t → Route T u → Prop
  | fields {fs : Fields} {s s' t u : Ty} {f : Member fs s} {f' : Member fs s'} {r : Route s t}
      {r' : Route s' u} : f.index ≠ f'.index → Parts (.field f r) (.field f' r')
  | field {fs : Fields} {s t u : Ty} {f : Member fs s} {r : Route s t} {r' : Route s u} :
      Parts r r' → Parts (.field f r) (.field f r')
  | items {s t u : Ty} {i j : UInt64} {r : Route s t} {r' : Route s u} :
      i.toUInt32 ≠ j.toUInt32 → Parts (.item i r) (.item j r')
  | item {s t u : Ty} {i j : UInt64} {r : Route s t} {r' : Route s u} :
      i.toUInt32 = j.toUInt32 → Parts r r' → Parts (.item i r) (.item j r')

section lens
variable {T t u : Ty}

/-- What is set is there. -/
theorem get_set (r : Route T t) {v : T.Val} {w : t.Val} (h : r.get v = some w) (w' : t.Val) :
    r.get (r.set w' v) = some w' := by
  induction r with
  | here => rfl
  | @field fs s u f r ih =>
    have hfield (vs : fs.Vals) (hvs : r.get (f.get vs) = some w) :
        r.get (f.get (f.set (r.set w' (f.get vs)) vs)) = some w' := by
      rw [f.get_set]
      exact ih hvs w'
    exact hfield v h
  | @item s u i r ih =>
    have hitem (vs : List s.Val) (hvs : vs[i.toUInt32.toNat]?.bind r.get = some w) :
        (vs.modify i.toUInt32.toNat (r.set w'))[i.toUInt32.toNat]?.bind r.get = some w' := by
      obtain ⟨x, hx, hget⟩ := Option.bind_eq_some_iff.mp hvs
      rw [List.getElem?_modify_eq, hx]
      exact ih hget w'
    exact hitem v h

/-- Setting what is there changes nothing. -/
theorem set_get (r : Route T t) {v : T.Val} {w : t.Val} (h : r.get v = some w) : r.set w v = v := by
  induction r with
  | here => exact (Option.some.inj h).symm
  | @field fs s u f r ih =>
    have hfield (vs : fs.Vals) (hvs : r.get (f.get vs) = some w) :
        f.set (r.set w (f.get vs)) vs = vs := by
      rw [ih hvs]
      exact f.set_get vs
    exact hfield v h
  | @item s u i r ih =>
    have hitem (vs : List s.Val) (hvs : vs[i.toUInt32.toNat]?.bind r.get = some w) :
        vs.modify i.toUInt32.toNat (r.set w) = vs := by
      obtain ⟨x, hx, hget⟩ := Option.bind_eq_some_iff.mp hvs
      obtain ⟨hi, rfl⟩ := List.getElem?_eq_some_iff.mp hx
      rw [List.modify_eq_set_getElem?, hx]
      show vs.set i.toUInt32.toNat (r.set w _) = vs
      rw [ih hget]
      exact List.set_getElem_self hi
    exact hitem v h

/-- **Routes that part are independent.** -/
theorem get_set_other {r : Route T t} {r' : Route T u} (h : Parts r r') (w : t.Val) (v : T.Val) :
    r'.get (r.set w v) = r'.get v := by
  induction h with
  | @fields fs s s' t u f f' r r' hne =>
    have hfield (vs : fs.Vals) :
        r'.get (f'.get (f.set (r.set w (f.get vs)) vs)) = r'.get (f'.get vs) := by
      rw [f.get_set_other f' hne]
    exact hfield v
  | @field fs s t u f r r' _ ih =>
    have hfield (vs : fs.Vals) :
        r'.get (f.get (f.set (r.set w (f.get vs)) vs)) = r'.get (f.get vs) := by
      rw [f.get_set]
      exact ih w (f.get vs)
    exact hfield v
  | @items s t u i j r r' hne =>
    have hitem (vs : List s.Val) :
        (vs.modify i.toUInt32.toNat (r.set w))[j.toUInt32.toNat]?.bind r'.get =
          vs[j.toUInt32.toNat]?.bind r'.get := by
      rw [List.getElem?_modify_ne _ _ fun he => hne (UInt32.toNat_inj.mp he)]
    exact hitem v
  | @item s t u i j r r' heq _ ih =>
    have hitem (vs : List s.Val) :
        (vs.modify i.toUInt32.toNat (r.set w))[j.toUInt32.toNat]?.bind r'.get =
          vs[j.toUInt32.toNat]?.bind r'.get := by
      rw [← heq, List.getElem?_modify_eq]
      cases vs[i.toUInt32.toNat]? with
      | none => rfl
      | some x => exact ih w x
    exact hitem v

end lens
end Route

/-! ## Following a route -/

mutual

/-- The names of every record are distinct, and no slot of a record or an element
reaches 4 GiB. -/
def Ty.Sound : Ty → Prop
  | .array item => item.size < 2 ^ 32 ∧ item.Sound
  | .record fields => fields.allNamesUnique = true ∧ fields.Sound
  | _ => True

def Fields.Sound : Fields → Prop
  | .nil => True
  | .cons _ type rest => type.Sound ∧ rest.Sound

end

theorem Member.sound {fs : Fields} {t : Ty} (f : Member fs t) (h : fs.Sound) : t.Sound := by
  induction f with
  | first => exact h.1
  | next f ih => exact ih h.2

theorem toNat_itemSize_of_sound {item : Ty} (h : (Ty.array item).Sound) :
    item.itemSize.toNat = item.size := by
  rw [item.toNat_itemSize, item.size_shape, Nat.mod_eq_of_lt h.1]

theorem itemSize_ne_zero_of_sound {item : Ty} (h : (Ty.array item).Sound) : item.itemSize ≠ 0 := by
  intro h0
  have h8 := eight_le_size item
  have hw := toNat_itemSize_of_sound h
  rw [h0, UInt32.toNat_zero] at hw
  omega

section follow
variable {T t item : Ty} {m : Mem} {a : Addr}

/-- What `operator[]` returns: an element below the size, or null. -/
theorem arrayAt_held {vs : List item.Val} (hsound : (Ty.array item).Sound)
    (hh : (Ty.array item).shape.Held m a) (hs : (Ty.array item).Shows m a vs) (i : UInt64) :
    if i.toUInt32.toNat < vs.length then ∃ b, Shape.pointee m a = some b ∧
      i.toUInt32.toNat < count m b ∧ (arrayAt item (some a) i).run m =
        .ok (some ⟨b, 8 + i.toUInt32.toNat * item.size⟩, m)
    else (arrayAt item (some a) i).run m = .ok (none, m) := by
  obtain ⟨hlen, _⟩ := hs
  obtain ⟨n, cap, hb⟩ := Shape.Held.bufferAt hh
  have h0 := itemSize_ne_zero_of_sound hsound
  have hw := toNat_itemSize_of_sound hsound
  simp only [arrayAt, msmArrayGet, reduceCtorEq, h0, or_self, if_false, atomicLoadPtr, loadPtr_bind,
    Ptr.some_add, Prog.run, Mem.exec_load hb.load]
  have hp' : Shape.pointee m a = Shape.pointee m a := rfl
  generalize Shape.pointee m a = c at hp' hlen hb ⊢
  cases c with
  | none =>
    rw [Option.elim_none] at hlen
    rw [if_neg (by omega)]
    rfl
  | some b =>
    have hbuf := hb.buffer b rfl
    rw [Option.elim_some, hbuf.count_eq] at hlen
    simp only [basePtr_some, reduceCtorEq, if_false, arrBufSize, atomicLoadU32, loadU32_bind,
      Prog.run, Mem.exec_load hbuf.load_size, UInt32.le_iff_toNat_le, hlen, hw]
    by_cases hi : i.toUInt32.toNat < vs.length
    · rw [if_pos hi, if_neg (Nat.not_le.mpr hi)]
      exact ⟨b, hp'.symm, by rw [hbuf.count_eq, hlen]; exact hi, rfl⟩
    · rw [if_neg hi, if_pos (Nat.not_lt.mp hi)]
      rfl

/-- From a null view the rest of a route is null. -/
theorem Route.follow_null (r : Route T t) (m : Mem) : (r.follow none).run m = .ok (none, m) := by
  induction r with
  | here => rfl
  | @field fs s u f r ih =>
    have hnull : (fs.get f.name none).elim none Prod.fst = none := by
      rw [Fields.get]
      cases fs.findFieldIndex f.name 0 with
      | none => rfl
      | some i =>
        cases hty : fs.typeAt i with
        | none => simp [hty]
        | some ty => simp [hty, msmRecordGetField]
    rw [Route.follow, hnull]
    exact ih
  | item i r ih => exact ih

/-- The slot at `x` is the target of a route in the slot at `a`: it holds the
target, and its changes are sets of the whole. -/
structure Target (r : Route T t) (m : Mem) (a : Addr) (v : T.Val) (x : Addr) (w : t.Val) :
    Prop where
  sound : t.Sound
  size : t.size < 2 ^ 32
  held : t.shape.Held m x
  shows : t.Shows m x w
  lift : ∀ m' w', t.shape.Evolves x m m' → t.Shows m' x w' →
    T.shape.Evolves a m m' ∧ T.Shows m' a (r.set w' v)

/-- **The code follows a route** to the slot of its target, and to null without one. -/
theorem Route.follow_run (r : Route T t) {v : T.Val} (hsound : T.Sound) (hsize : T.size < 2 ^ 32)
    (hh : T.shape.Held m a) (hs : T.Shows m a v) :
    match r.get v with
    | none => (r.follow (some a)).run m = .ok (none, m)
    | some w => ∃ x, (r.follow (some a)).run m = .ok (some x, m) ∧ Target r m a v x w := by
  induction r generalizing a with
  | here => exact ⟨a, rfl, hsound, hsize, hh, hs, fun m' w' he hw => ⟨he, hw⟩⟩
  | @field fs s u f r ih =>
    obtain ⟨_, hfs, _⟩ := Shape.held_seq.mp hh
    have hrec : (Ty.record fs).size = 8 + fs.size := rfl
    have hle := Fields.size_le f.typeAt
    have hoff := Fields.toNat_fieldOffset hsize f.index
    have hget : (fs.get f.name (some a)).elim none Prod.fst =
        some (a + (8 + fs.before f.index)) := by
      rw [Fields.get_eq hsound.1 f.memberAt (by omega), hoff]
      rfl
    obtain ⟨hf, hlift⟩ := Ty.shape_field f.typeAt hh
    have hshow := f.shows hs
    rw [Addr.add_add] at hshow
    have hrest := ih (a := a + (8 + fs.before f.index)) (v := f.get v) (f.sound hsound.2) (by omega)
      hf hshow
    rw [Route.follow, hget]
    show match r.get (f.get v) with | none => _ | some w => _
    cases hw : r.get (f.get v) with
    | none =>
      simp only [hw] at hrest
      exact hrest
    | some w =>
      simp only [hw] at hrest
      obtain ⟨x, hx, ht⟩ := hrest
      refine ⟨x, hx, ht.sound, ht.size, ht.held, ht.shows, fun m' w' he hw' => ?_⟩
      obtain ⟨he', hs'⟩ := ht.lift m' w' he hw'
      refine ⟨hlift m' he', ?_⟩
      rw [← Addr.add_add] at he' hs'
      exact f.show_set hfs he' hs hs'
  | @item s u i r ih =>
    obtain ⟨vs, rfl⟩ : ∃ vs : List s.Val, vs = v := ⟨v, rfl⟩
    have hat := arrayAt_held hsound hh hs i
    have hitems := hs.2
    show match vs[i.toUInt32.toNat]?.bind r.get with | none => _ | some w => _
    cases hv : vs[i.toUInt32.toNat]? with
    | none =>
      rw [if_neg (Nat.not_lt.mpr (List.getElem?_eq_none_iff.mp hv))] at hat
      rw [Option.bind_none, Route.follow, Prog.run_bind_ok hat]
      exact r.follow_null m
    | some v =>
      rw [if_pos (List.getElem?_eq_some_iff.mp hv).1] at hat
      obtain ⟨b, hp, hcount, hrun⟩ := hat
      obtain ⟨hitem, hlift⟩ := Ty.shape_item hh hp hcount
      have hrest := ih (v := v) hsound.2 hsound.1 hitem (hitems b _ _ hp hv)
      rw [Option.bind_some, Route.follow, Prog.run_bind_ok hrun]
      cases hw : r.get v with
      | none =>
        simp only [hw] at hrest
        exact hrest
      | some w =>
        simp only [hw] at hrest
        obtain ⟨x, hx, ht⟩ := hrest
        refine ⟨x, hx, ht.sound, ht.size, ht.held, ht.shows, fun m' w' he hw' => ?_⟩
        obtain ⟨he', hs'⟩ := ht.lift m' w' he hw'
        refine ⟨hlift m' he', ?_⟩
        have hmod : vs.modify i.toUInt32.toNat (r.set w') =
            vs.set i.toUInt32.toNat (r.set w' v) := by
          rw [List.modify_eq_set_getElem?, hv]
          rfl
        show (Ty.array s).Shows m' a (vs.modify i.toUInt32.toNat (r.set w'))
        rw [hmod]
        exact shows_item hh hs hp hcount he' hs'

end follow
end Msm.Api
