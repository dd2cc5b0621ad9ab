import Msm.Own.Updates
import Msm.Str.Buffer

/-! # The values of types

What a typed view is for: a slot of a type holds a value of that type, a number,
a string, a list of values or a tuple of them. `Ty.Shows` reads the value off the
bytes of the slot and of the blocks it owns; it moves with the bytes, as the
shape of the type does. Objects are left out. -/
namespace Msm.Api
open Msm.Exec Msm.CMem Msm.Own

def Prim.Val (k : Prim) : Type := { v : Scalar // v.prim = k }

def Scalar.val (v : Scalar) : v.prim.Val := ⟨v, rfl⟩

mutual

/-- The values of a type. -/
def Ty.Val : Ty → Type
  | .prim k => k.Val
  | .string => List UInt8
  | .object => Unit
  | .array item => List item.Val
  | .record fields => fields.Vals

def Fields.Vals : Fields → Type
  | .nil => Unit
  | .cons _ type rest => type.Val × rest.Vals

end

theorem Prim.zero_prim (k : Prim) : k.zero.prim = k := by cases k <;> rfl

mutual

/-- The value of a zeroed slot. -/
def Ty.zero : (t : Ty) → t.Val
  | .prim k => ⟨k.zero, k.zero_prim⟩
  | .string => []
  | .object => ()
  | .array _ => []
  | .record fields => fields.zeros

def Fields.zeros : (fs : Fields) → fs.Vals
  | .nil => ()
  | .cons _ type rest => (type.zero, rest.zeros)

end

/-- A string slot at `a` holds `bs`: null when there are none. -/
def StringAt (m : Mem) (a : Addr) (bs : List UInt8) : Prop :=
  (bs = [] ∧ Shape.pointee m a = none) ∨
    ∃ b, Shape.pointee m a = some b ∧ Str.StrAt m b (bs.map .byte)

mutual

/-- The slot of type `t` at `a` holds the value. -/
def Ty.Shows : (t : Ty) → Mem → Addr → t.Val → Prop
  | .prim k, m, a, v => (m.load k.kind (a + k.payload)).map k.ofVal = some v.1
  | .string, m, a, bs => StringAt m a bs
  | .object, _, _, _ => True
  | .array item, m, a, (vs : List item.Val) => (Shape.pointee m a).elim 0 (count m) = vs.length ∧
      ∀ b i v, Shape.pointee m a = some b → vs[i]? = some v →
        item.Shows m ⟨b, 8 + i * item.size⟩ v
  | .record fields, m, a, vs => fields.Show m (a + 8) vs

def Fields.Show : (fs : Fields) → Mem → Addr → fs.Vals → Prop
  | .nil, _, _, _ => True
  | .cons _ type rest, m, a, vs => type.Shows m a vs.1 ∧ rest.Show m (a + type.size) vs.2

end

/-! ## Values move with their bytes -/

section positions
variable {m m' : Mem} {a : Addr} {b i : Nat} {item : Ty}

/-- What an element owns, its array owns. -/
theorem blocks_item (hp : Shape.pointee m a = some b) (hi : i < count m b) {d : Nat}
    (hd : d ∈ item.shape.blocks m ⟨b, 8 + i * item.size⟩) :
    d ∈ (Ty.array item).shape.blocks m a := by
  obtain ⟨x, hx, rfl⟩ := List.mem_map.mp hd
  refine List.mem_map.mpr ⟨x, Shape.mem_owned_box.mpr ⟨b, hp, .inr ?_⟩, rfl⟩
  refine Shape.mem_owned_rep.mpr ⟨i, hi, ?_⟩
  rw [item.size_shape]
  exact hx

theorem count_of_block (hb : m'.block b = m.block b) : count m' b = count m b := by
  rw [count, count, Mem.load_of_block (a := ⟨b, 0⟩) hb]

theorem pointee_of_read {a' : Addr} (hv : m.Valid a 16) (hv' : m'.Valid a' 16)
    (hr : m'.read a' 16 = m.read a 16) : Shape.pointee m' a' = Shape.pointee m a := by
  rw [Shape.pointee, Shape.pointee, Mem.load_of_read hv hv' hr (by decide)]

theorem StringAt.move {a' : Addr} {bs : List UInt8} (h : StringAt m a bs)
    (hp : Shape.pointee m' a' = Shape.pointee m a)
    (hb : ∀ b, Shape.pointee m a = some b → m'.block b = m.block b) : StringAt m' a' bs := by
  rcases h with ⟨hnil, hnull⟩ | ⟨b, hs, hat⟩
  · exact .inl ⟨hnil, hp.trans hnull⟩
  · exact .inr ⟨b, hp.trans hs, hat.congr (Mem.sizeOf_of_block (hb b hs))
      fun o _ => Mem.cellAt_of_block (hb b hs) o⟩

end positions

mutual

/-- **A value moves with its bytes**, as long as the blocks they own stay. -/
theorem Ty.shows_move : ∀ (t : Ty) {m m' : Mem} {a a' : Addr} {v : t.Val}, t.shape.Held m a →
    m'.Valid a' t.size → m'.read a' t.size = m.read a t.size →
    (∀ b ∈ t.shape.blocks m a, m'.block b = m.block b) → t.Shows m a v → t.Shows m' a' v
  | .prim k, m, m', a, a', v, h, hv', hr, _, hs => by
    have hsize := k.payload_add
    have hl := Mem.load_of_read h.valid hv' hr (k := k.kind) (d := k.payload) (Nat.le_of_eq hsize)
    show (m'.load k.kind (a' + k.payload)).map k.ofVal = some v.1
    rw [hl]
    exact hs
  | .string, m, m', a, a', bs, h, hv', hr, hb, hs => by
    refine StringAt.move hs (pointee_of_read h.valid hv' hr) fun b hp => hb b ?_
    show b ∈ (Shape.box .bytes).blocks m a
    rw [Shape.blocks_box_some hp]
    exact List.mem_append_right _ List.mem_cons_self
  | .object, _, _, _, _, _, _, _, _, _, _ => trivial
  | .array item, m, m', a, a', vs, h, hv', hr, hb, hs => by
    obtain ⟨hlen, hitems⟩ := hs
    have hp := pointee_of_read h.valid hv' hr
    have hblock {b : Nat} (hpb : Shape.pointee m a = some b) : m'.block b = m.block b := by
      refine hb b ?_
      show b ∈ (Shape.box (items item.shape)).blocks m a
      rw [Shape.blocks_box_some hpb]
      exact List.mem_append_right _ List.mem_cons_self
    refine ⟨?_, fun b i v hpb hv => ?_⟩
    · rw [hp, ← hlen]
      cases hpb : Shape.pointee m a with
      | none => rfl
      | some b => exact count_of_block (hblock hpb)
    · rw [hp] at hpb
      have hi : i < count m b := by
        rw [hpb, Option.elim_some] at hlen
        rw [hlen]
        exact (List.getElem?_eq_some_iff.mp hv).1
      obtain ⟨hitem, _⟩ := Ty.shape_item h hpb hi
      have hvalid := hitem.valid
      rw [item.size_shape] at hvalid
      refine item.shows_move hitem ?_ ?_ (fun d hd => hb d (blocks_item hpb hi hd))
        (hitems b i v hpb hv)
      · obtain ⟨sz, hsz, hle⟩ := hvalid
        exact ⟨sz, (Mem.sizeOf_of_block (hblock hpb)).trans hsz, hle⟩
      · exact Mem.read_congr fun o _ _ => Mem.cellAt_of_block (hblock hpb) o
  | .record fields, m, m', a, a', vs, h, hv', hr, hb, hs => by
    obtain ⟨_, hf, _⟩ := Shape.held_seq.mp h
    have hsize : (Ty.record fields).size = 8 + fields.size := rfl
    rw [hsize] at hv' hr
    rw [Mem.read_add, Mem.read_add] at hr
    obtain ⟨_, hr'⟩ := List.append_inj hr (by simp only [Mem.length_read])
    refine fields.show_move hf (hv'.mono (Nat.le_refl _)) hr' (fun b hin => hb b ?_) hs
    show b ∈ ((Shape.raw 8).seq fields.shape).blocks m a
    rw [Shape.blocks_seq]
    exact List.mem_append_right _ hin

theorem Fields.show_move : ∀ (fs : Fields) {m m' : Mem} {a a' : Addr} {vs : fs.Vals},
    fs.shape.Held m a → m'.Valid a' fs.size → m'.read a' fs.size = m.read a fs.size →
    (∀ b ∈ fs.shape.blocks m a, m'.block b = m.block b) → fs.Show m a vs → fs.Show m' a' vs
  | .nil, _, _, _, _, _, _, _, _, _, _ => trivial
  | .cons _ type rest, m, m', a, a', vs, h, hv', hr, hb, hs => by
    obtain ⟨ht, hrest, _⟩ := Shape.held_seq.mp h
    rw [type.size_shape] at hrest
    have hsize {name : FixedString} :
        (Fields.cons name type rest).size = type.size + rest.size := rfl
    rw [hsize] at hv' hr
    rw [Mem.read_add, Mem.read_add] at hr
    obtain ⟨hr₁, hr₂⟩ := List.append_inj hr (by simp only [Mem.length_read])
    have hblocks (b : Nat) : b ∈ (type.shape.seq rest.shape).blocks m a ↔
        b ∈ type.shape.blocks m a ∨ b ∈ rest.shape.blocks m (a + type.size) := by
      rw [Shape.blocks_seq, List.mem_append, type.size_shape]
    exact ⟨type.shows_move ht (hv'.le (Nat.le_add_right _ _)) hr₁
        (fun b hin => hb b ((hblocks b).mpr (.inl hin))) hs.1,
      rest.show_move hrest (hv'.mono (Nat.le_refl _)) hr₂
        (fun b hin => hb b ((hblocks b).mpr (.inr hin))) hs.2⟩

end

section frames
variable {s : Shape} {m m' : Mem} {a b : Addr}

/-- What is beside a confined change shows what it showed. -/
theorem Ty.shows_beside {t : Ty} {v : t.Val} (h : s.Confined a m m') (ht : t.shape.Held m b)
    (hab : b.block = a.block) (hoff : b.off + t.size ≤ a.off ∨ a.off + s.size ≤ b.off)
    (hd : ∀ c ∈ t.shape.blocks m b, c ∉ s.blocks m a) (hs : t.Shows m b v) : t.Shows m' b v := by
  rw [← t.size_shape] at hoff
  obtain ⟨hh, _⟩ := h.beside ht hab hoff hd
  have hv := hh.valid
  rw [t.size_shape] at hv hoff
  refine t.shows_move ht hv (Mem.read_congr fun o h1 h2 => ?_) (fun c hc => ?_) hs
  · rw [hab]
    exact h.outside o (by omega)
  · refine h.other c (ht.lt hc) (fun he => ?_) (hd c hc)
    rw [he, ← hab] at hc
    exact ht.apart hc

theorem Fields.show_beside {fs : Fields} {vs : fs.Vals} (h : s.Confined a m m')
    (ht : fs.shape.Held m b) (hab : b.block = a.block)
    (hoff : b.off + fs.size ≤ a.off ∨ a.off + s.size ≤ b.off)
    (hd : ∀ c ∈ fs.shape.blocks m b, c ∉ s.blocks m a) (hs : fs.Show m b vs) : fs.Show m' b vs := by
  rw [← fs.size_shape] at hoff
  obtain ⟨hh, _⟩ := h.beside ht hab hoff hd
  have hv := hh.valid
  rw [fs.size_shape] at hv hoff
  refine fs.show_move ht hv (Mem.read_congr fun o h1 h2 => ?_) (fun c hc => ?_) hs
  · rw [hab]
    exact h.outside o (by omega)
  · refine h.other c (ht.lt hc) (fun he => ?_) (hd c hc)
    rw [he, ← hab] at hc
    exact ht.apart hc

end frames

/-! ## Zeroed slots -/

theorem pointee_zero {m : Mem} {a : Addr} (hv : m.Valid a 16)
    (hr : m.read a 16 = List.replicate 16 (.byte 0)) : Shape.pointee m a = none := by
  refine Shape.pointee_of_load (c := none) ?_
  rw [Mem.load, if_pos (hv.mono (by decide)), ← m.read_part a (k := 16) (by decide), hr]
  rfl

mutual

/-- A zeroed slot holds the zero of its type. -/
theorem Ty.shows_zero : ∀ (t : Ty) {m : Mem} {a : Addr}, m.Valid a t.size →
    m.read a t.size = List.replicate t.size (.byte 0) → t.Shows m a t.zero
  | .prim k, m, a, hv, hr => by
    have hp := k.payload_add
    have hl : m.load k.kind (a + k.payload) = some k.kind.zero := by
      have hsize : (Ty.prim k).size = k.size := rfl
      rw [hsize] at hv hr
      rw [Mem.load, if_pos (hv.mono (Nat.le_of_eq hp)), ← m.read_part a (Nat.le_of_eq hp), hr,
        List.drop_replicate, List.take_replicate, Nat.min_eq_left (by omega), Kind.decode_zero]
    show (m.load k.kind (a + k.payload)).map k.ofVal = some k.zero
    rw [hl]
    rfl
  | .string, _, _, hv, hr => .inl ⟨rfl, pointee_zero hv hr⟩
  | .object, _, _, _, _ => trivial
  | .array item, m, a, hv, hr => by
    have hp := pointee_zero hv hr
    refine ⟨by rw [hp]; rfl, fun b i v hb _ => ?_⟩
    rw [hp] at hb
    cases hb
  | .record fields, m, a, hv, hr => by
    have hsize : (Ty.record fields).size = 8 + fields.size := rfl
    rw [hsize] at hv hr
    rw [Mem.read_add, List.replicate_add] at hr
    obtain ⟨_, hr'⟩ := List.append_inj hr (by simp only [Mem.length_read, List.length_replicate])
    exact fields.show_zero (hv.mono (Nat.le_refl _)) hr'

theorem Fields.show_zero : ∀ (fs : Fields) {m : Mem} {a : Addr}, m.Valid a fs.size →
    m.read a fs.size = List.replicate fs.size (.byte 0) → fs.Show m a fs.zeros
  | .nil, _, _, _, _ => trivial
  | .cons _ type rest, m, a, hv, hr => by
    have hsize {name : FixedString} :
        (Fields.cons name type rest).size = type.size + rest.size := rfl
    rw [hsize] at hv hr
    rw [Mem.read_add, List.replicate_add] at hr
    obtain ⟨hr₁, hr₂⟩ := List.append_inj hr (by simp only [Mem.length_read, List.length_replicate])
    exact ⟨type.shows_zero (hv.le (Nat.le_add_right _ _)) hr₁,
      rest.show_zero (hv.mono (Nat.le_refl _)) hr₂⟩

end

end Msm.Api
