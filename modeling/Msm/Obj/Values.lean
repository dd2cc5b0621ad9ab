import Msm.Obj.Steps

/-! # Writing a value into its block

What the setters do once they have the address of a value block: store a number,
set the string slot that the block is, or nothing for a nested object. The block
is either fresh, so that all of it is private work, or the one of a current
entry, so that the last step changes the field. A string whose buffer cannot be
allocated leaves the block as it was. -/
namespace Msm.Obj
open Msm.Exec Msm.CMem Msm.Api

def Value.size : Value → Nat
  | .scalar s => s.size.toNat
  | .string _ => 24
  | .object => 24

/-- The write of a value into the block at `p`. -/
def writeValue (x : Value) (p : Ptr) : CProg Unit :=
  match x with
  | .scalar s => store .plain s.kind (p + s.off) s.bits
  | .string bs => msmStringSet p (.own bs) (UInt32.ofNat bs.length)
  | .object => pure ()

/-- The length of the string is a 32-bit number. -/
def Value.Fits : Value → Prop
  | .string bs => bs.length < 2 ^ 32
  | _ => True

/-- The capacity of the string's buffer is not: it wraps to zero. -/
def Value.Wraps : Value → Prop
  | .string bs => bs.length + 1 = 2 ^ 32
  | _ => False

instance (x : Value) : Decidable x.Wraps := by
  unfold Value.Wraps
  split
  · infer_instance
  · infer_instance

/-- The value needs a block of its own, for a nonempty string. -/
def Value.Allocates : Value → Prop
  | .string (_ :: _) => True
  | _ => False

instance (x : Value) : Decidable x.Allocates := by
  unfold Value.Allocates
  split
  · infer_instance
  · infer_instance

/-- What a field that held `old` holds once `x` has been written, when the
allocation of the string's buffer succeeds or not as `ok` says. -/
def Value.stored (x : Value) (ok : Bool) (old : Value) : Value :=
  if x.Allocates ∧ ok = false then old else x

theorem Value.stored_ok (x old : Value) : x.stored true old = x := by simp [stored]

/-- The payload `p` stands for `x` in memory; its string, if it has one, is in a
block from `N` on. -/
inductive Holds (m : Mem) (N : Nat) : Payload → Value → Prop
  | scalar (s : Scalar) : Holds m N (.scalar s) (.scalar s)
  | null : Holds m N (.string none) (.string [])
  | string {s : Nat} {bs : List UInt8} : N ≤ s → Str.StrAt m s (bs.map .byte) →
      Holds m N (.string (some s)) (.string bs)
  | object : Holds m N .object .object

theorem Holds.type_eq {m : Mem} {N : Nat} {p : Payload} {x : Value} (h : Holds m N p x) :
    p.type = x.type := by
  cases h <;> rfl

theorem Holds.congr {m m' : Mem} {N : Nat} {p : Payload} {x : Value} (h : Holds m N p x)
    (hs : ∀ b, N ≤ b → m'.sizeOf b = m.sizeOf b)
    (hc : ∀ b o, N ≤ b → m'.cellAt b o = m.cellAt b o) : Holds m' N p x := by
  cases h with
  | scalar s => exact .scalar s
  | null => exact .null
  | string hN hat => exact .string hN (hat.congr (hs _ hN) fun o _ => hc _ o hN)
  | object => exact .object

/-! ## A new string joins the blocks a reader may look at -/

/-- The ghost state with the string of a payload, if it has one. -/
def adopt (g : State) (p : Payload) (x : Value) : State :=
  match p, x with
  | .string (some s), .string bs => g.set s (.str bs)
  | _, _ => g

section adopt
variable {slot : Addr} {m : Mem} {g : State} {N : Nat} {p : Payload} {x : Value}

/-- A string that joins is in a block from `N` on. -/
theorem Holds.adopt_cases (h : Holds m N p x) {b : Nat} {n : Node}
    (hb : (adopt g p x).heap b = some n) : g.heap b = some n ∨ (N ≤ b ∧ ∃ bs, n = .str bs) := by
  cases h with
  | @string s bs hs _ =>
    rcases Ghost.set_heap_cases (g := g) hb with ⟨rfl, rfl⟩ | ⟨_, hb⟩
    · exact .inr ⟨hs, bs, rfl⟩
    · exact .inl hb
  | _ => exact .inl hb

theorem Holds.adopt_heap (h : Holds m N p x) {b : Nat} (hb : b < N) :
    (adopt g p x).heap b = g.heap b := by
  cases h with
  | string hs _ => exact g.set_heap_of_ne _ (by omega)
  | _ => rfl

theorem Holds.adopt_extends (h : Holds m N p x) (hg : ∀ b n, g.heap b = some n → b < N) :
    g.Extends (adopt g p x) := by
  cases h with
  | @string s bs hs _ =>
    refine Ghost.extends_set _ ?_
    cases hn : g.heap s with
    | none => rfl
    | some n => have := hg s n hn; omega
  | _ => exact Ghost.Extends.refl g

theorem Holds.adopt_published (h : Holds m N p x) {e : Entry} (he : Published (adopt g p x) e) :
    Published g e := by
  cases h with
  | string => exact published_set (fun _ _ h => by cases h) he
  | _ => exact he

theorem Holds.adopt_str (h : Holds m N p x) : ∀ s, p = .string (some s) →
    ∃ bs, (adopt g p x).heap s = some (.str bs) := by
  intro s hp
  cases h with
  | @string s' bs _ _ =>
    cases hp
    exact ⟨bs, g.set_heap_self _ _⟩
  | _ => cases hp

theorem Holds.adopt_value (h : Holds m N p x) : p.value (adopt g p x) = x := by
  cases h with
  | @string s bs _ _ =>
    have hs : (adopt g (.string (some s)) (.string bs)).heap s = some (.str bs) :=
      g.set_heap_self _ _
    simp only [Payload.value, hs]
  | _ => rfl

theorem Inv.adopt (hI : Inv slot m g) (h : Holds m N p x)
    (hg : ∀ b n, g.heap b = some n → b < N) (hslot : slot.block < N) :
    Inv slot m (adopt g p x) := by
  have hx : g.Extends (Obj.adopt g p x) := h.adopt_extends hg
  cases h with
  | @string s bs hs hat =>
    refine hI.intro ?_ (by omega) hat (fun _ _ h => by cases h) fun _ h => by cases h
    cases hn : g.heap s with
    | none => rfl
    | some n => have := hg s n hn; omega
  | _ => exact hI

end adopt

/-- A string that is complete in memory is not one whose capacity has wrapped. -/
theorem StrAt.not_wraps {m : Mem} {s : Nat} {bs : List UInt8} (h : Str.StrAt m s (bs.map .byte)) :
    ¬ (Value.string bs).Wraps := by
  intro hw
  have := h.lt
  rw [List.length_map, show bs.length + 1 = 2 ^ 32 from hw] at this
  exact Nat.lt_irrefl _ this

theorem Holds.str_ge {m : Mem} {N s : Nat} {x : Value} (h : Holds m N (.string (some s)) x) :
    N ≤ s := by
  cases h with
  | string hs _ => exact hs

/-- A string that is new does not belong to a block there was. -/
theorem Holds.str_new {m : Mem} {g : State} {N s v : Nat} {x : Value} (hg : Shape g)
    (hlt : ∀ b n, g.heap b = some n → b < N) (h : Holds m N (.string (some s)) x) :
    g.heap v ≠ some (.val (.string (some s))) := by
  intro hv
  obtain ⟨bs, hs⟩ := hg.val_str v s hv
  have := hlt s _ hs
  have := h.str_ge
  omega

/-- The store that makes `q` the payload of a block is within the object. -/
theorem Holds.footprint_setPayload {slot : Addr} {m m' : Mem} {g : State} {top N : Nat} {e : Entry}
    {p q : Payload} {x : Value} {o : Nat} {cs : List Cell} (hg : Shape g)
    (hlt : ∀ b n, g.heap b = some n → b < N) (hq : Holds m N q x) (htop : top ≤ N)
    (hp : g.heap e.val = some (.val p)) (ht : q.type = p.type)
    (hno : q ≠ .object) (hent : entries (setPayload (adopt g q x) e q) = entries g) :
    Footprint slot top g m' (m'.write ⟨e.val, o⟩ cs) (setPayload (adopt g q x) e q) := by
  have hpo : ¬ (Node.val p).IsSlot := by
    intro hs
    cases p with
    | object =>
      cases q with
      | scalar s => cases s <;> cases ht
      | string _ => cases ht
      | object => exact hno rfl
    | _ => exact hs
  refine .write (fun _ _ _ => .inr ⟨_, hp, hpo⟩) (fun b n hb => ?_) (fun b hb => ?_)
    (fun y hy => ?_) fun v s hv => ?_
  · rcases Ghost.set_heap_cases hb with ⟨rfl, _⟩ | ⟨_, hb⟩
    · exact .inl fun hn => Option.some_ne_none _ (hp.symm.trans hn)
    · rcases hq.adopt_cases hb with hb | ⟨hb, _⟩
      · exact .inl fun hn => Option.some_ne_none _ (hb.symm.trans hn)
      · exact .inr (Nat.le_trans htop hb)
  · rcases Ghost.set_heap_cases hb with ⟨_, hn⟩ | ⟨_, hb⟩
    · cases hn
      exact absurd rfl hno
    · rcases hq.adopt_cases hb with hb | ⟨_, bs, hn⟩
      · exact .inl hb
      · cases hn
  · rw [hent] at hy
    exact .inl hy
  · rcases Ghost.set_heap_cases hv with ⟨rfl, hn⟩ | ⟨_, hv⟩
    · cases hn
      refine .inr ⟨Nat.le_trans htop hq.str_ge, fun v' hv' => ?_⟩
      rcases Ghost.set_heap_cases hv' with ⟨rfl, _⟩ | ⟨_, hv'⟩
      · rfl
      · rcases hq.adopt_cases hv' with hv' | ⟨_, bs, hn⟩
        · exact absurd hv' (hq.str_new hg hlt)
        · cases hn
    · rcases hq.adopt_cases hv with hv | ⟨_, bs, hn⟩
      · exact .inl hv
      · cases hn

/-! ## The payload a store makes -/

theorem valid_ptr {m : Mem} {v : Nat} (hsz : m.sizeOf v = some 24) :
    m.Valid ⟨v, 8⟩ Kind.ptr.size := ⟨24, hsz, by simp [Kind.size]⟩

theorem PayloadAt.scalar {m : Mem} {v : Nat} {s : Scalar} (hsz : m.sizeOf v = some s.size.toNat) :
    PayloadAt (m.write ⟨v, s.off⟩ (s.kind.encode s.bits)) v (.scalar s) :=
  ⟨(m.sizeOf_write ..).trans hsz, Mem.load_write_same s.bits ⟨_, hsz, s.fits⟩⟩

theorem PayloadAt.string {m : Mem} {v : Nat} (hsz : m.sizeOf v = some 24) (buf : Option Nat) :
    PayloadAt (m.write ⟨v, 8⟩ (Kind.ptr.encode (basePtr buf))) v (.string buf) :=
  ⟨(m.sizeOf_write ..).trans hsz, Mem.load_write_same (k := .ptr) _ (valid_ptr hsz)⟩

/-- A string built before the pointer to it is stored. -/
theorem Holds.stored {m : Mem} {N v s : Nat} {bs : List UInt8} {cs : List Cell} {o : Nat}
    (hs : N ≤ s) (hv : v ≠ s) (hat : Str.StrAt m s (bs.map .byte)) :
    Holds (m.write ⟨v, o⟩ cs) N (.string (some s)) (.string bs) := by
  refine .string hs (hat.congr (m.sizeOf_write ..) fun _ _ => Mem.cellAt_write_of_not ?_)
  exact fun hb => hv hb.1

/-! ## Into a fresh block -/

section fresh
variable {Γ : Type} {T : Γ → Mem → Act → Mem → Γ → Prop} {F : Fault → Mem → Γ → Prop}
  {Q : Unit → Mem → Γ → Prop} {m₀ m : Mem} {g : Γ} {x : Value} {v : Nat}

theorem writeValue_fresh (hT : FreshOk T g m₀.next) (hk : m₀.Keeps m) (hv : m₀.next ≤ v)
    (hsz : m.sizeOf v = some x.size) (hz : x.type = typeString → m.load .ptr ⟨v, 8⟩ = some none)
    (hx : x.Fits) (hwrap : x.Wraps → m.mallocOk = true → ∀ m', F .outOfBounds m' g)
    (hQ : ∀ m' p, ¬ (x.Wraps ∧ m.mallocOk = true) → m₀.Keeps m' → PayloadAt m' v p →
      Holds m' (v + 1) p (x.stored m.mallocOk (.string [])) → (p = .object → m' = m) → Q () m' g) :
    (writeValue x (some ⟨v, 0⟩)).Safe T F Q m g := by
  have hlt : v < m.next := Mem.sizeOf_lt hsz
  cases x with
  | object => exact hQ m .object (fun hw => hw.1) hk ⟨hsz, trivial⟩ .object fun _ => rfl
  | scalar s =>
    simp only [writeValue, Ptr.some_add, Addr.mk_add, Nat.zero_add]
    refine hT.act (Mem.exec_store ⟨_, hsz, s.fits⟩) hk.next_le ⟨_, rfl, hv⟩ ?_
    refine hQ _ (.scalar s) (fun hw => hw.1) (hk.write hv) (.scalar hsz) (.scalar s) ?_
    exact fun hp => by cases hp
  | string bs =>
    refine Str.msmStringSet_safe (hT.mono hk.next_le) hx (fun _ => rfl) ?_ ?_ hwrap ?_
    · intro hnil
      subst hnil
      refine hT.act (Mem.exec_store (valid_ptr hsz)) hk.next_le ⟨_, rfl, hv⟩ ?_
      refine hQ _ (.string none) (fun hw => by cases hw.1) (hk.write hv) (.string hsz none) .null ?_
      exact fun hp => by cases hp
    · intro hne hm
      have hst : (Value.string bs).stored m.mallocOk (.string []) = .string [] := by
        cases bs with
        | nil => exact absurd rfl hne
        | cons c cs => simp [Value.stored, hm, Value.Allocates]
      refine hQ _ (.string none) (by simp [hm]) hk.tick ⟨hsz, hz rfl⟩ ?_ fun hp => by cases hp
      rw [hst]
      exact .null
    · intro m' _ hk' _ hat hm
      have hsz' : m'.sizeOf v = some 24 := (hk'.sizeOf_eq hlt).trans hsz
      have hkk : m₀.Keeps m' := hk.trans hk'
      refine hT.act (Mem.exec_store (valid_ptr hsz')) hkk.next_le ⟨_, rfl, hv⟩ ?_
      refine hQ _ (.string (some m.next)) (fun hw => StrAt.not_wraps hat hw.1) (hkk.write hv)
        (.string hsz' (some m.next)) ?_ fun hp => by cases hp
      rw [hm, Value.stored_ok]
      exact .stored hlt (Nat.ne_of_lt hlt) hat

end fresh

/-! ## Into the block of a current entry -/

section live
variable {slot : Addr} {inPlace : Bool} {top : Nat} {M : Fields} {F : Fault → Mem → State → Prop}
  {Q : Unit → Mem → State → Prop} {m : Mem} {g : State} {x : Value} {e : Entry}

/-- Setting a field to what it is changes nothing. -/
theorem fields_set_self (h : Inv slot m g) (he : e ∈ entries g) :
    Keyed.set (fields g) e.hash ⟨e.val, valueAt g e.val⟩ = fields g :=
  Keyed.set_of_find h.fields_distinct (h.find_of_mem he)

theorem writeValue_live (h : Inv slot m g) (hM : fields g = M) (htop : top ≤ m.next)
    (he : e ∈ entries g) (ht : e.type = x.type) (hx : x.Fits)
    (hover : ∀ s, x = .scalar s → inPlace = true)
    (hwrap : x.Wraps → m.mallocOk = true → ∀ m', F .outOfBounds m' g)
    (hQ : ∀ m' g', ¬ (x.Wraps ∧ m.mallocOk = true) → Inv slot m' g' → fields g' =
      Keyed.set M e.hash ⟨e.val, x.stored m.mallocOk (valueAt g e.val)⟩ → Q () m' g') :
    (writeValue x (some ⟨e.val, 0⟩)).Safe (T slot inPlace top M) F Q m g := by
  obtain ⟨p, hp, hpt⟩ := h.entry_payload he
  have hpx : p.type = x.type := hpt.trans ht
  -- the last step: a store that turns the payload into `q`, which stands for `x`
  have hstore {m' : Mem} {q : Payload} {o : Nat} {cs : List Cell} {a : Act} {r : a.Res}
      {k : a.Res → CProg Unit} (hk : m.Keeps m') (hq : Holds m' m.next q x)
      (hat : PayloadAt (m'.write ⟨e.val, o⟩ cs) e.val q) (hs : a.IsStore)
      (ha : Commit slot g a ∨ (a.IsPlain ∧ inPlace = true))
      (hno : q ≠ .object) (hx' : x.stored m.mallocOk (valueAt g e.val) = x)
      (hw : ¬ (x.Wraps ∧ m.mallocOk = true))
      (hexec : m'.exec a = .ok (r, m'.write ⟨e.val, o⟩ cs)) (hkr : k r = .ret ()) :
      (Prog.act (M := cmachine) a k).Safe (T slot inPlace top M) F Q m' g := by
    have hI' : Inv slot m' g := h.keeps hk
    have hlt (b : Nat) (n : Node) (hb : g.heap b = some n) : b < m.next := h.repr.node_lt hb
    have hext := hq.adopt_extends hlt
    have hI₁ : Inv slot m' (adopt g q x) := hI'.adopt hq hlt h.repr.slot_lt
    have he₁ : e ∈ entries (adopt g q x) := by rwa [h.entries_extends hext]
    have hp₁ := hext.2 _ _ hp
    have hqt : q.type = p.type := hq.type_eq.trans hpx.symm
    refine Prog.safe_act (setPayload (adopt g q x) e q) hexec ?_ ?_
    · refine T_commit hM (hI₁.setPayload hp₁ hqt hat hq.adopt_str) ?_ hs ha ?_
      · exact .of_extends hext (hI₁.rely_setPayload he₁ hp₁ hqt)
      · refine hq.footprint_setPayload h.toShape hlt htop hp hqt hno ?_
        rw [hI₁.entries_setPayload hp₁, h.entries_extends hext]
    · rw [hkr]
      refine hQ _ _ hw (hI₁.setPayload hp₁ hqt hat hq.adopt_str) ?_
      rw [hI₁.fields_setPayload he₁ hp₁ hq.adopt_str, h.fields_extends hext, hM, hx',
        hq.adopt_value]
  have hsz : m.sizeOf e.val = some p.size := (h.payload_at hp).1
  have hlive : e.val < m.next := h.repr.node_lt hp
  cases x with
  | object =>
    refine hQ m g (fun hw => hw.1) h ?_
    have hval : valueAt g e.val = .object := by
      cases p with
      | scalar s => cases s <;> cases hpx
      | string _ => cases hpx
      | object => rw [valueAt, hp]; rfl
    have hself := fields_set_self h he
    rw [hval, hM] at hself
    exact (hM.trans hself.symm)
  | scalar s =>
    simp only [writeValue, Ptr.some_add, Addr.mk_add, Nat.zero_add]
    have hsz' : m.sizeOf e.val = some s.size.toNat := by
      rw [hsz, Payload.size_eq (show p.type = (Payload.scalar s).type from hpx)]
      rfl
    refine hstore (.refl m) (.scalar s) (.scalar hsz') trivial (.inr ⟨rfl, hover s rfl⟩)
      (fun hq => by cases hq) ?_ (fun hw => hw.1) (Mem.exec_store ⟨_, hsz', s.fits⟩) rfl
    simp [Value.stored, Value.Allocates]
  | string bs =>
    have hsz' : m.sizeOf e.val = some 24 := by
      rw [hsz, Payload.size_eq (show p.type = (Payload.string none).type from hpx)]
      rfl
    refine Str.msmStringSet_safe (T_fresh h hM htop) hx (fun _ => rfl) ?_ ?_ hwrap ?_
    · intro hnil
      subst hnil
      refine hstore (.refl m) .null (.string hsz' none) trivial (.inl (.string _ he ht))
        (fun hq => by cases hq) ?_ (fun hw => by cases hw.1) (Mem.exec_store (valid_ptr hsz')) rfl
      simp [Value.stored, Value.Allocates]
    · intro hne hm
      refine hQ _ _ (by simp [hm]) (h.keeps (Mem.Keeps.refl m).tick) ?_
      have hst : (Value.string bs).stored m.mallocOk (valueAt g e.val) = valueAt g e.val := by
        cases bs with
        | nil => exact absurd rfl hne
        | cons c cs => simp [Value.stored, hm, Value.Allocates]
      rw [hst, ← hM, fields_set_self h he]
    · intro m' _ hk' _ hat hm
      have hszm : m'.sizeOf e.val = some 24 := (hk'.sizeOf_eq hlive).trans hsz'
      refine hstore hk' (.string (Nat.le_refl _) hat) (.string hszm (some m.next))
        trivial (.inl (.string _ he ht)) (fun hq => by cases hq) ?_
        (fun hw => StrAt.not_wraps hat hw.1) (Mem.exec_store (valid_ptr hszm)) rfl
      rw [hm, Value.stored_ok]

end live
end Msm.Obj
