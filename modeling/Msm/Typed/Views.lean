import Msm.Str.Reads
import Msm.Typed.Moves

/-! # Views that threads hold

A thread gets views from the root view, field by field and element by element,
keeps them as long as it likes, and reads or changes what they lead to; it reads
the characters behind a `c_str()` one at a time. A call names the earlier call
whose result it uses. What a thread has got so far leads to slots of its types, and
to numbers and strings that were given to the writer. -/
namespace Msm.Typed
open Msm.Exec Msm.CMem Msm.Api Msm.Own

deriving instance DecidableEq for Ty, Fields

/-- A typed view: a type and the address of a slot, or null. -/
structure View where
  type : Ty
  ptr : Ptr

inductive Value where
  | view (v : View)
  | got (x : Got)
  | char (c : UInt8)

inductive Call where
  | root
  | field (n : Nat) (name : FixedString)
  | item (n : Nat) (i : UInt64)
  | emplaceBack (n : Nat)
  | change (n : Nat) {t : Ty} (op : Op t)
  | read (n : Nat) {t : Ty} (q : Query t)
  /-- The next character behind the pointer that call `n` got. -/
  | next (n : Nat)

abbrev Log := List (Call × Value)

def viewOf (log : Log) (n : Nat) : Option View :=
  match log[n]? with
  | some (_, .view v) => some v
  | _ => none

def charsOf (log : Log) (n : Nat) : Option CharPtr :=
  match log[n]? with
  | some (_, .got (.chars p)) => some p
  | _ => none

def charOf (n : Nat) : Call × Value → Option UInt8
  | (.next k, .char c) => if k = n then some c else none
  | _ => none

/-- The characters read so far behind the pointer that call `n` got. -/
def charsRead (log : Log) (n : Nat) : List UInt8 := (log.drop (n + 1)).filterMap (charOf n)

/-- On a null view the read gives the answer of a zero value; a number has none. -/
def Query.nullOk {t : Ty} : Query t → Bool
  | .value => false
  | _ => true

/-- The operations are those that do not free, on a view of their type; nobody
assigns to or reads a number through a null view. -/
def Call.code (T : Ty) (r : Nat) (log : Log) : Call → Option (CProg Value)
  | .root => some (pure (.view ⟨T, some ⟨r, 0⟩⟩))
  | .field n name => match viewOf log n with
    | some ⟨.record fields, p⟩ => (fields.get name p).map fun v => pure (.view ⟨v.2, v.1⟩)
    | _ => none
  | .item n i => match viewOf log n with
    | some ⟨.array t, p⟩ => some do
      let q ← arrayAt t p i
      pure (.view ⟨t, q⟩)
    | _ => none
  | .emplaceBack n => match viewOf log n with
    | some ⟨.array t, p⟩ => some do
      let q ← Api.emplaceBack t p
      pure (.view ⟨t, q⟩)
    | _ => none
  | @Call.change n t op => match viewOf log n with
    | some v => if v.type = t ∧ op.shareable ∧ (v.ptr.isSome ∨ op.nullOk) then some do
        op.code v.ptr
        pure (.got .nothing)
      else none
    | none => none
  | @Call.read n t q => match viewOf log n with
    | some v => if v.type = t ∧ (v.ptr.isSome ∨ q.nullOk) then some do
        let x ← q.code v.ptr
        pure (.got x)
      else none
    | none => none
  | .next n => match charsOf log n with
    | some p => if 0 ∈ charsRead log n then none else some do
        let c ← Str.readChar p (charsRead log n).length
        pure (.char c)
    | none => none

def Call.reads : Call → Bool
  | .emplaceBack _ => false
  | .change _ _ => false
  | _ => true

/-! ## What a thread has got -/

def Given.Text (A : Given) (bs : List UInt8) : Prop := bs = [] ∨ A.chars bs

/-- The pointer is to the string: in a published buffer, or the empty literal. -/
def Denotes (h : Heap) (p : CharPtr) (bs : List UInt8) : Prop :=
  match p with
  | .null => False
  | .own cs => cs = [] ∧ bs = []
  | .shared a => a.off = 8 ∧ h.content a.block = some (.chars bs)

/-- A view leads to a slot of its type; a number, a string and a length were given. -/
def EntryOk (A : Given) (h : Heap) : Call → Value → Prop
  | _, .view v => ∀ a, v.ptr = some a → At h v.type a
  | _, .got (.scalar v) => A.Number v
  | _, .got (.chars p) => ∃ bs, Denotes h p bs ∧ A.Text bs ∧ 0 ∉ bs
  | @Call.read _ _ .length, .got (.number n) => ∃ bs, A.Text bs ∧ n.toNat = bs.length
  | _, _ => True

structure LogOk (A : Given) (h : Heap) (log : Log) : Prop where
  entry : ∀ c x, (c, x) ∈ log → EntryOk A h c x
  chars : ∀ n p, charsOf log n = some p →
    ∃ bs, Denotes h p bs ∧ A.Text bs ∧ 0 ∉ bs ∧ charsRead log n <+: bs ++ [0]

section logs
variable {A A' : Given} {h h' : Heap} {log : Log} {c : Call} {x : Value}

theorem Given.Text.mono {bs : List UInt8} (hb : A.Text bs) (hA : A.Le A') : A'.Text bs :=
  hb.imp id (hA.chars bs)

theorem Denotes.mono {p : CharPtr} {bs : List UInt8} (hd : Denotes h p bs) (hh : h.Extends h') :
    Denotes h' p bs := by
  cases p with
  | null => exact hd
  | own cs => exact hd
  | shared a => exact ⟨hd.1, hh.content _ _ hd.2⟩

theorem Denotes.unique {p : CharPtr} {bs cs : List UInt8} (hd : Denotes h p bs)
    (hd' : Denotes h p cs) : bs = cs := by
  cases p with
  | null => exact hd.elim
  | own _ => exact hd.2.trans hd'.2.symm
  | shared a =>
    have he := hd.2.symm.trans hd'.2
    cases he
    rfl

theorem EntryOk.mono (hx : EntryOk A h c x) (hA : A.Le A') (hh : h.Extends h') :
    EntryOk A' h' c x := by
  cases x with
  | view v => exact fun a ha => (hx a ha).mono hh
  | char ch => cases c <;> trivial
  | got g =>
    cases g with
    | scalar v => exact Given.Number.mono hx hA
    | chars p =>
      obtain ⟨bs, hd, ht, h0⟩ := hx
      exact ⟨bs, hd.mono hh, ht.mono hA, h0⟩
    | number n =>
      cases c with
      | read k q =>
        cases q with
        | length =>
          obtain ⟨bs, ht, hn⟩ := hx
          exact ⟨bs, ht.mono hA, hn⟩
        | _ => trivial
      | _ => trivial
    | _ => cases c <;> trivial

theorem LogOk.mono (hl : LogOk A h log) (hA : A.Le A') (hh : h.Extends h') : LogOk A' h' log where
  entry c x hin := (hl.entry c x hin).mono hA hh
  chars n p hp := by
    obtain ⟨bs, hd, ht, h0, hpre⟩ := hl.chars n p hp
    exact ⟨bs, hd.mono hh, ht.mono hA, h0, hpre⟩

theorem logOk_nil : LogOk A h [] :=
  ⟨(fun _ _ hin => by cases hin), (fun _ _ hp => by cases hp)⟩

theorem mem_of_viewOf {n : Nat} {v : View} (hv : viewOf log n = some v) :
    ∃ c, (c, Value.view v) ∈ log := by
  simp only [viewOf] at hv
  split at hv
  · rename_i c v' hget
    cases hv
    exact ⟨c, List.mem_of_getElem? hget⟩
  · cases hv

/-- **A view that is held leads to a slot of its type.** -/
theorem LogOk.view (hl : LogOk A h log) {n : Nat} {v : View} (hv : viewOf log n = some v) {a : Addr}
    (ha : v.ptr = some a) : At h v.type a := by
  obtain ⟨c, hin⟩ := mem_of_viewOf hv
  exact hl.entry c _ hin a ha

theorem charsOf_lt {n : Nat} {p : CharPtr} (hp : charsOf log n = some p) : n < log.length := by
  simp only [charsOf] at hp
  split at hp
  · rename_i hget
    exact (List.getElem?_eq_some_iff.mp hget).1
  · cases hp

theorem charsRead_append {n : Nat} (hn : n < log.length) :
    charsRead (log ++ [(c, x)]) n = charsRead log n ++ (charOf n (c, x)).toList := by
  rw [charsRead, charsRead, List.drop_append_of_le_length hn, List.filterMap_append]
  cases hc : charOf n (c, x) <;> simp [List.filterMap, hc]

/-- The log after one call more. -/
theorem LogOk.append (hl : LogOk A h log) (hx : EntryOk A h c x)
    (hnext : ∀ n ch, c = .next n → x = .char ch → ∀ p bs, charsOf log n = some p →
      Denotes h p bs → 0 ∉ bs → charsRead log n <+: bs ++ [0] →
      charsRead log n ++ [ch] <+: bs ++ [0]) : LogOk A h (log ++ [(c, x)]) where
  entry c' x' hin := by
    rcases List.mem_append.mp hin with hin | hin
    · exact hl.entry c' x' hin
    · cases List.mem_singleton.mp hin
      exact hx
  chars n p hp := by
    rcases Nat.lt_trichotomy n log.length with hn | rfl | hn
    · have hp' : charsOf log n = some p := by
        simp only [charsOf, List.getElem?_append_left hn] at hp ⊢
        exact hp
      obtain ⟨bs, hd, ht, h0, hpre⟩ := hl.chars n p hp'
      refine ⟨bs, hd, ht, h0, ?_⟩
      rw [charsRead_append hn]
      cases hc : charOf n (c, x) with
      | none =>
        rw [Option.toList_none, List.append_nil]
        exact hpre
      | some ch =>
        simp only [charOf] at hc
        split at hc
        · rename_i k ch' heq
          cases heq
          split at hc
          · rename_i hk
            subst hk
            cases hc
            exact hnext k ch rfl rfl p bs hp' hd h0 hpre
          · cases hc
        · cases hc
    · simp only [charsOf, List.getElem?_append_right (Nat.le_refl _), Nat.sub_self,
        List.getElem?_cons_zero] at hp
      split at hp
      · rename_i c' p' heq
        cases heq
        cases hp
        obtain ⟨bs, hd, ht, h0⟩ := hx
        refine ⟨bs, hd, ht, h0, ?_⟩
        rw [charsRead, List.drop_eq_nil_of_le (by simp)]
        exact List.nil_prefix
      · cases hp
    · have hlt := charsOf_lt hp
      rw [List.length_append, List.length_singleton] at hlt
      omega

end logs

/-! ## Reads of a memory that others change -/

/-- The memory keeps to a heap that grows, and what was given grows with it. -/
structure Course (T : Ty) (r : Nat) (μ : Nat → Mem) (γ : Nat → Heap) (α : Nat → Given) : Prop where
  store : ∀ t, Store (α t) (γ t) (μ t)
  root : ∀ t, (γ t).content r = some (.root T)
  grows : ∀ t u, t ≤ u → (γ t).Extends (γ u)
  given : ∀ t u, t ≤ u → (α t).Le (α u)

section reads
variable {T : Ty} {r : Nat} {μ : Nat → Mem} {γ : Nat → Heap} {α : Nat → Given} {item t : Ty}
  {a : Addr} {s : Nat}

theorem Course.located (hc : Course T r μ γ α) (hat : At (γ s) t a) {u : Nat} (hu : s ≤ u) :
    Located (α u) (γ u) (μ u) t a :=
  (hat.mono (hc.grows s u hu)).located (hc.store u)

/-- A read of the pointer in a slot, and what it leads to from then on. -/
theorem Course.sampled_ptr (hc : Course T r μ γ α) {P : Content → Prop} {β : Type} {o : Order}
    {k : Ptr → CProg β} {Q : β → Nat → Prop}
    (hslot : ∀ u, s ≤ u → PointsTo (γ u) (μ u) a P) (hnull : ∀ u, s ≤ u → (k none).Sampled μ Q u)
    (hk : ∀ u b x, s ≤ u → P x → (∀ w, u ≤ w → x.Ok (α w) (γ w) (μ w) b ∧
      (γ w).content b = some x) → (k (some ⟨b, 0⟩)).Sampled μ Q u) :
    (Prog.act (M := cmachine) (.load o .ptr (some (a + 8))) k).Sampled μ Q s := by
  refine sampled_load fun u hu => ?_
  obtain ⟨c, hl, hb⟩ := hslot u hu
  refine ⟨_, hl, ?_⟩
  cases c with
  | none => exact hnull u hu
  | some b =>
    obtain ⟨x, hx, hP⟩ := hb b rfl
    refine hk u b x hu hP fun w hw => ?_
    have hx' := (hc.grows u w hw).content b x hx
    exact ⟨hc.store w b x hx', hx'⟩

/-- `operator[]` -/
theorem arrayAt_sampled (hc : Course T r μ γ α) {p : Ptr} {i : UInt64}
    (hp : ∀ a, p = some a → At (γ s) (.array item) a) :
    (arrayAt item p i).Sampled μ (fun q u => ∀ a, q = some a → At (γ u) item a) s := by
  cases p with
  | none => exact fun a ha => by cases ha
  | some a =>
    have hat := hp a rfl
    have hsound := (hc.located hat (Nat.le_refl s)).sound
    simp only [arrayAt, msmArrayGet, reduceCtorEq, itemSize_ne_zero_of_sound hsound, or_self,
      if_false, toNat_itemSize_of_sound hsound]
    refine hc.sampled_ptr (fun u hu => (hc.located hat hu).ok) (fun u _ a ha => by cases ha) ?_
    rintro u b _ hu ⟨cap, rfl⟩ hb
    refine sampled_load fun w hw => ?_
    obtain ⟨hok, hcontent⟩ := hb w hw
    obtain ⟨n, hl, hle, _⟩ := hok.load_size
    refine ⟨n, hl, ?_⟩
    show Prog.Sampled (M := cmachine) μ _ (if n ≤ i.toUInt32 then pure none else pure _) w
    split
    · exact fun a ha => by cases ha
    · rename_i hi
      rw [UInt32.le_iff_toNat_le, Nat.not_le] at hi
      intro a ha
      cases ha
      exact .item hcontent (Nat.lt_of_lt_of_le hi hle)

/-- A string that a slot led to at some time of the read. -/
theorem msmStringLength_sampled (hc : Course T r μ γ α) (hat : At (γ s) .string a) :
    (msmStringLength (some a)).Sampled μ
      (fun n u => ∃ bs, (α u).Text bs ∧ n.toNat = bs.length) s := by
  simp only [msmStringLength, reduceCtorEq, if_false]
  refine hc.sampled_ptr (fun u hu => (hc.located hat hu).ok) (fun u _ => ⟨[], .inl rfl, rfl⟩) ?_
  rintro u b _ hu ⟨bs, rfl⟩ hb
  refine sampled_load fun w hw => ?_
  obtain ⟨⟨hgiven, _, hstr⟩, _⟩ := hb w hw
  have hlt := hstr.lt
  rw [List.length_map] at hlt
  refine ⟨_, hstr.len, bs, .inr hgiven, ?_⟩
  rw [List.length_map, UInt32.toNat_ofNat']
  omega

theorem msmStringGet_sampled (hc : Course T r μ γ α) (hat : At (γ s) .string a) :
    (msmStringGet (some a)).Sampled μ
      (fun p u => ∃ bs, Denotes (γ u) p bs ∧ (α u).Text bs ∧ 0 ∉ bs) s := by
  have hempty (u : Nat) : ∃ bs, Denotes (γ u) (.own []) bs ∧ (α u).Text bs ∧ 0 ∉ bs :=
    ⟨[], ⟨rfl, rfl⟩, .inl rfl, List.not_mem_nil⟩
  simp only [msmStringGet, reduceCtorEq, if_false]
  refine hc.sampled_ptr (fun u hu => (hc.located hat hu).ok) (fun u _ => hempty u) ?_
  rintro u b _ hu ⟨bs, rfl⟩ hb
  refine sampled_load fun w hw => ?_
  obtain ⟨⟨hgiven, h0, hstr⟩, hcontent⟩ := hb w hw
  refine ⟨_, hstr.len, ?_⟩
  show Prog.Sampled (M := cmachine) μ _ (if UInt32.ofNat _ = 0 then pure _ else pure _) w
  rw [if_neg hstr.len_ne_zero]
  exact ⟨bs, ⟨rfl, hcontent⟩, .inr hgiven, h0⟩

theorem msmArraySize_sampled (hc : Course T r μ γ α) (hat : At (γ s) (.array item) a) :
    (msmArraySize (some a)).Sampled μ (fun _ _ => True) s := by
  simp only [msmArraySize, reduceCtorEq, if_false]
  refine hc.sampled_ptr (fun u hu => (hc.located hat hu).ok) (fun u _ => trivial) ?_
  rintro u b _ hu ⟨cap, rfl⟩ hb
  refine sampled_load fun w hw => ?_
  obtain ⟨hok, _⟩ := hb w hw
  obtain ⟨n, hl, _⟩ := hok.load_size
  exact ⟨n, hl, trivial⟩

theorem read_sampled (hc : Course T r μ γ α) {k : Prim} (hat : At (γ s) (.prim k) a) :
    (k.read (some a)).Sampled μ (fun v u => (α u).Number v) s := by
  rw [read_eq]
  refine sampled_load fun u hu => ?_
  obtain ⟨x, hl, hx⟩ := (hc.located hat hu).ok
  exact ⟨x, hl, hx⟩

/-- **A read of a slot** returns what was given. -/
theorem Query.sampled (q : Query t) (hc : Course T r μ γ α) (hat : At (γ s) t a) (n : Nat) :
    (q.code (some a)).Sampled μ
      (fun x u => EntryOk (α u) (γ u) (.read n q) (.got x)) s := by
  cases q with
  | value => exact .bind ((read_sampled hc hat).mono fun _ _ _ => id)
  | cStr => exact .bind ((msmStringGet_sampled hc hat).mono fun _ _ _ => id)
  | length => exact .bind ((msmStringLength_sampled hc hat).mono fun _ _ _ => id)
  | stringEmpty =>
    exact .bind (.bind ((msmStringLength_sampled hc hat).mono fun _ _ _ _ => trivial))
  | size => exact .bind ((msmArraySize_sampled hc hat).mono fun _ _ _ => id)
  | arrayEmpty => exact .bind (.bind ((msmArraySize_sampled hc hat).mono fun _ _ _ => id))

/-- A read of a null view. -/
theorem Query.sampled_null (q : Query t) (hnull : q.nullOk = true) (n : Nat) :
    (q.code none).Sampled μ (fun x u => EntryOk (α u) (γ u) (.read n q) (.got x)) s := by
  cases q with
  | value => cases hnull
  | cStr => exact ⟨[], ⟨rfl, rfl⟩, .inl rfl, List.not_mem_nil⟩
  | length => exact ⟨[], .inl rfl, rfl⟩
  | _ => trivial

/-- The next character behind a pointer. -/
theorem readChar_sampled (hc : Course T r μ γ α) {p : CharPtr} {bs : List UInt8} {i : Nat}
    (hd : Denotes (γ s) p bs) (hi : i < bs.length + 1) :
    (Str.readChar p i).Sampled μ (fun c _ => (bs ++ [0])[i]? = some c) s := by
  have hlt : i < (bs ++ [0]).length := by rwa [List.length_append, List.length_singleton]
  have hget := List.getElem?_eq_getElem hlt
  cases p with
  | null => exact hd.elim
  | own cs =>
    obtain ⟨rfl, rfl⟩ := hd
    show (_ : Option UInt8) = some _
    rw [hget]
    rfl
  | shared a =>
    refine sampled_load fun u hu => ?_
    obtain ⟨_, _, hstr⟩ := hc.store u _ _ ((hc.grows s u hu).content _ _ hd.2)
    have ha : a + i = ⟨a.block, 8 + i⟩ := by rw [← hd.1]; rfl
    exact ⟨_, ha ▸ hstr.load_byte hget, hget⟩

/-- `get<Name>()` -/
theorem At.get {h : Heap} {fields : Fields} {name : FixedString} {p : Ptr} {v : Ptr × Ty}
    (hp : ∀ a, p = some a → At h (.record fields) a)
    (hsmall : ∀ a, p = some a → (Ty.record fields).size < 2 ^ 32)
    (hv : fields.get name p = some v) {a : Addr} (ha : v.1 = some a) : At h v.2 a := by
  obtain ⟨i, _, hv⟩ := Option.bind_eq_some_iff.mp hv
  obtain ⟨t, ht, rfl⟩ := Option.map_eq_some_iff.mp hv
  cases p with
  | none => cases ha
  | some x =>
    have hsize : (Ty.record fields).size = 8 + fields.size := rfl
    have hle := Fields.size_le ht
    have hlt := hsmall x rfl
    rw [msmRecordGetField, if_neg (Option.some_ne_none x), UInt64.toNat_toUInt32,
      Fields.toNat_fieldOffset hlt, Nat.mod_eq_of_lt (by omega)] at ha
    cases ha
    exact (hp x rfl).field ht

/-- The log grows by what a call got, which is no character. -/
theorem LogOk.sampled {log : Log} {c : Call} {p : CProg Value} (hc : Course T r μ γ α)
    (hl : LogOk (α s) (γ s) log) (hne : ∀ n, c ≠ .next n)
    (h : p.Sampled μ (fun x u => EntryOk (α u) (γ u) c x) s) :
    p.Sampled μ (fun x u => LogOk (α u) (γ u) (log ++ [(c, x)])) s :=
  h.mono fun _ u hu hx => (hl.mono (hc.given s u hu) (hc.grows s u hu)).append hx
    fun n _ hn => absurd hn (hne n)

theorem next_sampled {log : Log} {n : Nat} {p : CharPtr} (hc : Course T r μ γ α)
    (hl : LogOk (α s) (γ s) log) (hp : charsOf log n = some p) (hmore : 0 ∉ charsRead log n) :
    (Str.readChar p (charsRead log n).length).Sampled μ
      (fun c u => LogOk (α u) (γ u) (log ++ [(.next n, .char c)])) s := by
  obtain ⟨bs, hd, _, h0, hpre⟩ := hl.chars n p hp
  have hlen : (charsRead log n).length < bs.length + 1 := by
    have hle := hpre.length_le
    rw [List.length_append, List.length_singleton] at hle
    refine Nat.lt_of_le_of_ne hle fun he => hmore ?_
    rw [hpre.eq_of_length (by rw [he, List.length_append, List.length_singleton])]
    exact List.mem_append_right bs List.mem_cons_self
  refine (readChar_sampled hc hd hlen).mono fun c u hu hget => ?_
  refine (hl.mono (hc.given s u hu) (hc.grows s u hu)).append trivial ?_
  intro n' ch hn hch p' bs' hp' hd' h0' hpre'
  cases hn
  cases hch
  rw [hp] at hp'
  cases hp'
  rw [(hd.mono (hc.grows s u hu)).unique hd'] at hget
  exact Str.prefix_concat hpre' hget

/-- **A call that reads** leaves a log that is right. -/
theorem call_sampled {log : Log} {c : Call} {p : CProg Value} (hc : Course T r μ γ α)
    (hl : LogOk (α s) (γ s) log) (hreads : c.reads = true) (hp : c.code T r log = some p) :
    p.Sampled μ (fun x u => LogOk (α u) (γ u) (log ++ [(c, x)])) s := by
  cases c with
  | root =>
    cases hp
    refine hl.sampled hc (fun n => by simp) fun a ha => ?_
    cases ha
    exact .root (hc.root s)
  | field n name =>
    refine hl.sampled hc (fun n => by simp) ?_
    simp only [Call.code] at hp
    split at hp
    · rename_i fields q hv
      obtain ⟨v, hget, rfl⟩ := Option.map_eq_some_iff.mp hp
      have hview (a : Addr) (ha : q = some a) : At (γ s) (.record fields) a := hl.view hv ha
      exact fun a ha => At.get hview (fun a ha => (hc.located (hview a ha) (Nat.le_refl s)).small)
        hget ha
    · cases hp
  | item n i =>
    refine hl.sampled hc (fun n => by simp) ?_
    simp only [Call.code] at hp
    split at hp
    · rename_i t q hv
      cases hp
      exact .bind ((arrayAt_sampled hc fun a ha => hl.view hv ha).mono fun _ _ _ => id)
    · cases hp
  | emplaceBack n => cases hreads
  | change n op => cases hreads
  | read n q =>
    refine hl.sampled hc (fun n => by simp) ?_
    simp only [Call.code] at hp
    split at hp
    · rename_i v hv
      split at hp
      · rename_i hok
        obtain ⟨rfl, hok⟩ := hok
        cases hp
        refine .bind ?_
        cases ha : v.ptr with
        | none =>
          rw [ha] at hok
          exact q.sampled_null (hok.resolve_left (by simp)) n
        | some a => exact q.sampled hc (hl.view hv ha) n
      · cases hp
    · cases hp
  | next n =>
    simp only [Call.code] at hp
    split at hp
    · rename_i q hq
      split at hp
      · cases hp
      · rename_i hmore
        cases hp
        exact .bind ((next_sampled hc hl hq hmore).mono fun _ _ _ => id)
    · cases hp

end reads
end Msm.Typed
