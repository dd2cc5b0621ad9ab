import Mathlib.Data.Set.Card
import Msm.Exec.Refine
import Msm.Tree.Contents

/-! # Statements in brackets

A program of statements `obj[n1]...[nk] = v`, of reads, removes and counts through
the same brackets, is a program on a document. Evaluating the brackets makes the
objects on the way, also for a read; a statement ends the process exactly when a
value that is not an object is in the way, or the field it assigns to has
another type. -/
namespace Msm.Tree
open Msm.Exec Msm.CMem Msm.Api Msm.Obj

/-! ## Statements -/

/-- What is done with the proxy of the brackets. -/
inductive Use where
  | assign (v : ProxyArg)
  | read (r : ProxyRead)
  | remove
  | count

structure Statement where
  name : CStr
  names : List CStr
  use : Use

inductive Got where
  | nothing
  | value (v : ProxyVal)
  | removed (b : Bool)
  | count (n : UInt32)

def Statement.code (root : Ptr) (st : Statement) : CProg Got :=
  match st.use with
  | .assign v => do
    writeBrackets root st.name st.names v
    pure .nothing
  | .read r => do
    let v ← readBrackets root st.name st.names r
    pure (.value v)
  | .remove => do
    let b ← removeBrackets root st.name st.names
    pure (.removed b)
  | .count => do
    let n ← countBrackets root st.name st.names
    pure (.count n)

/-! ## What they mean -/

inductive Reply where
  | nothing
  | int32 (v : Int32)
  | int64 (v : Int64)
  | float64 (v : UInt64)
  | bool (b : Bool)
  | string (bs : List UInt8)
  | type (t : UInt16)
  | count (n : UInt32)

/-- The value an assignment leaves. -/
def assigned : ProxyArg → Value
  | .int32 v => .scalar (.int32 v.toUInt32)
  | .int64 v => .scalar (.int64 v.toUInt64)
  | .float64 v => .scalar (.float64 v)
  | .bool v => .scalar (.bool (if v then 1 else 0))
  | .string none => .string []
  | .string (some s) => .string s.bytes

/-- What a read of a field says: a field of another type is like none. -/
def readReply : ProxyRead → Option Value → Reply
  | .asInt32, some (.scalar (.int32 b)) => .int32 b.toInt32
  | .asInt32, _ => .int32 0
  | .asInt64, some (.scalar (.int64 b)) => .int64 b.toInt64
  | .asInt64, _ => .int64 0
  | .asFloat64, some (.scalar (.float64 b)) => .float64 b
  | .asFloat64, _ => .float64 0
  | .asBool, some (.scalar (.bool b)) => .bool (b.toInt32 ≠ 0)
  | .asBool, _ => .bool false
  | .asString, some (.string bs) => .string bs
  | .asString, _ => .string []
  | .typeId, y => .type (y.elim 0 Value.type)
  | .hasField, y => .bool y.isSome

/-- What was got shows the reply; a string, when the pointer points to it. -/
def Got.Shows (m : Mem) : Got → Reply → Prop
  | .nothing, .nothing => True
  | .value (.int32 v), .int32 w => v = w
  | .value (.int64 v), .int64 w => v = w
  | .value (.float64 v), .float64 w => v = w
  | .value (.bool v), .bool w => v = w
  | .value (.string p), .string bs => Points m p bs
  | .value (.type t), .type u => t = u
  | .removed b, .bool c => b = c
  | .count n, .count k => n = k
  | _, _ => False

/-- The document once the brackets up to the last have made the objects of their path. -/
def Document.enter (d : Document) (path : List CStr) : Except Fault Document :=
  match d.obstacle [] path.dropLast with
  | some n => .error (Arg.object.mismatch n)
  | none => .ok (d.put path.dropLast .object fun _ => rfl)

/-- `x` under the last name of a path, where a value of its type or nothing is. -/
def Document.set (d : Document) (path : List CStr) (n : CStr) (x : Value) : Except Fault Document :=
  if h : ∀ y ∈ d.get (path ++ [n]), y.type = x.type then
    .ok (d.put (path ++ [n]) x fun ho => (type_object_iff.mp (h _ ho).symm))
  else .error (.aborted "[msm_object] FATAL: type mismatch for '%s'\n" n.bytes)

/-- Names of the vocabulary lead in the tree to what the document has there. -/
def Agrees (N : Vocabulary) (root : Addr) (m : Mem) (d : Document) : Prop :=
  ∀ names, (∀ a ∈ names, N.Has a) → contents m root names = d.get names

/-- The number of fields of the object at a path. -/
noncomputable def Document.fieldCount (d : Document) (path : List CStr) : Nat :=
  Set.ncard {n | d.get (path ++ [n]) ≠ none}

/-- What is done with a proxy, on a document whose path leads to an object. -/
noncomputable def Use.meaning (d : Document) (path : List CStr) (n : CStr) :
    Use → Except Fault (Reply × Document)
  | .assign v => do
    let d' ← d.set path n (assigned v)
    pure (.nothing, d')
  | .read r => pure (readReply r (d.get (path ++ [n])), d)
  | .remove => pure (.bool (d.get (path ++ [n])).isSome, d.erase (path ++ [n]) (by simp))
  | .count => pure (.count (UInt32.ofNat (d.fieldCount path)), d)

def Statement.path (st : Statement) : List CStr := st.name :: st.names

def Statement.last (st : Statement) : CStr := st.path.getLast (List.cons_ne_nil _ _)

noncomputable def Statement.meaning (d : Document) (st : Statement) :
    Except Fault (Reply × Document) := do
  let d' ← d.enter st.path
  st.use.meaning d' st.path.dropLast st.last

/-- The names are of the vocabulary, and a string fits a 32-bit buffer size. -/
structure Statement.Within (N : Vocabulary) (st : Statement) : Prop where
  named : ∀ a ∈ st.path, N.Has a
  fits : ∀ s, st.use = .assign (.string (some s)) → s.bytes.length + 1 < 2 ^ 32

/-! ## The document a memory holds -/

/-- Objects of at most `k` fields, all under names of the vocabulary. -/
def Tame (N : Vocabulary) (k : Nat) (F : Ghosts) : Prop :=
  ∀ s g, F s = some g → (fields g).length ≤ k ∧
    ∀ x ∈ Keyed.keys (fields g), ∃ n, N.Has n ∧ key n = x

/-- The tree under `root` is the document, with at most `k` fields an object. -/
structure Holds (N : Vocabulary) (root : Addr) (m : Mem) (d : Document) (k : Nat) : Prop where
  script : m.script = []
  tree : ∃ F, Forest root m F ∧ Tame N k F
  shows : Agrees N root m d
  named : ∀ names, d.get names ≠ none → ∀ a ∈ names, N.Has a

section holds
variable {N : Vocabulary} {root s : Addr} {m m' m₀ : Mem} {F : Ghosts} {g g' : State} {k k' : Nat}
  {n : CStr} {names path : List CStr} {d : Document} {x : Arg}

theorem Tame.mono (h : Tame N k F) (hk : k ≤ k') : Tame N k' F :=
  fun s g hs => ⟨Nat.le_trans (h s g hs).1 hk, (h s g hs).2⟩

theorem Holds.mono (h : Holds N root m d k) (hk : k ≤ k') : Holds N root m d k' := by
  obtain ⟨F, hF, ht⟩ := h.tree
  exact ⟨h.script, ⟨F, hF, ht.mono hk⟩, h.shows, h.named⟩

/-- One call on one object. -/
theorem Tame.call (h : Tame N k F) (hlen : (fields g').length ≤ k + 1)
    (hkeys : ∀ x ∈ Keyed.keys (fields g'), ∃ n, N.Has n ∧ key n = x) :
    Tame N (k + 1) (F.call s g') := by
  intro t j ht
  rcases Ghosts.call_cases ht with ⟨_, rfl⟩ | ⟨_, hold⟩ | ⟨_, _, _, _, rfl⟩
  · exact ⟨hlen, hkeys⟩
  · exact ⟨Nat.le_succ_of_le (h t j hold).1, (h t j hold).2⟩
  · exact ⟨Nat.zero_le _, fun x hx => by cases hx⟩

theorem Holds.start (h0 : Zeroed m₀ root) (hs : m₀.script = []) : Holds N root m₀ .empty 0 where
  script := hs
  tree := by
    refine ⟨_, Forest.init h0, fun s g hg => ?_⟩
    obtain ⟨_, rfl⟩ := Option.ite_none_right_eq_some.mp hg |>.imp id Option.some.inj
    exact ⟨Nat.le_refl 0, fun x hx => by cases hx⟩
  shows names _ := by
    have hempty : objectFields m₀ root = [] := (Inv.empty h0).objectFields_eq
    cases names using List.reverseRecOn with
    | nil => rfl
    | append_singleton names n =>
      rw [contents_concat, lookup_empty hempty, Nested.get_empty (by simp)]
      rfl
  named names hne a ha := by
    have hnil : names = [] := by
      by_contra h
      exact hne (Nested.get_empty h)
    rw [hnil] at ha
    cases ha

/-- The object at a path, with its ghost state. -/
theorem Holds.at_path (h : Holds N root m d k) (hpath : slotOf m root path = some s) :
    ∃ F g, Forest root m F ∧ Tame N k F ∧ F s = some g := by
  obtain ⟨F, hF, ht⟩ := h.tree
  obtain ⟨g₀, hg₀⟩ := hF.rooted
  obtain ⟨g, hg⟩ := hF.slotOf hg₀ hpath
  exact ⟨F, g, hF, ht, hg⟩

/-- What the document has under a name is in the object's fields. -/
theorem Holds.find (h : Holds N root m d k) (hN : ∀ a ∈ path, N.Has a) (hn : N.Has n)
    (hpath : slotOf m root path = some s) :
    (Keyed.find (objectFields m s) (key n)).map Field.value = d.get (path ++ [n]) := by
  rw [← h.shows (path ++ [n]) fun a ha => ?_, contents_field hpath]
  rcases List.mem_append.mp ha with ha | ha
  · exact hN a ha
  · rwa [List.mem_singleton.mp ha]

theorem keys_after_set {v : Nat} {y : Value} (hn : N.Has n)
    (hkeys : ∀ x ∈ Keyed.keys (fields g), ∃ a, N.Has a ∧ key a = x)
    (hM : fields g' = Keyed.set (fields g) (key16 n) ⟨v, y⟩) :
    ∀ x ∈ Keyed.keys (fields g'), ∃ a, N.Has a ∧ key a = x := by
  intro x hx
  rw [hM] at hx
  by_cases hm : key16 n ∈ Keyed.keys (fields g)
  · rw [Keyed.keys_set_of_mem hm] at hx
    exact hkeys x hx
  · rw [Keyed.keys_set_of_not_mem hm] at hx
    rcases List.mem_append.mp hx with hx | hx
    · exact hkeys x hx
    · exact ⟨n, hn, by rw [List.mem_singleton.mp hx, key16_eq (N.short n hn)]⟩

theorem length_after_set {v : Nat} {y : Value}
    (hM : fields g' = Keyed.set (fields g) (key16 n) ⟨v, y⟩) :
    (fields g').length ≤ (fields g).length + 1 := by
  rw [hM]
  by_cases hm : key16 n ∈ Keyed.keys (fields g)
  · exact Nat.le_succ_of_le (Nat.le_of_eq (Keyed.length_set_of_mem hm))
  · exact Nat.le_of_eq (Keyed.length_set_of_not_mem hm)

/-- **A set through the slot of a path** puts its value into the document. -/
theorem Holds.set (h : Holds N root m d k) (hk : k < 2 ^ 31) (hN : ∀ a ∈ path, N.Has a)
    (hpath : slotOf m root path = some s) (hc : (WCall.set n x).Within N)
    (hty : ∀ y ∈ d.get (path ++ [n]), y.type = x.value.type) :
    ∃ v m', (x.code s n).run m = .ok (x.done v, m') ∧
      Holds N root m' (d.put (path ++ [n]) x.value
        fun ho => type_object_iff.mp (hty _ ho).symm) (k + 1) ∧
      slotOf m' root path = some s ∧
      (x.value = .object → slotOf m' root (path ++ [n]) = some ⟨v, 0⟩) := by
  obtain ⟨F, g, hF, ht, hg⟩ := h.at_path hpath
  have hI := hF.inv s g hg
  have hkey : key16 n = key n := key16_eq (N.short n hc.1)
  have ho : x.outcome s m (fields g) n = .stored x.value := by
    refine Arg.outcome_granted h.script (fun hfull => ?_) hc.2 fun hm => ?_
    · have hcount := hI.objectCount_eq
      rw [← length_fields] at hcount
      have := (ht s g hg).1
      have hle : objectCap m s ≤ objectCount m s := hfull
      omega
    · obtain ⟨f, hf, hne⟩ := hm
      refine hne (hty f.value ?_)
      rw [← h.find hN hc.1 hpath, hI.objectFields_eq, ← hkey, hf]
      rfl
  have hrun := x.run_outcome n hI
  simp only [ho] at hrun
  obtain ⟨m', _, v₀, hr, -⟩ := hrun
  have hr' : ((WCall.set n x).code s).run m = .ok (x.done v₀, m') := hr
  obtain ⟨g', heff, hl⟩ := call_left hI hr'
  obtain ⟨v, hdone, hM⟩ : ∃ v, x.done v₀ = x.done v ∧
      fields g' = Keyed.set (fields g) (key16 n) ⟨v, x.value⟩ := by
    rcases heff with ⟨hfail, _⟩ | ⟨y, v, hst, hdone, _, _, hM⟩
    · rw [ho] at hfail
      cases hfail
    · obtain rfl : x.value = y := Outcome.stored.inj (ho.symm.trans hst)
      exact ⟨v, hdone, hM⟩
  have hparent : d.get path = some .object := by
    rw [← h.shows path hN]
    exact contents_object_iff.mpr ⟨s, hpath⟩
  have hpath' := slotOf_after_set hF hg hl heff hc hN hpath
  refine ⟨v, m', hdone ▸ hr, ⟨run_script_nil h.script hr, ⟨_, hF.call hg hl, ?_⟩, ?_, ?_⟩, hpath',
    ?_⟩
  · exact ht.call (Nat.le_trans (length_after_set hM) (Nat.succ_le_succ (ht s g hg).1))
      (keys_after_set hc.1 (ht s g hg).2 hM)
  · intro names hnames
    by_cases hne : names = path ++ [n]
    · rw [hne, Nested.get_put_self, contents_set hF hg hl heff hc hN hpath hM]
    · rw [Nested.get_put_of_ne hparent _ hne, ← h.shows names hnames]
      exact contents_after_set hF hg hl heff hc hN hpath hnames hne
  · intro names hne a ha
    by_cases hq : names <+: path ++ [n]
    · rcases List.mem_append.mp (hq.subset ha) with ha | ha
      · exact hN a ha
      · rw [List.mem_singleton.mp ha]
        exact hc.1
    · rw [Nested.get_put_other _ hq] at hne
      exact h.named names hne a ha
  · intro hobj
    refine slotOf_concat_of_find hpath' ?_
    rw [hl.inv.objectFields_eq, hM, hkey, Keyed.find_set_self, hobj]

theorem Holds.set_mismatch (h : Holds N root m d k) (hN : ∀ a ∈ path, N.Has a)
    (hpath : slotOf m root path = some s) (hn : N.Has n)
    (hty : ¬ ∀ y ∈ d.get (path ++ [n]), y.type = x.value.type) :
    (x.code s n).run m = .error (x.mismatch n) := by
  obtain ⟨F, g, hF, -, hg⟩ := h.at_path hpath
  have hI := hF.inv s g hg
  have hrun := x.run_outcome n hI
  rw [Arg.outcome_of_mismatch] at hrun
  · exact hrun
  · rw [key16_eq (N.short n hn), ← hI.objectFields_eq]
    simp only [not_forall] at hty
    obtain ⟨y, hy, hne⟩ := hty
    rw [← h.find hN hn hpath] at hy
    obtain ⟨f, hf, rfl⟩ := Option.map_eq_some_iff.mp hy
    exact ⟨f, hf, hne⟩

/-! ## Brackets -/

theorem ensure_run {v : Nat} (hr : (Arg.object.code s n).run m = .ok (Arg.object.done v, m')) :
    (msmObjectEnsureObject (some s) (some n)).run m = .ok (some ⟨v, 0⟩, m') := by
  obtain ⟨p, m₁, hp, hpure⟩ := Prog.run_of_bind hr
  obtain ⟨rfl, rfl⟩ : p = some ⟨v, 0⟩ ∧ m₁ = m' := by
    simpa [Prog.run, Arg.done] using hpure
  exact hp

theorem ensure_run_error {f : Fault} (hr : (Arg.object.code s n).run m = .error f) :
    (msmObjectEnsureObject (some s) (some n)).run m = .error f := by
  simp only [Arg.code, Prog.run_bind] at hr
  split at hr
  · cases hr
  · rename_i hp
    rw [hp, Except.error.inj hr]

/-- **Brackets make the objects of their path**, or stop at the first value that is
in the way. -/
theorem Holds.brackets (h : Holds N root m d k) (hN : ∀ a ∈ path, N.Has a)
    (hpath : slotOf m root path = some s) (hnames : ∀ a ∈ n :: names, N.Has a)
    (hk : k + names.length < 2 ^ 31) :
    match d.obstacle path (n :: names).dropLast with
    | some a => (brackets ⟨some s, some n⟩ names).run m = .error (Arg.object.mismatch a)
    | none => ∃ t m', (brackets ⟨some s, some n⟩ names).run m =
          .ok (⟨some t, some ((n :: names).getLast (List.cons_ne_nil n names))⟩, m') ∧
        slotOf m' root (path ++ (n :: names).dropLast) = some t ∧
        Holds N root m' (d.put (path ++ (n :: names).dropLast) .object fun _ => rfl)
          (k + names.length) := by
  induction names generalizing n s path m d k with
  | nil =>
    have hput : d.put path .object (fun _ => rfl) = d :=
      Nested.put_of_get (by rw [← h.shows path hN]; exact contents_object_iff.mpr ⟨s, hpath⟩) _
    simp only [List.dropLast_singleton, Nested.obstacle, List.append_nil, hput]
    exact ⟨s, m, rfl, hpath, h⟩
  | cons n' names ih =>
    have hn : N.Has n := hnames n List.mem_cons_self
    have hrest : ∀ a ∈ n' :: names, N.Has a := fun a ha => hnames a (List.mem_cons_of_mem n ha)
    have hN' : ∀ a ∈ path ++ [n], N.Has a := fun a ha => by
      rcases List.mem_append.mp ha with ha | ha
      · exact hN a ha
      · rwa [List.mem_singleton.mp ha]
    have hc : (WCall.set n .object).Within N := ⟨hn, fun hw => hw⟩
    rw [List.dropLast_cons_of_ne_nil (List.cons_ne_nil n' names)]
    rw [List.length_cons] at hk
    by_cases hty : ∀ y ∈ d.get (path ++ [n]), y.type = Arg.object.value.type
    · obtain ⟨v, m₁, hr, hh, -, hslot⟩ := h.set (by omega) hN hpath hc hty
      have hgo : (Api.brackets ⟨some s, some n⟩ (n' :: names)).run m =
          (Api.brackets ⟨some ⟨v, 0⟩, some n'⟩ names).run m₁ :=
        Prog.run_bind_ok (Prog.run_bind_ok (ensure_run hr))
      have hih := ih hh hN' (hslot rfl) hrest (by omega)
      -- what is in the way is what was
      have hobs : (d.put (path ++ [n]) .object fun _ => rfl).obstacle (path ++ [n])
          (n' :: names).dropLast = d.obstacle path (n :: (n' :: names).dropLast) := by
        exact Nested.obstacle_put (fun y hy => type_object_iff.mp (hty y hy)) _ _
      have hobs' : (d.put (path ++ [n]) Arg.object.value fun ho =>
          type_object_iff.mp (hty _ ho).symm).obstacle (path ++ [n]) (n' :: names).dropLast =
            d.obstacle path (n :: (n' :: names).dropLast) := hobs
      rw [hobs'] at hih
      rw [hgo]
      split
      · rename_i a ha
        simp only [ha] at hih
        exact hih
      · rename_i ha
        simp only [ha] at hih
        obtain ⟨t, m', hr', ht, hh'⟩ := hih
        refine ⟨t, m', hr', ?_, ?_⟩
        · rwa [List.append_assoc] at ht
        · have hpp := Nested.put_put_branch (d := d) (q := path ++ [n])
            (p := path ++ [n] ++ (n' :: names).dropLast) (x := .object) (fun _ => rfl)
            (List.prefix_append _ _) (fun _ => rfl) (fun _ => rfl)
          have hh'' : Holds N root m' (d.put (path ++ [n] ++ (n' :: names).dropLast) .object
              fun _ => rfl) (k + 1 + names.length) := hpp ▸ hh'
          rw [List.append_assoc] at hh''
          exact hh''.mono (by rw [List.length_cons]; omega)
    · have hr := ensure_run_error (h.set_mismatch hN hpath hn hty)
      have hobs : d.obstacle path (n :: (n' :: names).dropLast) = some n := by
        simp only [not_forall] at hty
        obtain ⟨y, hy, hne⟩ := hty
        exact Nested.obstacle_of_value hy (fun ho => hne (by rw [ho]; rfl)) _
      rw [hobs]
      show (Api.brackets ⟨some s, some n⟩ (n' :: names)).run m = _
      rw [Api.brackets, Prog.run_bind, ObjectProxy.index, Prog.run_bind, hr]

/-! ## What is done with a proxy -/

theorem countChars_eq (bs : List UInt8) (len : UInt32) :
    countChars bs len = len + UInt32.ofNat bs.length := by
  induction bs generalizing len with
  | nil => simp [countChars]
  | cons b bs ih =>
    rw [countChars, ih, List.length_cons, Nat.add_comm bs.length 1, UInt32.ofNat_add,
      ← UInt32.add_assoc]
    rfl

/-- An assignment is a set of the object API whose result is dropped. -/
theorem assign_set (v : ProxyArg)
    (hfits : ∀ s, v = .string (some s) → s.bytes.length + 1 < 2 ^ 32) :
    ∃ x : Arg, x.value = assigned v ∧ ¬ x.value.Wraps ∧
      (∀ n, x.mismatch n = .aborted "[msm_object] FATAL: type mismatch for '%s'\n" n.bytes) ∧
      ∀ (s : Addr) (n : CStr), ObjectProxy.assign ⟨some s, some n⟩ v =
        (x.code s n >>= fun _ => pure ()) := by
  cases v with
  | int32 v =>
    refine ⟨.int32 v, rfl, fun h => h, fun _ => rfl, fun s n => ?_⟩
    simp only [ObjectProxy.assign, Arg.code, Prog.bind_assoc, Prog.pure_eq, Prog.ret_bind]
  | int64 v =>
    refine ⟨.int64 v, rfl, fun h => h, fun _ => rfl, fun s n => ?_⟩
    simp only [ObjectProxy.assign, Arg.code, Prog.bind_assoc, Prog.pure_eq, Prog.ret_bind]
  | float64 v =>
    refine ⟨.float64 v, rfl, fun h => h, fun _ => rfl, fun s n => ?_⟩
    simp only [ObjectProxy.assign, Arg.code, Prog.bind_assoc, Prog.pure_eq, Prog.ret_bind]
  | bool v =>
    refine ⟨.bool (if v then 1 else 0), ?_, fun h => h, fun _ => rfl, fun s n => ?_⟩
    · cases v with
      | true => rfl
      | false => rfl
    · simp only [ObjectProxy.assign, Arg.code, Prog.bind_assoc, Prog.pure_eq, Prog.ret_bind]
  | string v =>
    cases v with
    | none =>
      refine ⟨.nullString 0, rfl, (by decide : ¬ (Value.string []).Wraps), fun _ => rfl,
        fun s n => ?_⟩
      simp only [ObjectProxy.assign, Arg.code, Prog.bind_assoc, Prog.pure_eq, Prog.ret_bind]
    | some v =>
      have hlt := hfits v rfl
      refine ⟨.string v.bytes (by omega), rfl, fun h => absurd h (Nat.ne_of_lt hlt), fun _ => rfl,
        fun s n => ?_⟩
      simp only [ObjectProxy.assign, Arg.code, Prog.bind_assoc, Prog.pure_eq, Prog.ret_bind,
        countChars_eq, UInt32.zero_add]

/-- A read gives what the object's fields say, and changes nothing. -/
theorem read_shows (hI : Inv s m g) (n : CStr) (r : ProxyRead) :
    ∃ v, (r.code ⟨some s, some n⟩).run m = .ok (v, m) ∧ (Got.value v).Shows m
      (readReply r ((Keyed.find (objectFields m s) (key16 n)).map Field.value)) := by
  have hpure {β : Type} {p : CProg β} {f : β → Answer CharPtr} {a : Answer (List UInt8)}
      (h : ∃ r, (p >>= fun x => pure (f x)).run m = .ok (r, m) ∧ r.Shows m a) :
      ∃ x, p.run m = .ok (x, m) ∧ (f x).Shows m a := by
    obtain ⟨r, hr, hshow⟩ := h
    obtain ⟨x, m₁, hp, hf⟩ := Prog.run_of_bind hr
    obtain ⟨rfl, rfl⟩ : f x = r ∧ m₁ = m := by simpa [Prog.run] using hf
    exact ⟨x, hp, hshow⟩
  generalize hf : Keyed.find (objectFields m s) (key16 n) = f
  have hquery (q : Query) : ∃ r : Answer CharPtr, (q.code s n).run m = .ok (r, m) ∧
      r.Shows m (q.answer f) := run_query hI (by rw [hf])
  cases r with
  | asInt32 =>
    obtain ⟨x, hx, hshow⟩ := hpure (hquery .int32)
    refine ⟨.int32 x, Prog.run_bind_ok hx, ?_⟩
    obtain _ | ⟨w, y | y | _⟩ := f
    · exact hshow
    · cases y <;> exact hshow
    · exact hshow
    · exact hshow
  | asInt64 =>
    obtain ⟨x, hx, hshow⟩ := hpure (hquery .int64)
    refine ⟨.int64 x, Prog.run_bind_ok hx, ?_⟩
    obtain _ | ⟨w, y | y | _⟩ := f
    · exact hshow
    · cases y <;> exact hshow
    · exact hshow
    · exact hshow
  | asFloat64 =>
    obtain ⟨x, hx, hshow⟩ := hpure (hquery .float64)
    refine ⟨.float64 x, Prog.run_bind_ok hx, ?_⟩
    obtain _ | ⟨w, y | y | _⟩ := f
    · exact hshow
    · cases y <;> exact hshow
    · exact hshow
    · exact hshow
  | asBool =>
    obtain ⟨x, hx, hshow⟩ := hpure (hquery .bool)
    refine ⟨.bool (x ≠ 0), Prog.run_bind_ok (Prog.run_bind_ok hx), ?_⟩
    have hx0 {v : Int32} (h : x = v) : decide (x ≠ 0) = decide (v ≠ 0) := by rw [h]
    obtain _ | ⟨w, y | y | _⟩ := f
    · exact hx0 hshow
    · cases y <;> exact hx0 hshow
    · exact hx0 hshow
    · exact hx0 hshow
  | asString =>
    obtain ⟨x, hx, hshow⟩ := hpure (hquery .string)
    refine ⟨.string x, Prog.run_bind_ok hx, ?_⟩
    obtain _ | ⟨w, y | y | _⟩ := f
    · exact hshow
    · cases y <;> exact hshow
    · exact hshow
    · exact hshow
  | typeId =>
    obtain ⟨x, hx, hshow⟩ := hpure (hquery .type)
    refine ⟨.type x, Prog.run_bind_ok hx, ?_⟩
    cases f with
    | none => exact hshow
    | some f => exact hshow
  | hasField =>
    obtain ⟨x, hx, hshow⟩ := hpure (hquery .has)
    refine ⟨.bool (x ≠ 0), Prog.run_bind_ok (Prog.run_bind_ok hx), ?_⟩
    cases f with
    | none =>
      obtain rfl : x = 0 := hshow
      rfl
    | some f =>
      obtain rfl : x = 1 := hshow
      rfl

/-- The code of a use, from the proxy on. -/
def Use.code (p : ObjectProxy) : Use → CProg Got
  | .assign v => do
    p.assign v
    pure .nothing
  | .read r => do
    let v ← r.code p
    pure (.value v)
  | .remove => do
    let b ← objectRemove p.objPtr p.name
    pure (.removed b)
  | .count => do
    let n ← objectFieldCount p.objPtr
    pure (.count n)

theorem Statement.code_eq (root : Ptr) (st : Statement) :
    st.code root =
      (Api.brackets (objectIndex root st.name) st.names >>= fun p => st.use.code p) := by
  cases hu : st.use <;>
    simp only [Statement.code, hu, Use.code, writeBrackets, readBrackets, removeBrackets,
      countBrackets, bind_assoc]

theorem count_run (hI : Inv s m g) :
    (objectFieldCount (some s)).run m = .ok (UInt32.ofNat (fields g).length, m) := by
  obtain ⟨r, hr, hshow⟩ := hI.sees_count
  obtain ⟨x, m₁, hx, hp⟩ := Prog.run_of_bind hr
  obtain ⟨rfl, rfl⟩ : Answer.count x = r ∧ m₁ = m := by simpa [Prog.run] using hp
  obtain rfl : x = UInt32.ofNat (fields g).length := hshow
  exact hx

/-- The fields of an object are the names under its path. -/
theorem Holds.fieldCount (h : Holds N root m d k) (hN : ∀ a ∈ path, N.Has a)
    (hpath : slotOf m root path = some s) (hI : Inv s m g)
    (hkeys : ∀ x ∈ Keyed.keys (fields g), ∃ a, N.Has a ∧ key a = x) :
    (fields g).length = d.fieldCount path := by
  have hmem (a : CStr) (ha : d.get (path ++ [a]) ≠ none) : N.Has a := h.named _ ha a (by simp)
  have hiff (a : CStr) (ha : N.Has a) :
      d.get (path ++ [a]) ≠ none ↔ key a ∈ Keyed.keys (fields g) := by
    rw [← h.find hN ha hpath, hI.objectFields_eq, Ne, Option.map_eq_none_iff,
      Keyed.find_eq_none_iff, not_not]
  have himage : key '' {a | d.get (path ++ [a]) ≠ none} = ↑(Keyed.keys (fields g)).toFinset := by
    refine Set.ext fun x => ?_
    rw [Finset.mem_coe, List.mem_toFinset]
    constructor
    · rintro ⟨a, ha, rfl⟩
      exact (hiff a (hmem a ha)).mp ha
    · intro hx
      obtain ⟨a, ha, rfl⟩ := hkeys x hx
      exact ⟨a, (hiff a ha).mpr hx, rfl⟩
  have hinj : Set.InjOn key {a | d.get (path ++ [a]) ≠ none} :=
    fun a ha b hb he => N.inj a b (hmem a ha) (hmem b hb) he
  have hnodup : (Keyed.keys (fields g)).Nodup := hI.fields_distinct
  rw [Document.fieldCount, ← hinj.ncard_image, himage, Set.ncard_coe_finset,
    List.toFinset_card_of_nodup hnodup, Keyed.keys, List.length_map]

/-- A remove through the slot of a path erases from the document. -/
theorem Holds.remove (h : Holds N root m d k) (hN : ∀ a ∈ path, N.Has a) (hn : N.Has n)
    (hpath : slotOf m root path = some s) :
    ∃ m', (objectRemove (some s) (some n)).run m = .ok ((d.get (path ++ [n])).isSome, m') ∧
      Holds N root m' (d.erase (path ++ [n]) (by simp)) k := by
  obtain ⟨F, g, hF, ht, hg⟩ := h.at_path hpath
  have hI := hF.inv s g hg
  obtain ⟨r, m', g₁, hr, -, -⟩ := remove_run n hI
  obtain ⟨g', heff, hl⟩ := call_left hI hr
  have hmalloc : m.mallocOk = true := by
    rw [Mem.mallocOk_eq, Mem.outcome, h.script]
    rfl
  have hfind := h.find hN hn hpath
  rw [hI.objectFields_eq] at hfind
  -- a remove of what is not there removes nothing
  obtain ⟨hr0, hM⟩ : r = (if key n ∈ Keyed.keys (fields g) then 0 else -1) ∧
      fields g' = Keyed.remove (fields g) (key n) := by
    simp only [Effect, hmalloc, implies_true, and_true] at heff
    split at heff
    · rename_i hm
      rw [if_pos hm]
      exact ⟨WVal.status.inj heff.1, heff.2⟩
    · rename_i hm
      rw [if_neg hm, heff.2, Keyed.remove_of_not_mem hm]
      exact ⟨WVal.status.inj heff.1, rfl⟩
  have hcode : (objectRemove (some s) (some n)).run m = .ok (decide (r = 0), m') := by
    obtain ⟨x, m₁, hx, hp⟩ := Prog.run_of_bind hr
    obtain ⟨rfl, rfl⟩ : x = r ∧ m₁ = m' := by simpa [Prog.run] using hp
    exact Prog.run_bind_ok hx
  have hres : decide (r = 0) = (d.get (path ++ [n])).isSome := by
    rw [hr0, ← hfind]
    by_cases hm : key n ∈ Keyed.keys (fields g)
    · obtain ⟨f, hf⟩ := Option.ne_none_iff_exists'.mp fun hnone =>
        Keyed.find_eq_none_iff.mp hnone hm
      rw [if_pos hm, hf]
      rfl
    · rw [if_neg hm, Keyed.find_eq_none_iff.mpr hm]
      rfl
  have hsub {x : UInt64} (hx : x ∈ Keyed.keys (fields g')) : x ∈ Keyed.keys (fields g) := by
    rw [hM, Keyed.keys_remove] at hx
    exact (List.mem_filter.mp hx).1
  refine ⟨m', hres ▸ hcode, run_script_nil h.script hr, ⟨_, hF.call hg hl, ?_⟩, ?_, ?_⟩
  · intro t j hj
    rcases Ghosts.call_cases hj with ⟨_, rfl⟩ | ⟨_, hold⟩ | ⟨_, _, _, _, rfl⟩
    · refine ⟨Nat.le_trans ?_ (ht s g hg).1, fun x hx => (ht s g hg).2 x (hsub hx)⟩
      rw [hM]
      exact List.length_filter_le _ _
    · exact ht t j hold
    · exact ⟨Nat.zero_le _, fun x hx => by cases hx⟩
  · intro names hnames
    rw [contents_after_remove hF hg hl hM heff hn hN hpath hnames, h.shows names hnames]
    rfl
  · intro names hne
    by_cases hpre : path ++ [n] <+: names
    · exact absurd (Nested.get_erase_self _ hpre) hne
    · rw [Nested.get_erase_other _ hpre] at hne
      exact h.named names hne

/-- **A use of a proxy** does to the document what it means. -/
theorem Holds.use (h : Holds N root m d k) (hk : k < 2 ^ 31) (hN : ∀ a ∈ path, N.Has a)
    (hn : N.Has n) (hpath : slotOf m root path = some s) (u : Use)
    (hfits : ∀ v, u = .assign (.string (some v)) → v.bytes.length + 1 < 2 ^ 32) :
    Does Got.Shows (fun m' d' => Holds N root m' d' (k + 1)) ((u.code ⟨some s, some n⟩).run m)
      (u.meaning d path n) := by
  cases u with
  | assign v =>
    obtain ⟨x, hx, hw, hmis, hcode⟩ := assign_set v fun s hs => hfits s (by rw [hs])
    simp only [Use.meaning, Document.set, ← hx, Use.code, hcode s n]
    by_cases hty : ∀ y ∈ d.get (path ++ [n]), y.type = x.value.type
    · obtain ⟨w, m', hr, hh, -⟩ := h.set hk hN hpath ⟨hn, hw⟩ hty
      rw [dif_pos hty]
      exact ⟨.nothing, m', Prog.run_bind_ok (Prog.run_bind_ok hr), trivial, hh⟩
    · rw [dif_neg hty]
      show ((x.code s n >>= fun _ => pure ()) >>= fun _ => pure Got.nothing).run m = _
      rw [Prog.run_bind, Prog.run_bind, h.set_mismatch hN hpath hn hty, hmis]
  | read r =>
    obtain ⟨F, g, hF, -, hg⟩ := h.at_path hpath
    obtain ⟨v, hr, hshow⟩ := read_shows (hF.inv s g hg) n r
    rw [key16_eq (N.short n hn), h.find hN hn hpath] at hshow
    exact ⟨.value v, m, Prog.run_bind_ok hr, hshow, h.mono (Nat.le_succ k)⟩
  | remove =>
    obtain ⟨m', hr, hh⟩ := h.remove hN hn hpath
    exact ⟨.removed _, m', Prog.run_bind_ok hr, rfl, hh.mono (Nat.le_succ k)⟩
  | count =>
    obtain ⟨F, g, hF, ht, hg⟩ := h.at_path hpath
    have hI := hF.inv s g hg
    refine ⟨.count _, m, Prog.run_bind_ok (count_run hI), ?_, h.mono (Nat.le_succ k)⟩
    exact congrArg UInt32.ofNat (h.fieldCount hN hpath hI (ht s g hg).2)

/-! ## Runs -/

/-- The calls a statement makes on objects: one a name. -/
def Statement.size (st : Statement) : Nat := st.path.length

/-- The brackets of all statements. -/
def sizes (sts : List Statement) : Nat := (sts.map Statement.size).sum

theorem sizes_append (sts : List Statement) (st : Statement) :
    sizes (sts ++ [st]) = sizes sts + st.size := by simp [sizes]

/-- **One statement** does to the document what it means. -/
theorem Holds.statement (h : Holds N root m d k) {st : Statement} (hst : st.Within N)
    (hk : k + st.size < 2 ^ 31) :
    Does Got.Shows (fun m' d' => Holds N root m' d' (k + st.size))
      ((st.code (some root)).run m) (st.meaning d) := by
  have hlen : st.size = st.names.length + 1 := rfl
  have hbr := h.brackets (fun a (ha : a ∈ []) => by cases ha) rfl hst.named (by omega)
  simp only [List.nil_append] at hbr
  have henter : d.enter st.path = match d.obstacle [] (st.name :: st.names).dropLast with
    | some n => .error (Arg.object.mismatch n)
    | none => .ok (d.put (st.name :: st.names).dropLast .object fun _ => rfl) := rfl
  rw [Statement.meaning, henter, Statement.code_eq]
  cases hobs : d.obstacle [] (st.name :: st.names).dropLast with
  | some n =>
    simp only [hobs] at hbr
    show (Api.brackets (objectIndex (some root) st.name) st.names >>= _).run m = .error _
    rw [Prog.run_bind, objectIndex, hbr]
  | none =>
    simp only [hobs] at hbr
    obtain ⟨t, m₁, hr, hpath, hh⟩ := hbr
    have huse := hh.use (by omega) (fun a ha => hst.named a (List.mem_of_mem_dropLast ha))
      (hst.named st.last (List.getLast_mem _)) hpath st.use hst.fits
    exact .of_bind hr huse

/-- Statements of the vocabulary, with fewer than 2^31 brackets in all. -/
theorem allowed_of_sizes {sts done : List Statement} (hN : ∀ st ∈ sts, st.Within N)
    (hk : sizes (done ++ sts) < 2 ^ 31) :
    Allowed Statement.meaning (fun done _ st => st.Within N ∧ sizes done + st.size < 2 ^ 31) done d
      sts := by
  induction sts generalizing done d with
  | nil => exact trivial
  | cons st sts ih =>
    have hle : sizes (done ++ st :: sts) = sizes done + st.size + sizes sts := by
      simp [sizes, Nat.add_assoc]
    refine ⟨⟨hN st List.mem_cons_self, by omega⟩, fun r d' _ => ?_⟩
    refine ih (fun st' h => hN st' (List.mem_cons_of_mem st h)) ?_
    rwa [List.append_assoc]

/-- **A program in brackets is a program on a document.** From a zeroed slot, with
memory for all and fewer than 2^31 brackets, in every state that statements reach
the tree holds the document they mean; and any next statement returns what its
meaning says and leaves the tree with the document it means, or ends the process
with the diagnostic its meaning says. -/
theorem statements_refine_document (h0 : Zeroed m₀ root) (hs : m₀.script = [])
    {sts : List Statement} (hr : Ran (fun st => (Statement.code (some root) st).run) m₀ sts m)
    (hN : ∀ st ∈ sts, st.Within N) (hk : sizes sts < 2 ^ 31) :
    ∃ d, after Statement.meaning (.empty : Document) sts = .ok d ∧ Agrees N root m d ∧
      ∀ st : Statement, st.Within N → sizes sts + st.size < 2 ^ 31 →
        Does Got.Shows (Agrees N root) ((st.code (some root)).run m) (st.meaning d) := by
  have hstart : Holds N root m₀ .empty (sizes []) := .start h0 hs
  obtain ⟨d, hd, hh⟩ := hr.refines (R := fun sts m d => Holds N root m d (sizes sts)) hstart
    (fun sts m d st hh hst => by
      rw [sizes_append]
      exact hh.statement hst.1 hst.2) (allowed_of_sizes hN hk)
  refine ⟨d, hd, hh.shows, fun st hst hlt => ?_⟩
  exact (hh.statement hst hlt).mono (fun _ _ _ => id) fun _ _ h => h.shows

end holds

/-! `obj["a"]["b"] = 7` on a zeroed slot, and then a read of `obj["a"]["b"]`. -/

def assignNested : Statement := ⟨nameA, [nameB], .assign (.int32 7)⟩

theorem assignNested_within : assignNested.Within twoNames where
  named a ha := by
    rcases List.mem_cons.mp ha with rfl | ha
    · exact .inl rfl
    · exact .inr (List.mem_singleton.mp ha)
  fits s hs := by cases hs

theorem assignNested_ran : ∃ m,
    Ran (fun st => (Statement.code (some ⟨0, 0⟩) st).run) zeroedSlot [assignNested] m :=
  ⟨_, .one rfl⟩

theorem statements_refine_document_nested : ∃ m d,
    Ran (fun st => (Statement.code (some ⟨0, 0⟩) st).run) zeroedSlot [assignNested] m ∧
    contents m ⟨0, 0⟩ [nameA, nameB] = d.get [nameA, nameB] ∧
    Does Got.Shows (Agrees twoNames ⟨0, 0⟩)
      ((Statement.code (some ⟨0, 0⟩) ⟨nameA, [nameB], .read .asInt32⟩).run m)
      (Statement.meaning d ⟨nameA, [nameB], .read .asInt32⟩) := by
  obtain ⟨m, hm⟩ := assignNested_ran
  obtain ⟨d, _, hshows, hnext⟩ :=
    statements_refine_document (N := twoNames) zeroedSlot_zeroed rfl hm
    (fun st hst => by
      rw [List.mem_singleton.mp hst]
      exact assignNested_within) (by decide)
  refine ⟨m, d, hm, hshows _ assignNested_within.named, hnext _ ⟨assignNested_within.named, ?_⟩ ?_⟩
  · intro s hs
    cases hs
  · decide

end Msm.Tree
