import Msm.Str.Reads

/-! # Setting a string, for every 32-bit length

`msm_string_set` called on any slot, with any bytes and either outcome of its
allocation: where it writes, and what the slot holds after it. The source may be
anywhere, the slot's own buffer included. The one length that goes wrong is
2^32 - 1, whose buffer size is computed in 32 bits. -/
namespace Msm.Str
open Msm.Exec Msm.CMem Msm.Api

theorem msmStringLength_only (slot : Addr) : (msmStringLength (some slot)).Only Act.IsRead := by
  simp only [msmStringLength, reduceCtorEq, if_false, atomicLoadPtr, strBufLen, atomicLoadU32]
  refine ⟨trivial, fun q => ?_⟩
  cases q with
  | none => trivial
  | some b => exact ⟨trivial, fun _ => trivial⟩

/-- The slot shows `bs`: their number, and the bytes themselves with a NUL after them. -/
structure Shows (slot : Addr) (m : Mem) (bs : List UInt8) : Prop where
  length : returned (msmStringLength (some slot)) m = .ok (UInt32.ofNat bs.length)
  chars : ∃ p, returned (msmStringGet (some slot)) m = .ok p ∧
    ∀ i c, (bs ++ [0])[i]? = some c → returned (readChar p i) m = .ok c

/-- The slot shows what it showed in memory `m`. -/
structure Same (slot : Addr) (m m' : Mem) : Prop where
  length : returned (msmStringLength (some slot)) m' = returned (msmStringLength (some slot)) m
  get : returned (msmStringGet (some slot)) m' = returned (msmStringGet (some slot)) m
  bytes : ∀ b o, m'.cellAt b o = m.cellAt b o

/-- A write of a call that began in memory `m` lies inside a block the call has
allocated, or is the store of the slot's pointer. -/
def Inside (slot : Addr) (m s : Mem) (a : Act) : Prop :=
  ∀ x n, a.range = some (x, n) → (m.next ≤ x.block ∧ s.Valid x n) ∨ (x = slot + 8 ∧ n = 8)

/-- The call writes inside its own buffer, and sets the string or, when its
allocation fails, leaves it. -/
def SetExact (slot : Addr) (m : Mem) (str : CharPtr) (bs : List UInt8) : Prop :=
  let call := msmStringSet (some slot) str (UInt32.ofNat bs.length)
  (call.Along fun h a => ∀ s ∈ h.getLast?, Inside slot m s a) [] m ∧
    ∃ m', call.run m = .ok ((), m') ∧
      if bs = [] ∨ m.mallocOk then Shows slot m' bs else Same slot m m'

/-! ## What the slot shows afterwards -/

theorem shows_null {slot : Addr} {m : Mem} (hp : m.load .ptr (slot + 8) = some none) :
    Shows slot m [] where
  length := by
    simp [returned, msmStringLength, atomicLoadPtr, Prog.run, Mem.exec_load hp, Except.map]
  chars := by
    refine ⟨.own [], ?_, ?_⟩
    · simp [returned, msmStringGet, atomicLoadPtr, Prog.run, Mem.exec_load hp, Except.map]
    · intro i c hi
      simp only [readChar, hi, returned, Prog.pure_eq, Prog.run, Except.map, Option.getD_some]

theorem StrAt.shows {slot : Addr} {m : Mem} {s : Nat} {bs : List UInt8}
    (h : StrAt m s (bs.map .byte)) (hp : m.load .ptr (slot + 8) = some (some ⟨s, 0⟩)) :
    Shows slot m bs where
  length := by
    have hlen := h.len
    rw [List.length_map] at hlen
    simp [returned, msmStringLength, atomicLoadPtr, strBufLen, atomicLoadU32, loadU32, Prog.run,
      Mem.exec_load hp, Mem.exec_load hlen, Except.map]
  chars := by
    refine ⟨.shared ⟨s, 8⟩, ?_, ?_⟩
    · have hne := h.len_ne_zero
      simp only [returned, msmStringGet, atomicLoadPtr, strBufLen, atomicLoadU32, loadPtr_bind,
        loadU32_bind, Ptr.some_add, reduceCtorEq, if_false, Prog.run, Mem.exec_load hp,
        Mem.exec_load h.len, if_neg hne]
      rfl
    · intro i c hi
      have hload := Mem.exec_load (o := .plain) (h.load_byte hi)
      simp only [returned, readChar, loadU8, Addr.mk_add, Prog.run, hload]
      rfl

theorem same_tick (slot : Addr) (m : Mem) : Same slot m m.tick where
  length := returned_tick (msmStringLength_only slot) m
  get := returned_tick (msmStringGet_only slot) m
  bytes _ _ := rfl

/-! ## The call -/

section call
variable {slot : Addr} {m : Mem} {str : CharPtr} {bs : List UInt8}

/-- One step of the call, as a move of the calculus without ghost state. -/
abbrev Moves (slot : Addr) (m : Mem) (_ : Unit) (s : Mem) (a : Act) (_ : Mem) (_ : Unit) : Prop :=
  Inside slot m s a

theorem inside_fresh : FreshOk (Moves slot m) () m.next := by
  intro s a s' r _ ha he x n hx
  obtain ⟨cs, _, hv, _⟩ := Mem.exec_write hx he
  refine .inl ⟨?_, hv⟩
  cases a with
  | store o k p v => obtain ⟨y, rfl, hy⟩ := ha; cases hx; exact hy
  | copyIn p cs => obtain ⟨y, rfl, hy⟩ := ha; cases hx; exact hy
  | memcpy dst src n => obtain ⟨y, rfl, hy⟩ := ha; cases hx; exact hy
  | zero p n => obtain ⟨y, rfl, hy⟩ := ha; cases hx; exact hy
  | _ => cases hx

/-- The store of the slot's pointer, the commit point. -/
theorem publish_safe {F : Fault → Mem → Unit → Prop} {Q : Unit → Mem → Unit → Prop} {m' : Mem}
    {p : Ptr} (hv : m'.Valid (slot + 8) 8)
    (hQ : Q () (m'.write (slot + 8) (Kind.ptr.encode p)) ()) :
    (atomicStorePtr (some (slot + 8)) p .release).Safe (Moves slot m) F Q m' () :=
  Prog.safe_act () (Mem.exec_store (k := .ptr) hv) (fun x n hx => by cases hx; exact .inr ⟨rfl, rfl⟩)
    hQ

theorem msmStringSet_exact (hv : m.Valid slot 16) (hlen : bs.length < 2 ^ 32)
    (hsrc : bs ≠ [] → Source m str (bs.map .byte)) :
    (msmStringSet (some slot) str (UInt32.ofNat bs.length)).Safe (Moves slot m)
      (fun _ _ _ => bs.length + 1 = 2 ^ 32 ∧ m.mallocOk = true)
      (fun _ m' _ => if bs = [] ∨ m.mallocOk then Shows slot m' bs else Same slot m m') m () := by
  have hv8 : m.Valid (slot + 8) Kind.ptr.size := hv.mono (by simp [Kind.size])
  refine msmStringSet_safe inside_fresh hlen hsrc ?_ ?_ (fun hwide hm _ => ⟨hwide, hm⟩) ?_
  · intro hnil
    subst hnil
    refine publish_safe hv8 ?_
    rw [if_pos (.inl rfl)]
    exact shows_null (Mem.load_write_same (k := .ptr) none hv8)
  · intro hne hm
    rw [if_neg (by simp [hne, hm])]
    exact same_tick slot m
  · intro m' _ hk _ hs hm
    have hv' : m'.Valid (slot + 8) Kind.ptr.size := hk.valid hv8
    refine publish_safe hv' ?_
    rw [if_pos (.inr hm)]
    have hne : slot.block ≠ m.next := by have := hv.lt; omega
    have hs' : StrAt (m'.write (slot + 8) (Kind.ptr.encode (some ⟨m.next, 0⟩))) m.next
        (bs.map .byte) :=
      hs.congr (Mem.sizeOf_write ..) fun o _ => Mem.cellAt_write_of_not fun h => hne h.1
    exact hs'.shows (Mem.load_write_same (k := .ptr) _ hv')

theorem setExact_of_fits (hv : m.Valid slot 16) (hlen : bs.length < 2 ^ 32)
    (hsrc : bs ≠ [] → Source m str (bs.map .byte))
    (hok : ¬ (bs.length + 1 = 2 ^ 32 ∧ m.mallocOk = true)) : SetExact slot m str bs := by
  have hsafe := msmStringSet_exact hv hlen hsrc
  refine ⟨(hsafe.along (I := fun _ _ _ => True) (fun _ _ _ _ _ _ _ _ => trivial) ?_ trivial).1, ?_⟩
  · intro h s g a s' g' _ ht s₁ hs₁
    rw [List.getLast?_append, List.getLast?_singleton] at hs₁
    cases hs₁
    exact ht
  · obtain ⟨x, m', g', hr, hq⟩ := (hsafe.mono (fun _ _ _ _ _ => id) (fun _ _ _ => hok)
      fun _ _ _ => id).run_total
    exact ⟨m', hr, hq⟩

/-- The call does not return when its buffer's size wraps. -/
theorem not_setExact_of_wraps (hlen : bs.length + 1 = 2 ^ 32) (hm : m.mallocOk = true)
    (hsrc : Source m str (bs.map .byte)) : ¬ SetExact slot m str bs := by
  rintro ⟨_, m', hr, _⟩
  have hnil : bs ≠ [] := by rintro rfl; simp at hlen
  have hsafe : (msmStringSet (some slot) str (UInt32.ofNat bs.length)).Safe (fun _ _ _ _ _ => True)
      (fun _ _ _ => True) (fun _ _ _ => False) m () := by
    refine msmStringSet_safe (fun _ _ _ _ _ _ _ => trivial) (by omega) (fun _ => hsrc)
      (fun h => absurd h hnil) ?_ (fun _ _ _ => trivial) ?_
    · intro _ hm'
      rw [hm] at hm'
      cases hm'
    · intro m' _ _ _ hs _
      have := hs.lt
      rw [List.length_map] at this
      omega
  obtain ⟨_, hfalse, _⟩ := hsafe.run_ok hr
  exact hfalse

/-- **Setting a string is bounds-safe and exact except at the top length.** From
any slot, with any source and either outcome of the allocation: the call writes
inside the buffer it has allocated and then shows the new string, or leaves the
old one when the allocation fails, except for a string of 2^32 - 1 bytes whose
allocation succeeds. -/
theorem string_set_exact_iff (hv : m.Valid slot 16) (hlen : bs.length < 2 ^ 32)
    (hsrc : bs ≠ [] → Source m str (bs.map .byte)) :
    SetExact slot m str bs ↔ ¬ (bs.length = 2 ^ 32 - 1 ∧ m.mallocOk = true) := by
  constructor
  · intro h hwide
    have hnil : bs ≠ [] := by rintro rfl; simp at hwide
    exact not_setExact_of_wraps (by omega) hwide.2 (hsrc hnil) h
  · intro h
    exact setExact_of_fits hv hlen hsrc fun hwide => h ⟨by omega, hwide.2⟩

end call

theorem string_set_exact_iff_a : SetExact ⟨0, 0⟩ zeroedSlot (.own [97]) [97] := by
  refine (string_set_exact_iff (by decide) (by decide) ?_).mpr ?_
  · exact fun _ => rfl
  · exact fun h => absurd h.1 (by decide)

/-- The longest string a 32-bit length can name. -/
def longest : List UInt8 := List.replicate (2 ^ 32 - 1) 97

theorem length_longest : longest.length = 2 ^ 32 - 1 := List.length_replicate

theorem longest_string_overflows : longest.length < 2 ^ 32 ∧ zeroedSlot.Valid ⟨0, 0⟩ 16 ∧
    ¬ SetExact ⟨0, 0⟩ zeroedSlot (.own longest) longest := by
  have hlen := length_longest
  generalize longest = bs at hlen
  exact ⟨by omega, by decide, not_setExact_of_wraps (by omega) rfl rfl⟩

end Msm.Str
