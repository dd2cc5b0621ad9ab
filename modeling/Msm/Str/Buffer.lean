import Mathlib.Data.List.TakeDrop
import Msm.CMem.Published
import Msm.Api.Strings

/-! # A complete string buffer, and how one is built

`StrAt` is a string buffer as a reader may find it: length, capacity, the data
and its terminator. `strBufNew` builds one in a fresh block, whatever the moves
of the caller's contract are, since it touches nothing else. -/
namespace Msm.Str
open Msm.Exec Msm.CMem Msm.Api

structure StrAt (m : Mem) (s : Nat) (cs : List Cell) : Prop where
  size : m.sizeOf s = some (8 + (cs.length + 1))
  pos : 0 < cs.length
  lt : cs.length + 1 < 2 ^ 32
  len : m.load .u32 ⟨s, 0⟩ = some (UInt32.ofNat cs.length)
  cap : m.load .u32 ⟨s, 4⟩ = some (UInt32.ofNat (cs.length + 1))
  data : m.read ⟨s, 8⟩ (cs.length + 1) = cs ++ [.byte 0]

/-- The bytes a `memcpy(data, str, n)` copies. -/
def Source (m : Mem) (str : CharPtr) (cs : List Cell) : Prop :=
  match str with
  | .null => False
  | .own bs => cs = bs.map .byte
  | .shared a => m.Valid a cs.length ∧ m.read a cs.length = cs

theorem StrAt.congr {m m' : Mem} {s : Nat} {cs : List Cell} (h : StrAt m s cs)
    (hs : m'.sizeOf s = m.sizeOf s)
    (hc : ∀ o, o < 8 + (cs.length + 1) → m'.cellAt s o = m.cellAt s o) : StrAt m' s cs where
  size := hs.trans h.size
  pos := h.pos
  lt := h.lt
  len := (Mem.load_congr hs fun o _ ho => hc o (by simp [Kind.size] at ho; omega)).trans h.len
  cap := (Mem.load_congr hs fun o _ ho => hc o (by simp [Kind.size] at ho; omega)).trans h.cap
  data := (Mem.read_congr fun o _ ho => hc o (by simpa using ho)).trans h.data

theorem StrAt.len_ne_zero {m : Mem} {s : Nat} {cs : List Cell} (h : StrAt m s cs) :
    UInt32.ofNat cs.length ≠ 0 := by
  have h1 := h.pos
  have h2 := h.lt
  intro h0
  have := congrArg UInt32.toNat h0
  simp only [UInt32.toNat_ofNat', UInt32.toNat_zero] at this
  omega

/-! ## The string a slot holds -/

/-- The numbers among some bytes. -/
def numbers (cs : List Cell) : List UInt8 :=
  cs.filterMap fun | .byte b => some b | _ => none

theorem numbers_map_byte (bs : List UInt8) : numbers (bs.map .byte) = bs := by
  simp [numbers, List.filterMap_map]

/-- The value of a string slot: the data of its buffer, nothing when it is null. -/
def stringValue (m : Mem) (slot : Addr) : List UInt8 :=
  match m.load .ptr (slot + 8) with
  | some (some b) => match m.load .u32 b with
    | some len => numbers (m.read (b + 8) len.toNat)
    | none => []
  | _ => []

theorem StrAt.chars {m : Mem} {s : Nat} {cs : List Cell} (h : StrAt m s cs) :
    m.read ⟨s, 8⟩ cs.length = cs := by
  have hd := h.data
  rw [Mem.read_add] at hd
  exact (List.append_inj hd (by simp [Mem.length_read])).1

/-- The byte a reader finds at position `i`, the terminator included. -/
theorem StrAt.load_byte {m : Mem} {s : Nat} {bs : List UInt8} (h : StrAt m s (bs.map .byte))
    {i : Nat} {c : UInt8} (hi : (bs ++ [0])[i]? = some c) : m.load .u8 ⟨s, 8 + i⟩ = some c := by
  have hlt : i < bs.length + 1 := by
    have := (List.getElem?_eq_some_iff.mp hi).1
    simpa using this
  have hcell : m.cellAt s (8 + i) = .byte c := by
    have h1 := Mem.read_getElem m ⟨s, 8⟩ (n := bs.length + 1) hlt
    have h2 : m.read ⟨s, 8⟩ (bs.length + 1) = (bs ++ [0]).map .byte := by
      simpa using h.data
    rw [h2, List.getElem?_map, hi] at h1
    exact (Option.some.inj h1).symm
  have hv : m.Valid ⟨s, 8 + i⟩ Kind.u8.size := ⟨_, h.size, by simp [Kind.size]; omega⟩
  rw [Mem.load, if_pos hv]
  simp [Mem.read, Kind.size, hcell, Kind.decode, ofBytesLE]

theorem stringValue_null {m : Mem} {slot : Addr} (h : m.load .ptr (slot + 8) = some none) :
    stringValue m slot = [] := by rw [stringValue, h]

theorem StrAt.stringValue_eq {m : Mem} {slot : Addr} {s : Nat} {bs : List UInt8}
    (h : StrAt m s (bs.map .byte)) (hp : m.load .ptr (slot + 8) = some (some ⟨s, 0⟩)) :
    stringValue m slot = bs := by
  have hlen : (UInt32.ofNat (bs.map Cell.byte).length).toNat = (bs.map Cell.byte).length := by
    have := h.lt
    simp only [UInt32.toNat_ofNat']
    omega
  simp only [stringValue, hp, h.len, hlen, Addr.mk_add, Nat.zero_add, h.chars, numbers_map_byte]

/-! ## Building a buffer -/

variable {Γ : Type} {T : Γ → Mem → Act → Mem → Γ → Prop} {F : Fault → Mem → Γ → Prop} {g : Γ}

/-- The copy of the data, into a block that is fresh since `m`. -/
theorem copyChars_safe {Q : Unit → Mem → Γ → Prop} {m m₁ : Mem} {str : CharPtr} {cs : List Cell}
    {dst : Addr} (hT : FreshOk T g m.next) (hsrc : Source m str cs) (hk : m.Keeps m₁)
    (hd : m.next ≤ dst.block) (hv : m₁.Valid dst cs.length) (hQ : Q () (m₁.write dst cs) g) :
    (copyChars (some dst) str cs.length).Safe T F Q m₁ g := by
  cases str with
  | null => exact hsrc.elim
  | own bs =>
    have hcs : (bs.map Cell.byte).takeD cs.length .indet = cs := by
      rw [Source] at hsrc
      rw [hsrc, List.takeD_eq_take _ (by simp), List.take_of_length_le (by simp)]
    simp only [copyChars]
    rw [hcs]
    exact hT.act (Mem.exec_copyIn hv) hk.next_le ⟨dst, rfl, hd⟩ hQ
  | shared a =>
    obtain ⟨ha, hr⟩ := hsrc
    have hread : m₁.read a cs.length = cs :=
      (Mem.read_congr fun o _ _ => hk.cellAt_eq ha.lt o).trans hr
    have he := Mem.exec_memcpy hv (hk.valid ha)
    rw [hread] at he
    exact hT.act he hk.next_le ⟨dst, rfl, hd⟩ hQ

theorem strBufNew_safe {Q : Ptr → Mem → Γ → Prop} {m : Mem} {str : CharPtr} {cs : List Cell}
    (hT : FreshOk T g m.next) (hsrc : Source m str cs) (hpos : 0 < cs.length)
    (hlen : cs.length + 1 < 2 ^ 32) (hfail : m.mallocOk = false → Q none m.tick g)
    (hok : ∀ m', m.Keeps m' → m'.script = m.script.tail → StrAt m' m.next cs → m.mallocOk = true →
      Q (some ⟨m.next, 0⟩) m' g) :
    (strBufNew str (UInt32.ofNat cs.length)).Safe T F Q m g := by
  have hn : (UInt32.ofNat cs.length).toNat = cs.length := by
    simp; omega
  have hc : UInt32.ofNat cs.length + 1 = UInt32.ofNat (cs.length + 1) := by
    simp [UInt32.ofNat_add]
  have hcn : (UInt32.ofNat (cs.length + 1)).toNat = cs.length + 1 := by
    simp; omega
  simp only [strBufNew, strBufSetLen, strBufSetCap, atomicStoreU32, strBufData, malloc_bind,
    store_bind, hc, hcn, hn, strBufHeader]
  cases hm : m.mallocOk with
  | false =>
    refine hT.act (Mem.exec_malloc_fail hm) (Nat.le_refl _) trivial ?_
    simpa using hfail hm
  | true =>
    refine hT.act (Mem.exec_malloc_ok hm) (Nat.le_refl _) trivial ?_
    have hs0 : (m.tick.alloc (8 + (cs.length + 1))).sizeOf m.next = some (8 + (cs.length + 1)) :=
      Mem.sizeOf_alloc m.tick _
    have hk0 : m.Keeps (m.tick.alloc (8 + (cs.length + 1))) := (Mem.Keeps.refl m).tick.alloc _
    have hscript : (m.tick.alloc (8 + (cs.length + 1))).script = m.script.tail := rfl
    generalize m.tick.alloc (8 + (cs.length + 1)) = m₀ at hs0 hk0 hscript
    have hv (o n : Nat) (h : o + n ≤ 8 + (cs.length + 1)) : m₀.Valid ⟨m.next, o⟩ n := ⟨_, hs0, h⟩
    let m₁ := m₀.write ⟨m.next, 0⟩ (Kind.u32.encode (UInt32.ofNat cs.length))
    let m₂ := m₁.write ⟨m.next, 4⟩ (Kind.u32.encode (UInt32.ofNat (cs.length + 1)))
    let m₃ := m₂.write ⟨m.next, 8⟩ cs
    let m₄ := m₃.write ⟨m.next, 8 + cs.length⟩ (Kind.u8.encode 0)
    have hk1 : m.Keeps m₁ := hk0.write (Nat.le_refl _)
    have hk2 : m.Keeps m₂ := hk1.write (Nat.le_refl _)
    have hk3 : m.Keeps m₃ := hk2.write (Nat.le_refl _)
    have hk4 : m.Keeps m₄ := hk3.write (Nat.le_refl _)
    have hv1 : m₀.Valid ⟨m.next, 0⟩ Kind.u32.size := hv _ _ (by simp only [Kind.size]; omega)
    have hv2 : m₁.Valid ⟨m.next, 4⟩ Kind.u32.size :=
      (Mem.valid_write ..).mpr (hv _ _ (by simp only [Kind.size]; omega))
    have hv3 : m₂.Valid ⟨m.next, 8⟩ cs.length := by simpa [m₁, m₂] using hv _ _ (by omega)
    have hv4 : m₃.Valid ⟨m.next, 8 + cs.length⟩ Kind.u8.size := by
      simpa [m₁, m₂, m₃] using hv _ _ (by simp only [Kind.size]; omega)
    have hdone : StrAt m₄ m.next cs := by
      refine ⟨by simpa [m₁, m₂, m₃, m₄] using hs0, hpos, hlen, ?_, ?_, ?_⟩
      · rw [Mem.load_write_apart, Mem.load_write_apart, Mem.load_write_apart]
        · exact Mem.load_write_same (k := .u32) _ hv1
        all_goals exact fun _ => by simp [Kind.size] <;> omega
      · rw [Mem.load_write_apart, Mem.load_write_apart]
        · exact Mem.load_write_same (k := .u32) _ hv2
        all_goals exact fun _ => by simp [Kind.size]
      · rw [Mem.read_add, Mem.read_write_apart, Mem.read_write_same hv3]
        · have h : m₄.read ⟨m.next, 8 + cs.length⟩ 1 = [.byte 0] := Mem.read_write_same hv4
          rw [Addr.mk_add, h]
        · exact fun _ => by simp
    refine hT.act (Mem.exec_store hv1) hk0.next_le ⟨_, rfl, Nat.le_refl _⟩ ?_
    refine hT.act (Mem.exec_store hv2) hk1.next_le ⟨_, rfl, Nat.le_refl _⟩ ?_
    refine Prog.Safe.bind ?_
    refine copyChars_safe hT hsrc hk2 (Nat.le_refl _) hv3 ?_
    refine hT.act (Mem.exec_store hv4) hk3.next_le ⟨_, rfl, Nat.le_refl _⟩ ?_
    exact hok m₄ hk4 hscript hdone hm

/-- The copy of the data into a buffer without room for it. -/
theorem copyChars_fault {Q : Unit → Mem → Γ → Prop} {m : Mem} {str : CharPtr} {dst : Addr} {n : Nat}
    (hv : ¬ m.Valid dst n) (hF : F .outOfBounds m g) :
    (copyChars (some dst) str n).Safe T F Q m g := by
  cases str with
  | null => exact Prog.safe_fault (Mem.exec_memcpy_invalid hv) hF
  | own bs => exact Prog.safe_fault (Mem.exec_copyIn_invalid (by rwa [List.takeD_length])) hF
  | shared a => exact Prog.safe_fault (Mem.exec_memcpy_invalid hv) hF

/-- A string of 2^32 - 1 bytes gets a buffer without room for data: its capacity
is computed in 32 bits and wraps. -/
theorem strBufNew_wraps {Q : Ptr → Mem → Γ → Prop} {m : Mem} (str : CharPtr) {n : Nat}
    (hT : FreshOk T g m.next) (hlen : n + 1 = 2 ^ 32)
    (hfail : m.mallocOk = false → Q none m.tick g)
    (hF : m.mallocOk = true → ∀ m', F .outOfBounds m' g) :
    (strBufNew str (UInt32.ofNat n)).Safe T F Q m g := by
  have hcap : UInt32.ofNat n + 1 = 0 := by
    rw [show (1 : UInt32) = UInt32.ofNat 1 from rfl, ← UInt32.ofNat_add, hlen]
    rfl
  simp only [strBufNew, strBufSetLen, strBufSetCap, atomicStoreU32, strBufData, malloc_bind,
    store_bind, hcap, strBufHeader, UInt32.toNat_zero, Nat.add_zero]
  cases hm : m.mallocOk with
  | false =>
    refine hT.act (Mem.exec_malloc_fail hm) (Nat.le_refl _) trivial ?_
    simpa using hfail hm
  | true =>
    refine hT.act (Mem.exec_malloc_ok hm) (Nat.le_refl _) trivial ?_
    have hs0 : (m.tick.alloc 8).sizeOf m.next = some 8 := Mem.sizeOf_alloc m.tick 8
    have hk0 : m.Keeps (m.tick.alloc 8) := (Mem.Keeps.refl m).tick.alloc 8
    generalize m.tick.alloc 8 = m₀ at hs0 hk0
    have hv (o : Nat) (h : o + 4 ≤ 8) : m₀.Valid ⟨m.next, o⟩ Kind.u32.size := ⟨_, hs0, h⟩
    have hk1 : m.Keeps (m₀.write ⟨m.next, 0⟩ (Kind.u32.encode (UInt32.ofNat n))) :=
      hk0.write (Nat.le_refl _)
    refine hT.act (Mem.exec_store (hv 0 (by omega))) hk0.next_le ⟨_, rfl, Nat.le_refl _⟩ ?_
    refine hT.act (Mem.exec_store ((Mem.valid_write ..).mpr (hv 4 (by omega)))) hk1.next_le
      ⟨_, rfl, Nat.le_refl _⟩ ?_
    refine Prog.Safe.bind ?_
    refine copyChars_fault ?_ (hF hm _)
    rintro ⟨sz, hsz, hle⟩
    simp only [Mem.sizeOf_write, Addr.mk_add, hs0] at hsz
    cases hsz
    simp only [Addr.mk_add, UInt32.toNat_ofNat'] at hle
    omega

/-- `msm_string_set` with `bs`: the only step that is not private work is its
last, the store of the slot's pointer. -/
theorem msmStringSet_safe {Q : Unit → Mem → Γ → Prop} {m : Mem} {slot : Addr} {str : CharPtr}
    {bs : List UInt8} (hT : FreshOk T g m.next) (hlen : bs.length < 2 ^ 32)
    (hsrc : bs ≠ [] → Source m str (bs.map .byte))
    (hnull : bs = [] → (atomicStorePtr (some (slot + 8)) none .release).Safe T F Q m g)
    (hfail : bs ≠ [] → m.mallocOk = false → Q () m.tick g)
    (hwrap : bs.length + 1 = 2 ^ 32 → m.mallocOk = true → ∀ m', F .outOfBounds m' g)
    (hok : ∀ m', bs ≠ [] → m.Keeps m' → m'.script = m.script.tail →
      StrAt m' m.next (bs.map .byte) → m.mallocOk = true →
      (atomicStorePtr (some (slot + 8)) (some ⟨m.next, 0⟩) .release).Safe T F Q m' g) :
    (msmStringSet (some slot) str (UInt32.ofNat bs.length)).Safe T F Q m g := by
  have hn : (UInt32.ofNat bs.length).toNat = bs.length := by
    simp only [UInt32.toNat_ofNat']
    omega
  simp only [msmStringSet, reduceCtorEq, if_false]
  by_cases hnil : bs = []
  · subst hnil
    have hzero : (if str = .null then 0 else UInt32.ofNat ([] : List UInt8).length) = 0 := by
      split <;> rfl
    rw [hzero]
    exact hnull rfl
  · have hpos : 0 < bs.length := List.length_pos_iff.mpr hnil
    have hstr : str ≠ .null := by
      rintro rfl
      exact hsrc hnil
    have hne : UInt32.ofNat bs.length ≠ 0 := by
      intro h0
      rw [h0] at hn
      exact absurd hn (by simp; omega)
    rw [if_neg hstr, if_neg hne]
    refine Prog.Safe.bind ?_
    by_cases hwide : bs.length + 1 = 2 ^ 32
    · refine strBufNew_wraps str hT hwide ?_ (hwrap hwide)
      exact fun hm => by simpa using hfail hnil hm
    · have hmap : (bs.map Cell.byte).length = bs.length := List.length_map ..
      rw [← hmap]
      refine strBufNew_safe hT (hsrc hnil) (by omega) (by omega) ?_ ?_
      · exact fun hm => by simpa using hfail hnil hm
      · intro m' hk hs hat hm
        simpa using hok m' hnil hk hs hat hm

end Msm.Str
