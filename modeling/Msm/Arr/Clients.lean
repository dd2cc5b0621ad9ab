import Msm.Arr.Writer

/-! # One array writer and its readers

The writer reserves, pushes (prepare_push, any number of writes into the element
it was given, commit_push) and, when the run lets it, clears. A reader asks for
the size, gets elements, and copies any element it has ever been given. The log
of the writer says what has been pushed (`pushes`); the contract ties it to the
memory, between the calls, and to what the element being filled holds. -/
namespace Msm.Arr
open Msm.Exec Msm.CMem Msm.Api

inductive WCall where
  | reserve (newCap : UInt32)
  | prepare
  | fill (off : Nat) (cs : List Cell)
  | commit
  | clear

inductive WVal where
  | unit
  | elem (p : Ptr)

/-- The elements committed since the last clear, and the element being filled. -/
structure Pushes where
  done : List (List Cell)
  pending : Option (Addr × List Cell)

/-- The pushes after one more completed call, for elements of `n` bytes. -/
def Pushes.next (n : Nat) (p : Pushes) : WCall × WVal → Pushes
  | (.prepare, .elem (some a)) => { p with pending := some (a, zeros n) }
  | (.fill d cs, _) => { p with pending := p.pending.map fun x => (x.1, Mem.splice x.2 d cs) }
  | (.commit, _) => match p.pending with
    | some (_, v) => ⟨p.done ++ [v], none⟩
    | none => p
  | (.clear, _) => { p with done := [] }
  | _ => p

def pushes (n : Nat) (log : List (WCall × WVal)) : Pushes := log.foldl (Pushes.next n) ⟨[], none⟩

theorem pushes_append (n : Nat) (log : List (WCall × WVal)) (x : WCall × WVal) :
    pushes n (log ++ [x]) = (pushes n log).next n x := by
  simp only [pushes, List.foldl_append, List.foldl_cons, List.foldl_nil]

/-- Fewer than 2^31 elements; a push is prepared, filled and committed in that
order; clear is there when `clears` says so. -/
abbrev writer (slot : Addr) (itemSize : UInt32) (clears : Bool) : Client cmachine where
  Call := WCall
  Val := WVal
  code log c :=
    let p := pushes itemSize.toNat log
    match c, p.pending with
    | .reserve newCap, none => some do
      msmArrayReserve (some slot) newCap itemSize
      pure .unit
    | .prepare, none => if p.done.length + 1 < 2 ^ 31 then some do
        let e ← msmArrayPreparePush (some slot) itemSize
        pure (.elem e)
      else none
    | .fill d cs, some (a, _) => if d + cs.length ≤ itemSize.toNat then some do
        copyIn (some (a + d)) cs
        pure .unit
      else none
    | .commit, some _ => some do
      msmArrayCommitPush (some slot)
      pure .unit
    | .clear, none => if clears then some do
        msmArrayClear (some slot)
        pure .unit
      else none
    | _, _ => none

inductive RCall where
  | size
  | get (i : UInt32)
  | copy (i : UInt32) (a : Addr)
deriving DecidableEq

inductive RVal where
  | size (n : UInt32)
  | elem (p : Ptr)
  | bytes (cs : List Cell)
deriving DecidableEq

/-- The sizes a reader has observed, in order; `size` says which results are sizes. -/
def sizes {C V : Type} (size : V → Option UInt32) (log : List (C × V)) : List Nat :=
  log.filterMap fun x => (size x.2).map UInt32.toNat

theorem sizes_append {C V : Type} (size : V → Option UInt32) (l l' : List (C × V)) :
    sizes size (l ++ l') = sizes size l ++ sizes size l' := List.filterMap_append

def RVal.observed : RVal → Option UInt32
  | .size n => some n
  | _ => none

def copyElem (a : Addr) (itemSize : UInt32) : CProg RVal := do
  let cs ← copyOut (some a) itemSize.toNat
  pure (.bytes cs)

/-- `copy i a` is the later copy of an element that `get i` gave at `a`. -/
abbrev reader (slot : Addr) (itemSize : UInt32) : Client cmachine where
  Call := RCall
  Val := RVal
  code log
    | .size => some do
      let n ← msmArraySize (some slot)
      pure (.size n)
    | .get i => some do
      let p ← msmArrayGet (some slot) i itemSize
      pure (.elem p)
    | .copy i a => if (.get i, .elem (some a)) ∈ log then some (copyElem a itemSize) else none

/-! ## The writer's contract -/

def WCall.op : WCall → Op
  | .reserve _ => .reserve
  | .prepare => .prepare
  | .fill .. => .fill
  | .commit => .commit
  | .clear => .clear

/-- The address of the element being filled. -/
def fillAddr {n : Nat} (g : State n) : Option Addr :=
  if (cur g).filling then g.cur.map fun b => ⟨b, 8 + (cur g).size * n⟩ else none

/-- The slot holds what the log says has been pushed. -/
structure Pushes.Matches {n : Nat} (p : Pushes) (g : State n) : Prop where
  done : p.done = contents g
  addr : p.pending.map Prod.fst = fillAddr g
  value : ∀ a v, p.pending = some (a, v) → (cur g).elems[(cur g).size]? = some v

def contract (slot : Addr) (itemSize : UInt32) (clears : Bool) :
    Contract (writer slot itemSize clears) (State itemSize.toNat) where
  Idle log m g := Inv slot itemSize.toNat m g ∧ m.script = [] ∧
    (pushes itemSize.toNat log).Matches g
  T c g m a m' g' := (c.op = .clear → clears = true) ∧ T slot itemSize.toNat c.op g m a m' g'
  F _ _ _ := False

section contract
variable {slot : Addr} {itemSize : UInt32} {m : Mem} {g g' : State itemSize.toNat} {p : Pushes}

theorem Pushes.Matches.not_filling (h : p.Matches g)
    (hp : p.pending = none) : (cur g).filling = false := by
  have ha := h.addr
  rw [hp, Option.map_none, fillAddr] at ha
  cases hf : (cur g).filling with
  | false => rfl
  | true =>
    rw [if_pos hf] at ha
    have hc : g.cur = none := Option.map_eq_none_iff.mp ha.symm
    rw [cur_none hc] at hf
    cases hf

theorem Pushes.Matches.filling (h : p.Matches g) {a : Addr} {v : List Cell}
    (hp : p.pending = some (a, v)) : ∃ b, g.cur = some b ∧ (cur g).filling = true ∧
      a = ⟨b, 8 + (cur g).size * itemSize.toNat⟩ ∧ (cur g).elems[(cur g).size]? = some v := by
  have ha := h.addr
  rw [hp, Option.map_some, fillAddr] at ha
  split at ha
  · rename_i hf
    obtain ⟨b, hb, he⟩ := Option.map_eq_some_iff.mp ha.symm
    exact ⟨b, hb, hf, he.symm, h.value a v hp⟩
  · cases ha

theorem fillAddr_none (h : (cur g).filling = false) : fillAddr g = none := by
  simp [fillAddr, h]

theorem fillAddr_some {b : Nat} (h : (cur g).filling = true) (hb : g.cur = some b) :
    fillAddr g = some ⟨b, 8 + (cur g).size * itemSize.toNat⟩ := by
  simp [fillAddr, h, hb]

/-- A committed element joins the contents, and nothing is being filled. -/
theorem Pushes.Matches.committed (h : p.Matches g) {a : Addr} {v : List Cell}
    (hp : p.pending = some (a, v)) {hf : (cur g).filling = true}
    (hu : Update g g' ((cur g).commit hf)) : (⟨p.done ++ [v], none⟩ : Pushes).Matches g' := by
  refine ⟨?_, ?_, fun _ _ h => by cases h⟩
  · rw [contents, hu.cur_eq, Node.items_commit _ hf (h.value a v hp), h.done, contents]
  · exact (fillAddr_none (by rw [hu.cur_eq]; rfl)).symm

theorem contract_holds (hn : itemSize ≠ 0) (clears : Bool) :
    (contract slot itemSize clears).Holds fun _ => True := by
  rintro log c code m g ⟨hI, hs, hM⟩ - hcode
  have hok : m.mallocOk = true := by rw [Mem.mallocOk, hs]; rfl
  have htail {m' : Mem} (h : m'.script = m.script ∨ m'.script = m.script.tail) : m'.script = [] := by
    rcases h with h | h
    · rw [h, hs]
    · rw [h, hs]; rfl
  simp only [writer] at hcode
  split at hcode
  · -- reserve
    rename_i newCap hp
    cases hcode
    have hf := hM.not_filling hp
    have hidle {m' : Mem} {g' : State itemSize.toNat} (hI' : Inv slot itemSize.toNat m' g')
        (hs' : m'.script = []) (hc : contents g' = contents g) (hf' : (cur g').filling = false) :
        (contract slot itemSize clears).Idle (log ++ [(.reserve newCap, .unit)]) m' g' := by
      refine ⟨hI', hs', ?_⟩
      rw [pushes_append]
      show (pushes itemSize.toNat log).Matches g'
      refine ⟨hM.done.trans hc.symm, by rw [fillAddr_none hf', hp]; rfl, fun a v h => ?_⟩
      rw [hp] at h
      cases h
    refine Prog.Safe.bind ?_
    refine (msmArrayReserve_safe (o := .reserve) hI hn ⟨hf, .inl rfl⟩ hf
      (fun g' hpub => ⟨hf, .inr hpub⟩) ?_ ?_ ?_).mono
        (fun _ _ _ _ _ h => ⟨fun ho => (by cases ho), h⟩)
        (fun _ _ _ => id) (fun _ _ _ => id)
    · exact fun _ => hidle hI hs rfl hf
    · intro _ hfail
      rw [hok] at hfail; cases hfail
    · intro m' hle _ _ hsc hI'
      exact hidle hI' (htail (.inr hsc)) (by simp [grown, contents, cur])
        (by simp [grown, cur, Node.grow])
  · -- prepare_push
    rename_i hp
    split at hcode
    · rename_i hfew
      cases hcode
      have hf := hM.not_filling hp
      have hsize : (cur g).size + 1 < 2 ^ 31 := by
        have hl : (pushes itemSize.toNat log).done.length = (cur g).size := by
          rw [hM.done]; exact (cur g).length_items
        rw [← hl]; exact hfew
      refine Prog.Safe.bind ?_
      refine (msmArrayPreparePush_safe hI hn hf ?_ ?_ ?_).mono
        (fun _ _ _ _ _ h => ⟨fun ho => (by cases ho), h⟩)
        (fun _ _ _ => id) (fun _ _ _ => id)
      · intro _ hfail
        rw [hok] at hfail; cases hfail
      · rintro _ _ hle (hbig | hfail)
        · omega
        · rw [hok] at hfail; cases hfail
      · intro m' g' b _ hI' hb hc hsz hf' hv hsc _ _
        refine ⟨hI', htail hsc, ?_⟩
        rw [pushes_append]
        refine ⟨hM.done.trans hc.symm, (fillAddr_some hf' hb).symm, ?_⟩
        rintro a v ⟨⟩
        exact hv
    · cases hcode
  · -- the caller's write into the element
    rename_i d cs a v hp
    split at hcode
    · rename_i hd
      cases hcode
      obtain ⟨b, hb, hf, rfl, hv⟩ := hM.filling hp
      refine Prog.Safe.bind ?_
      refine (fill_safe hI hn hb hf hv hd ?_).mono (fun _ _ _ _ _ h => ⟨fun ho => (by cases ho), h⟩)
        (fun _ _ _ => id) (fun _ _ _ => id)
      intro m' g' hx hsc hI' hu
      have hb' : g'.cur = some b := by obtain ⟨c, _, rfl⟩ := hu; exact hb
      have hcur := hu.cur_eq
      refine ⟨hI', htail (.inl hsc), ?_⟩
      rw [pushes_append]
      refine ⟨?_, ?_, ?_⟩
      · rw [contents, hcur, Node.items_touch]
        exact hM.done
      · rw [fillAddr_some (by rw [hcur]; rfl) hb', hcur, Pushes.next, hp]
        rfl
      · intro a' v' h'
        rw [Pushes.next, hp] at h'
        cases h'
        rw [hcur, Node.touch_get]
        exact if_pos rfl
    · cases hcode
  · -- commit_push
    rename_i x hp
    cases hcode
    obtain ⟨a, v⟩ := x
    obtain ⟨b, hb, hf, -, -⟩ := hM.filling hp
    refine Prog.Safe.bind ?_
    refine (msmArrayCommitPush_safe hI hb hf ?_).mono
      (fun _ _ _ _ _ h => ⟨fun ho => (by cases ho), h⟩)
      (fun _ _ _ => id) (fun _ _ _ => id)
    intro m' g' hsc hI' hu
    refine ⟨hI', htail (.inl hsc), ?_⟩
    rw [pushes_append]
    simp only [Pushes.next, hp]
    exact hM.committed hp hu
  · -- clear
    rename_i hp
    split at hcode
    · rename_i hclears
      cases hcode
      have hf := hM.not_filling hp
      refine Prog.Safe.bind ?_
      refine (msmArrayClear_safe hI hf ?_).mono (fun _ _ _ _ _ h => ⟨fun _ => hclears, h⟩)
        (fun _ _ _ => id) (fun _ _ _ => id)
      intro m' g' hsc hI' hu
      have hcur : contents g' = [] ∧ (cur g').filling = false := by
        rcases hu with ⟨rfl, hc⟩ | hu
        · rw [contents, cur_none hc]; exact ⟨rfl, rfl⟩
        · rw [contents, hu.cur_eq]; exact ⟨rfl, rfl⟩
      refine ⟨hI', htail (.inl hsc), ?_⟩
      rw [pushes_append]
      show (⟨[], (pushes itemSize.toNat log).pending⟩ : Pushes).Matches g'
      rw [hp]
      exact ⟨hcur.1.symm, (fillAddr_none hcur.2).symm, fun _ _ h => by cases h⟩
    · cases hcode
  · cases hcode

end contract
end Msm.Arr
