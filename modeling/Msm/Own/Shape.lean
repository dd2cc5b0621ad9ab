import Mathlib.Data.List.Nodup
import Msm.CMem.Frees

/-! # Bytes that own blocks

A shape says what a range of bytes means, wherever it lies: when it is well
formed, and which blocks are owned through the pointers in it and below it. Shapes
stand side by side (`seq`) and in rows (`rep`). What holds of a whole follows from
its parts, and a change inside one part is a change of the whole. -/
namespace Msm.Own
open Msm.CMem

/-- The meaning of `size` bytes at any address: when they are well formed, and
which slot owns which block, below them included. It moves with the bytes, and
zero bytes own nothing. -/
structure Shape where
  size : Nat
  Ok : Mem → Addr → Prop
  owned : Mem → Addr → List (Addr × Nat)
  live : ∀ {m a}, Ok m a → ∀ b ∈ (owned m a).map Prod.snd, m.sizeOf b ≠ none
  move : ∀ {m m' a a'}, Ok m a → m.Valid a size → m'.Valid a' size →
    m'.read a' size = m.read a size →
    (∀ b ∈ (owned m a).map Prod.snd, m'.block b = m.block b) →
    Ok m' a' ∧ (owned m' a').map Prod.snd = (owned m a).map Prod.snd
  zero : ∀ {m a}, m.Valid a size → m.read a size = List.replicate size (.byte 0) →
    Ok m a ∧ owned m a = []

namespace Shape

def blocks (s : Shape) (m : Mem) (a : Addr) : List Nat := (s.owned m a).map Prod.snd

/-- The bytes at `a` are well formed, no block is owned twice, and none is the
one the bytes are in. -/
structure Held (s : Shape) (m : Mem) (a : Addr) : Prop where
  valid : m.Valid a s.size
  ok : s.Ok m a
  nodup : (s.blocks m a).Nodup
  apart : a.block ∉ s.blocks m a

/-- From `m` to `m'` nothing has changed but the bytes at `a`, the blocks owned
through them, and new blocks. -/
structure Confined (s : Shape) (a : Addr) (m m' : Mem) : Prop where
  sizeOf : m'.sizeOf a.block = m.sizeOf a.block
  outside : ∀ o, ¬ (a.off ≤ o ∧ o < a.off + s.size) → m'.cellAt a.block o = m.cellAt a.block o
  other : ∀ b, b < m.next → b ≠ a.block → b ∉ s.blocks m a → m'.block b = m.block b

/-- ... and the bytes are held again, with no other blocks. -/
structure Evolves (s : Shape) (a : Addr) (m m' : Mem) : Prop extends Confined s a m m' where
  next_le : m.next ≤ m'.next
  held : s.Held m' a
  fresh : ∀ b ∈ s.blocks m' a, b ∈ s.blocks m a ∨ m.next ≤ b

/-! ## Combinations -/

/-- Bytes that own nothing. -/
def raw (n : Nat) : Shape where
  size := n
  Ok _ _ := True
  owned _ _ := []
  live _ _ hb := nomatch hb
  move _ _ _ _ _ := ⟨trivial, rfl⟩
  zero _ _ := ⟨trivial, rfl⟩

/-- Bytes of one shape and then of another. -/
def seq (s t : Shape) : Shape where
  size := s.size + t.size
  Ok m a := s.Ok m a ∧ t.Ok m (a + s.size)
  owned m a := s.owned m a ++ t.owned m (a + s.size)
  live h b hb := by
    rw [List.map_append, List.mem_append] at hb
    rcases hb with hb | hb
    · exact s.live h.1 b hb
    · exact t.live h.2 b hb
  move h hv hv' hr hb := by
    rw [Mem.read_add, Mem.read_add] at hr
    obtain ⟨hrs, hrt⟩ := List.append_inj hr (by simp only [Mem.length_read])
    simp only [List.map_append, List.mem_append] at hb ⊢
    obtain ⟨h₁, e₁⟩ := s.move h.1 (hv.le (by omega)) (hv'.le (by omega)) hrs
      fun b h => hb b (.inl h)
    obtain ⟨h₂, e₂⟩ := t.move h.2 (hv.mono (Nat.le_refl _)) (hv'.mono (Nat.le_refl _)) hrt
      fun b h => hb b (.inr h)
    exact ⟨⟨h₁, h₂⟩, by rw [e₁, e₂]⟩
  zero hv hr := by
    rw [Mem.read_add, List.replicate_add] at hr
    obtain ⟨hrs, hrt⟩ := List.append_inj hr (by simp only [Mem.length_read, List.length_replicate])
    obtain ⟨h₁, e₁⟩ := s.zero (hv.le (by omega)) hrs
    obtain ⟨h₂, e₂⟩ := t.zero (hv.mono (Nat.le_refl _)) hrt
    exact ⟨⟨h₁, h₂⟩, by rw [e₁, e₂]; rfl⟩

/-- `n` in a row. -/
def rep (s : Shape) : Nat → Shape
  | 0 => raw 0
  | n + 1 => seq (rep s n) s

section lemmas
variable {s t : Shape} {m m' : Mem} {a : Addr} {n : Nat}

theorem blocks_seq : (seq s t).blocks m a = s.blocks m a ++ t.blocks m (a + s.size) :=
  List.map_append

@[simp] theorem size_rep (s : Shape) (n : Nat) : (rep s n).size = n * s.size := by
  induction n with
  | zero => exact (Nat.zero_mul _).symm
  | succ n ih =>
    show (rep s n).size + s.size = _
    rw [ih, Nat.succ_mul]

theorem Held.lt (h : s.Held m a) {b : Nat} (hb : b ∈ s.blocks m a) : b < m.next := by
  have hl := s.live h.ok b hb
  cases hs : m.sizeOf b with
  | none => exact absurd hs hl
  | some sz => exact Mem.sizeOf_lt hs

theorem held_seq : (seq s t).Held m a ↔ s.Held m a ∧ t.Held m (a + s.size) ∧
    (s.blocks m a).Disjoint (t.blocks m (a + s.size)) := by
  constructor
  · intro ⟨hv, hok, hn, ha⟩
    rw [blocks_seq] at hn ha
    obtain ⟨hs, ht, hd⟩ := List.nodup_append'.mp hn
    rw [List.mem_append, not_or] at ha
    exact ⟨⟨hv.le (Nat.le_add_right _ _), hok.1, hs, ha.1⟩,
      ⟨hv.mono (Nat.le_refl _), hok.2, ht, ha.2⟩, hd⟩
  · intro ⟨hs, ht, hd⟩
    refine ⟨?_, ⟨hs.ok, ht.ok⟩, ?_, ?_⟩
    · obtain ⟨sz, hsz, hle⟩ := ht.valid
      refine ⟨sz, hsz, ?_⟩
      rw [Addr.add_off] at hle
      show a.off + (s.size + t.size) ≤ sz
      omega
    · rw [blocks_seq]
      exact List.nodup_append'.mpr ⟨hs.nodup, ht.nodup, hd⟩
    · rw [blocks_seq, List.mem_append, not_or]
      exact ⟨hs.apart, ht.apart⟩

/-- Bytes that have not changed, nor the blocks owned through them. -/
theorem Held.frame (h : s.Held m a) (hs : m'.sizeOf a.block = m.sizeOf a.block)
    (hc : ∀ o, a.off ≤ o → o < a.off + s.size → m'.cellAt a.block o = m.cellAt a.block o)
    (hb : ∀ b ∈ s.blocks m a, m'.block b = m.block b) :
    s.Held m' a ∧ s.blocks m' a = s.blocks m a := by
  have hv : m'.Valid a s.size := by
    obtain ⟨sz, hsz, hle⟩ := h.valid
    exact ⟨sz, hs.trans hsz, hle⟩
  obtain ⟨hok, he⟩ := s.move h.ok h.valid hv (Mem.read_congr hc) hb
  have he' : s.blocks m' a = s.blocks m a := he
  exact ⟨⟨hv, hok, he' ▸ h.nodup, he' ▸ h.apart⟩, he'⟩

/-- Bytes copied into a new block: they own the blocks they were copied from owned. -/
theorem Held.moved {c : Addr} (h : s.Held m a) (hk : m.Keeps m') (hv : m'.Valid c s.size)
    (hr : m'.read c s.size = m.read a s.size) (hc : m.next ≤ c.block) :
    s.Held m' c ∧ s.blocks m' c = s.blocks m a := by
  obtain ⟨hok, he⟩ := s.move h.ok h.valid hv hr fun b hb => hk.block_eq b (h.lt hb)
  have he' : s.blocks m' c = s.blocks m a := he
  refine ⟨⟨hv, hok, he' ▸ h.nodup, fun hin => ?_⟩, he'⟩
  rw [he'] at hin
  exact Nat.not_lt.mpr hc (h.lt hin)

/-- Zero bytes. -/
theorem held_zero (hv : m.Valid a s.size) (hr : m.read a s.size = List.replicate s.size (.byte 0)) :
    s.Held m a ∧ s.blocks m a = [] := by
  obtain ⟨hok, he⟩ := s.zero hv hr
  have he' : s.blocks m a = [] := by rw [blocks, he]; rfl
  exact ⟨⟨hv, hok, he' ▸ List.nodup_nil, he' ▸ List.not_mem_nil⟩, he'⟩

/-- A row without elements. -/
theorem held_none (hv : m.Valid a 0) : (rep s 0).Held m a :=
  ⟨hv, trivial, List.nodup_nil, List.not_mem_nil⟩

theorem Evolves.refl (h : s.Held m a) : s.Evolves a m m :=
  ⟨⟨rfl, fun _ _ => rfl, fun _ _ _ _ => rfl⟩, Nat.le_refl _, h, fun _ hb => .inl hb⟩

theorem Confined.trans {m₁ : Mem} (h : s.Confined a m m₁) (h' : s.Confined a m₁ m')
    (hn : m.next ≤ m₁.next) (hb : ∀ b ∈ s.blocks m₁ a, b ∈ s.blocks m a ∨ m.next ≤ b) :
    s.Confined a m m' := by
  refine ⟨h'.sizeOf.trans h.sizeOf, fun o ho => ?_, fun b hlt hne hnot => ?_⟩
  · rw [h'.outside o ho, h.outside o ho]
  · have hnot₁ : b ∉ s.blocks m₁ a := by
      intro hin
      rcases hb b hin with hin | hin
      · exact hnot hin
      · omega
    rw [h'.other b (Nat.lt_of_lt_of_le hlt hn) hne hnot₁, h.other b hlt hne hnot]

theorem Evolves.trans {m₁ : Mem} (h : s.Evolves a m m₁) (h' : s.Evolves a m₁ m') :
    s.Evolves a m m' := by
  refine ⟨h.toConfined.trans h'.toConfined h.next_le h.fresh, Nat.le_trans h.next_le h'.next_le,
    h'.held, fun b hb => ?_⟩
  rcases h'.fresh b hb with hb | hb
  · exact h.fresh b hb
  · exact .inr (Nat.le_trans h.next_le hb)

/-- Bytes beside those of a confined change. -/
theorem Confined.beside (h : s.Confined a m m') {b : Addr} (ht : t.Held m b)
    (hab : b.block = a.block) (hoff : b.off + t.size ≤ a.off ∨ a.off + s.size ≤ b.off)
    (hd : ∀ c ∈ t.blocks m b, c ∉ s.blocks m a) :
    t.Held m' b ∧ t.blocks m' b = t.blocks m b := by
  refine ht.frame ?_ (fun o h1 h2 => ?_) fun c hc => ?_
  · rw [hab]
    exact h.sizeOf
  · rw [hab]
    exact h.outside o (by omega)
  · refine h.other c (ht.lt hc) (fun he => ?_) (hd c hc)
    rw [he, ← hab] at hc
    exact ht.apart hc

theorem Confined.seq_left (h : s.Confined a m m') : (seq s t).Confined a m m' := by
  refine ⟨h.sizeOf, fun o ho => ?_, fun b hlt hne hb => ?_⟩
  · refine h.outside o fun hin => ho ⟨hin.1, ?_⟩
    show o < a.off + (s.size + t.size)
    omega
  · rw [blocks_seq, List.mem_append, not_or] at hb
    exact h.other b hlt hne hb.1

theorem Confined.seq_right (h : t.Confined (a + s.size) m m') : (seq s t).Confined a m m' := by
  refine ⟨h.sizeOf, fun o ho => ?_, fun b hlt hne hb => ?_⟩
  · refine h.outside o fun ⟨h1, h2⟩ => ho ?_
    rw [Addr.add_off] at h1 h2
    refine ⟨by omega, ?_⟩
    show o < a.off + (s.size + t.size)
    omega
  · rw [blocks_seq, List.mem_append, not_or] at hb
    exact h.other b hlt hne hb.2

theorem Evolves.seq_left (h : s.Evolves a m m') (hst : (seq s t).Held m a) :
    (seq s t).Evolves a m m' := by
  obtain ⟨hs, ht, hd⟩ := held_seq.mp hst
  obtain ⟨ht', he⟩ := h.beside ht rfl (.inr (Nat.le_refl _)) fun c hc hs => hd hs hc
  refine ⟨h.toConfined.seq_left, h.next_le, ?_, fun b hb => ?_⟩
  · refine held_seq.mpr ⟨h.held, ht', fun b hb hb' => ?_⟩
    rw [he] at hb'
    rcases h.fresh b hb with hb | hb
    · exact hd hb hb'
    · exact Nat.not_lt.mpr hb (ht.lt hb')
  · rw [blocks_seq, List.mem_append] at hb ⊢
    rcases hb with hb | hb
    · exact (h.fresh b hb).imp_left .inl
    · exact .inl (.inr (he ▸ hb))

theorem Evolves.seq_right (h : t.Evolves (a + s.size) m m') (hst : (seq s t).Held m a) :
    (seq s t).Evolves a m m' := by
  obtain ⟨hs, ht, hd⟩ := held_seq.mp hst
  obtain ⟨hs', he⟩ := h.beside hs rfl (.inl (Nat.le_refl _)) fun c hc ht => hd hc ht
  refine ⟨h.toConfined.seq_right, h.next_le, ?_, fun b hb => ?_⟩
  · refine held_seq.mpr ⟨hs', h.held, fun b hb hb' => ?_⟩
    rw [he] at hb
    rcases h.fresh b hb' with hb' | hb'
    · exact hd hb hb'
    · exact Nat.not_lt.mpr hb' (hs.lt hb)
  · rw [blocks_seq, List.mem_append] at hb ⊢
    rcases hb with hb | hb
    · exact .inl (.inl (he ▸ hb))
    · exact (h.fresh b hb).imp_left .inr

/-- Number `i` of a row is held. -/
theorem Held.at (h : (rep s n).Held m a) {i : Nat} (hi : i < n) : s.Held m (a + i * s.size) := by
  induction n with
  | zero => exact absurd hi (Nat.not_lt_zero i)
  | succ n ih =>
    obtain ⟨hn, hs, _⟩ := held_seq.mp h
    rw [size_rep] at hs
    rcases Nat.lt_succ_iff_lt_or_eq.mp hi with hi | rfl
    · exact ih hn hi
    · exact hs

/-- One more, which owns nothing. -/
theorem Held.snoc (h : (rep s n).Held m a) (hs : s.Held m (a + n * s.size))
    (he : s.blocks m (a + n * s.size) = []) :
    (rep s (n + 1)).Held m a ∧ (rep s (n + 1)).blocks m a = (rep s n).blocks m a := by
  rw [← size_rep s n] at hs he
  have hblocks : (rep s (n + 1)).blocks m a = (rep s n).blocks m a := by
    rw [rep, blocks_seq, he, List.append_nil]
  refine ⟨held_seq.mpr ⟨h, hs, fun b _ hb => ?_⟩, hblocks⟩
  rw [he] at hb
  cases hb

/-- A change of number `i` is a change of the row. -/
theorem Evolves.rep (h : (rep s n).Held m a) {i : Nat} (hi : i < n)
    (he : s.Evolves (a + i * s.size) m m') : (rep s n).Evolves a m m' := by
  induction n with
  | zero => exact absurd hi (Nat.not_lt_zero i)
  | succ n ih =>
    obtain ⟨hn, _⟩ := held_seq.mp h
    rcases Nat.lt_succ_iff_lt_or_eq.mp hi with hi | rfl
    · exact (ih hn hi).seq_left h
    · refine Evolves.seq_right ?_ h
      rw [size_rep]
      exact he

theorem mem_owned_rep {x : Addr × Nat} : x ∈ (rep s n).owned m a ↔
    ∃ i < n, x ∈ s.owned m (a + i * s.size) := by
  induction n with
  | zero => exact ⟨nofun, fun ⟨i, hi, _⟩ => absurd hi (Nat.not_lt_zero i)⟩
  | succ n ih =>
    show x ∈ (rep s n).owned m a ++ s.owned m (a + (rep s n).size) ↔ _
    rw [List.mem_append, ih, size_rep]
    constructor
    · rintro (⟨i, hi, hx⟩ | hx)
      · exact ⟨i, by omega, hx⟩
      · exact ⟨n, by omega, hx⟩
    · rintro ⟨i, hi, hx⟩
      rcases Nat.lt_succ_iff_lt_or_eq.mp hi with hi | rfl
      · exact .inl ⟨i, hi, hx⟩
      · exact .inr hx

/-- What two places of a row own is apart. -/
theorem Held.disjoint_rep (h : (rep s n).Held m a) {i j : Nat} (hi : i < n) (hj : j < n)
    (hij : i ≠ j) : (s.blocks m (a + i * s.size)).Disjoint (s.blocks m (a + j * s.size)) := by
  have hmem {n k b : Nat} (hk : k < n) (hb : b ∈ s.blocks m (a + k * s.size)) :
      b ∈ (rep s n).blocks m a := by
    obtain ⟨x, hx, rfl⟩ := List.mem_map.mp hb
    exact List.mem_map.mpr ⟨x, mem_owned_rep.mpr ⟨k, hk, hx⟩, rfl⟩
  induction n with
  | zero => exact absurd hi (Nat.not_lt_zero i)
  | succ n ih =>
    obtain ⟨hn, _, hd⟩ := held_seq.mp h
    rw [size_rep] at hd
    rcases Nat.lt_succ_iff_lt_or_eq.mp hi with hi | rfl
    · rcases Nat.lt_succ_iff_lt_or_eq.mp hj with hj | rfl
      · exact ih hn hi hj
      · exact fun b hb hb' => hd (hmem hi hb) hb'
    · rcases Nat.lt_succ_iff_lt_or_eq.mp hj with hj | rfl
      · exact fun b hb hb' => hd (hmem hj hb') hb
      · exact absurd rfl hij

end lemmas
end Shape
end Msm.Own
