import Msm.Arr.Reads

/-! # Readers of an array that is only pushed to -/
namespace Msm.Arr
open Msm.Exec Msm.CMem Msm.Api

variable {ι : Type} {slot : Addr} {itemSize : UInt32} {m₀ : Mem}

/-- The pointer `a` that `get i` gave points to element `i` of a buffer that was
current by the instant `t`, and `i` is below the size of that buffer. -/
def Given (γ : Nat → State itemSize.toNat) (i : UInt32) (a : Addr) (t : Nat) : Prop :=
  a.off = 8 + i.toNat * itemSize.toNat ∧ (∃ w, w ≤ t ∧ (γ w).cur = some a.block) ∧
    ∃ x, (γ t).heap a.block = some x ∧ i.toNat < x.size

/-- What the completed calls of a reader say at instant `t`. -/
structure LogOk (γ : Nat → State itemSize.toNat) (log : List (RCall × RVal)) (t : Nat) : Prop where
  sorted : (sizes RVal.observed log).Pairwise (· ≤ ·)
  bounded : ∀ s ∈ sizes RVal.observed log, s ≤ (contents (γ t)).length
  given : ∀ i a, (.get i, .elem (some a)) ∈ log → Given γ i a t
  found : ∀ l₁ i p l₂, log = l₁ ++ (.get i, .elem p) :: l₂ →
    (∃ s ∈ sizes RVal.observed l₁, i.toNat < s) → ∃ a, p = some a
  copied : ∀ i a cs, (.copy i a, .bytes cs) ∈ log → (contents (γ t))[i.toNat]? = some cs

theorem Given.held {γ : Nat → State itemSize.toNat} {i : UInt32} {a : Addr} {t : Nat}
    (hg : Given γ i a t) : Trail.Held (γ t) i a := by
  obtain ⟨ho, _, x, hx, hi⟩ := hg
  exact ⟨ho, x, hx, Nat.lt_of_lt_of_le hi x.size_le⟩

theorem logOk_nil (γ : Nat → State itemSize.toNat) (t : Nat) : LogOk γ [] t where
  sorted := .nil
  bounded s hs := by cases hs
  given i a hm := by cases hm
  found l₁ i p l₂ he := by cases l₁ <;> cases he
  copied i a cs hm := by cases hm

theorem prefix_get {α : Type} {l l' : List α} {i : Nat} {x : α} (h : l <+: l')
    (hx : l[i]? = some x) : l'[i]? = some x := by
  obtain ⟨r, rfl⟩ := h
  rw [List.getElem?_append_left (List.getElem?_eq_some_iff.mp hx).1, hx]

theorem mem_concat {α : Type} {l : List α} {x y : α} (h : y ∈ l ++ [x]) : y ∈ l ∨ y = x := by
  simpa using h

/-- A split of a list with one more element splits the list, or is at its end. -/
theorem concat_eq_append_cons {α : Type} {l l₁ l₂ : List α} {x y : α}
    (h : l ++ [x] = l₁ ++ y :: l₂) : (∃ l₃, l = l₁ ++ y :: l₃) ∨ (l = l₁ ∧ x = y) := by
  rcases List.eq_nil_or_concat l₂ with rfl | ⟨l₃, z, rfl⟩
  · obtain ⟨h1, h2⟩ := List.append_inj' h rfl
    exact .inr ⟨h1, List.head_eq_of_cons_eq h2⟩
  · rw [List.concat_eq_append, ← List.cons_append, ← List.append_assoc] at h
    exact .inl ⟨l₃, (List.append_inj' h rfl).1⟩

namespace Trail
variable {ρ : Run (writer slot itemSize false) (reader slot itemSize) ι m₀}
  {γ : Nat → State itemSize.toNat} (h : Trail ρ γ)
include h

theorem grows {t u : Nat} (htu : t ≤ u) : Grows (γ t) (γ u) := by
  induction u, htu using Nat.le_induction with
  | base => exact .refl _
  | succ u _ ih =>
    refine ih.trans ?_
    rcases h.allowed u with hg | ⟨c, hc, ha⟩
    · rw [hg]; exact .refl _
    · exact ha.grows fun ho => absurd (hc ho) Bool.false_ne_true

theorem prefixes (t : Nat) : Prefixes (γ t) := by
  refine (h.grows (Nat.zero_le t)).prefixes ?_
  rw [h.zero]
  intro b x hx
  cases hx

theorem size_le_contents {t : Nat} {b : Nat} {x : Node} (hx : (γ t).heap b = some x) :
    x.size ≤ (contents (γ t)).length := by
  rw [← x.length_items]
  exact (h.prefixes t b x hx).length_le

/-- The buffer that is current at `w` holds at `u` all that was committed by `w`. -/
theorem contents_le_size {w u : Nat} (hwu : w ≤ u) {b : Nat} (hb : (γ w).cur = some b) {x : Node}
    (hx : (γ u).heap b = some x) : (contents (γ w)).length ≤ x.size := by
  obtain ⟨y, hy, hle⟩ := (h.grows hwu).size_le b _ ((h.inv w).cur_node hb)
  rw [hx] at hy
  cases hy
  rw [contents, Node.length_items]
  exact hle

theorem length_mono {t u : Nat} (htu : t ≤ u) :
    (contents (γ t)).length ≤ (contents (γ u)).length := (h.grows htu).contents_le.length_le

theorem given_mono {i : UInt32} {a : Addr} {t u : Nat} (hg : Given γ i a t) (htu : t ≤ u) :
    Given γ i a u := by
  obtain ⟨ho, ⟨w, hw, hc⟩, x, hx, hi⟩ := hg
  obtain ⟨y, hy, hle⟩ := (h.grows htu).size_le _ x hx
  exact ⟨ho, ⟨w, by omega, hc⟩, y, hy, Nat.lt_of_lt_of_le hi hle⟩

theorem logOk_mono {log : List (RCall × RVal)} {t u : Nat} (hl : LogOk γ log t) (htu : t ≤ u) :
    LogOk γ log u where
  sorted := hl.sorted
  bounded s hs := Nat.le_trans (hl.bounded s hs) (h.length_mono htu)
  given i a hm := h.given_mono (hl.given i a hm) htu
  found := hl.found
  copied i a cs hm := prefix_get (h.grows htu).contents_le (hl.copied i a cs hm)

theorem logOk_size {log : List (RCall × RVal)} {t u : Nat} {n : UInt32} (hl : LogOk γ log t)
    (htu : t ≤ u) (hlo : (contents (γ t)).length ≤ n.toNat)
    (hhi : n.toNat ≤ (contents (γ u)).length) : LogOk γ (log ++ [(.size, .size n)]) u := by
  have hl' := h.logOk_mono hl htu
  have hs : sizes RVal.observed (log ++ [(.size, .size n)]) =
      sizes RVal.observed log ++ [n.toNat] := sizes_append ..
  refine ⟨?_, ?_, ?_, ?_, ?_⟩
  · rw [hs, List.pairwise_append]
    refine ⟨hl.sorted, List.pairwise_singleton .., fun s hs' n' hn' => ?_⟩
    rw [List.mem_singleton.mp hn']
    exact Nat.le_trans (hl.bounded s hs') hlo
  · intro s hs'
    rw [hs] at hs'
    rcases mem_concat hs' with hs' | rfl
    · exact hl'.bounded s hs'
    · exact hhi
  · intro i a hm
    rcases mem_concat hm with hm | hm
    · exact hl'.given i a hm
    · cases hm
  · intro l₁ i p l₂ he hlt
    rcases concat_eq_append_cons he with ⟨l₃, he⟩ | ⟨_, he⟩
    · exact hl.found l₁ i p l₃ he hlt
    · cases he
  · intro i a cs hm
    rcases mem_concat hm with hm | hm
    · exact hl'.copied i a cs hm
    · cases hm

theorem logOk_get {log : List (RCall × RVal)} {t u : Nat} {i : UInt32} {p : Ptr}
    (hl : LogOk γ log t) (htu : t ≤ u) (hp : ∀ a, p = some a → Given γ i a u)
    (hsome : i.toNat < (contents (γ t)).length → ∃ a, p = some a) :
    LogOk γ (log ++ [(.get i, .elem p)]) u := by
  have hl' := h.logOk_mono hl htu
  have hs : sizes RVal.observed (log ++ [(.get i, .elem p)]) = sizes RVal.observed log := by
    rw [sizes_append]; exact List.append_nil _
  refine ⟨by rw [hs]; exact hl.sorted, by rw [hs]; exact hl'.bounded, ?_, ?_, ?_⟩
  · intro j a hm
    rcases mem_concat hm with hm | hm
    · exact hl'.given j a hm
    · cases hm; exact hp a rfl
  · intro l₁ j q l₂ he hlt
    rcases concat_eq_append_cons he with ⟨l₃, he⟩ | ⟨hl₁, he⟩
    · exact hl.found l₁ j q l₃ he hlt
    · cases he
      obtain ⟨s, hs', hlt⟩ := hlt
      rw [← hl₁] at hs'
      exact hsome (Nat.lt_of_lt_of_le hlt (hl.bounded s hs'))
  · intro j a cs hm
    rcases mem_concat hm with hm | hm
    · exact hl'.copied j a cs hm
    · cases hm

theorem logOk_copy {log : List (RCall × RVal)} {t u : Nat} {i : UInt32} {a : Addr}
    {cs : List Cell} (hl : LogOk γ log t) (htu : t ≤ u)
    (hcs : (contents (γ u))[i.toNat]? = some cs) :
    LogOk γ (log ++ [(.copy i a, .bytes cs)]) u := by
  have hl' := h.logOk_mono hl htu
  have hs : sizes RVal.observed (log ++ [(.copy i a, .bytes cs)]) = sizes RVal.observed log := by
    rw [sizes_append]; exact List.append_nil _
  refine ⟨by rw [hs]; exact hl.sorted, by rw [hs]; exact hl'.bounded, ?_, ?_, ?_⟩
  · intro j b hm
    rcases mem_concat hm with hm | hm
    · exact hl'.given j b hm
    · cases hm
  · intro l₁ j q l₂ he hlt
    rcases concat_eq_append_cons he with ⟨l₃, he⟩ | ⟨_, he⟩
    · exact hl.found l₁ j q l₃ he hlt
    · cases he
  · intro j b ds hm
    rcases mem_concat hm with hm | hm
    · exact hl'.copied j b ds hm
    · cases hm; exact hcs

/-- A call made after a good log makes it a longer good log. -/
theorem call_logOk (hn : itemSize ≠ 0) {log : List (RCall × RVal)} {c : RCall} {p : CProg RVal}
    {t : Nat} (hl : LogOk γ log t) (hp : (reader slot itemSize).code log c = some p) :
    p.Sampled ρ.state (fun v u => LogOk γ (log ++ [(c, v)]) u) t := by
  cases c with
  | size =>
    cases hp
    refine Prog.Sampled.bind ((h.shown.size_sampled t).mono ?_)
    rintro n u - ⟨w, htw, hwu, hv⟩
    have hlen := h.length_mono htw
    cases hc : (γ w).cur with
    | none =>
      rw [hc] at hv
      have hempty : (contents (γ w)).length = 0 := by rw [contents, cur_none hc]; rfl
      exact h.logOk_size hl (by omega) (by omega) (by omega)
    | some b =>
      rw [hc] at hv
      obtain ⟨x, hx, hv⟩ := hv
      have hlo := h.contents_le_size hwu hc hx
      have hhi := h.size_le_contents hx
      exact h.logOk_size hl (by omega) (by omega) (by omega)
  | get i =>
    cases hp
    refine Prog.Sampled.bind ((h.shown.get_sampled hn i t).mono ?_)
    rintro q u - ⟨w, htw, hwu, hq⟩
    have hlen := h.length_mono htw
    cases hc : (γ w).cur with
    | none =>
      rw [hc] at hq
      have hempty : (contents (γ w)).length = 0 := by rw [contents, cur_none hc]; rfl
      exact h.logOk_get hl (by omega) (fun a ha => by rw [hq] at ha; cases ha) (by omega)
    | some b =>
      rw [hc] at hq
      obtain ⟨x, hx, rfl⟩ := hq
      have hlo := h.contents_le_size hwu hc hx
      refine h.logOk_get hl (by omega) (fun a ha => ?_) fun hi => ?_
      · split at ha
        · rename_i hi
          cases ha
          exact ⟨rfl, ⟨w, hwu, hc⟩, x, hx, hi⟩
        · cases ha
      · exact ⟨_, if_pos (by omega)⟩
  | copy i a =>
    simp only [reader] at hp
    split at hp
    · rename_i hm
      cases hp
      refine (h.copy_sampled hn (hl.given i a hm).held).mono ?_
      rintro r u - ⟨htu, x, v, hx, hv, rfl⟩
      refine h.logOk_copy hl htu ?_
      obtain ⟨_, _, y, hy, hi⟩ := h.given_mono (hl.given i a hm) htu
      rw [hx] at hy
      cases hy
      exact prefix_get (h.prefixes u _ x hx) ((x.items_get hi).trans hv)
    · cases hp

end Trail

/-- **Array readers see what was pushed, from the beginning.** In any
interleaving of pushes and reserves with any number of readers: no thread ever
accesses memory outside a block; the sizes one reader observes never decrease;
an index below an observed size gives an element of a buffer the slot had, and
every copy of it, whenever made, is the committed element of that index, which
is the value the writer has filled in; and committed elements stay. -/
theorem array_reads_pushed_prefix (h0 : Zeroed m₀ slot) (hs : m₀.script = []) (hn : itemSize ≠ 0)
    (ρ : Run (writer slot itemSize false) (reader slot itemSize) ι m₀) :
    (∀ t, ¬ (ρ.sys t).writer.Faults (ρ.state t) ∧
      ∀ i, ¬ ((ρ.sys t).reader i).Faults (ρ.state t)) ∧
    (∀ t i, (sizes RVal.observed ((ρ.sys t).reader i).log).Pairwise (· ≤ ·)) ∧
    (∀ t i l₁ k p l₂, ((ρ.sys t).reader i).log = l₁ ++ (.get k, .elem p) :: l₂ →
      (∃ s ∈ sizes RVal.observed l₁, k.toNat < s) → ∃ a w b, p = some a ∧ w ≤ t ∧
        bufPtr (ρ.state w) slot = some b ∧ a = b + (8 + k.toNat * itemSize.toNat) ∧
        (ρ.state t).Valid a itemSize.toNat) ∧
    (∀ t i k a cs, (.copy k a, .bytes cs) ∈ ((ρ.sys t).reader i).log →
      (arrayElems (ρ.state t) slot itemSize.toNat)[k.toNat]? = some cs) ∧
    (∀ t log, (ρ.sys t).writer = ⟨log, none⟩ →
      arrayElems (ρ.state t) slot itemSize.toNat = (pushes itemSize.toNat log).done) ∧
    ∀ t u, t ≤ u → arrayElems (ρ.state t) slot itemSize.toNat <+:
      arrayElems (ρ.state u) slot itemSize.toNat := by
  obtain ⟨γ, h⟩ := exists_trail (reader_only slot itemSize) h0 hs hn ρ
  have hlog (i : ι) (t : Nat) := ρ.log_inv (I := LogOk γ) (logOk_nil γ 0)
    (fun _ _ _ hl htu => h.logOk_mono hl htu) (fun _ _ _ _ hl hp => h.call_logOk hn hl hp) i t
  refine ⟨fun t => ⟨h.writer_not_faults t, fun i => (hlog i t).2⟩,
    fun t i => (hlog i t).1.sorted, ?_, ?_, ?_, ?_⟩
  · intro t i l₁ k p l₂ he hlt
    obtain ⟨a, rfl⟩ := (hlog i t).1.found l₁ k p l₂ he hlt
    have hg : Given γ k a t := (hlog i t).1.given k a (by rw [he]; simp)
    have hvalid := (h.copy_reads hn hg.held).1
    obtain ⟨ho, ⟨w, hw, hc⟩, _⟩ := hg
    refine ⟨a, w, ⟨a.block, 0⟩, rfl, hw, ?_, ?_, hvalid⟩
    · rw [(h.inv w).bufPtr_eq, hc]; rfl
    · rw [Addr.mk_add, Nat.zero_add, ← ho]
  · intro t i k a cs hm
    rw [(h.inv t).arrayElems_eq]
    exact (hlog i t).1.copied k a cs hm
  · intro t log hw
    have hat := h.at_writer t
    rw [hw] at hat
    rw [(h.inv t).arrayElems_eq]
    exact hat.2.2.done.symm
  · intro t u htu
    rw [(h.inv t).arrayElems_eq, (h.inv u).arrayElems_eq]
    exact (h.grows htu).contents_le

/-! A run: the writer pushes the one-byte element 7, a reader asks for the size,
gets the element and copies it. -/

def pushThenCopy (t : Nat) : Choice (writer ⟨0, 0⟩ 1 false) (reader ⟨0, 0⟩ 1) Unit :=
  if t < 11 then .writer .prepare
  else if t < 14 then .writer (.fill 0 [.byte 7])
  else if t < 19 then .writer .commit
  else if t < 23 then .reader () .size
  else if t < 27 then .reader () (.get 0)
  else .reader () (.copy 0 ⟨1, 8⟩)

theorem array_reads_pushed_prefix_of_run :
    (arrayElems ((Run.ofSchedule zeroedSlot pushThenCopy).state 30) ⟨0, 0⟩ 1)[0]? =
      some [.byte 7] := by
  have h := array_reads_pushed_prefix zeroedSlot_zeroed rfl (by decide)
    (Run.ofSchedule zeroedSlot pushThenCopy)
  have hlog : (((Run.ofSchedule zeroedSlot pushThenCopy).sys 30).reader ()).log =
      [(.size, .size 1), (.get 0, .elem (some ⟨1, 8⟩)), (.copy 0 ⟨1, 8⟩, .bytes [.byte 7])] := rfl
  exact h.2.2.2.1 30 () 0 ⟨1, 8⟩ [.byte 7] (by rw [hlog]; simp)

end Msm.Arr
