import Msm.Obj.Clients

/-! # FNV-1a

A round is a bijection of the hash for each byte, as the prime is odd, and for
each hash it takes different bytes to different hashes. So what differs in one
byte never hashes to the same value; and a hash is zero exactly when the last
byte repeats the hash of the bytes before it. -/
namespace Msm.Hash
open Msm.Api Msm.Obj

/-! ## Folds -/

section fold
variable {α β : Type} {step : β → α → β}

theorem foldl_injective (hstep : ∀ c, Function.Injective (step · c)) (cs : List α) :
    Function.Injective (cs.foldl step ·) := by
  induction cs with
  | nil => exact Function.injective_id
  | cons c cs ih => exact ih.comp (hstep c)

/-- Inputs that differ in one place only. -/
theorem foldl_ne_of_one (hstep : ∀ c, Function.Injective (step · c))
    (hin : ∀ x, Function.Injective (step x)) {b c : α} (hne : b ≠ c) (p q : List α) (x : β) :
    (p ++ b :: q).foldl step x ≠ (p ++ c :: q).foldl step x := by
  rw [List.foldl_append, List.foldl_append, List.foldl_cons, List.foldl_cons]
  exact fun h => hne (hin _ (foldl_injective hstep q h))

end fold

/-! ## A round -/

section round
variable {a b h h' : UInt64} {c c' : UInt8}

/-- The inverse of the prime modulo `2 ^ 64`. -/
def fnvInverse : UInt64 := 14886173955864302971

theorem fnvPrime_mul_fnvInverse : fnvPrime * fnvInverse = 1 := by decide

theorem mul_fnvPrime_inj : a * fnvPrime = b * fnvPrime ↔ a = b := by
  constructor
  · intro hab
    have hmul := congrArg (· * fnvInverse) hab
    simpa only [UInt64.mul_assoc, fnvPrime_mul_fnvInverse, UInt64.mul_one] using hmul
  · rintro rfl
    rfl

theorem toUInt64_inj : c.toUInt64 = c'.toUInt64 ↔ c = c' := by
  constructor
  · intro hc
    have hnat := congrArg UInt64.toNat hc
    rw [UInt8.toNat_toUInt64, UInt8.toNat_toUInt64] at hnat
    exact UInt8.toNat_inj.mp hnat
  · rintro rfl
    rfl

theorem fnvStep_left_inj : fnvStep h c = fnvStep h' c ↔ h = h' := by
  rw [fnvStep, fnvStep, mul_fnvPrime_inj, UInt64.xor_left_inj]

theorem fnvStep_right_inj : fnvStep h c = fnvStep h c' ↔ c = c' := by
  rw [fnvStep, fnvStep, mul_fnvPrime_inj, UInt64.xor_right_inj, toUInt64_inj]

theorem fnvStep_injective_left (c : UInt8) : Function.Injective (fnvStep · c) :=
  fun _ _ hab => fnvStep_left_inj.mp hab

theorem fnvStep_injective_right (h : UInt64) : Function.Injective (fnvStep h) :=
  fun _ _ hbc => fnvStep_right_inj.mp hbc

theorem fnvStep_eq_zero_iff : fnvStep h c = 0 ↔ h = c.toUInt64 := by
  have hzero : (0 : UInt64) = 0 * fnvPrime := (UInt64.zero_mul ..).symm
  rw [fnvStep, hzero, mul_fnvPrime_inj, UInt64.xor_eq_zero_iff]

end round

/-! ## The hash of a string -/

theorem hashName_strlen (s : CStr) : hashName s (strlen s) = msmSchemaHashFnv1a (some s) := by
  rw [hashName, strlen, List.take_length]
  rfl

/-- A hash is zero exactly when the last byte is the hash of those before it. -/
theorem schemaHash_eq_zero_iff (s : CStr) (hs : s.bytes ≠ []) :
    msmSchemaHashFnv1a (some s) = 0 ↔
      hashName s (strlen s - 1) = (s.bytes.getLast hs).toUInt64 := by
  have hsplit := List.dropLast_append_getLast hs
  have hhash : msmSchemaHashFnv1a (some s) =
      fnvStep (hashName s (strlen s - 1)) (s.bytes.getLast hs) := by
    rw [msmSchemaHashFnv1a, hashName, strlen, ← List.dropLast_eq_take]
    conv_lhs => rw [← hsplit]
    rw [List.foldl_append]
    rfl
  rw [hhash, fnvStep_eq_zero_iff]

/-- The strings have the same length and differ in exactly one position. -/
def DifferOnce (s t : List UInt8) : Prop :=
  s.length = t.length ∧ ∃ i : Nat, s[i]? ≠ t[i]? ∧ ∀ j : Nat, j ≠ i → s[j]? = t[j]?

theorem DifferOnce.split {s t : List UInt8} (h : DifferOnce s t) :
    ∃ p b c q, s = p ++ b :: q ∧ t = p ++ c :: q ∧ b ≠ c := by
  obtain ⟨hlen, i, hi, hsame⟩ := h
  have hlt : i < s.length := by
    by_contra hge
    exact hi ((List.getElem?_eq_none (by omega)).trans (List.getElem?_eq_none (by omega)).symm)
  have hlt' : i < t.length := hlen ▸ hlt
  have htake : s.take i = t.take i := by
    refine List.ext_getElem? fun j => ?_
    rw [List.getElem?_take, List.getElem?_take]
    split
    · exact hsame j (by omega)
    · rfl
  have hdrop : s.drop (i + 1) = t.drop (i + 1) := by
    refine List.ext_getElem? fun j => ?_
    rw [List.getElem?_drop, List.getElem?_drop]
    exact hsame _ (by omega)
  refine ⟨s.take i, s[i], t[i], s.drop (i + 1), ?_, ?_, fun hb => hi ?_⟩
  · rw [← List.drop_eq_getElem_cons hlt, List.take_append_drop]
  · rw [htake, hdrop, ← List.drop_eq_getElem_cons hlt', List.take_append_drop]
  · rw [List.getElem?_eq_getElem hlt, List.getElem?_eq_getElem hlt', hb]

theorem hash_ne_of_differOnce {s t : List UInt8} (h : DifferOnce s t) :
    s.foldl fnvStep fnvOffsetBasis ≠ t.foldl fnvStep fnvOffsetBasis := by
  obtain ⟨p, b, c, q, rfl, rfl, hne⟩ := h.split
  exact foldl_ne_of_one fnvStep_injective_left fnvStep_injective_right hne p q fnvOffsetBasis

/-- **One changed byte changes the hash.** Two byte strings that differ in one
position have different hashes under `hash_name`; without NULs, `hash_name` over
the whole string is the schema hash. So schema strings that differ in one
character have different schema hashes, and names shorter than 65536 bytes that
do stand for different fields, to `remove` as to the other calls. -/
theorem one_byte_changes_hash :
    (∀ s t : List UInt8, DifferOnce s t →
      hashNameBytes s s.length ≠ hashNameBytes t t.length) ∧
    (∀ s t : CStr, DifferOnce s.bytes t.bytes →
      msmSchemaHashFnv1a (some s) ≠ msmSchemaHashFnv1a (some t)) ∧
    (∀ s : CStr, hashName s (strlen s) = msmSchemaHashFnv1a (some s) ∧
      hashNameBytes s.bytes s.bytes.length = msmSchemaHashFnv1a (some s)) ∧
    ∀ s t : CStr, strlen s < 65536 → strlen t < 65536 → DifferOnce s.bytes t.bytes →
      key s ≠ key t ∧ key16 s ≠ key16 t := by
  refine ⟨fun s t h => ?_, fun s t h => hash_ne_of_differOnce h, fun s => ⟨hashName_strlen s, ?_⟩,
    fun s t hs ht h => ?_⟩
  · rw [hashNameBytes, hashNameBytes, List.take_length, List.take_length]
    exact hash_ne_of_differOnce h
  · rw [hashNameBytes, List.take_length]
    rfl
  · have hkey : key s ≠ key t := by
      rw [key, key, hashName_strlen, hashName_strlen]
      exact hash_ne_of_differOnce h
    rw [key16_eq hs, key16_eq ht]
    exact ⟨hkey, hkey⟩

/-! The strings "schema_v1" and "schema_v2". -/

def schemaV1 : CStr := ⟨[115, 99, 104, 101, 109, 97, 95, 118, 49], by decide⟩
def schemaV2 : CStr := ⟨[115, 99, 104, 101, 109, 97, 95, 118, 50], by decide⟩

theorem one_byte_changes_hash_v1_v2 :
    msmSchemaHashFnv1a (some schemaV1) ≠ msmSchemaHashFnv1a (some schemaV2) ∧
      key16 schemaV1 ≠ key16 schemaV2 := by
  have h : DifferOnce schemaV1.bytes schemaV2.bytes := by
    refine ⟨rfl, 8, by decide, fun j hj => ?_⟩
    rcases Nat.lt_or_ge j 8 with hlt | hge
    · exact (show ∀ j < 8, schemaV1.bytes[j]? = schemaV2.bytes[j]? by decide) j hlt
    · rw [List.getElem?_eq_none (by simp [schemaV1]; omega),
        List.getElem?_eq_none (by simp [schemaV2]; omega)]
  obtain ⟨_, hschema, _, hnames⟩ := one_byte_changes_hash
  exact ⟨hschema _ _ h, (hnames _ _ (by decide) (by decide) h).2⟩

end Msm.Hash
