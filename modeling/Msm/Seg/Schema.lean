import Msm.Hash.Fnv
import Msm.Seg.Runs

/-! # Regions with and without a schema

A region allocated without a schema has the hash 0. The hash of a schema string
is 0 too when its last byte repeats the hash of the bytes before it; nothing then
tells the two regions apart. -/
namespace Msm.Seg
open Msm.Exec Msm.CMem Msm.Api

/-- The call that allocated what is live under `name`, after one more call. -/
def Call.origin (name : CStr) (o : Option Call) : Call × Val → Option Call
  | (.alloc (some n) size d, .ptr (some _)) => if n = name then some (.alloc (some n) size d) else o
  | (.allocWithSchema (some n) size h d, .ptr (some _)) =>
    if n = name then some (.allocWithSchema (some n) size h d) else o
  | (.free (some n), _) => if n = name then none else o
  | _ => o

/-- The latest successful allocation of `name` not followed by `msm_free(name)`, as a call. -/
def origin (log : List (Call × Val)) (name : CStr) : Option Call :=
  log.foldl (Call.origin name) none

/-- The hash an allocation attaches. -/
def Call.attached : Call → UInt64
  | .allocWithSchema _ _ h _ => h
  | _ => 0

/-- `msm_get_schema_hash` and `msm_get_with_schema(·, 0)` tell a region allocated
with the schema string from one allocated without a schema, after any calls. -/
def Distinguishable (schema : CStr) : Prop :=
  ∀ (m m' : Mem) (log log' : List (Call × Val)) (s s' : Process) (n n' : CStr) (size size' : UInt64)
    (d d' : Option DestructorFn), Reaches ⟨[], m⟩ log s → Reaches ⟨[], m'⟩ log' s' →
    origin log n = some (.allocWithSchema (some n) size (msmSchemaHashFnv1a (some schema)) d) →
    origin log' n' = some (.alloc (some n') size' d') →
    (msmGetSchemaHash (some n) s).map Prod.fst ≠ (msmGetSchemaHash (some n') s').map Prod.fst ∧
      Aborts (Call.exec s (.getWithSchema (some n) 0)) ∧
      ¬ Aborts (Call.exec s' (.getWithSchema (some n') 0))

section schema
variable {log : List (Call × Val)} {s : Process} {m : Mem} {n name : CStr} {c : Call}

/-- Both of what is live and of the call that made it, by any call. -/
theorem origin_step {o : Option Call} {e : Option Entry}
    (h : o.map Call.attached = e.map Entry.schemaHash) (x : Call × Val) :
    (Call.origin name o x).map Call.attached = (Call.live name e x).map Entry.schemaHash := by
  obtain ⟨c, v⟩ := x
  have hif {k : CStr} {o' : Option Call} {e' : Option Entry}
      (h' : o'.map Call.attached = e'.map Entry.schemaHash) :
      (if k = name then o' else o).map Call.attached =
        (if k = name then e' else e).map Entry.schemaHash := by
    split
    · exact h'
    · exact h
  cases c with
  | alloc k size d =>
    rcases k with _ | k
    · exact h
    · rcases v with (_ | p) | _ | _
      · exact h
      · exact hif rfl
      · exact h
      · exact h
  | allocWithSchema k size hash d =>
    rcases k with _ | k
    · exact h
    · rcases v with (_ | p) | _ | _
      · exact h
      · exact hif rfl
      · exact h
      · exact h
  | free k =>
    rcases k with _ | k
    · exact h
    · exact hif rfl
  | getWithSchema k hash => exact h
  | getSchemaHash k => exact h
  | get k => exact h

/-- What is live has the hash of the call that allocated it. -/
theorem live_of_origin (ho : origin log name = some c) :
    ∃ e, live log name = some e ∧ e.schemaHash = c.attached := by
  have hfold (o : Option Call) (e : Option Entry) (h : o.map Call.attached = e.map Entry.schemaHash) :
      (log.foldl (Call.origin name) o).map Call.attached =
        (log.foldl (Call.live name) e).map Entry.schemaHash := by
    clear ho
    induction log generalizing o e with
    | nil => exact h
    | cons x log ih => exact ih _ _ (origin_step h x)
  have hmap := hfold none none rfl
  rw [← origin, ← live, ho] at hmap
  obtain ⟨e, he, hh⟩ := Option.map_eq_some_iff.mp hmap.symm
  exact ⟨e, he, hh⟩

/-- What a region answers about its hash. -/
theorem answers_of_origin (h : Reaches ⟨[], m⟩ log s) (ho : origin log n = some c) :
    (msmGetSchemaHash (some n) s).map Prod.fst = .ok c.attached ∧
      (Aborts (Call.exec s (.getWithSchema (some n) 0)) ↔ c.attached ≠ 0) := by
  obtain ⟨e, he, hh⟩ := live_of_origin ho
  have hA := h.inv.answers
  have harg : liveArg log (some n) = some e := he
  have hf := h.inv.find n
  constructor
  · simp only [msmGetSchemaHash, hf, he, Except.map, hh]
  · constructor
    · intro ha h0
      have hsame := hA.schema_same (some n) e harg
      rw [hh, h0] at hsame
      rw [hsame] at ha
      exact aborts_ok _ ha
    · intro hne
      exact hA.schema_other (some n) 0 e harg (by rw [hh]; exact hne.symm)

/-- **A schema string marks its region exactly when its last byte is not the hash
of the bytes before it.** Then its hash is not 0, and the region is told from
those without a schema. -/
theorem schema_marks_iff (schema : CStr) (hs : schema.bytes ≠ []) :
    (msmSchemaHashFnv1a (some schema) ≠ 0 ∧ Distinguishable schema) ↔
      hashName schema (strlen schema - 1) ≠ (schema.bytes.getLast hs).toUInt64 := by
  rw [Ne, Ne, ← Hash.schemaHash_eq_zero_iff schema hs]
  refine and_iff_left_of_imp fun hne => ?_
  intro m m' log log' s s' n n' size size' d d' h h' ho ho'
  obtain ⟨hhash, habort⟩ := answers_of_origin h ho
  obtain ⟨hhash', habort'⟩ := answers_of_origin h' ho'
  refine ⟨?_, habort.mpr hne, fun ha => habort'.mp ha rfl⟩
  rw [hhash, hhash']
  exact fun he => hne (Except.ok.inj he)

end schema

/-! "schema_v1" marks its region; "77kepQFQ8Kl" hashes to 0. -/

theorem schema_marks_iff_v1 :
    msmSchemaHashFnv1a (some Hash.schemaV1) ≠ 0 ∧ Distinguishable Hash.schemaV1 :=
  (schema_marks_iff Hash.schemaV1 (by decide)).mpr (by decide)

def zeroSchema : CStr := ⟨[55, 55, 107, 101, 112, 81, 70, 81, 56, 75, 108], by decide⟩

theorem zeroSchema_unmarked : zeroSchema.bytes ≠ [] ∧ msmSchemaHashFnv1a (some zeroSchema) = 0 ∧
    ¬ ∀ schema : CStr, schema.bytes ≠ [] →
      msmSchemaHashFnv1a (some schema) ≠ 0 ∧ Distinguishable schema := by
  have hzero : msmSchemaHashFnv1a (some zeroSchema) = 0 := by decide
  refine ⟨by decide, hzero, fun h => ?_⟩
  exact (h zeroSchema (by decide)).1 hzero

end Msm.Seg
