import Msm.Arr.Growable
import Msm.Rec.Lens

/-! # Fields of records and of array elements read back

Any writes of primitive fields, through nested paths into a record, or through
`emplace_back` and paths into the elements of an array of records: a field then
reads as the last value written to it, and if none was, as it did before. -/
namespace Msm.Rec
open Msm.Exec Msm.CMem Msm.Api Msm.Arr Msm.Arr.Growable

/-- A write through a path. -/
abbrev Write := Path × Scalar

def lastWrite : List Write → Path → Option Scalar
  | [], _ => none
  | w :: ws, path => (lastWrite ws path).or (if w.1 = path then some w.2 else none)

/-! ## The bytes of a record after writes -/

/-- The value at the end of a path. -/
def valueAt (t : Ty) (cs : List Cell) (path : Path) (k : Prim) : Option Scalar :=
  (t.resolve path).bind fun x => peek cs x.1 k

def written (t : Ty) (cs : List Cell) (w : Write) : List Cell :=
  match t.resolve w.1 with
  | some x => poke cs x.1 w.2
  | none => cs

section bytes
variable {t : Ty} {cs : List Cell} {w : Write} {path : Path} {k : Prim}

theorem valueAt_written (hlen : cs.length = t.size) (hw : t.Names w.1 w.2.prim)
    (hp : t.Names path k) : valueAt t (written t cs w) path k =
      if w.1 = path then some w.2 else valueAt t cs path k := by
  obtain ⟨o, ho⟩ := hw.resolve
  obtain ⟨o', ho'⟩ := hp.resolve
  have hle : o + w.2.prim.size ≤ cs.length := by
    rw [hlen]
    exact resolve_le ho
  simp only [valueAt, written, ho, ho', Option.bind_some]
  split
  · rename_i he
    rw [he, ho'] at ho
    cases ho
    exact peek_poke_same hle
  · rename_i hne
    exact peek_poke_other hle (resolve_disjoint ho ho' hne)

theorem length_written (hlen : cs.length = t.size) (hw : t.Names w.1 w.2.prim) :
    (written t cs w).length = t.size := by
  obtain ⟨o, ho⟩ := hw.resolve
  have hle : o + w.2.prim.size ≤ cs.length := by
    rw [hlen]
    exact resolve_le ho
  simp only [written, ho]
  rw [length_poke hle, hlen]

/-- After any writes a field has the last value written to it. -/
theorem valueAt_writes {ws : List Write} (hlen : cs.length = t.size)
    (hws : ∀ w ∈ ws, t.Names w.1 w.2.prim) (hp : t.Names path k) :
    valueAt t (ws.foldl (written t) cs) path k = (lastWrite ws path).or (valueAt t cs path k) := by
  induction ws generalizing cs with
  | nil => rfl
  | cons w ws ih =>
    have hw := hws w List.mem_cons_self
    rw [List.foldl_cons, ih (length_written hlen hw) fun x hx => hws x (List.mem_cons_of_mem w hx),
      valueAt_written hlen hw hp, lastWrite, Option.or_assoc]
    congr 1
    split <;> rfl

theorem valueAt_zeros (hp : t.Names path k) : valueAt t (zeros t.size) path k = some k.zero := by
  obtain ⟨o, ho⟩ := hp.resolve
  have hle : o + k.size ≤ t.size := resolve_le ho
  simp only [valueAt, ho, Option.bind_some]
  exact peek_zeros hle

end bytes

/-! ## A record in memory -/

/-- `record.get<n₁>()...get<nₖ>() = value`, for each write in turn. -/
def assignAll (t : Ty) (ptr : Ptr) : List Write → CProg Unit
  | [] => pure ()
  | w :: ws => do
    w.2.assign (t.fieldAt ptr w.1)
    assignAll t ptr ws

/-- What a read through a path returns. -/
def fetch (t : Ty) (m : Mem) (ptr : Ptr) (path : Path) (k : Prim) : Except Fault Scalar :=
  returned (k.read (t.fieldAt ptr path)) m

section memory
variable {t : Ty} {m : Mem} {a : Addr} {path : Path} {k : Prim}

theorem fetch_eq (hu : t.Unique) (hsize : t.size < 2 ^ 32) (hv : m.Valid a t.size)
    (hp : t.Names path k) : fetch t m (some a) path k =
      match valueAt t (m.read a t.size) path k with
      | some v => .ok v
      | none => .error .indeterminate := by
  obtain ⟨o, ho⟩ := hp.resolve
  have hle : o + k.size ≤ t.size := resolve_le ho
  rw [fetch, fieldAt_eq hu hsize ho, returned_read hv hle, valueAt, ho]
  rfl

theorem assign_path (hu : t.Unique) (hsize : t.size < 2 ^ 32) (hv : m.Valid a t.size) {w : Write}
    (hw : t.Names w.1 w.2.prim) : ∃ m', (w.2.assign (t.fieldAt (some a) w.1)).run m = .ok ((), m') ∧
      m'.Valid a t.size ∧ m'.read a t.size = written t (m.read a t.size) w := by
  obtain ⟨o, ho⟩ := hw.resolve
  have hle : o + w.2.prim.size ≤ t.size := resolve_le ho
  have hp := w.2.prim.payload_add
  have hlen := w.2.length_encode
  have hval : m.Valid (a + o + w.2.prim.payload) w.2.prim.kind.size := by
    rw [Addr.add_add]
    exact hv.mono (by omega)
  rw [fieldAt_eq hu hsize ho, assign_run hval]
  refine ⟨_, rfl, (Mem.valid_write ..).mpr hv, ?_⟩
  rw [Addr.add_add, Mem.read_write_splice hv (by omega), written, ho]
  rfl

theorem assignAll_run (hu : t.Unique) (hsize : t.size < 2 ^ 32) {ws : List Write}
    (hv : m.Valid a t.size) (hws : ∀ w ∈ ws, t.Names w.1 w.2.prim) :
    ∃ m', (assignAll t (some a) ws).run m = .ok ((), m') ∧ m'.Valid a t.size ∧
      m'.read a t.size = ws.foldl (written t) (m.read a t.size) := by
  induction ws generalizing m with
  | nil => exact ⟨m, rfl, hv, rfl⟩
  | cons w ws ih =>
    obtain ⟨m₁, hrun, hv₁, hread⟩ := assign_path hu hsize hv (hws w List.mem_cons_self)
    obtain ⟨m₂, hrun₂, hv₂, hread₂⟩ := ih hv₁ fun x hx => hws x (List.mem_cons_of_mem w hx)
    refine ⟨m₂, ?_, hv₂, ?_⟩
    · rw [assignAll, Prog.run_bind_ok hrun]
      exact hrun₂
    · rw [hread₂, hread]
      rfl

/-- Any writes through paths of a record: each field reads as last written, and
as before when it was not. -/
theorem record_reads_back (hu : t.Unique) (hsize : t.size < 2 ^ 32) {ws : List Write}
    (hv : m.Valid a t.size) (hws : ∀ w ∈ ws, t.Names w.1 w.2.prim) :
    ∃ m', (assignAll t (some a) ws).run m = .ok ((), m') ∧ ∀ path k, t.Names path k →
      fetch t m' (some a) path k = match lastWrite ws path with
        | some v => .ok v
        | none => fetch t m (some a) path k := by
  obtain ⟨m', hrun, hv', hread⟩ := assignAll_run hu hsize hv hws
  refine ⟨m', hrun, fun path k hp => ?_⟩
  rw [fetch_eq hu hsize hv' hp, fetch_eq hu hsize hv hp, hread,
    valueAt_writes (Mem.length_read ..) hws hp]
  cases lastWrite ws path <;> rfl

end memory
end Msm.Rec
