import Bbkar.Plan
import Bbkar.ObjectStore
import Bbkar.Effects

/-!
# The world of a run

A run acts on the destination store. What it cannot decide (which calls fail, how many
bytes an output takes, what a failed write leaves behind, what `btrfs send` yields, the
clock) is given by an environment, asked by the number of the call. Every change of the
store is recorded with the stores around it.
-/
namespace Bbkar
open Codec Effects Function

/-! ## Data -/

/-- Chunks streamed out of a `btrfs send` process. -/
inductive BtrfsSendChunk where
  | stdoutBytes (data : Bytes) (offset : ℕ)
  | processExit (code : ℕ) (stderr : String)
  deriving DecidableEq, Repr

abbrev SendStream := List (Except BbkarError BtrfsSendChunk)

inductive BackendSpec where
  | localDir
  | objectStorage
  deriving DecidableEq, Repr

structure ArchiveStats where
  allCount : ℕ
  allSize : ℕ
  fullCount : ℕ
  fullSize : ℕ
  incrementalCount : ℕ
  incrementalSize : ℕ
  deriving DecidableEq, Repr

namespace ArchiveStats

def default : ArchiveStats := ⟨0, 0, 0, 0, 0, 0⟩

def addSize (stats : ArchiveStats) (incremental : Bool) (size : ℕ) : ArchiveStats :=
  let stats := { stats with allCount := stats.allCount + 1, allSize := stats.allSize + size }
  if incremental then
    { stats with
      incrementalCount := stats.incrementalCount + 1
      incrementalSize := stats.incrementalSize + size }
  else { stats with fullCount := stats.fullCount + 1, fullSize := stats.fullSize + size }

def addArchive (stats : ArchiveStats) (a : VolumeArchive) : ArchiveStats :=
  stats.addSize a.isIncremental a.totalSize

def fromMeta (destMeta : Option DestMeta) : ArchiveStats :=
  ((destMeta.map DestMeta.archives).getD []).foldl addArchive default

def merge (stats other : ArchiveStats) : ArchiveStats :=
  ⟨stats.allCount + other.allCount, stats.allSize + other.allSize,
    stats.fullCount + other.fullCount, stats.fullSize + other.fullSize,
    stats.incrementalCount + other.incrementalCount,
    stats.incrementalSize + other.incrementalSize⟩

end ArchiveStats

/-- What the outside answers, by call number. A failed write may leave any part files of its
snapshot behind (`leftover`, with `none` for no file); a failed metadata write may have
taken effect (`persisted`), or may leave the temporary file of a local destination
(`unrenamed`). -/
structure Env where
  fault : ℕ → Option Halt
  accept : ℕ → ℕ
  leftover : ℕ → List (ℕ × Option Bytes)
  persisted : ℕ → Bool
  unrenamed : ℕ → Option Bytes
  clock : ℕ → ℕ
  inspectSource : BR (List (String × SourceState))
  readSubvolumeFull : ℕ → String → SendStream
  readSubvolumeIncremental : ℕ → String → String → SendStream

/-- Whether some call fails. -/
def Env.Faulty (env : Env) : Prop := ∃ n h, env.fault n = some h

/-- Every call succeeds and takes one byte at a time. There is nothing to send. -/
def Env.calm : Env where
  fault := fun _ => none
  accept := fun _ => 1
  leftover := fun _ => []
  persisted := fun _ => true
  unrenamed := fun _ => none
  clock := id
  inspectSource := .ok []
  readSubvolumeFull := fun _ _ => []
  readSubvolumeIncremental := fun _ _ _ => []

/-! ## State -/

/-- What a run did: it started to write a snapshot, it changed a part file, or it handed
metadata to `write_metadata`, which returned or failed. -/
inductive Event where
  | writeSubvolume (volume snapshot : String) (stream : SendStream)
  | writePart (key : String)
  | writeMetadata (volume : String) (m : DestMeta) (returned : Bool)

structure Entry where
  event : Event
  before : Store
  after : Store

/-- Each entry, newest first, starts from the store that the entry before it ended with. -/
def Linked : Store → List Entry → Prop
  | _, [] => True
  | store, entry :: entries => entry.after = store ∧ Linked entry.before entries

/-- Whether the last write of the volume's metadata has failed. -/
def lastFailed (volume : String) : List Entry → Bool
  | [] => false
  | ⟨.writeMetadata v _ returned, _, _⟩ :: entries =>
    if v = volume then !returned else lastFailed volume entries
  | _ :: entries => lastFailed volume entries

/-- `unrenamed` are the temporary metadata files of the volumes. They are no objects of the
store, since nobody reads them, and they are there only after a write that failed. -/
structure World where
  store : Store
  calls : ℕ
  trace : List Entry
  linked : Linked store trace
  unrenamed : String → Option Bytes
  unrenamed_failed : ∀ volume, unrenamed volume ≠ none → lastFailed volume trace = true
  sent : ArchiveStats
  remote : ArchiveStats
  totalBytesSent : ℕ

namespace World

/-- A world in which nothing has happened yet. -/
def start (store : Store) : World :=
  ⟨store, 0, [], trivial, fun _ => none, fun _ h => (h rfl).elim, ArchiveStats.default,
    ArchiveStats.default, 0⟩

def tick (w : World) : World := { w with calls := w.calls + 1 }

/-- The temporary files after the event: metadata that is written replaces its file by
renaming. -/
def renames (w : World) : Event → String → Option Bytes
  | .writeMetadata volume _ true => update w.unrenamed volume none
  | _ => w.unrenamed

theorem renames_failed (w : World) (event : Event) (after : Store) (volume : String)
    (h : w.renames event volume ≠ none) :
    lastFailed volume (⟨event, w.store, after⟩ :: w.trace) = true := by
  cases event with
  | writeSubvolume v s stream => exact w.unrenamed_failed volume h
  | writePart key => exact w.unrenamed_failed volume h
  | writeMetadata v m returned =>
    unfold lastFailed
    split_ifs with hv
    · cases returned with
      | false => rfl
      | true => simp [renames, hv] at h
    · cases returned with
      | false => exact w.unrenamed_failed volume h
      | true =>
        rw [renames, update_of_ne (Ne.symm hv)] at h
        exact w.unrenamed_failed volume h

def log (event : Event) (after : Store) (w : World) : World :=
  { w with
    store := after
    trace := ⟨event, w.store, after⟩ :: w.trace
    linked := ⟨rfl, w.linked⟩
    unrenamed := w.renames event
    unrenamed_failed := w.renames_failed event after }

/-- A write of metadata that fails, and what it leaves of the temporary file. -/
def logFailure (volume : String) (m : DestMeta) (left : Option Bytes) (after : Store)
    (w : World) : World :=
  { w.log (.writeMetadata volume m false) after with
    unrenamed := update w.unrenamed volume left
    unrenamed_failed := by
      intro v h
      by_cases hv : v = volume
      · simp [log, lastFailed, hv]
      · rw [update_of_ne hv] at h
        simpa [log, lastFailed, Ne.symm hv] using w.unrenamed_failed v h }

@[simp] theorem tick_store (w : World) : w.tick.store = w.store := rfl
@[simp] theorem tick_trace (w : World) : w.tick.trace = w.trace := rfl
@[simp] theorem log_store (event : Event) (after : Store) (w : World) :
    (w.log event after).store = after := rfl
@[simp] theorem log_trace (event : Event) (after : Store) (w : World) :
    (w.log event after).trace = ⟨event, w.store, after⟩ :: w.trace := rfl
@[simp] theorem logFailure_store (volume : String) (m : DestMeta) (left : Option Bytes)
    (after : Store) (w : World) : (w.logFailure volume m left after).store = after := rfl
@[simp] theorem logFailure_trace (volume : String) (m : DestMeta) (left : Option Bytes)
    (after : Store) (w : World) : (w.logFailure volume m left after).trace =
      ⟨.writeMetadata volume m false, w.store, after⟩ :: w.trace := rfl

end World

abbrev Act (α : Type) := Exec Halt World α

/-- One call to the outside. It returns its number, unless it fails. -/
def call (env : Env) : Act ℕ := do
  let w ← get
  modify World.tick
  match env.fault w.calls with
  | some h => throw h
  | none => return w.calls

theorem wp_call {env : Env} {Q : ℕ → World → Prop} {E : Halt → World → Prop} {w : World} :
    wp (call env) Q E w ↔
      (env.fault w.calls = none → Q w.calls w.tick) ∧
        ∀ h, env.fault w.calls = some h → E h w.tick := by
  unfold call
  simp only [wp_bind, wp_get, wp_modify]
  cases env.fault w.calls <;> simp

/-- A call that cannot fail. -/
def ask {α : Type} (answer : ℕ → α) : Act α := do
  let w ← get
  modify World.tick
  return answer w.calls

@[simp] theorem wp_ask {α : Type} {answer : ℕ → α} {Q : α → World → Prop}
    {E : Halt → World → Prop} {w : World} :
    wp (ask answer) Q E w ↔ Q (answer w.calls) w.tick := by
  simp only [ask, wp_bind, wp_get, wp_modify, wp_pure]

/-- Changes one object. -/
def putObject (event : Event) (key : String) (blob : Option Blob) : Act Unit :=
  modify fun w => w.log event (update w.store key blob)

@[simp] theorem wp_putObject {event : Event} {key : String} {blob : Option Blob}
    {Q : Unit → World → Prop} {E : Halt → World → Prop} {w : World} :
    wp (putObject event key blob) Q E w ↔ Q () (w.log event (update w.store key blob)) :=
  Iff.rfl

end Bbkar
