import Bbkar.DestMeta

/-!
# Errors, policies and plans

Besides returning an error, a Rust call may panic or never return: a recursion without
end overflows the stack, a loop without end hangs. `BR` keeps the three apart.
-/
namespace Bbkar

inductive BbkarError where
  | io (msg : String)
  | yaml (msg : String)
  | openDal (msg : String)
  | config (msgs : List String)
  | plan (msg : String)
  | execution (msg : String)
  | invalidSourcePath (path : String)
  | otherError (msg : String)
  deriving DecidableEq, Repr

/-- The ways a call ends without a value. -/
inductive Halt where
  | err (e : BbkarError)
  | panic
  | diverges
  deriving DecidableEq, Repr

abbrev BR := Except Halt

/-- `unwrap`, and a slice whose bounds are checked at run time. -/
def orPanic {α : Type} : Option α → BR α
  | some a => .ok a
  | none => .error .panic

structure CalendarDuration where
  days : ℕ
  deriving DecidableEq, Repr

/-- When new snapshots are sent in full. `none` means no depth limit. -/
structure SendPolicy where
  minFullSendInterval : CalendarDuration
  maxIncrementalDepth : Option ℕ
  deriving DecidableEq, Repr

inductive RunStep where
  | sendFull (snap : Timestamp)
  | sendIncremental (snap parent : Timestamp)
  deriving DecidableEq, Repr

namespace RunStep

def snap : RunStep → Timestamp
  | sendFull s => s
  | sendIncremental s _ => s

/-- The parent timestamp that `run` records for the step. -/
def parentRaw : RunStep → Option String
  | sendFull _ => none
  | sendIncremental _ p => some p.raw

@[simp] theorem snap_sendFull (s : Timestamp) : (sendFull s).snap = s := rfl
@[simp] theorem snap_sendIncremental (s p : Timestamp) : (sendIncremental s p).snap = s := rfl
@[simp] theorem parentRaw_sendFull (s : Timestamp) : (sendFull s).parentRaw = none := rfl
@[simp] theorem parentRaw_sendIncremental (s p : Timestamp) :
    (sendIncremental s p).parentRaw = some p.raw := rfl

/-- The archive `run` records once the step is written. -/
def archive (step : RunStep) (chunks : List ChunkFilename) : VolumeArchive :=
  ⟨step.snap, step.parentRaw, chunks⟩

@[simp] theorem archive_timestamp (step : RunStep) (chunks : List ChunkFilename) :
    (step.archive chunks).timestamp = step.snap := rfl
@[simp] theorem archive_raw (step : RunStep) (chunks : List ChunkFilename) :
    (step.archive chunks).raw = step.snap.raw := rfl
@[simp] theorem archive_parentTimestamp (step : RunStep) (chunks : List ChunkFilename) :
    (step.archive chunks).parentTimestamp = step.parentRaw := rfl

end RunStep

structure RunPlan where
  steps : List RunStep
  deriving DecidableEq, Repr

inductive RestoreStep where
  | receiveFull (snap : Timestamp)
  | receiveIncremental (snap parent : Timestamp)
  deriving DecidableEq, Repr

def RestoreStep.snap : RestoreStep → Timestamp
  | receiveFull s => s
  | receiveIncremental s _ => s

@[simp] theorem RestoreStep.snap_receiveFull (s : Timestamp) : (receiveFull s).snap = s := rfl
@[simp] theorem RestoreStep.snap_receiveIncremental (s p : Timestamp) :
    (receiveIncremental s p).snap = s := rfl

structure RestorePlan where
  steps : List RestoreStep
  deriving DecidableEq, Repr

end Bbkar
