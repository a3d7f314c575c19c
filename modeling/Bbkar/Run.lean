import Bbkar.Planner
import Bbkar.ChunkedWriter
import Bbkar.Wildcard

/-!
# Running a backup

Translation of `run` with `for_each_sync` and the executor calls it makes. A valid
configuration has at most one source, one destination and one sync. Printing is left out.
A history is a list of runs, each of which may stop at any call.
-/
namespace Bbkar
open Codec Effects Function

/-! ## Executor calls -/

/-- Metadata survives serialisation, and loading it sorts once more. It is looked up under the
key it is written to. `inspectDestVolumeAt` has the path as the storage library reads it. -/
def inspectDestVolume (env : Env) (volume : String) : Act DestState := do
  let _ ← call env
  let w ← get
  match w.store (metaKey volume) with
  | none => return ⟨none⟩
  | some (.metadata m) => return ⟨some m.reload⟩
  | some (.part _) => throw (.err (.yaml "invalid metadata"))

/-- The metadata file is replaced as a whole. A call that fails may have replaced it, or may
have left its temporary file. -/
def writeMetadata (env : Env) (volume : String) (m : DestMeta) : Act Unit := do
  let w ← get
  modify World.tick
  match env.fault w.calls with
  | none => putObject (.writeMetadata volume m true) (metaKey volume) (some (.metadata m))
  | some h => do
    modify fun w' => w'.logFailure volume m (env.unrenamed w.calls)
      (if env.persisted w.calls then update w.store (metaKey volume) (some (.metadata m))
        else w.store)
    throw h

def subvolumeName (volume raw : String) : String := volume ++ "." ++ raw

theorem subvolumeName_injective (volume : String) : Injective (subvolumeName volume) := by
  intro a b h
  have hl := congrArg String.toList h
  simp only [subvolumeName, String.toList_append, List.append_cancel_left_eq] at hl
  exact String.toList_inj.mp hl

/-- `read_subvolume_full` or `read_subvolume_incremental`. Errors are items of the stream. -/
def readSubvolume (env : Env) (volume : String) : RunStep → Act SendStream
  | .sendFull snap => ask fun n => env.readSubvolumeFull n (subvolumeName volume snap.raw)
  | .sendIncremental snap parent => ask fun n =>
    env.readSubvolumeIncremental n (subvolumeName volume snap.raw)
      (subvolumeName volume parent.raw)

/-! ## The command -/

structure SyncSpec where
  name : String
  filter : List String
  send : SendPolicy

structure Config where
  backend : BackendSpec
  maxBackupChunkSize : ℕ
  sync : Option SyncSpec

structure VolumeContext where
  backend : BackendSpec
  maxBackupChunkSize : ℕ
  volume : String
  srcState : SourceState
  sendPolicy : SendPolicy

/-- Metadata is written after every snapshot, with that snapshot's archive added. -/
def executeStep (H : IncrementalHash) (Z : StreamEncoder) (env : Env) (ctx : VolumeContext)
    (destMeta : DestMeta) (step : RunStep) : Act DestMeta := do
  let stream ← readSubvolume env ctx.volume step
  let written ← writeSubvolume H Z env ctx.backend ctx.volume step.snap.raw
    ctx.maxBackupChunkSize stream
  let archive := step.archive written.1
  modify fun w => { w with
    totalBytesSent := w.totalBytesSent + archive.totalSize
    sent := w.sent.addArchive archive }
  let now ← ask env.clock
  let destMeta := (destMeta.addArchive archive).setLastSyncTimestamp now
  writeMetadata env ctx.volume destMeta
  return destMeta

/-- The metadata to extend: what the destination has, or a new one. -/
def openMeta (env : Env) (destState : DestState) : Act DestMeta :=
  match destState.destMeta with
  | some m => return m
  | none => ask fun n => DestMeta.new (env.clock n) 0 []

def executePlan (H : IncrementalHash) (Z : StreamEncoder) (env : Env) (ctx : VolumeContext)
    (destState : DestState) (plan : RunPlan) : Act (Option DestMeta) :=
  if plan.steps.isEmpty then return destState.destMeta
  else do
    let destMeta ← openMeta env destState
    let destMeta ← plan.steps.foldlM (executeStep H Z env ctx) destMeta
    return some destMeta

def runVolume (H : IncrementalHash) (Z : StreamEncoder) (env : Env) (ctx : VolumeContext) :
    Act Unit := do
  let destState ← inspectDestVolume env ctx.volume
  let plan ← liftExcept (buildPlan ctx.srcState destState ctx.sendPolicy)
  let destMeta ← executePlan H Z env ctx destState plan
  modify fun w => { w with remote := w.remote.merge (ArchiveStats.fromMeta destMeta) }

/-- The volumes of one sync, in the order of the source map. -/
def runSync (H : IncrementalHash) (Z : StreamEncoder) (env : Env) (config : Config)
    (sync : SyncSpec) : Act Unit := do
  modify fun w => { w with sent := ArchiveStats.default, remote := ArchiveStats.default }
  let _ ← call env
  let states ← liftExcept env.inspectSource
  states.forM fun state =>
    if sync.filter.any (wildcardMatch · state.1) then
      runVolume H Z env
        ⟨config.backend, config.maxBackupChunkSize, state.1, state.2, sync.send⟩
    else return

def syncNotFound (config : Config) (name : String) : BbkarError :=
  .config ["sync '" ++ name ++ "' not found in config (available: " ++
    (config.sync.map SyncSpec.name).getD "" ++ ")"]

def run (H : IncrementalHash) (Z : StreamEncoder) (env : Env) (config : Config)
    (name : Option String) : Act Unit := do
  modify fun w => { w with totalBytesSent := 0 }
  match name, config.sync with
  | none, none => return
  | none, some sync => runSync H Z env config sync
  | some name, none => throw (.err (syncNotFound config name))
  | some name, some sync =>
    if name = sync.name then runSync H Z env config sync
    else throw (.err (syncNotFound config name))

/-! ## Histories -/

/-- One run of a history, with what it found outside. -/
structure Invocation where
  env : Env
  config : Config
  name : Option String

def Invocation.run (H : IncrementalHash) (Z : StreamEncoder) (i : Invocation) : Act Unit :=
  Bbkar.run H Z i.env i.config i.name

/-- Runs one after the other, whether or not they fail. -/
def history (H : IncrementalHash) (Z : StreamEncoder) (runs : List Invocation) (w : World) :
    World :=
  session (runs.map (Invocation.run H Z)) w

end Bbkar
