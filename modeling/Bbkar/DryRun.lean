import Bbkar.VisitedVolumes
import Bbkar.Totals

/-!
# Dry runs

Translation of `dryrun`, which plans like `run` and prints instead of sending, and of
`measure_subvolume`, which compresses into a sink that only counts. The statistics are
added to those of the old metadata. A printed line is given by the data in it.
-/
namespace Bbkar
open Codec Effects Function

/-! ## Measuring -/

structure MeasureResult where
  uncompressed : ℕ
  compressed : ℕ
  deriving DecidableEq, Repr

/-- A compression session into a counting sink, with the bytes that went in. -/
structure MeasureSession (Z : StreamEncoder) where
  encoder : Z.State
  counter : ℕ
  uncompressed : ℕ

/-- `CountingWriter` takes every buffer as a whole. -/
def countBuffers (bufs : List Bytes) : ℕ := (bufs.map List.length).sum

def measureItem (Z : StreamEncoder) (env : Env) (session : MeasureSession Z)
    (item : Except BbkarError BtrfsSendChunk) : Act (MeasureSession Z) :=
  match item with
  | .error e => throw (.err e)
  | .ok (.processExit _ _) => return session
  | .ok (.stdoutBytes data _) => do
    let _ ← call env
    let (encoder, bufs) := Z.feed session.encoder data
    return ⟨encoder, session.counter + countBuffers bufs, session.uncompressed + data.length⟩

def measureSubvolume (Z : StreamEncoder) (env : Env) (stream : SendStream) :
    Act MeasureResult := do
  let _ ← call env
  let session ← stream.foldlM (measureItem Z env) ⟨Z.init, 0, 0⟩
  let _ ← call env
  return ⟨session.uncompressed, session.counter + countBuffers (Z.finish session.encoder)⟩

/-! ## The command -/

inductive DryrunLine where
  | volume (name : String)
  | upToDate
  | wouldSendFull (snapshot : String) (measured : Option MeasureResult)
  | wouldSendIncremental (snapshot parent : String) (measured : Option MeasureResult)
  | archiveStats (label : String) (stats : ArchiveStats)
  deriving DecidableEq, Repr

/-- The command's own variables beside the world that the executor acts on. -/
structure DryWorld where
  world : World
  wouldSend : ArchiveStats
  remote : ArchiveStats
  printed : List DryrunLine

namespace DryWorld

def start (store : Store) : DryWorld :=
  ⟨World.start store, ArchiveStats.default, ArchiveStats.default, []⟩

end DryWorld

abbrev DryAct (α : Type) := Exec Halt DryWorld α

/-- A call of the executor. -/
def executor {α : Type} (x : Act α) : DryAct α :=
  zoom DryWorld.world (fun w d => { d with world := w }) x

def printInfo (line : DryrunLine) : DryAct Unit :=
  modify fun d => { d with printed := d.printed ++ [line] }

/-- An arm of the match on steps: the step is measured when that was asked for. -/
def wouldSendStep (Z : StreamEncoder) (env : Env) (measureSend : Bool) (volume : String)
    (step : RunStep) (incremental : Bool) (line : Option MeasureResult → DryrunLine) :
    DryAct Unit := do
  if measureSend then
    let stream ← executor (readSubvolume env volume step)
    let result ← executor (measureSubvolume Z env stream)
    modify fun d => { d with
      wouldSend := d.wouldSend.addSize incremental result.compressed
      remote := d.remote.addSize incremental result.compressed }
    printInfo (line (some result))
  else printInfo (line none)

def dryStep (Z : StreamEncoder) (env : Env) (measureSend : Bool) (volume : String)
    (step : RunStep) : DryAct Unit :=
  match step with
  | .sendFull snap =>
    wouldSendStep Z env measureSend volume step false (.wouldSendFull snap.raw)
  | .sendIncremental snap parent =>
    wouldSendStep Z env measureSend volume step true (.wouldSendIncremental snap.raw parent.raw)

/-- One volume, after the line that `for_each_sync` prints for it. -/
def dryVolume (Z : StreamEncoder) (env : Env) (measureSend : Bool) (ctx : VolumeContext) :
    DryAct Unit := do
  printInfo (.volume ctx.volume)
  let destState ← executor (inspectDestVolume env ctx.volume)
  modify fun d => { d with remote := d.remote.merge (ArchiveStats.fromMeta destState.destMeta) }
  let plan ← liftExcept (buildPlan ctx.srcState destState ctx.sendPolicy)
  if plan.steps.isEmpty then printInfo .upToDate
  else plan.steps.forM (dryStep Z env measureSend ctx.volume)

def dryrun (Z : StreamEncoder) (env : Env) (config : Config) (measureSend : Bool)
    (name : Option String) : DryAct Unit :=
  forEachSync (executor (callInspectSource env)) config name
    (modify fun d =>
      { d with wouldSend := ArchiveStats.default, remote := ArchiveStats.default })
    (dryVolume Z env measureSend)
    (do
      if measureSend then
        let d ← get
        printInfo (.archiveStats "sync would send" d.wouldSend)
      let d ← get
      printInfo (.archiveStats "sync remote usage" d.remote))

/-! ## Sends -/

/-- A send is incremental when it has a parent. -/
structure Send where
  snapshot : String
  parent : Option String
  deriving DecidableEq, Repr

def RunStep.toSend (step : RunStep) : Send := ⟨step.snap.raw, step.parentRaw⟩

def DryrunLine.send? : DryrunLine → Option Send
  | wouldSendFull snapshot _ => some ⟨snapshot, none⟩
  | wouldSendIncremental snapshot parent _ => some ⟨snapshot, some parent⟩
  | _ => none

/-- The sends printed for a volume. `here` says whether the lines before belong to it. -/
def printedSends (volume : String) : Bool → List DryrunLine → List Send
  | _, [] => []
  | _, .volume name :: lines => printedSends volume (name == volume) lines
  | here, line :: lines =>
    (if here then line.send?.toList else []) ++ printedSends volume here lines

/-- The archive that a metadata write of the volume adds to what was persisted. -/
def Entry.send? (volume : String) (e : Entry) : Option Send :=
  match e.event with
  | .writeMetadata v m true =>
    if v = volume then
      (m.archives.find? fun a => decide (a.raw ∉ raws (destStateOn e.before v).archives)).map
        fun a => ⟨a.raw, a.parentTimestamp⟩
    else none
  | _ => none

/-- The sends that have been executed for a volume, in their order. -/
def executedSends (volume : String) (trace : List Entry) : List Send :=
  trace.reverse.filterMap (Entry.send? volume)

end Bbkar
