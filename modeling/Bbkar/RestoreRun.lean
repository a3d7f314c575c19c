import Bbkar.RestoreTargets
import Bbkar.ChunkStreamReader
import Bbkar.Run
import Bbkar.SendReceive

/-!
# Running a restore

Translation of `restore` and of the executor's `restore_archive`. `btrfs receive` is a
parameter. Loading the configuration, printing and the `sudo` session are left out.
-/
namespace Bbkar
open KeySort ParentForest Codec Effects SendReceive Function

/-- The world, the restore root, and every receive that was started with the root it
started from, newest first. -/
structure Restoring (C : Type) where
  world : World
  root : Root String C
  receives : List (RestoreStep × Root String C)

variable {C : Type}

abbrev RestoreAct (C α : Type) := Exec Halt (Restoring C) α

def onWorld {α : Type} (x : Act α) : RestoreAct C α :=
  zoom Restoring.world (fun w st => { st with world := w }) x

/-! ## Reading an archive -/

namespace ChunkStreamReader

/-- Reads until nothing comes, with buffers of any size but not empty ones. The fuel is the
length of what is left. -/
def readToEnd (env : Env) : ℕ → ChunkStreamReader → Act Bytes
  | fuel, r => do
    let len ← ask fun n => max 1 (env.accept n)
    let (piece, r) ← r.read env len
    if piece = [] then return []
    else
      match fuel with
      | 0 => throw .diverges
      | fuel + 1 => do
        let rest ← readToEnd env fuel r
        return piece ++ rest

theorem readToEnd_spec {env : Env} (fuel : ℕ) {w : World} {r : ChunkStreamReader}
    {rest : Bytes} (h : ReaderAt w.store r rest) (hfuel : rest.length ≤ fuel) :
    wp (r.readToEnd env fuel) (fun bytes w' => w'.store = w.store ∧ bytes = rest)
      (fun _ _ => env.Faulty) w := by
  unfold readToEnd
  simp only [wp_bind, wp_ask]
  refine wp_mono_ok (readLoop_spec (by omega) _ (w := w.tick) h le_rfl) ?_
  rintro ⟨piece, r'⟩ w' ⟨hs, -, hpre, -, hend, hat⟩
  simp only at hpre hend hat ⊢
  split_ifs with hnil
  · exact ⟨hs, (hend hnil).symm⟩
  · have hpos := List.length_pos_iff.mpr hnil
    have hle := hpre.length_le
    cases fuel with
    | zero => omega
    | succ fuel =>
      have hleft : (rest.drop piece.length).length ≤ fuel := by
        rw [List.length_drop]
        omega
      rw [wp_bind]
      refine wp_mono_ok (readToEnd_spec fuel hat hleft) ?_
      rintro later w'' ⟨hs', rfl⟩
      exact ⟨hs'.trans hs, List.prefix_append_drop hpre |>.symm⟩

end ChunkStreamReader

/-- The decompressed chunks of an archive. The text of the error is zstd's. -/
def readArchive (Z : StreamCodec) (env : Env) (volume : String) (archive : VolumeArchive) :
    Act Bytes := do
  let w ← get
  let sizes := archive.chunks.map fun c =>
    (partBytes w.store (pathInSnapshot volume archive.raw c.filename)).length
  let compressed ← (ChunkStreamReader.new volume archive).readToEnd env sizes.sum
  match Z.decompress compressed with
  | some data => return data
  | none => throw (.err (.io "invalid zstd data"))

theorem readArchive_spec {H : IncrementalHash} {Z : StreamCodec} {env : Env} {volume : String}
    {archive : VolumeArchive} {parts : Parts} {data : Bytes} {w : World}
    (hchunks : archive.chunks = parts.map Prod.fst)
    (hstored : Stored H w.store volume archive.raw parts)
    (hdata : Z.decompress (parts.map Prod.snd).flatten = some data) :
    wp (readArchive Z env volume archive) (fun bytes w' => w'.store = w.store ∧ bytes = data)
      (fun _ _ => env.Faulty) w := by
  unfold readArchive
  simp only [wp_bind, wp_get]
  refine wp_mono_ok (ChunkStreamReader.readToEnd_spec _
    (ChunkStreamReader.readerAt_new archive hchunks hstored) ?_) ?_
  · rw [hchunks, List.length_flatten, List.map_map, List.map_map]
    refine (congrArg List.sum (List.map_congr_left fun p hp => ?_)).le
    have hfile : w.store (pathInSnapshot volume archive.raw p.1.filename) = some (.part p.2) :=
      hstored.files p hp
    simp [partBytes, hfile]
  · rintro bytes w' ⟨hs, rfl⟩
    rw [hdata]
    exact ⟨hs, rfl⟩

/-! ## The command -/

section Restore

variable (Z : StreamCodec) (T : Transfer String C Bytes) (env : Env)

/-- The first call starts `btrfs receive`. When reading fails the receive is cut off. -/
def restoreArchive (volume : String) (step : RestoreStep) (archive : VolumeArchive) :
    RestoreAct C Unit := do
  modify fun st => { st with receives := (step, st.root) :: st.receives }
  let _ ← onWorld (call env)
  let data ← afterError (onWorld (readArchive Z env volume archive))
    fun st => { st with root := T.interrupt st.root }
  let st ← get
  let (failure, root) := T.receive st.root data
  modify fun st => { st with root := root }
  match failure with
  | none => return
  | some (code, stderr) => throw (.err (.execution
      ("btrfs receive failed (exit " ++ toString code ++ "): " ++ stderr)))

/-- The body of the loop. Subvolumes that were there before, or came in already, are left
alone. -/
def restoreStep (plan : PreparedRestore) (received : Finset String) (step : RestoreStep) :
    RestoreAct C (Finset String) :=
  let subvolName := subvolumeName plan.volume step.snap.raw
  if subvolName ∈ plan.preExisting then return received
  else if subvolName ∈ received then return received
  else do
    let archive ← liftExcept
      (orPanic (plan.destMeta.archives.find? fun a => a.timestamp == step.snap))
    restoreArchive Z T env plan.volume step archive
    return insert subvolName received

def restore (volume : String) (snapshots : List String)
    (minTimestamp maxTimestamp : Option String) : RestoreAct C Unit := do
  let destState ← onWorld (inspectDestVolume env volume)
  let st ← get
  let plan ← liftExcept (prepareRestore volume destState st.root.entries snapshots minTimestamp
    maxTimestamp)
  let _ ← plan.steps.foldlM (restoreStep Z T env plan) ∅
  return

end Restore

end Bbkar
