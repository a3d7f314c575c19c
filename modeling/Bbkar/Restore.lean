import Bbkar.Planner

/-!
# Preparing a restore

Translation of `resolve_targets` and of `prepare_restore` from the metadata on. The entries
of the restore root are an argument, empty when the root is no directory.
-/
namespace Bbkar
open KeySort

/-- `max_by_key`, which keeps the last of several greatest elements. -/
def newestArchive (archives : List VolumeArchive) : Option VolumeArchive :=
  archives.foldl (fun best a =>
    match best with
    | none => some a
    | some b => if b.timestamp ≤ a.timestamp then some a else some b) none

/-- `if seen.insert(key) { list.push(x) }`. -/
def pushUnseen {α : Type} (key : α → String) (st : Finset String × List α) (x : α) :
    Finset String × List α :=
  if key x ∈ st.1 then st else (insert (key x) st.1, st.2 ++ [x])

def addExplicit (archives : List VolumeArchive) (st : Finset String × List Timestamp)
    (snapRaw : String) : BR (Finset String × List Timestamp) :=
  match archives.find? (fun a => a.raw == snapRaw) with
  | none => .error (.err (.execution ("snapshot '" ++ snapRaw ++ "' not found in archives")))
  | some archive => .ok (pushUnseen Timestamp.raw st archive.timestamp)

def inRange (minTimestamp maxTimestamp : Option String) (raw : String) : Bool :=
  (match minTimestamp with
    | some min => !decide (raw < min)
    | none => true) &&
  (match maxTimestamp with
    | some max => !decide (max < raw)
    | none => true)

def addInRange (minTimestamp maxTimestamp : Option String)
    (st : Finset String × List Timestamp) (archive : VolumeArchive) :
    Finset String × List Timestamp :=
  if inRange minTimestamp maxTimestamp archive.raw then
    pushUnseen Timestamp.raw st archive.timestamp
  else st

def resolveTargets (archives : List VolumeArchive) (snapshots : List String)
    (minTimestamp maxTimestamp : Option String) : BR (List Timestamp) :=
  let hasExplicit := !snapshots.isEmpty
  let hasRange := minTimestamp.isSome || maxTimestamp.isSome
  if !hasExplicit && !hasRange then
    match newestArchive archives with
    | none => .error (.err (.execution "no archives found"))
    | some newest => .ok [newest.timestamp]
  else
    match snapshots.foldlM (addExplicit archives) (∅, []) with
    | .error e => .error e
    | .ok explicit =>
      let (_, targets) :=
        if hasRange then archives.foldl (addInRange minTimestamp maxTimestamp) explicit
        else explicit
      if targets.isEmpty then
        .error (.err (.execution "no archives match the given snapshot/timestamp filters"))
      else .ok (sortByKey id targets)

/-- What `prepare_restore` hands to `restore` and `dryrestore`. -/
structure PreparedRestore where
  volume : String
  destMeta : DestMeta
  steps : List RestoreStep
  preExisting : Finset String

/-- The steps of one target, without those that an earlier target brought in. -/
def mergeTarget (archives : List VolumeArchive) (st : Finset String × List RestoreStep)
    (target : Timestamp) : BR (Finset String × List RestoreStep) :=
  match buildRestorePlan archives target with
  | .error e => .error e
  | .ok plan => .ok (plan.steps.foldl (pushUnseen (·.snap.raw)) st)

def prepareRestore (volume : String) (dest : DestState) (rootEntries : Finset String)
    (snapshots : List String) (minTimestamp maxTimestamp : Option String) :
    BR PreparedRestore :=
  match dest.destMeta with
  | none => .error (.err (.execution ("no archives found for volume '" ++ volume ++ "'")))
  | some m =>
    match resolveTargets m.archives snapshots minTimestamp maxTimestamp with
    | .error e => .error e
    | .ok targets =>
      match targets.foldlM (mergeTarget m.archives) (∅, []) with
      | .error e => .error e
      | .ok (_, allSteps) => .ok ⟨volume, m, sortByKey (·.snap) allSteps, rootEntries⟩

end Bbkar
