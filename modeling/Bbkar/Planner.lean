import Bbkar.Plan
import Mathlib.Data.Finset.Insert
import Mathlib.Data.Finset.Dedup

/-!
# The planner

Translation of `Planner` and its helpers. Hash sets are finite sets and hash maps are
partial functions, so nothing depends on their iteration order. Logging is left out.
-/
namespace Bbkar
open Function

/-! ## Dates -/

/-- `str::len`, in bytes. -/
def utf8Len (cs : List Char) : ℕ := (cs.map Char.utf8Size).sum

/-- The slices `[..n]` and `[n..]`; there are none past the end or inside a character. -/
def splitAtByte : ℕ → List Char → Option (List Char × List Char)
  | 0, cs => some ([], cs)
  | _ + 1, [] => none
  | n + 1, c :: cs =>
    if c.utf8Size ≤ n + 1 then
      (splitAtByte (n + 1 - c.utf8Size) cs).map (fun p => (c :: p.1, p.2))
    else none

/-- What ASCII digits stand for in base ten. -/
def digitsValue (cs : List Char) : ℕ := cs.foldl (fun n c => 10 * n + (c.toNat - 48)) 0

/-- One or more ASCII digits. -/
def parseDigits (cs : List Char) : Option ℕ :=
  if cs ≠ [] ∧ cs.all Char.isDigit = true then some (digitsValue cs) else none

/-- `i64::from_str`: an optional sign, digits, and a range check. -/
def parseI64 : List Char → Option ℤ
  | '-' :: ds => (parseDigits ds).bind fun n => if n ≤ 2 ^ 63 then some (-(n : ℤ)) else none
  | '+' :: ds => (parseDigits ds).bind fun n => if n < 2 ^ 63 then some (n : ℤ) else none
  | ds => (parseDigits ds).bind fun n => if n < 2 ^ 63 then some (n : ℤ) else none

/-- Years of 365 and months of 30 days. A field that is no number stops the reading before
the next slice is taken. -/
def parseDateToDays (timestamp : String) : BR (Option ℤ) := do
  if utf8Len timestamp.toList < 8 then
    return none
  let (dateStr, _) ← orPanic (splitAtByte 8 timestamp.toList)
  let (yearStr, rest) ← orPanic (splitAtByte 4 dateStr)
  let some year := parseI64 yearStr | return none
  let (monthStr, dayStr) ← orPanic (splitAtByte 2 rest)
  let some month := parseI64 monthStr | return none
  let some day := parseI64 dayStr | return none
  return some (year * 365 + month * 30 + day)

/-- Whether the snapshot is at least `interval` after the last full send. -/
def checkIntervalExceeded (lastFull : Option Timestamp) (current : Timestamp)
    (interval : CalendarDuration) : BR Bool := do
  let some last := lastFull | return true
  let some lastDays ← parseDateToDays last.timestamp | return true
  let some currentDays ← parseDateToDays current.timestamp | return true
  return decide (currentDays - lastDays ≥ (interval.days : ℤ))

/-! ## Depths -/

/-- Collecting pairs into a hash map: a later pair replaces an earlier one. -/
def hashMapOf {β : Type} (pairs : List (String × β)) : String → Option β :=
  pairs.foldl (fun m p => update m p.1 (some p.2)) (fun _ => none)

/-- Recursion on parent names with a memo table. The fuel bounds the recursion depth;
a recursion that uses it up never ends. -/
def computeDepth (archiveMap : String → Option VolumeArchive) :
    ℕ → String → (String → Option ℕ) → BR (ℕ × (String → Option ℕ))
  | fuel, name, cache =>
    match cache name with
    | some d => .ok (d, cache)
    | none =>
      match archiveMap name with
      | none => .ok (0, update cache name (some 0))
      | some archive =>
        match archive.parentTimestamp with
        | none => .ok (0, update cache name (some 0))
        | some parent =>
          match fuel with
          | 0 => .error .diverges
          | fuel + 1 =>
            match computeDepth archiveMap fuel parent cache with
            | .error e => .error e
            | .ok (d, cache') => .ok (d + 1, update cache' name (some (d + 1)))

def archiveMapOf (archives : List VolumeArchive) : String → Option VolumeArchive :=
  hashMapOf (archives.map fun a => (a.raw, a))

/-- The depth cache after one call for every archive. A chain without repetition makes at
most one recursive call for each archive. -/
def depthCacheOf (archives : List VolumeArchive) : BR (String → Option ℕ) :=
  archives.foldlM
    (fun cache a => (computeDepth (archiveMapOf archives) archives.length a.raw cache).map
      Prod.snd)
    (fun _ => none)

/-! ## Run plans -/

/-- The newest snapshot below `snap` that is in the source and archived or planned. -/
def findParentCandidate (snap : Timestamp) (destSet srcNames : Finset String)
    (src : SourceState) : Option Timestamp :=
  (src.snapshots.reverse.filter (fun s => decide (s < snap))).find?
    (fun s => decide (s.raw ∈ destSet ∧ s.raw ∈ srcNames))

/-- The variables of the planning loop. -/
structure PlanState where
  destSet : Finset String
  depthCache : String → Option ℕ
  lastFull : Option Timestamp
  steps : List RunStep

def wouldExceedDepth (policy : SendPolicy) (parentDepth : ℕ) : Bool :=
  match policy.maxIncrementalDepth with
  | some max => decide (parentDepth + 1 ≥ max)
  | none => false

def PlanState.depthOf (st : PlanState) (name : String) : ℕ := (st.depthCache name).getD 0

def PlanState.full (st : PlanState) (snap : Timestamp) : PlanState :=
  { destSet := insert snap.raw st.destSet
    depthCache := update st.depthCache snap.raw (some 0)
    lastFull := some snap
    steps := st.steps ++ [.sendFull snap] }

def PlanState.incremental (st : PlanState) (snap parent : Timestamp) : PlanState :=
  { destSet := insert snap.raw st.destSet
    depthCache := update st.depthCache snap.raw (some (st.depthOf parent.raw + 1))
    lastFull := st.lastFull
    steps := st.steps ++ [.sendIncremental snap parent] }

/-- The body of the loop over source snapshots. The interval is checked also when the
depth alone forces a full send. -/
def planSnapshot (policy : SendPolicy) (src : SourceState) (srcNames : Finset String)
    (st : PlanState) (snap : Timestamp) : BR PlanState :=
  if snap.raw ∈ st.destSet then .ok st
  else
    match findParentCandidate snap st.destSet srcNames src with
    | none => .ok (st.full snap)
    | some parent =>
      match checkIntervalExceeded st.lastFull snap policy.minFullSendInterval with
      | .error e => .error e
      | .ok intervalExceeded =>
        if wouldExceedDepth policy (st.depthOf parent.raw) || intervalExceeded then
          .ok (st.full snap)
        else .ok (st.incremental snap parent)

def srcNamesOf (src : SourceState) : Finset String := (src.snapshots.map (·.raw)).toFinset

/-- The most recent full archive of a sorted list. -/
def lastFullOf (archives : List VolumeArchive) : Option Timestamp :=
  (archives.reverse.find? (fun a => !a.isIncremental)).map (·.timestamp)

/-- The loop variables before the first snapshot. -/
def initialPlanState (archives : List VolumeArchive) : BR PlanState :=
  (depthCacheOf archives).map fun depthCache =>
    { destSet := (raws archives).toFinset
      depthCache := depthCache
      lastFull := lastFullOf archives
      steps := [] }

def planLoop (policy : SendPolicy) (src : SourceState) (snaps : List Timestamp)
    (st : PlanState) : BR PlanState :=
  snaps.foldlM (planSnapshot policy src (srcNamesOf src)) st

def buildPlan (src : SourceState) (dest : DestState) (policy : SendPolicy) : BR RunPlan := do
  let st ← initialPlanState dest.archives
  let st ← planLoop policy src src.snapshots st
  return ⟨st.steps⟩

/-! ## Restore plans -/

/-- The `while let` loop over parents. Archives are put in front, which is the order after
the final `reverse`. The fuel bounds the iterations; a walk that uses it up has come back
to an archive and never ends. -/
def parentWalk (archives : List VolumeArchive) :
    ℕ → List VolumeArchive → VolumeArchive → BR (List VolumeArchive)
  | fuel, chain, current =>
    match current.parentTimestamp with
    | none => .ok chain
    | some parentRaw =>
      match fuel with
      | 0 => .error .diverges
      | fuel + 1 =>
        match archives.find? (fun a => a.raw == parentRaw) with
        | none => .error (.err (.plan ("parent snapshot '" ++ parentRaw ++
            "' not found in archives (required by '" ++ current.raw ++ "')")))
        | some parent => parentWalk archives fuel (parent :: chain) parent

def restoreStepOf (a : VolumeArchive) : BR RestoreStep :=
  match a.parentTimestamp with
  | some parent => (orPanic (Timestamp.parse parent)).map (.receiveIncremental a.timestamp)
  | none => .ok (.receiveFull a.timestamp)

def buildRestorePlan (archives : List VolumeArchive) (target : Timestamp) : BR RestorePlan :=
  match archives.find? (fun a => a.timestamp == target) with
  | none => .error (.err (.plan ("snapshot '" ++ target.raw ++ "' not found in archives")))
  | some targetArchive => do
    let chain ← parentWalk archives archives.length [targetArchive] targetArchive
    let steps ← chain.mapM restoreStepOf
    return ⟨steps⟩

end Bbkar
