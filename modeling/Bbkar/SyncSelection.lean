import Bbkar.ConfigFile
import Bbkar.DryRun
import Bbkar.RestoreRetries

/-!
# Commands on a configuration file

Translation of `for_each_sync` with its cache of inspected sources, of `from_sync_spec`, and
of the selection of a sync by `ls` and by `prepare_restore`. A file that `from_toml` accepts
has at most one sync, whose source, destination and strings are in order, so that none of
the lookups and unwraps panics and the commands are those on a plain `Config`.
-/
namespace Bbkar.ConfigFile
open Words Codec Effects

def HashMap.get? {α : Type} (m : HashMap α) (key : String) : Option α :=
  (m.entries.find? fun e => e.1 == key).map Prod.snd

/-! ## Policies -/

structure RetentionPolicy where
  archivePreserveMin : Option CalendarDuration
  archivePreserve : Option PreserveSchedule
  preserveDayOfWeek : Weekday

structure ResolvedSyncPolicy where
  send : SendPolicy
  retention : RetentionPolicy

def ResolvedSyncPolicy.fromSyncSpec (overflowChecks : Bool) (spec : SyncSpec) :
    BR ResolvedSyncPolicy := do
  let archivePreserve ← match spec.archivePreserve with
    | none => pure none
    | some s => PreserveSchedule.parse s
  let parsed ← CalendarDuration.parse overflowChecks spec.minFullSendInterval
  let minFullSendInterval ← orPanic parsed
  let archivePreserveMin ←
    if spec.archivePreserveMin = "all" then pure none
    else CalendarDuration.parse overflowChecks spec.archivePreserveMin
  return ⟨⟨minFullSendInterval, spec.maxIncrementalDepth⟩,
    ⟨archivePreserveMin, archivePreserve, (Weekday.parse spec.preserveDayOfWeek).getD .sunday⟩⟩

/-! ## Going over the syncs -/

abbrev States := List (String × SourceState)

structure SyncContext where
  syncName : String
  srcSpec : SourceSpec
  destSpec : DestSpec
  sendPolicy : SendPolicy

structure FileVolumeContext extends SyncContext where
  global : GlobalConfig
  volume : String
  srcState : SourceState

def syncNotFound (config : BbkarConfigFile) (name : String) : BbkarError :=
  .config ["sync '" ++ name ++ "' not found in config (available: " ++
    String.intercalate ", " (config.sync.entries.map Prod.fst) ++ ")"]

section ForEachSync

variable {σ : Type} (overflowChecks : Bool) (config : BbkarConfigFile)
  (inspectSource : SourceSpec → Exec Halt σ States) (name : Option String)
  (onSyncStart : SyncContext → Exec Halt σ Unit)
  (onVolume : FileVolumeContext → Exec Halt σ Unit)
  (onSyncEnd : SyncContext → Exec Halt σ Unit)

/-- The states of a source, which is inspected the first time. -/
def cachedStates (cache : List (String × States)) (source : String) (srcSpec : SourceSpec) :
    Exec Halt σ (List (String × States)) :=
  if (cache.map Prod.fst).contains source then return cache
  else do
    let states ← inspectSource srcSpec
    return (source, states) :: cache

/-- The body of the loop, which indexes the maps by the names in the sync. -/
def syncBody (cache : List (String × States)) (entry : String × SyncSpec) :
    Exec Halt σ (List (String × States)) :=
  if name.any (· != entry.1) then return cache
  else do
    let srcSpec ← liftExcept (orPanic (config.source.get? entry.2.source))
    let destSpec ← liftExcept (orPanic (config.dest.get? entry.2.dest))
    let policy ← liftExcept (ResolvedSyncPolicy.fromSyncSpec overflowChecks entry.2)
    let sync : SyncContext := ⟨entry.1, srcSpec, destSpec, policy.send⟩
    onSyncStart sync
    let cache ← cachedStates inspectSource cache entry.2.source srcSpec
    let states ← liftExcept (orPanic (cache.lookup entry.2.source))
    states.forM fun state =>
      if entry.2.filter.any (wildcardMatch · state.1) then
        onVolume ⟨sync, config.global, state.1, state.2⟩
      else return
    onSyncEnd sync
    return cache

def forEachSyncIn : Exec Halt σ Unit := do
  match name with
  | some name => if !config.sync.containsKey name then throw (.err (syncNotFound config name))
  | none => pure ()
  let _ ← config.sync.entries.foldlM
    (syncBody overflowChecks config inspectSource name onSyncStart onVolume onSyncEnd) []
  return

/-- The loop calls `onVolume` with contexts of this kind only. -/
def VisitsOnly (P : FileVolumeContext → Prop) : Prop :=
  ∀ (σ : Type) (inspectSource : SourceSpec → Exec Halt σ States)
    (onSyncStart onSyncEnd : SyncContext → Exec Halt σ Unit)
    (onVolume onVolume' : FileVolumeContext → Exec Halt σ Unit),
    (∀ ctx, P ctx → onVolume ctx = onVolume' ctx) →
      forEachSyncIn overflowChecks config inspectSource name onSyncStart onVolume onSyncEnd =
        forEachSyncIn overflowChecks config inspectSource name onSyncStart onVolume' onSyncEnd

end ForEachSync

/-! ## The commands -/

def backendOf : BackendSpec → Bbkar.BackendSpec
  | .localDir _ => .localDir
  | .s3 .. => .objectStorage
  | .gcs .. => .objectStorage

def FileVolumeContext.plain (ctx : FileVolumeContext) : VolumeContext :=
  ⟨backendOf ctx.destSpec.backendSpec, ctx.global.maxBackupChunkSize, ctx.volume, ctx.srcState,
    ctx.sendPolicy⟩

/-- `run` once the file is loaded. What the outside answers depends on the source. -/
def runFile (H : IncrementalHash) (Z : StreamEncoder) (outside : SourceSpec → Env)
    (overflowChecks : Bool) (config : BbkarConfigFile) (name : Option String) : Act Unit := do
  modify fun w => { w with totalBytesSent := 0 }
  forEachSyncIn overflowChecks config (fun src => callInspectSource (outside src)) name
    (fun _ => modify fun w =>
      { w with sent := ArchiveStats.default, remote := ArchiveStats.default })
    (fun ctx => runVolume H Z (outside ctx.srcSpec) ctx.plain) (fun _ => return)

def dryrunFile (Z : StreamEncoder) (outside : SourceSpec → Env) (overflowChecks : Bool)
    (config : BbkarConfigFile) (measureSend : Bool) (name : Option String) : DryAct Unit :=
  forEachSyncIn overflowChecks config (fun src => executor (callInspectSource (outside src))) name
    (fun _ => modify fun d =>
      { d with wouldSend := ArchiveStats.default, remote := ArchiveStats.default })
    (fun ctx => dryVolume Z (outside ctx.srcSpec) measureSend ctx.plain)
    (fun _ => do
      if measureSend then
        let d ← get
        printInfo (.archiveStats "sync would send" d.wouldSend)
      let d ← get
      printInfo (.archiveStats "sync remote usage" d.remote))

def multipleSyncs (config : BbkarConfigFile) : BbkarError :=
  .config ["multiple syncs defined (" ++
    String.intercalate ", " (config.sync.entries.map Prod.fst) ++ "), use --name to select one"]

/-- `resolve_sync_name`. -/
def resolveSyncName (config : BbkarConfigFile) (name : Option String) : BR String :=
  match name with
  | some n =>
    if !config.sync.containsKey n then .error (.err (syncNotFound config n)) else .ok n
  | none =>
    if 1 < config.sync.len then .error (.err (multipleSyncs config))
    else
      match config.sync.entries with
      | [] => .error (.err (.config ["no sync defined in config"]))
      | (n, _) :: _ => .ok n

/-- The sync that `prepare_restore` resolves. -/
def resolveSync (config : BbkarConfigFile) (name : Option String) : BR (String × SyncSpec) :=
  match name with
  | some n =>
    match config.sync.get? n with
    | none => .error (.err (syncNotFound config n))
    | some spec => .ok (n, spec)
  | none =>
    if 1 < config.sync.len then .error (.err (multipleSyncs config))
    else
      match config.sync.entries with
      | [] => .error (.err (.config ["no sync defined in config"]))
      | entry :: _ => .ok entry

/-- The destination that `prepare_restore` reads. -/
def resolveDest (config : BbkarConfigFile) (name : Option String) : BR DestSpec := do
  let (_, sync) ← resolveSync config name
  match config.dest.get? sync.dest with
  | none => .error (.err (.config ["dest '" ++ sync.dest ++ "' referenced by sync not found"]))
  | some dest => .ok dest

/-! ## What an accepted file has -/

section Accepted

variable {overflowChecks : Bool} {parsed file : BbkarConfigFile}

theorem present_of_collectErrors {checks : List Check}
    (h : collectErrors overflowChecks checks = .ok []) :
    ∀ check ∈ checks, check.fault.present overflowChecks = .ok false := by
  induction checks with
  | nil => simp
  | cons check checks ih =>
    simp only [collectErrors, bind, Except.bind] at h
    cases hpresent : check.fault.present overflowChecks with
    | error e => simp [hpresent] at h
    | ok fails =>
      cases hrest : collectErrors overflowChecks checks with
      | error e => simp [hpresent, hrest] at h
      | ok errors =>
        cases fails with
        | true => simp [hpresent, hrest, pure, Except.pure] at h
        | false =>
          simp only [hpresent, hrest, pure, Except.pure, Bool.false_eq_true, if_false,
            Except.ok.injEq] at h
          rw [h] at hrest
          exact List.forall_mem_cons.mpr ⟨hpresent, ih hrest⟩

theorem fromToml_ok (h : fromToml overflowChecks parsed = .ok file) :
    file = normalize parsed ∧
      ∀ check ∈ checks parsed, check.fault.present overflowChecks = .ok false := by
  simp only [fromToml, bind, Except.bind] at h
  cases herrors : collectErrors overflowChecks (checks parsed) with
  | error e => simp [herrors] at h
  | ok errors =>
    simp only [herrors, conclude] at h
    split_ifs at h with hempty
    rw [List.isEmpty_iff.mp hempty] at herrors
    exact ⟨(Except.ok.inj h).symm, present_of_collectErrors herrors⟩

theorem HashMap.containsKey_iff {α : Type} {m : HashMap α} {key : String} :
    m.containsKey key = true ↔ ∃ a, m.get? key = some a := by
  unfold containsKey get?
  simp only [List.contains_iff_mem, List.mem_map, Option.map_eq_some_iff]
  constructor
  · rintro ⟨e, he, rfl⟩
    cases hfind : m.entries.find? (fun x => x.1 == e.1) with
    | none => simpa using List.find?_eq_none.mp hfind e he
    | some e' => exact ⟨e'.2, e', rfl, rfl⟩
  · rintro ⟨a, e, hfind, -⟩
    exact ⟨e, List.mem_of_find?_eq_some hfind, by simpa using List.find?_some hfind⟩

theorem HashMap.containsKey_mapValues {α : Type} (m : HashMap α) (f : α → α) (key : String) :
    (m.mapValues f).containsKey key = m.containsKey key := by
  simp [containsKey, mapValues, Function.comp_def]

/-- The only sync, with all that it refers to. -/
structure OnlySync (overflowChecks : Bool) (file : BbkarConfigFile) (name : String)
    (sync : SyncSpec) (src : SourceSpec) (dest : DestSpec) (policy : ResolvedSyncPolicy) :
    Prop where
  entries : file.sync.entries = [(name, sync)]
  source : file.source.get? sync.source = some src
  dest : file.dest.get? sync.dest = some dest
  resolved : ResolvedSyncPolicy.fromSyncSpec overflowChecks sync = .ok policy
  depth : policy.send.maxIncrementalDepth ≠ some 0

theorem exists_of_isNone_map {α : Type} {r : BR (Option α)}
    (h : r.map Option.isNone = .ok false) : ∃ a, r = .ok (some a) := by
  cases r with
  | error e => simp [Except.map] at h
  | ok o =>
    cases o with
    | none => simp [Except.map] at h
    | some a => exact ⟨a, rfl⟩

/-- The strings of a sync that passes its checks can be parsed again. -/
theorem fromSyncSpec_ok {name : String} {sync : SyncSpec}
    (h : ∀ check ∈ syncChecks parsed name sync, check.fault.present overflowChecks = .ok false) :
    ∃ policy, ResolvedSyncPolicy.fromSyncSpec overflowChecks sync = .ok policy ∧
      policy.send.maxIncrementalDepth = sync.maxIncrementalDepth ∧
      sync.maxIncrementalDepth ≠ some 0 := by
  have hfault : ∀ fault ∈ (syncChecks parsed name sync).map Check.fault,
      fault.present overflowChecks = .ok false := by
    intro fault hmem
    obtain ⟨check, hcheck, rfl⟩ := List.mem_map.mp hmem
    exact h check hcheck
  obtain ⟨d, hd⟩ := exists_of_isNone_map
    (hfault (.badDuration sync.minFullSendInterval) (by simp [syncChecks]))
  have hschedule : ∀ s, sync.archivePreserve = some s →
      ∃ schedule, PreserveSchedule.parse s = .ok (some schedule) := by
    intro s hs
    exact exists_of_isNone_map
      (hfault (.badSchedule s) (by simp [syncChecks, archivePreserveChecks, hs]))
  have hmin : sync.archivePreserveMin ≠ "all" →
      ∃ d, CalendarDuration.parse overflowChecks sync.archivePreserveMin = .ok (some d) := by
    intro hall
    exact exists_of_isNone_map (hfault (.badDuration sync.archivePreserveMin)
      (by simp [syncChecks, archivePreserveMinChecks, hall]))
  have hdepth : sync.maxIncrementalDepth ≠ some 0 := by
    intro hzero
    have hzeroFault := hfault (.fails true)
      (by simp [syncChecks, maxIncrementalDepthChecks, hzero])
    simp [Fault.present] at hzeroFault
  unfold ResolvedSyncPolicy.fromSyncSpec
  simp only [hd, orPanic, bind, Except.bind, pure, Except.pure]
  cases hp : sync.archivePreserve with
  | none =>
    by_cases hall : sync.archivePreserveMin = "all"
    · exact ⟨_, by simp only [hall, if_true]; rfl, rfl, hdepth⟩
    · obtain ⟨d', hd'⟩ := hmin hall
      exact ⟨_, by simp only [hall, if_false, hd']; rfl, rfl, hdepth⟩
  | some s =>
    obtain ⟨schedule, hs⟩ := hschedule s hp
    simp only [hs]
    by_cases hall : sync.archivePreserveMin = "all"
    · exact ⟨_, by simp only [hall, if_true]; rfl, rfl, hdepth⟩
    · obtain ⟨d', hd'⟩ := hmin hall
      exact ⟨_, by simp only [hall, if_false, hd']; rfl, rfl, hdepth⟩

theorem present_fails {condition : Bool}
    (h : (Fault.fails condition).present overflowChecks = .ok false) : condition = false := by
  simpa [Fault.present] using h

/-- An accepted file has no sync, or one with all that the commands look up. -/
theorem fromToml_onlySync (h : fromToml overflowChecks parsed = .ok file) :
    1 ≤ file.global.maxBackupChunkSize ∧ file.global.maxBackupChunkSize ≤ 2048 ∧
    (file.sync.entries = [] ∨
      ∃ name sync src dest policy, OnlySync overflowChecks file name sync src dest policy) := by
  obtain ⟨rfl, hchecks⟩ := fromToml_ok h
  have hfault : ∀ fault ∈ (checks parsed).map Check.fault,
      fault.present overflowChecks = .ok false := by
    intro fault hmem
    obtain ⟨check, hcheck, rfl⟩ := List.mem_map.mp hmem
    exact hchecks check hcheck
  have hsize := present_fails (hfault
    (.fails (parsed.global.maxBackupChunkSize < 1 || 2048 < parsed.global.maxBackupChunkSize))
    (by simp [checks, globalChecks]))
  have hcount := present_fails (hfault (.fails (1 < parsed.sync.len))
    (by simp [checks, countCheck]))
  simp only [Bool.or_eq_false_iff, decide_eq_false_iff_not, not_lt] at hsize hcount
  refine ⟨hsize.1, hsize.2, ?_⟩
  change parsed.sync.entries = [] ∨ _
  cases hentries : parsed.sync.entries with
  | nil => exact Or.inl rfl
  | cons entry entries =>
    right
    obtain ⟨name, sync⟩ := entry
    have hnil : entries = [] := by
      simp only [HashMap.len, hentries, List.length_cons] at hcount
      exact List.length_eq_zero_iff.mp (by omega)
    have hsync : ∀ check ∈ syncChecks parsed name sync,
        check.fault.present overflowChecks = .ok false := by
      intro check hcheck
      refine hchecks check
        (List.mem_append_right _ (List.mem_flatMap.mpr ⟨(name, sync), ?_, hcheck⟩))
      simp [hentries]
    have hsource := present_fails (hfault (.fails (!parsed.source.containsKey sync.source)) (by
      simp only [checks, List.map_append, List.mem_append, List.map_flatMap, List.mem_flatMap]
      exact Or.inr ⟨(name, sync), by simp [hentries], by simp [syncChecks]⟩))
    have hdest := present_fails (hfault (.fails (!parsed.dest.containsKey sync.dest)) (by
      simp only [checks, List.map_append, List.mem_append, List.map_flatMap, List.mem_flatMap]
      exact Or.inr ⟨(name, sync), by simp [hentries], by simp [syncChecks]⟩))
    rw [Bool.not_eq_false'] at hsource hdest
    obtain ⟨src, hsrc⟩ := HashMap.containsKey_iff.mp
      ((HashMap.containsKey_mapValues parsed.source _ _).trans hsource)
    obtain ⟨dest, hdest⟩ := HashMap.containsKey_iff.mp hdest
    obtain ⟨policy, hpolicy, hsame, hdepth⟩ := fromSyncSpec_ok hsync
    exact ⟨name, sync, src, dest, policy, by simp [normalize, hentries, hnil], hsrc, hdest, hpolicy,
      hsame ▸ hdepth⟩

end Accepted

/-! ## The same commands on a plain configuration -/

def configOf (file : BbkarConfigFile) (name : String) (sync : SyncSpec) (dest : DestSpec)
    (policy : ResolvedSyncPolicy) : Config :=
  ⟨backendOf dest.backendSpec, file.global.maxBackupChunkSize,
    some ⟨name, sync.filter, policy.send⟩⟩

section Plain

variable {σ : Type} {overflowChecks : Bool} {file : BbkarConfigFile} {n : String}
  {sync : SyncSpec} {src : SourceSpec} {dest : DestSpec} {policy : ResolvedSyncPolicy}

theorem OnlySync.containsKey (h : OnlySync overflowChecks file n sync src dest policy)
    (name : String) : file.sync.containsKey name = (name == n) := by
  simp [HashMap.containsKey, h.entries, Bool.beq_eq_decide_eq]

theorem OnlySync.syncNotFound_eq (h : OnlySync overflowChecks file n sync src dest policy)
    (name : String) :
    syncNotFound file name = Bbkar.syncNotFound (configOf file n sync dest policy) name := by
  have hjoin : String.intercalate ", " [n] = n := rfl
  simp only [syncNotFound, Bbkar.syncNotFound, h.entries, configOf, List.map_cons, List.map_nil,
    hjoin, Option.map_some, Option.getD_some]

/-- The loop over the syncs is the body for the only one, on states that are not cached. -/
theorem OnlySync.forEachSyncIn_eq (h : OnlySync overflowChecks file n sync src dest policy)
    (inspectSource : SourceSpec → Exec Halt σ States) (name : Option String)
    (onSyncStart : SyncContext → Exec Halt σ Unit)
    (onVolume : FileVolumeContext → Exec Halt σ Unit)
    (onSyncEnd : SyncContext → Exec Halt σ Unit) :
    forEachSyncIn overflowChecks file inspectSource name onSyncStart onVolume onSyncEnd =
      forEachSync (inspectSource src) (configOf file n sync dest policy) name
        (onSyncStart ⟨n, src, dest, policy.send⟩)
        (fun ctx => onVolume ⟨⟨n, src, dest, policy.send⟩, file.global, ctx.volume, ctx.srcState⟩)
        (onSyncEnd ⟨n, src, dest, policy.send⟩) := by
  have hbody (hname : name.any (· != n) = false) :
      syncBody overflowChecks file inspectSource name onSyncStart onVolume onSyncEnd [] (n, sync) =
        (do
          onSyncStart ⟨n, src, dest, policy.send⟩
          let states ← inspectSource src
          states.forM fun state =>
            if sync.filter.any (wildcardMatch · state.1) then
              onVolume ⟨⟨n, src, dest, policy.send⟩, file.global, state.1, state.2⟩
            else return
          onSyncEnd ⟨n, src, dest, policy.send⟩
          return [(sync.source, states)]) := by
    simp [syncBody, hname, h.source, h.dest, h.resolved, orPanic, liftExcept, cachedStates]
  cases name with
  | none => simp [forEachSyncIn, forEachSync, h.entries, hbody, configOf]
  | some name =>
    rcases eq_or_ne name n with rfl | hname
    · simp [forEachSyncIn, forEachSync, h.entries, h.containsKey, hbody, configOf]
    · simp [forEachSyncIn, forEachSync, h.containsKey, h.syncNotFound_eq, configOf, hname]

theorem OnlySync.visitsOnly (h : OnlySync overflowChecks file n sync src dest policy)
    (name : Option String) : VisitsOnly overflowChecks file name
      fun ctx => ctx.toSyncContext = ⟨n, src, dest, policy.send⟩ := by
  intro σ inspectSource onSyncStart onSyncEnd onVolume onVolume' hsame
  rw [h.forEachSyncIn_eq, h.forEachSyncIn_eq]
  exact congrArg (fun visit => forEachSync _ _ _ _ visit _) (funext fun ctx => hsame _ rfl)

/-- The contexts that are visited have the settings of the file. -/
theorem forEachSync_plain (inspect : Exec Halt σ States) (name : Option String)
    (onStart onEnd : Exec Halt σ Unit) (onVolume : SourceSpec → VolumeContext → Exec Halt σ Unit) :
    forEachSync inspect (configOf file n sync dest policy) name onStart
        (fun ctx => onVolume src (FileVolumeContext.plain
          ⟨⟨n, src, dest, policy.send⟩, file.global, ctx.volume, ctx.srcState⟩)) onEnd =
      forEachSync inspect (configOf file n sync dest policy) name onStart (onVolume src) onEnd := by
  unfold forEachSync
  cases name <;> rfl

theorem syncNotFound_nil (hentries : file.sync.entries = []) {config : Config}
    (hnone : config.sync = none) (name : String) :
    syncNotFound file name = Bbkar.syncNotFound config name := by
  have hjoin : String.intercalate ", " [] = "" := rfl
  simp only [syncNotFound, Bbkar.syncNotFound, hentries, hnone, List.map_nil, hjoin,
    Option.map_none, Option.getD_none]

/-- Without a sync there is nothing to go over. -/
theorem forEachSyncIn_nil (hentries : file.sync.entries = []) {config : Config}
    (hnone : config.sync = none) (inspectSource : SourceSpec → Exec Halt σ States)
    (name : Option String) (onSyncStart onSyncEnd : SyncContext → Exec Halt σ Unit)
    (onVolume : FileVolumeContext → Exec Halt σ Unit) (inspect : Exec Halt σ States)
    (onStart onEnd : Exec Halt σ Unit) (onPlain : VolumeContext → Exec Halt σ Unit) :
    forEachSyncIn overflowChecks file inspectSource name onSyncStart onVolume onSyncEnd =
      forEachSync inspect config name onStart onPlain onEnd := by
  cases name with
  | none => simp [forEachSyncIn, forEachSync, hentries, hnone]
  | some name =>
    simp [forEachSyncIn, forEachSync, HashMap.containsKey, hentries, hnone,
      syncNotFound_nil hentries hnone]

/-- The two ways to select a sync, and its destination. -/
theorem OnlySync.resolve (h : OnlySync overflowChecks file n sync src dest policy)
    {name : Option String} (hname : name.all (· == n) = true) :
    resolveSyncName file name = .ok n ∧ resolveSync file name = .ok (n, sync) ∧
      resolveDest file name = .ok dest := by
  have hsync : resolveSync file name = .ok (n, sync) := by
    cases name with
    | none => simp [resolveSync, HashMap.len, h.entries]
    | some m =>
      obtain rfl : m = n := by simpa using hname
      simp [resolveSync, HashMap.get?, h.entries]
  refine ⟨?_, hsync, ?_⟩
  · cases name with
    | none => simp [resolveSyncName, HashMap.len, h.entries]
    | some m =>
      obtain rfl : m = n := by simpa using hname
      simp [resolveSyncName, h.containsKey]
  · simp [resolveDest, hsync, h.dest, bind, Except.bind]

theorem resolve_missing {m : String} (hmissing : file.sync.containsKey m = false) :
    resolveSyncName file (some m) = .error (.err (syncNotFound file m)) ∧
      resolveSync file (some m) = .error (.err (syncNotFound file m)) ∧
      resolveDest file (some m) = .error (.err (syncNotFound file m)) := by
  have hget : file.sync.get? m = none := by
    cases hget : file.sync.get? m with
    | none => rfl
    | some a => simp [HashMap.containsKey_iff.mpr ⟨a, hget⟩] at hmissing
  have hsync : resolveSync file (some m) = .error (.err (syncNotFound file m)) := by
    simp [resolveSync, hget]
  refine ⟨by simp [resolveSyncName, hmissing], hsync, ?_⟩
  simp [resolveDest, hsync, bind, Except.bind]

theorem resolve_nil (hentries : file.sync.entries = []) (name : Option String) :
    ∃ e, resolveSyncName file name = .error (.err e) ∧ resolveSync file name = .error (.err e) ∧
      resolveDest file name = .error (.err e) := by
  cases name with
  | none =>
    refine ⟨.config ["no sync defined in config"], ?_, ?_, ?_⟩
    · simp [resolveSyncName, HashMap.len, hentries]
    · simp [resolveSync, HashMap.len, hentries]
    · simp [resolveDest, resolveSync, HashMap.len, hentries, bind, Except.bind]
  | some m => exact ⟨_, resolve_missing (by simp [HashMap.containsKey, hentries])⟩

end Plain

/-- What a plain configuration takes over from a file: its only sync, if there is one. -/
def TakenFrom (overflowChecks : Bool) (file : BbkarConfigFile) (config : Config)
    (src : SourceSpec) : Prop :=
  config.maxBackupChunkSize = file.global.maxBackupChunkSize ∧
    (file.sync.entries = [] ∧ config.sync = none ∨
      ∃ n sync dest policy, OnlySync overflowChecks file n sync src dest policy ∧
        config = configOf file n sync dest policy)

/-- The commands on a file that `from_toml` accepts are those on a plain configuration with
checked settings: no lookup of a source or destination and no unwrap of a parsed string
panics, and no cache is hit. What `ls` and `restore` select by a name is the sync that a run
with this name goes over, with the destination of every volume that it visits, and where a
run would go over nothing they refuse, with one and the same error. -/
theorem commands_of_file {overflowChecks : Bool} {parsed file : BbkarConfigFile}
    (hfile : fromToml overflowChecks parsed = .ok file) :
    ∃ (config : Config) (src : SourceSpec), TakenFrom overflowChecks file config src ∧
      (1 ≤ config.maxBackupChunkSize ∧ config.maxBackupChunkSize ≤ 2048 ∧
        ∀ s, config.sync = some s → s.send.maxIncrementalDepth ≠ some 0) ∧
      (∀ H Z outside name, runFile H Z outside overflowChecks file name =
        run H Z (outside src) config name) ∧
      (∀ Z outside measureSend name, dryrunFile Z outside overflowChecks file measureSend name =
        dryrun Z (outside src) config measureSend name) ∧
      ∀ name, resolveSyncName file name = (resolveSync file name).map Prod.fst ∧
        ((∃ s dest, config.sync = some s ∧ name.all (· == s.name) = true ∧
          resolveSyncName file name = .ok s.name ∧ resolveDest file name = .ok dest ∧
          backendOf dest.backendSpec = config.backend ∧ VisitsOnly overflowChecks file name
            fun ctx => ctx.toSyncContext = ⟨s.name, src, dest, s.send⟩) ∨
        ∃ e, (∀ s, config.sync = some s → name.all (· == s.name) = false) ∧
          resolveSyncName file name = .error (.err e) ∧
          resolveDest file name = .error (.err e)) := by
  obtain ⟨hmin, hmax, hnil | ⟨n, sync, src, dest, policy, h⟩⟩ := fromToml_onlySync hfile
  · let config : Config := ⟨.localDir, file.global.maxBackupChunkSize, none⟩
    have hnone : config.sync = none := rfl
    refine ⟨config, ⟨"", []⟩, ⟨rfl, Or.inl ⟨hnil, rfl⟩⟩, ⟨hmin, hmax, by simp [hnone]⟩, ?_, ?_, ?_⟩
    · intro H Z outside name
      rw [run_eq_forEachSync, runFile]
      exact congrArg _ (funext fun _ => forEachSyncIn_nil hnil hnone ..)
    · intro Z outside measureSend name
      exact forEachSyncIn_nil hnil hnone ..
    · intro name
      obtain ⟨e, hresolved, hsync, hdest⟩ := resolve_nil hnil name
      exact ⟨by rw [hresolved, hsync]; rfl, Or.inr ⟨e, by simp, hresolved, hdest⟩⟩
  · refine ⟨configOf file n sync dest policy, src,
      ⟨rfl, Or.inr ⟨n, sync, dest, policy, h, rfl⟩⟩, ⟨hmin, hmax, ?_⟩, ?_, ?_, ?_⟩
    · intro s hs
      obtain rfl := Option.some.inj hs
      exact h.depth
    · intro H Z outside name
      rw [run_eq_forEachSync, runFile, h.forEachSyncIn_eq]
      exact congrArg _ (funext fun _ => forEachSync_plain _ _ _ _
        fun src => runVolume H Z (outside src))
    · intro Z outside measureSend name
      rw [dryrunFile, dryrun, h.forEachSyncIn_eq]
      exact forEachSync_plain _ _ _ _ fun src => dryVolume Z (outside src) measureSend
    · intro name
      cases hname : name.all (· == n) with
      | true =>
        obtain ⟨hresolved, hsync, hdest⟩ := h.resolve hname
        exact ⟨by rw [hresolved, hsync]; rfl,
          Or.inl ⟨_, dest, rfl, hname, hresolved, hdest, rfl, h.visitsOnly name⟩⟩
      | false =>
        cases name with
        | none => simp at hname
        | some m =>
          obtain ⟨hresolved, hsync, hdest⟩ := resolve_missing (by
            rw [h.containsKey]
            simpa using hname)
          refine ⟨by rw [hresolved, hsync]; rfl, Or.inr ⟨_, ?_, hresolved, hdest⟩⟩
          intro s hs
          obtain rfl := Option.some.inj hs
          exact hname

/-- A sync called `main`, with an interval of one week. -/
theorem commands_of_file_weekly :
    let file := normalize (intervalFile "1w")
    let src : SourceSpec := ⟨"/mnt", ["*"]⟩
    let dest : DestSpec := ⟨.localDir "/srv"⟩
    let config : Config := ⟨.localDir, file.global.maxBackupChunkSize,
      some ⟨"main", ["*"], ⟨⟨7⟩, none⟩⟩⟩
    (∀ H Z outside name, runFile H Z outside false file name =
      run H Z (outside src) config name) ∧
    (∀ Z outside measureSend name, dryrunFile Z outside false file measureSend name =
      dryrun Z (outside src) config measureSend name) ∧
    resolveSyncName file none = .ok "main" ∧ resolveDest file none = .ok dest ∧
    VisitsOnly false file none (fun ctx => ctx.toSyncContext = ⟨"main", src, dest, ⟨⟨7⟩, none⟩⟩) ∧
    ∃ e, resolveSyncName file (some "other") = .error (.err e) ∧
      resolveDest file (some "other") = .error (.err e) := by
  intro file src dest config
  have haccept : collectErrors false (checks (intervalFile "1w")) = .ok [] := by decide +kernel
  have hfile : fromToml false (intervalFile "1w") = .ok file := by
    rw [fromToml, haccept]
    rfl
  obtain ⟨config', src', ⟨-, ⟨hnil, -⟩ | ⟨n, sync, dest', policy, h, rfl⟩⟩, -, hrun, hdry,
    hresolve⟩ := commands_of_file hfile
  · cases hnil
  · obtain ⟨rfl, rfl⟩ := Prod.mk.inj (List.cons.inj h.entries).1
    obtain rfl : src = src' := Option.some.inj h.source
    obtain rfl : dest = dest' := Option.some.inj h.dest
    let sync : SyncSpec := ⟨"src", "dst", ["*"], "1w", none, "all", none, "sunday"⟩
    have hsend : policy.send = ⟨⟨7⟩, none⟩ := by
      have hresolved : (ResolvedSyncPolicy.fromSyncSpec false sync).map (·.send) =
          .ok ⟨⟨7⟩, none⟩ := by decide +kernel
      rw [h.resolved] at hresolved
      exact Except.ok.inj hresolved
    have hconfig : configOf file "main" sync dest policy = config := by
      rw [configOf, hsend]
      rfl
    rw [hconfig] at hrun hdry hresolve
    refine ⟨hrun, hdry, ?_⟩
    rcases (hresolve none).2 with ⟨s, dest', hs, -, hname, hdest, -, hvisits⟩ | ⟨e, hno, -⟩
    · obtain rfl := Option.some.inj hs
      have hsame : dest' = dest := by
        have hfound : resolveDest file none = .ok dest := by decide +kernel
        exact Except.ok.inj (hdest.symm.trans hfound)
      rw [hsame] at hdest hvisits
      refine ⟨hname, hdest, hvisits, ?_⟩
      rcases (hresolve (some "other")).2 with ⟨s, -, hs, hother, -⟩ | ⟨e, -, hname, hdest⟩
      · obtain rfl := Option.some.inj hs
        cases hother
      · exact ⟨e, hname, hdest⟩
    · cases hno _ rfl

end Bbkar.ConfigFile
